import EditGate.Proofs.Disk.Step
import EditGate.Proofs.Text.Cut
import EditGate.Rpc.Session

/-!
# Lines of a text and lines of its bytes

A session cuts its input at line feeds before it knows that the input is a text. In the bytes of a
text a line feed stands only for a newline (`lineFeed_mem_utf8EncodeChar_iff`), so the lines of the
bytes are the bytes of the lines (`exists_lines_utf8`), but for what follows the last newline if
that is empty.
-/

namespace EditGate

namespace Text

/-! ## Bytes of characters -/

/-- The bytes of a text. -/
def utf8 (s : List Char) : List UInt8 := s.flatMap String.utf8EncodeChar

@[simp] theorem utf8_nil : utf8 [] = [] := rfl

@[simp] theorem utf8_cons (c : Char) (s : List Char) :
    utf8 (c :: s) = String.utf8EncodeChar c ++ utf8 s := List.flatMap_cons

theorem data_toUTF8 (s : String) : s.toUTF8.data.toList = utf8 s.toList := by
  have h : s.toUTF8 = (utf8 s.toList).toByteArray := String.utf8Encode_toList.symm
  rw [h, List.toList_data_toByteArray]

theorem fromUTF8?_utf8 (s : List Char) :
    String.fromUTF8? ⟨(utf8 s).toArray⟩ = some (String.ofList s) := by
  have h : (⟨(utf8 s).toArray⟩ : ByteArray) = (String.ofList s).toUTF8 := by
    have hdata := data_toUTF8 (String.ofList s)
    rw [String.toList_ofList] at hdata
    rw [← hdata]
  rw [h, Disk.fromUTF8?_toUTF8]

theorem toNat_ofNat_of_lt {n : Nat} (h : n < 256) : (UInt8.ofNat n).toNat = n :=
  Nat.mod_eq_of_lt h

/-- A byte of a character either is the number of the character or is at least 128. -/
theorem mem_utf8EncodeChar {c : Char} {b : UInt8} (h : b ∈ String.utf8EncodeChar c) :
    (b = .ofNat c.val.toNat ∧ c.val.toNat < 128) ∨ ∃ n, b = .ofNat n ∧ 128 ≤ n ∧ n < 256 := by
  simp only [String.utf8EncodeChar] at h
  split at h
  · rename_i hle
    exact .inl ⟨List.mem_singleton.mp h, Nat.lt_succ_of_le hle⟩
  · right
    split at h
    · simp only [List.mem_cons, List.not_mem_nil, or_false] at h
      rcases h with h | h
      all_goals exact ⟨_, h, by omega, by omega⟩
    · split at h
      · simp only [List.mem_cons, List.not_mem_nil, or_false] at h
        rcases h with h | h | h
        all_goals exact ⟨_, h, by omega, by omega⟩
      · simp only [List.mem_cons, List.not_mem_nil, or_false] at h
        rcases h with h | h | h | h
        all_goals exact ⟨_, h, by omega, by omega⟩

theorem lineFeed_mem_utf8EncodeChar_iff {c : Char} :
    0x0a ∈ String.utf8EncodeChar c ↔ c = '\n' := by
  refine ⟨fun h => ?_, fun h => h ▸ by decide⟩
  have hfeed : (0x0a : UInt8).toNat = '\n'.val.toNat := rfl
  rcases mem_utf8EncodeChar h with ⟨hb, hlt⟩ | ⟨n, hb, hle, hlt⟩
  · rw [hb, toNat_ofNat_of_lt (by omega)] at hfeed
    exact Char.ext (UInt32.toNat_inj.mp hfeed)
  · rw [hb, toNat_ofNat_of_lt hlt] at hfeed
    have hten : '\n'.val.toNat = 10 := rfl
    omega

theorem utf8EncodeChar_newline : String.utf8EncodeChar '\n' = [0x0a] := rfl

end Text

/-! ## Lines -/

namespace Rpc

open Text

theorem lines_lineFeed (bs : List UInt8) : lines (0x0a :: bs) = [] :: lines bs := by
  rw [lines, if_pos rfl]

/-- Bytes without a line feed extend the first line. -/
theorem lines_append {l bs : List UInt8} (hl : 0x0a ∉ l) (hne : l ≠ []) :
    lines (l ++ bs) = (l ++ (lines bs).headD []) :: (lines bs).tail := by
  induction l with
  | nil => exact absurd rfl hne
  | cons b l ih =>
    rw [List.mem_cons, not_or] at hl
    rw [List.cons_append, lines, if_neg (Ne.symm hl.1)]
    cases l with
    | nil =>
      rw [List.nil_append]
      cases lines bs with
      | nil => rfl
      | cons first rest => rfl
    | cons b' l =>
      rw [ih hl.2 (List.cons_ne_nil b' l)]
      rfl

/-- The lines of the bytes of a text are the bytes of its lines. What follows the last newline is a
line if there is anything. -/
theorem exists_lines_utf8 (s : List Char) : ∃ ls, lines (utf8 s) = ls.map utf8 ∧
    (splitOn '\n' s = ls ∨ splitOn '\n' s = ls ++ [[]]) := by
  induction s with
  | nil => exact ⟨[], rfl, .inr rfl⟩
  | cons c s ih =>
    obtain ⟨ls, hls, hsplit⟩ := ih
    by_cases hc : c = '\n'
    · -- a newline ends an empty line
      subst hc
      have hlines : lines (utf8 ('\n' :: s)) = ([] :: ls).map utf8 := by
        rw [utf8_cons, utf8EncodeChar_newline, List.singleton_append, lines_lineFeed, hls,
          List.map_cons, utf8_nil]
      refine ⟨[] :: ls, hlines, ?_⟩
      rw [splitOn, if_pos rfl]
      exact hsplit.imp (congrArg _) (congrArg _)
    · -- any other character is put before the first line, or makes one if there is none yet
      have hbytes : 0x0a ∉ String.utf8EncodeChar c := mt lineFeed_mem_utf8EncodeChar_iff.mp hc
      have hlines : lines (utf8 (c :: s)) =
          ((c :: ls.headD []) :: ls.tail).map utf8 := by
        rw [utf8_cons, lines_append hbytes String.utf8EncodeChar_ne_nil, hls]
        cases ls with
        | nil => simp
        | cons first rest => simp
      refine ⟨_, hlines, ?_⟩
      rw [splitOn, if_neg hc]
      cases ls with
      | nil =>
        rcases hsplit with h | h
        · exact absurd h (splitOn_ne_nil _ _)
        · rw [h]
          exact .inl rfl
      | cons first rest =>
        rcases hsplit with h | h
        · rw [h]
          exact .inl rfl
        · rw [h]
          exact .inr rfl

end Rpc

end EditGate
