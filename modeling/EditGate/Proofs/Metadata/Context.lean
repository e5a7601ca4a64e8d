import EditGate.Proofs.Metadata.Written

/-!
# The context reads back

The context is written on one line between double quotes, with single quotes in the place of double
ones. What is read of it has no quotes at its ends, neither those that were put around it nor any of
its own, so the text comes back just if it neither starts nor ends with a quote
(`context_reads_back_iff`).
-/

namespace EditGate

open Text Cell

variable {p : Char → Bool} {s : List Char}

namespace Metadata

/-! ## What is taken off -/

/-- The number of characters that are not blank. -/
def bareCount (s : List Char) : Nat := s.countP fun c => !isBlank c

theorem bareCount_append (s t : List Char) : bareCount (s ++ t) = bareCount s + bareCount t :=
  List.countP_append

theorem bareCount_of_blanks (h : Blanks s) : bareCount s = 0 :=
  List.countP_eq_zero.mpr fun c hc => by simp [h c hc]

theorem bareCount_singleton {c : Char} (h : isBlank c = false) : bareCount [c] = 1 := by
  simp [bareCount, h]

/-- Trimming takes off nothing but blanks. -/
theorem bareCount_trim (s : List Char) : bareCount (trim s) = bareCount s := by
  obtain ⟨a, b, ha, hb, hs⟩ := exists_blanks_trim s
  have hcount := congrArg bareCount hs
  rw [bareCount_append, bareCount_append, bareCount_of_blanks ha, bareCount_of_blanks hb] at hcount
  omega

theorem trimMatches_sublist (p : Char → Bool) (s : List Char) : (trimMatches p s).Sublist s := by
  have hend : ∀ t : List Char, (dropEndWhile p t).Sublist t := fun t => by
    simpa [dropEndWhile] using (List.dropWhile_sublist p (l := t.reverse)).reverse
  exact (hend _).trans (List.dropWhile_sublist p)

theorem bareCount_trimMatches_le (p : Char → Bool) (s : List Char) :
    bareCount (trimMatches p s) ≤ bareCount s :=
  (trimMatches_sublist p s).countP_le

/-- A text loses more than blanks if it starts or ends with a character that is taken off. -/
theorem trim_trimMatches_iff (hp : ∀ c, p c = true → isBlank c = false) :
    trim (trimMatches p s) = trim s ↔
      (∀ c ∈ s.head?, p c = false) ∧ ∀ c ∈ s.getLast?, p c = false := by
  refine ⟨fun h => ?_, fun h => by rw [trimMatches_of_ends h.1 h.2]⟩
  -- trimming leaves the bare characters, so that any that was taken off is missed in their number
  have hcount : bareCount (trimMatches p s) = bareCount s := by
    rw [← bareCount_trim, h, bareCount_trim]
  refine ⟨fun c hc => Bool.eq_false_iff.mpr fun hpc => ?_,
    fun c hc => Bool.eq_false_iff.mpr fun hpc => ?_⟩
  · obtain ⟨t, rfl⟩ : ∃ t, s = c :: t := List.head?_eq_some_iff.mp hc
    have hrest : trimMatches p (c :: t) = trimMatches p t := by
      rw [trimMatches, List.dropWhile_cons_of_pos hpc, trimMatches]
    have hle := bareCount_trimMatches_le p t
    rw [hrest, ← List.singleton_append, bareCount_append, bareCount_singleton (hp c hpc)] at hcount
    omega
  · obtain ⟨t, rfl⟩ : ∃ t, s = t ++ [c] := List.getLast?_eq_some_iff.mp hc
    have hrest : trimMatches p (t ++ [c]) = trimMatches p t :=
      trimMatches_append_of_all fun d hd => List.mem_singleton.mp hd ▸ hpc
    have hle := bareCount_trimMatches_le p t
    rw [hrest, bareCount_append, bareCount_singleton (hp c hpc)] at hcount
    omega

theorem isBlank_of_isQuote (c : Char) (h : isQuote c = true) : isBlank c = false := by
  simp only [isQuote, Bool.or_eq_true, beq_iff_eq] at h
  rcases h with (rfl | rfl) | rfl <;> decide

/-- Quotes are written as quotes, and other characters as other ones. -/
theorem isQuote_flatChar (c : Char) : isQuote (flatChar c) = isQuote c := by
  rcases flatChar_cases c with ⟨rfl | rfl, -⟩ | ⟨rfl, -⟩ | ⟨-, -, hc⟩
  · rfl
  · rfl
  · rfl
  · rw [hc]

/-! ## Updated texts -/

/-- What is read of a context that an update writes is the text on one line and without quotes at
its ends. So it is the whole text, but for blanks at its ends, just if that neither starts nor ends
with a quote. Names of methods have to stay in place only if they are written into a new block,
above the context. -/
theorem context_reads_back_iff (text : List Char) (p : Patch) (time v : String)
    (hd : Documented text) (ht : Writable time.toList) (hv : p.aiContext = some v)
    (hkeeps : p.Keeps .aiContext ∧ p.Keeps .dependencies ∧ p.Keeps .tests)
    (hnew : ¬ marker <:+: text → p.Keeps .methodPermissions) :
    ∃ m, extract (update text p time) = some m ∧
      m.aiContext = some (String.ofList (trim (trimMatches isQuote (flat v.toList)))) ∧
      (m.aiContext = some (String.ofList (trim (flat v.toList))) ↔
        (∀ c ∈ v.toList.head?, isQuote c = false) ∧
          ∀ c ∈ v.toList.getLast?, isQuote c = false) := by
  have hmem : (Field.aiContext, writeText v) ∈ p.entries := by
    simp [Patch.entries, Patch.entry, hv]
  have hne := isEmpty_eq_false hmem
  obtain ⟨es, hsplit⟩ := exists_changes_eq hne time
  obtain ⟨hcontext, hdependencies, htests⟩ := hkeeps
  obtain ⟨b, hb, hraw⟩ := exists_update hd ht hne hsplit
    (fun hno => Patch.keeps_all (hnew hno) hcontext hdependencies htests)
    (fun e he => by
      rcases List.mem_append.mp he with he | he
      · obtain ⟨_, -, rfl⟩ := mem_entry he
        exact hcontext
      · exact keeps_of_mem_lastChanges hdependencies htests e he)
  have hvalue : b.raw? .aiContext = some ([] ++ quote (flat v.toList)) := by
    rw [hraw (.aiContext, writeText v) (by simp [Patch.entry, hv]), toList_writeText,
      List.nil_append]
  have hread : (ofBlock b none).1.aiContext =
      some (String.ofList (trim (trimMatches isQuote (flat v.toList)))) := by
    simp only [ofBlock, scalar?, hvalue, Option.map_some]
    rw [unquote_quoted blanks_nil]
  refine ⟨_, extract_of_locate? hb, hread, ?_⟩
  rw [hread, Option.some.injEq, String.ofList_inj, trim_trimMatches_iff isBlank_of_isQuote, flat,
    List.head?_map, List.getLast?_map]
  simp [isQuote_flatChar]

/-- Line breaks, blanks at the ends and quotes within the text. -/
theorem context_reads_back_sample :
    let v := " it \"is\"\n'so' \n"
    let p : Patch := { aiContext := some v, methodPermissions := some [("*/", .allow)] }
    Documented sampleText ∧ Writable "12Z".toList ∧
      ∃ m, extract (update sampleText p "12Z") = some m ∧ m.aiContext = some "it 'is' 'so'" := by
  intro v p
  have ht : Writable "12Z".toList :=
    (IsStamp.plain ⟨['1', '2'], rfl, List.all_eq_true.mp (by decide)⟩).writable
  have hv : ∀ s ∈ p.aiContext, ¬ closing <:+: s.toList := fun s hs =>
    Option.some.inj hs ▸ cutAt?_eq_none_iff.mp (by decide)
  obtain ⟨m, hm, -, hiff⟩ := context_reads_back_iff sampleText p "12Z" v documented_sampleText ht rfl
    ⟨hv, fun _ hss => absurd hss (by simp [p]), fun _ hss => absurd hss (by simp [p])⟩
    (fun hno => absurd (locate?_eq_none_iff.mpr hno) (by decide))
  have hends : (∀ c ∈ v.toList.head?, isQuote c = false) ∧
      ∀ c ∈ v.toList.getLast?, isQuote c = false := by
    have hhead : v.toList.head? = some ' ' := by decide
    have hlast : v.toList.getLast? = some '\n' := by decide
    rw [hhead, hlast]
    exact ⟨fun _ hc => Option.some.inj hc ▸ rfl, fun _ hc => Option.some.inj hc ▸ rfl⟩
  have htrim : trim (flat v.toList) = "it 'is' 'so'".toList := by decide
  refine ⟨documented_sampleText, ht, m, hm, ?_⟩
  rw [hiff.mpr hends, htrim, String.ofList_toList]

/-- A text that ends with a word in quotes loses the last quote. -/
theorem context_not_read_back :
    let v := "say \"hi\""
    let p : Patch := { aiContext := some v }
    Documented [] ∧ Writable "1Z".toList ∧ ¬ closing <:+: v.toList ∧
      ∃ m, extract (update [] p "1Z") = some m ∧ m.aiContext = some "say 'hi" ∧
        m.aiContext ≠ some (String.ofList (trim (flat v.toList))) := by
  intro v p
  have hread : (extract (update [] p "1Z")).map Metadata.aiContext = some (some "say 'hi") := by
    decide
  obtain ⟨m, hm, hcontext⟩ := Option.map_eq_some_iff.mp hread
  have ht : Writable "1Z".toList :=
    (IsStamp.plain ⟨['1'], rfl, List.all_eq_true.mp (by decide)⟩).writable
  refine ⟨documented_nil, ht, cutAt?_eq_none_iff.mp (by decide), m, hm, hcontext, ?_⟩
  rw [hcontext]
  decide

end Metadata

end EditGate
