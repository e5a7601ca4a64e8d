import EditGate.Proofs.Text.Cut

/-!
# Slices by byte offsets

Places in a text can be given by the number of bytes before them. A text can be cut there only
between two of its characters, so a slice is there just if its offsets are in order and no character
of the text reaches over either (`isSome_slice?_iff`); these are the places that a string of the
core library calls valid. Searches give such places: what stands before the first occurrence of a
pattern, or up to the last newline, has that many bytes (`find?_eq`, `lineStart_eq`).
-/

namespace EditGate.Text

variable {s t pat : List Char} {i j n : Nat}

/-! ## Cutting at an offset -/

/-- A text cut behind its first `n` bytes, if a character ends there. -/
def cutBytes? : Nat → List Char → Option (List Char × List Char)
  | 0, s => some ([], s)
  | _ + 1, [] => none
  | n + 1, c :: s =>
    if c.utf8Size ≤ n + 1 then
      (cutBytes? (n + 1 - c.utf8Size) s).map fun r => (c :: r.1, r.2)
    else none

/-- What a text has between two offsets, if it can be cut at both. -/
def slice? (s : List Char) (i j : Nat) : Option (List Char) :=
  (cutBytes? j s).bind fun upTo => (cutBytes? i upTo.1).map Prod.snd

theorem utf8Length_cons (c : Char) (s : List Char) :
    utf8Length (c :: s) = c.utf8Size + utf8Length s := rfl

theorem utf8Length_pos_iff : 0 < utf8Length s ↔ s ≠ [] := by
  cases s with
  | nil => simp [utf8Length]
  | cons c s =>
    have hpos := Nat.lt_add_right (utf8Length s) c.utf8Size_pos
    simpa [utf8Length_cons] using hpos

theorem cutBytes?_append (a b : List Char) : cutBytes? (utf8Length a) (a ++ b) = some (a, b) := by
  induction a with
  | nil => rw [utf8Length, cutBytes?, List.nil_append]
  | cons c a ih =>
    obtain ⟨k, hk⟩ : ∃ k, utf8Length (c :: a) = k + 1 := by
      have := c.utf8Size_pos
      exact Nat.exists_eq_succ_of_ne_zero (by rw [utf8Length_cons]; omega)
    have hrest : k + 1 - c.utf8Size = utf8Length a := by
      rw [← hk, utf8Length_cons, Nat.add_sub_cancel_left]
    rw [hk, List.cons_append, cutBytes?, if_pos, hrest, ih, Option.map_some]
    rw [← hk, utf8Length_cons]
    exact Nat.le_add_right _ _

theorem eq_append_of_cutBytes? {a b : List Char} (h : cutBytes? n s = some (a, b)) :
    s = a ++ b ∧ utf8Length a = n := by
  induction s generalizing n a with
  | nil =>
    cases n with
    | zero =>
      obtain ⟨rfl, rfl⟩ := Prod.mk.inj (Option.some.inj h)
      exact ⟨rfl, rfl⟩
    | succ n => exact absurd h (by simp [cutBytes?])
  | cons c s ih =>
    cases n with
    | zero =>
      obtain ⟨rfl, rfl⟩ := Prod.mk.inj (Option.some.inj h)
      exact ⟨rfl, rfl⟩
    | succ n =>
      rw [cutBytes?] at h
      split at h
      · rename_i hle
        obtain ⟨⟨a', b'⟩, hcut, he⟩ := Option.map_eq_some_iff.mp h
        obtain ⟨rfl, rfl⟩ := Prod.mk.inj he
        obtain ⟨rfl, hlen⟩ := ih hcut
        refine ⟨rfl, ?_⟩
        rw [utf8Length_cons, hlen]
        omega
      · exact absurd h (by simp)

/-- A slice is what stands between two first parts of the text with that many bytes. -/
theorem slice?_eq_some_iff : slice? s i j = some t ↔
    ∃ a b, s = a ++ t ++ b ∧ utf8Length a = i ∧ utf8Length (a ++ t) = j := by
  constructor
  · intro h
    obtain ⟨⟨upTo, b⟩, hj, hi⟩ := Option.bind_eq_some_iff.mp h
    obtain ⟨⟨a, t'⟩, hcut, rfl⟩ := Option.map_eq_some_iff.mp hi
    obtain ⟨rfl, hupTo⟩ := eq_append_of_cutBytes? hj
    obtain ⟨rfl, ha⟩ := eq_append_of_cutBytes? hcut
    exact ⟨a, b, rfl, ha, hupTo⟩
  · rintro ⟨a, b, rfl, rfl, rfl⟩
    rw [slice?, cutBytes?_append, Option.bind_some, cutBytes?_append, Option.map_some]

/-- A slice of a text whose parts are known. -/
theorem slice?_eq {a b : List Char} (hs : s = a ++ t ++ b) (hi : i = utf8Length a)
    (hj : j = utf8Length (a ++ t)) : slice? s i j = some t :=
  slice?_eq_some_iff.mpr ⟨a, b, hs, hi.symm, hj.symm⟩

theorem slice?_upTo (a b : List Char) : slice? (a ++ b) 0 (utf8Length a) = some a :=
  slice?_eq (a := []) (b := b) rfl rfl rfl

theorem slice?_rest (a b : List Char) :
    slice? (a ++ b) (utf8Length a) (utf8Length (a ++ b)) = some b :=
  slice?_eq (a := a) (b := []) (by rw [List.append_nil]) rfl rfl

/-! ## Places between characters -/

/-- Of two first parts of a text the one with fewer bytes starts the other. -/
theorem prefix_of_utf8Length_le {a a' : List Char} (ha : a <+: s) (ha' : a' <+: s)
    (h : utf8Length a ≤ utf8Length a') : a <+: a' := by
  rcases List.prefix_or_prefix_of_prefix ha ha' with hpre | ⟨u, rfl⟩
  · exact hpre
  · -- what the longer one has beyond the shorter one has no bytes
    cases u with
    | nil => simp only [List.append_nil, List.prefix_refl]
    | cons c u =>
      have := c.utf8Size_pos
      rw [utf8Length_append, utf8Length_cons] at h
      omega

theorem utf8ByteSize_ofList (s : List Char) : (String.ofList s).utf8ByteSize = utf8Length s := by
  induction s with
  | nil => rfl
  | cons c s ih =>
    rw [← List.singleton_append, String.ofList_append, String.utf8ByteSize_append, ih,
      ← String.singleton_eq_ofList, String.utf8ByteSize_singleton, List.singleton_append,
      utf8Length_cons]

/-- The core library tells the places between characters by the bytes of a string. -/
theorem isValid_iff : String.Pos.Raw.IsValid (String.ofList s) ⟨n⟩ ↔
    ∃ a, a <+: s ∧ utf8Length a = n := by
  rw [String.Pos.Raw.isValid_iff_exists_append]
  constructor
  · rintro ⟨x, y, hxy, hn⟩
    refine ⟨x.toList, ⟨y.toList, ?_⟩, ?_⟩
    · rw [← String.toList_append, ← hxy, String.toList_ofList]
    · rw [← utf8ByteSize_ofList, String.ofList_toList]
      exact (congrArg String.Pos.Raw.byteIdx hn).symm
  · rintro ⟨a, ⟨b, rfl⟩, rfl⟩
    refine ⟨String.ofList a, String.ofList b, String.ofList_append, ?_⟩
    rw [← utf8ByteSize_ofList]
    rfl

/-- A slice is there just if its offsets are in order and lie between characters. -/
theorem isSome_slice?_iff : (slice? s i j).isSome ↔
    i ≤ j ∧ String.Pos.Raw.IsValid (String.ofList s) ⟨i⟩ ∧
      String.Pos.Raw.IsValid (String.ofList s) ⟨j⟩ := by
  rw [isValid_iff, isValid_iff, Option.isSome_iff_exists]
  constructor
  · rintro ⟨t, ht⟩
    obtain ⟨a, b, rfl, rfl, rfl⟩ := slice?_eq_some_iff.mp ht
    refine ⟨?_, ⟨a, by simp, rfl⟩, ⟨a ++ t, by simp, rfl⟩⟩
    rw [utf8Length_append]
    exact Nat.le_add_right _ _
  · rintro ⟨hle, ⟨a, ha, rfl⟩, ⟨a', ha', rfl⟩⟩
    obtain ⟨t, rfl⟩ := prefix_of_utf8Length_le ha ha' hle
    obtain ⟨b, rfl⟩ := ha'
    exact ⟨t, slice?_eq rfl rfl rfl⟩

/-- No slice starts within a character. -/
example : slice? ['é', '*'] 1 3 = none ∧ slice? ['é', '*'] 2 3 = some ['*'] := by decide

/-! ## Searches -/

/-- The offset of the first occurrence of a pattern. -/
def find? (pat : List Char) : List Char → Option Nat
  | [] => if pat.isEmpty then some 0 else none
  | c :: s => if pat.isPrefixOf (c :: s) then some 0 else (find? pat s).map (c.utf8Size + ·)

/-- The offset of the last newline. -/
def lastNewline? : List Char → Option Nat
  | [] => none
  | c :: s =>
    match lastNewline? s with
    | some n => some (c.utf8Size + n)
    | none => if c = '\n' then some 0 else none

/-- The offset of the start of the last line. -/
def lineStart (s : List Char) : Nat := ((lastNewline? s).map (· + 1)).getD 0

/-- A pattern is found where the text is cut at it. -/
theorem find?_eq (pat s : List Char) :
    find? pat s = (cutAt? pat s).map fun r => utf8Length r.1 := by
  induction s with
  | nil => cases pat <;> rfl
  | cons c s ih =>
    rw [find?, cutAt?]
    cases hd : dropText? pat (c :: s) with
    | some rest =>
      have hpre : pat <+: c :: s := ⟨rest, (eq_append_of_dropText? hd).symm⟩
      rw [if_pos (List.isPrefixOf_iff_prefix.mpr hpre)]
      rfl
    | none =>
      have hpre := dropText?_eq_none_iff.mp hd
      rw [if_neg (mt List.isPrefixOf_iff_prefix.mp hpre), ih, Option.map_map, Option.map_map]
      rfl

theorem lastNewline?_of_notMem (h : '\n' ∉ s) : lastNewline? s = none := by
  induction s with
  | nil => rfl
  | cons c s ih =>
    rw [List.mem_cons, not_or] at h
    rw [lastNewline?, ih h.2]
    exact if_neg (Ne.symm h.1)

theorem lastNewline?_append {last : List Char} (front : List Char) (h : '\n' ∉ last) :
    lastNewline? (front ++ '\n' :: last) = some (utf8Length front) := by
  induction front with
  | nil => rw [List.nil_append, lastNewline?, lastNewline?_of_notMem h]; rfl
  | cons c front ih => rw [List.cons_append, lastNewline?, ih]; rfl

theorem utf8Length_newline (s : List Char) : utf8Length (s ++ ['\n']) = utf8Length s + 1 := by
  rw [utf8Length_append]
  rfl

theorem lineStart_eq (s : List Char) : lineStart s = utf8Length (cutLastLine s).1 := by
  rcases cutLastLine_cases s with ⟨hn, hcut⟩ | ⟨front, last, hn, rfl, hcut⟩
  · rw [hcut, lineStart, lastNewline?_of_notMem hn]
    rfl
  · rw [hcut, lineStart, lastNewline?_append front hn, utf8Length_newline]
    rfl

/-- A pattern stands at an offset, and not before it from a given place on. -/
structure FirstFrom (pat s : List Char) (start n : Nat) : Prop where
  le : start ≤ n
  here : slice? s n (n + utf8Length pat) = some pat
  notBefore : ∀ k, start ≤ k → k < n → slice? s k (k + utf8Length pat) ≠ some pat

/-- Behind any text, a cut at a pattern is at its first occurrence. -/
theorem firstFrom_of_cutAt? {a b : List Char} (front : List Char) (hp : pat ≠ [])
    (h : cutAt? pat s = some (a, b)) :
    FirstFrom pat (front ++ s) (utf8Length front) (utf8Length (front ++ a)) where
  le := by
    rw [utf8Length_append]
    exact Nat.le_add_right _ _
  here := by
    refine slice?_eq (a := front ++ a) (b := b) ?_ rfl (utf8Length_append _ _).symm
    rw [eq_append_of_cutAt? h]
    simp only [List.append_assoc]
  notBefore k hle hlt hk := by
    obtain ⟨x, y, hxy, rfl, -⟩ := slice?_eq_some_iff.mp hk
    obtain ⟨u, rfl⟩ : front <+: x := by
      refine prefix_of_utf8Length_le (List.prefix_append _ s) ?_ hle
      rw [hxy, List.append_assoc]
      exact List.prefix_append _ _
    rw [List.append_assoc, List.append_assoc] at hxy
    have hs := List.append_cancel_left hxy
    rw [← List.append_assoc] at hs
    obtain ⟨w, rfl⟩ := prefix_of_cutAt? hp (hs ▸ h)
    simp only [utf8Length_append] at hlt
    omega

end EditGate.Text
