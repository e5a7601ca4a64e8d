import EditGate.Proofs.Metadata.FieldLine

/-!
# Values by lines

The value of a field is what the first line that holds the field has after its opening, without the
blanks and the delimiter that may end the line. A lookup cuts the lines around that value, so
another value in its place changes nothing else (`exists_of_ofLines?`), and the lookup then finds
the new value if that one is *whole*: if it neither starts nor ends with anything that a lookup
takes off. A *firm* value does not even have a part of a delimiter there.
-/

namespace EditGate

open Text

namespace Cell

variable {l : Option (List Char)} {f g : Field} {s t v line : List Char}
  {lines xs ys : List (List Char)}

/-! ## Bare values -/

/-- What may follow a value on its line: blanks, with a delimiter among them or not. -/
inductive Tail : List Char → Prop where
  | blanks {b : List Char} : Blanks b → Tail b
  | delimiter {a b : List Char} : Blanks a → Blanks b → Tail (a ++ closing ++ b)

/-- A text that neither starts nor ends with a blank or with a part of a delimiter. -/
structure Firm (v : List Char) : Prop where
  head : ∃ c t, v = c :: t ∧ isBlank c = false ∧ c ≠ '/'
  last : ∃ t z, v = t ++ [z] ∧ isBlank z = false ∧ z ≠ '*' ∧ z ≠ '/'

theorem Firm.startsBare (h : Firm v) : StartsBare (v ++ s) := by
  obtain ⟨c, t, rfl, hc, -⟩ := h.head
  exact startsBare_cons_iff.mpr hc

theorem Firm.trimEnd (h : Firm v) : Text.trimEnd v = v := by
  obtain ⟨t, z, rfl, hz, -⟩ := h.last
  exact dropEndWhile_concat_of_neg hz

theorem dropEndText?_eq_some_iff {pat rest : List Char} :
    dropEndText? pat s = some rest ↔ s = rest ++ pat := by
  rw [dropEndText?, Option.map_eq_some_iff]
  constructor
  · rintro ⟨u, hu, rfl⟩
    have := eq_append_of_dropText? hu
    rw [← List.reverse_reverse s, this, List.reverse_append, List.reverse_reverse]
  · rintro rfl
    exact ⟨rest.reverse, by rw [List.reverse_append, dropText?_append], List.reverse_reverse _⟩

theorem Firm.dropEndText? (h : Firm v) : Text.dropEndText? closing v = none := by
  obtain ⟨t, z, rfl, -, -, hz⟩ := h.last
  cases hd : Text.dropEndText? closing (t ++ [z]) with
  | none => rfl
  | some rest =>
    have := congrArg List.getLast? (dropEndText?_eq_some_iff.mp hd)
    simp [closing] at this
    exact absurd this hz

/-- A text that a lookup takes nothing off: it has no blanks at its ends and no delimiter behind. -/
structure Whole (v : List Char) : Prop where
  ne_nil : v ≠ []
  trim : Text.trim v = v
  not_closing : ¬ closing <:+ v

theorem Whole.startsBare (h : Whole v) : StartsBare (v ++ s) := by
  have hstart := startsBare_trim v
  obtain ⟨c, t, rfl⟩ := List.exists_cons_of_ne_nil h.ne_nil
  rw [h.trim] at hstart
  exact startsBare_cons_iff.mpr (startsBare_cons_iff.mp hstart)

theorem Whole.trimEnd (h : Whole v) : Text.trimEnd v = v := by
  have hstart : StartsBare (v ++ []) := h.startsBare
  have htrim := h.trim
  rwa [Text.trim, trimStart_of_startsBare (by rwa [List.append_nil] at hstart)] at htrim

theorem Whole.dropEndText? (h : Whole v) : Text.dropEndText? closing v = none := by
  refine Option.eq_none_iff_forall_not_mem.mpr fun rest hrest => h.not_closing ⟨rest, ?_⟩
  exact (dropEndText?_eq_some_iff.mp hrest).symm

theorem Firm.whole (h : Firm v) : Whole v := by
  have hstart : StartsBare (v ++ []) := h.startsBare
  rw [List.append_nil] at hstart
  refine ⟨?_, by rw [trim, trimStart_of_startsBare hstart, h.trimEnd], ?_⟩
  · obtain ⟨c, t, rfl, -⟩ := h.head
    exact List.cons_ne_nil c t
  · rintro ⟨t, ht⟩
    exact absurd h.dropEndText? (by rw [dropEndText?_eq_some_iff.mpr ht.symm]; simp)

theorem exists_tail_bare (s : List Char) : ∃ back, Tail back ∧ s = bare s ++ back := by
  obtain ⟨b, hb, hs⟩ := exists_blanks_trimEnd s
  cases hd : dropEndText? closing (trimEnd s) with
  | none => exact ⟨b, .blanks hb, by simpa [bare, hd] using hs⟩
  | some u =>
    obtain ⟨a, ha, hu⟩ := exists_blanks_trimEnd u
    refine ⟨a ++ closing ++ b, .delimiter ha hb, ?_⟩
    have hbare : bare s = trimEnd u := by simp [bare, hd]
    calc s = u ++ closing ++ b := by rw [← dropEndText?_eq_some_iff.mp hd, ← hs]
      _ = trimEnd u ++ a ++ closing ++ b := by rw [← hu]
      _ = bare s ++ (a ++ closing ++ b) := by simp only [hbare, List.append_assoc]

/-- What a lookup takes off a whole value is what follows it. -/
theorem bare_append (hv : Whole v) (ht : Tail t) : bare (v ++ t) = v := by
  cases ht with
  | blanks hb => rw [bare, trimEnd_append_blanks hb, hv.trimEnd, hv.dropEndText?]
  | @delimiter a b ha hb =>
    have hslash := @dropEndWhile_concat_of_neg isBlank (v ++ a ++ ['*']) '/' (by decide)
    have hend : trimEnd (v ++ (a ++ closing ++ b)) = v ++ a ++ closing := by
      rw [← List.append_assoc, trimEnd_append_blanks hb, ← List.append_assoc, trimEnd]
      simpa [closing] using hslash
    rw [bare, hend, dropEndText?_eq_some_iff.mpr rfl]
    exact (trimEnd_append_blanks ha).trans hv.trimEnd

/-! ## The first line of a field -/

/-- The value of a field on some lines. -/
def valueIn (l : Option (List Char)) (f : Field) (lines : List (List Char)) :
    Option (List Char) :=
  (lines.findSome? (written? l f.keyText)).map bare

/-- Lines that do not hold a field. -/
def Lacks (l : Option (List Char)) (f : Field) (lines : List (List Char)) : Prop :=
  ∀ line ∈ lines, written? l f.keyText line = none

theorem lacks_append_iff : Lacks l f (xs ++ ys) ↔ Lacks l f xs ∧ Lacks l f ys :=
  List.forall_mem_append

theorem lacks_cons_iff :
    Lacks l f (line :: lines) ↔ written? l f.keyText line = none ∧ Lacks l f lines :=
  List.forall_mem_cons

theorem lacks_nil : Lacks l f [] := fun _ h => absurd h List.not_mem_nil

theorem valueIn_eq_none_iff : valueIn l f lines = none ↔ Lacks l f lines := by
  simp [valueIn, Lacks]

theorem valueIn_append_of_lacks (h : Lacks l f xs) :
    valueIn l f (xs ++ ys) = valueIn l f ys := by
  rw [valueIn, List.findSome?_append, List.findSome?_eq_none_iff.mpr h, Option.none_or, valueIn]

theorem valueIn_cons_of_some (h : written? l f.keyText line = some s) :
    valueIn l f (line :: lines) = some (bare s) := by
  rw [valueIn, List.findSome?_cons, h, Option.map_some]

theorem valueIn_append_left_of_lacks (h : Lacks l f ys) :
    valueIn l f (xs ++ ys) = valueIn l f xs := by
  rw [valueIn, List.findSome?_append, List.findSome?_eq_none_iff.mpr h, Option.or_none, valueIn]

theorem valueIn_append_congr {zs : List (List Char)} (h : valueIn l f ys = valueIn l f zs) :
    valueIn l f (xs ++ ys) = valueIn l f (xs ++ zs) := by
  simp only [valueIn, List.findSome?_append, Option.map_or] at h ⊢
  rw [h]

theorem value_ofLine? (l : Option (List Char)) (key line : List Char) :
    (ofLine? l key line).map Cell.value = (written? l key line).map bare := by
  simp [ofLine?, Function.comp_def]

/-- A lookup finds the first line of the field. -/
theorem value_ofLines? (l : Option (List Char)) (f : Field) (lines : List (List Char)) :
    (ofLines? l f.keyText lines).map Cell.value = valueIn l f lines := by
  induction lines with
  | nil => rfl
  | cons line lines ih =>
    have hvalue := value_ofLine? l f.keyText line
    rw [ofLines?]
    cases hw : written? l f.keyText line with
    | none =>
      have hnone : ofLine? l f.keyText line = none := by simpa [hw] using hvalue
      have hlacks : Lacks l f [line] := by simp [Lacks, hw]
      have := @valueIn_append_of_lacks l f [line] lines hlacks
      rw [hnone, ← List.singleton_append, this, ← ih]
      simp [Function.comp_def]
    | some s =>
      obtain ⟨c, hc, hcv⟩ := Option.map_eq_some_iff.mp (hvalue.trans (by rw [hw, Option.map_some]))
      rw [hc, valueIn_cons_of_some hw]
      simp [hcv]

theorem newline_joinLines (h : lines ≠ []) : '\n' :: joinLines lines = Block.unlines lines := by
  obtain ⟨line, lines, rfl⟩ := List.exists_cons_of_ne_nil h
  simp [joinLines]

/-- A field that is found has a first line, and another value takes the place of the one there. -/
theorem exists_of_ofLines? (hl : Distinct l) {c : Cell}
    (h : ofLines? l f.keyText lines = some c) :
    ∃ L₁ front back L₂, lines = L₁ ++ (front ++ c.value ++ back) :: L₂ ∧ Lacks l f L₁ ∧
      Opening l f front ∧ Tail back ∧ StartsBare (c.value ++ back) ∧
      ∀ v, c.front ++ v ++ c.back = joinLines (L₁ ++ (front ++ v ++ back) :: L₂) := by
  induction lines generalizing c with
  | nil => simp [ofLines?] at h
  | cons line lines ih =>
    rw [ofLines?] at h
    cases hd : ofLine? l f.keyText line with
    | none =>
      -- the line lacks the field, so it stands above the one that has it
      rw [hd] at h
      obtain ⟨d, hd', rfl⟩ := Option.map_eq_some_iff.mp h
      obtain ⟨L₁, front, back, L₂, hlines, hlacks, hopen, htail, hbare, hv⟩ := ih hd'
      have hw : written? l f.keyText line = none := by
        simpa [hd] using (value_ofLine? l f.keyText line).symm
      refine ⟨line :: L₁, front, back, L₂, by rw [hlines, List.cons_append],
        lacks_cons_iff.mpr ⟨hw, hlacks⟩, hopen, htail, hbare, fun v => ?_⟩
      rw [List.cons_append, joinLines, ← newline_joinLines (by simp), ← hv]
      simp only [List.append_assoc, List.cons_append]
    | some d =>
      -- the line has the field: its value ends where the tail begins
      rw [hd] at h
      obtain rfl := Option.some.inj h
      obtain ⟨s, hs, rfl⟩ := Option.map_eq_some_iff.mp hd
      obtain ⟨front, hopen, rfl, hbare⟩ := exists_opening hl hs
      obtain ⟨back, htail, hback⟩ := exists_tail_bare s
      have hdrop : s.drop (bare s).length = back :=
        List.append_cancel_left ((bare_append_drop s).trans hback)
      refine ⟨[], front, back, lines, ?_, lacks_nil, hopen, htail, ?_, fun v => ?_⟩
      · simp only [List.nil_append, List.append_assoc, ← hback]
      · simpa only [← hback] using hbare
      · simp [joinLines, hdrop, List.append_assoc]

/-! ## The end of a line -/

/-- A field line has letters. -/
theorem written?_of_blanks (hl : Distinct l) (hs : Blanks s) (f : Field) :
    written? l f.keyText s = none := by
  cases hw : written? l f.keyText s with
  | none => rfl
  | some u =>
    obtain ⟨P, b, t, -, -, rfl, -⟩ := (written?_eq_some_iff hl f).mp hw
    obtain ⟨c, k, hk, hc⟩ := f.exists_keyText_eq_cons
    have := hs c (by simp [hk])
    rw [isBlank_of_isLower hc] at this
    exact absurd this (by decide)

/-- Blanks at the end of a line are no part of what it holds. -/
theorem map_bare_written?_append_blanks (hl : Distinct l) (ht : Blanks t) (f : Field) :
    (written? l f.keyText (s ++ t)).map bare = (written? l f.keyText s).map bare := by
  have hbare : ∀ u : List Char, bare (trimStart (u ++ t)) = bare (trimStart u) := by
    intro u
    obtain ⟨a, ha, hu, hstart⟩ := exists_blanks_trimStart u
    rw [hu, List.append_assoc, trimStart_blanks_append ha, trimStart_blanks_append ha,
      trimStart_of_startsBare hstart]
    cases h : trimStart u with
    | nil => rw [List.nil_append, trimStart_of_blanks ht]
    | cons c r =>
      have : StartsBare (c :: r ++ t) :=
        startsBare_cons_iff.mpr (startsBare_cons_iff.mp (h ▸ hstart))
      rw [trimStart_of_startsBare this, bare, bare, trimEnd_append_blanks ht]
  cases hw : written? l f.keyText s with
  | some w =>
    obtain ⟨P, b, u, hP, hb, rfl, rfl⟩ := (written?_eq_some_iff hl f).mp hw
    have hlong : written? l f.keyText (P ++ (f.keyText ++ (b ++ ':' :: u)) ++ t) =
        some (trimStart (u ++ t)) :=
      (written?_eq_some_iff hl f).mpr ⟨P, b, u ++ t, hP, hb, by simp, rfl⟩
    rw [hlong, Option.map_some, Option.map_some, hbare]
  | none =>
    cases hw' : written? l f.keyText (s ++ t) with
    | none => rfl
    | some w =>
      -- the colon is not among the blanks, so the shorter line would hold the field too
      obtain ⟨P, b, u, hP, hb, hline, -⟩ := (written?_eq_some_iff hl f).mp hw'
      have hcolon : s ++ t = (P ++ f.keyText ++ b ++ [':']) ++ u := by simpa using hline
      rcases List.append_eq_append_iff.mp hcolon with ⟨r, hs, ht'⟩ | ⟨r, hs, hu⟩
      · rcases List.eq_nil_or_concat r with rfl | ⟨r, z, rfl⟩
        · have := (written?_eq_some_iff hl f).mpr ⟨P, b, [], hP, hb, by simpa using hs.symm, rfl⟩
          rw [this] at hw
          exact absurd hw (by simp)
        · have hz : z = ':' := by simpa using (congrArg List.getLast? hs).symm
          have := ht z (by rw [ht']; simp)
          rw [hz] at this
          exact absurd this (by decide)
      · have := (written?_eq_some_iff hl f).mpr ⟨P, b, r, hP, hb, by simpa using hs, rfl⟩
        rw [this] at hw
        exact absurd hw (by simp)

theorem written?_append_blanks (hl : Distinct l) (ht : Blanks t) (f : Field) :
    written? l f.keyText (s ++ t) = none ↔ written? l f.keyText s = none := by
  have := map_bare_written?_append_blanks (s := s) hl ht f
  rw [← Option.map_eq_none_iff, this, Option.map_eq_none_iff]

theorem valueIn_append_blanks (hl : Distinct l) (ht : Blanks t) (f : Field) :
    valueIn l f [s ++ t] = valueIn l f [s] := by
  have hone : ∀ u : List Char, valueIn l f [u] = (written? l f.keyText u).map bare := fun u => by
    cases hu : written? l f.keyText u <;> simp [valueIn, hu]
  rw [hone, hone, map_bare_written?_append_blanks hl ht]

end Cell

namespace Block

open Cell

theorem raw?_eq_valueIn (b : Block) (f : Field) :
    b.raw? f = valueIn b.lineLeader f (splitOn '\n' b.body) :=
  value_ofLines? ..

end Block

end EditGate
