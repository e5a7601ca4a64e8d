import EditGate.Metadata.Cell
import EditGate.Proofs.Text.Cut
import EditGate.Proofs.Text.Trim

/-!
# What a field line looks like

`Cell.written?` takes a line apart from its start; this theory says which lines it accepts. A line
holds the field of a key if it consists of a *margin*, the key, a colon with blanks before it, and
anything after that (`written?_eq_some_iff`). The margin of a line does not depend on what follows
it, as long as that starts with a letter, so a key may be exchanged for another one or a value for
another value without the line being read differently up to there.

No key is the start of another one together with a colon, so a line holds the field of one key at
most (`written?_of_ne`).
-/

namespace EditGate

open Text

/-! ## Keys -/

namespace Field

theorem keyText_injective {f g : Field} (h : f.keyText = g.keyText) : f = g := by
  have key : ∀ f ∈ all, ∀ g ∈ all, f.keyText = g.keyText → f = g := by decide
  exact key f (mem_all f) g (mem_all g) h

/-- A key starts with a letter. -/
theorem exists_keyText_eq_cons (f : Field) : ∃ c s, f.keyText = c :: s ∧ c.isLower = true := by
  have key : ∀ f ∈ all, (f.keyText.head?.any Char.isLower) = true := by decide
  have h := key f (mem_all f)
  cases hk : f.keyText with
  | nil => simp [hk] at h
  | cons c s => exact ⟨c, s, rfl, by simpa [hk] using h⟩

theorem isLower_or_dash_of_mem_keyText {f : Field} {c : Char} (h : c ∈ f.keyText) :
    c.isLower = true ∨ c = '-' := by
  have key : ∀ f ∈ all, (f.keyText.all fun c => c.isLower || c == '-') = true := by
    decide +kernel
  simpa using List.all_eq_true.mp (key f (mem_all f)) c h

theorem slash_notMem_keyText (f : Field) : '/' ∉ f.keyText := fun h => by
  rcases isLower_or_dash_of_mem_keyText h with h | h <;> exact absurd h (by decide)

theorem sign_notMem_keyText (f : Field) : '@' ∉ f.keyText := fun h => by
  rcases isLower_or_dash_of_mem_keyText h with h | h <;> exact absurd h (by decide)

/-- A key has no blanks and no colons. -/
theorem of_mem_keyText {f : Field} {c : Char} (h : c ∈ f.keyText) : isBlank c = false ∧ c ≠ ':' := by
  rcases isLower_or_dash_of_mem_keyText h with hc | rfl
  · refine ⟨isBlank_of_isLower hc, ?_⟩
    rintro rfl
    exact absurd hc (by decide)
  · decide

end Field

namespace Cell

variable {l : Option (List Char)} {key line x : List Char}

/-! ## Margins -/

/-- The text that a line of a block of either kind may start with. -/
def IsLeader : Option (List Char) → List Char → Prop
  | some leader, L => L = leader
  | none, L => L = [] ∨ L = ['*'] ∨ L = ['/', '/'] ∨ L = ['#'] ∨ L = ['-', '-']

/-- A dash with blanks after it, or nothing. -/
def IsDash (d : List Char) : Prop := d = [] ∨ ∃ b, Blanks b ∧ d = '-' :: b

def IsSign (s : List Char) : Prop := s = [] ∨ s = ['@']

/-- What may stand before the key on a field line. -/
inductive Margin (l : Option (List Char)) : List Char → Prop where
  | mk {a L b d s : List Char} : Blanks a → IsLeader l L → Blanks b → IsDash d → IsSign s →
      Margin l (a ++ L ++ b ++ d ++ s)

/-- A leader of line comments that a margin can be told by. -/
def Distinct (l : Option (List Char)) : Prop := ∀ leader ∈ l, leader ≠ [] ∧ StartsBare leader

theorem distinct_none : Distinct none := fun _ h => by simp at h

def StartsWithLetter (x : List Char) : Prop := ∃ c t, x = c :: t ∧ c.isLower = true

theorem StartsWithLetter.startsBare (h : StartsWithLetter x) : StartsBare x := by
  obtain ⟨c, t, rfl, hc⟩ := h
  exact startsBare_cons_iff.mpr (isBlank_of_isLower hc)

theorem startsWithLetter_keyText (f : Field) (t : List Char) :
    StartsWithLetter (f.keyText ++ t) := by
  obtain ⟨c, s, hk, hc⟩ := f.exists_keyText_eq_cons
  exact ⟨c, s ++ t, by rw [hk, List.cons_append], hc⟩

/-! ## Reading a margin -/

/-- What follows the margin of a line. -/
def afterMargin? (l : Option (List Char)) (line : List Char) : Option (List Char) :=
  (dropLeader? l (trimStart line)).map fun s => dropSign (dropDash (trimStart s))

theorem written?_eq_bind (l : Option (List Char)) (key line : List Char) :
    written? l key line = (afterMargin? l line).bind fun s =>
      (dropText? key s).bind fun s => dropColon? (trimStart s) := by
  simp only [written?, afterMargin?, Option.bind_eq_bind]
  cases dropLeader? l (trimStart line) <;> rfl

/-- What the dash and the sign of a margin are taken from. -/
theorem dropSign_dropDash {d s : List Char} (hd : IsDash d) (hs : IsSign s)
    (hx : StartsWithLetter x) :
    dropSign (dropDash (d ++ s ++ x)) = x ∧ StartsBare (d ++ s ++ x) ∧
      dropStarLeader (d ++ s ++ x) = d ++ s ++ x := by
  have hbare := hx.startsBare
  obtain ⟨c, t, rfl, hc⟩ := hx
  -- a letter is none of the signs that a margin is made of
  have hne : c ≠ '@' ∧ c ≠ '-' ∧ c ≠ '*' ∧ c ≠ '/' ∧ c ≠ '#' := by
    refine ⟨?_, ?_, ?_, ?_, ?_⟩ <;> (rintro rfl; exact absurd hc (by decide))
  have hsign : dropSign (s ++ c :: t) = c :: t ∧ StartsBare (s ++ c :: t) := by
    rcases hs with rfl | rfl
    · refine ⟨?_, hbare⟩
      simp [dropSign, hne.1]
    · exact ⟨rfl, startsBare_cons_iff.mpr (by decide)⟩
  rcases hd with rfl | ⟨b, hb, rfl⟩
  · refine ⟨?_, by simpa using hsign.2, ?_⟩
    · rcases hs with rfl | rfl
      · simp [dropDash, dropSign, hne]
      · simp [dropDash, dropSign]
    · rcases hs with rfl | rfl
      · simp [dropStarLeader, hne]
      · simp [dropStarLeader]
  · refine ⟨?_, startsBare_cons_iff.mpr (by decide), ?_⟩
    · rw [List.cons_append, List.cons_append, dropDash, List.append_assoc,
        trimStart_eq hb hsign.2, hsign.1]
    · -- two dashes are a leader, but after a dash comes a blank, the sign or the letter
      have hdash : ∀ u, b ++ s ++ c :: t ≠ '-' :: u := by
        intro u hu
        cases b with
        | nil =>
          rcases hs with rfl | rfl
          · exact hne.2.1 (by simpa using congrArg List.head? hu)
          · simp at hu
        | cons e b =>
          have he := hb e (List.mem_cons_self ..)
          have : e = '-' := by simpa using congrArg List.head? hu
          exact absurd he (by rw [this]; decide)
      rw [List.cons_append, List.cons_append]
      unfold dropStarLeader
      split
      · rename_i h; simp at h
      · rename_i h; simp at h
      · rename_i h; simp at h
      · rename_i u h
        exact absurd (List.cons.inj h).2 (hdash u)
      · rfl

/-- A margin is read off a line whatever follows it. -/
theorem afterMargin?_append {P : List Char} (hl : Distinct l) (hP : Margin l P)
    (hx : StartsWithLetter x) : afterMargin? l (P ++ x) = some x := by
  obtain ⟨ha, hL, hb, hd, hs⟩ := hP
  rename_i a L b d s
  obtain ⟨hrest, hbare, hstar⟩ := dropSign_dropDash hd hs hx
  have hafter : dropSign (dropDash (trimStart (b ++ (d ++ s ++ x)))) = x := by
    rw [trimStart_eq hb hbare, hrest]
  have hline : a ++ L ++ b ++ d ++ s ++ x = a ++ (L ++ (b ++ (d ++ s ++ x))) := by
    simp only [List.append_assoc]
  rw [hline, afterMargin?, trimStart_blanks_append ha]
  cases l with
  | some leader =>
    obtain rfl : L = leader := hL
    obtain ⟨hne, hstart⟩ := hl L rfl
    obtain ⟨c, L, rfl⟩ := List.exists_cons_of_ne_nil hne
    have hLbare : StartsBare (c :: L ++ (b ++ (d ++ s ++ x))) :=
      startsBare_cons_iff.mpr (startsBare_cons_iff.mp hstart)
    rw [trimStart_of_startsBare hLbare, dropLeader?, dropText?_append, Option.map_some, hafter]
  | none =>
    rcases hL with rfl | rfl | rfl | rfl | rfl
    · rw [List.nil_append, trimStart_eq hb hbare, dropLeader?, Option.map_some, hstar,
        trimStart_of_startsBare hbare, hrest]
    all_goals
      rw [trimStart_of_startsBare, dropLeader?, Option.map_some]
      · exact congrArg some hafter
      · exact startsBare_cons_iff.mpr (by decide)

theorem exists_isDash (s : List Char) (hs : StartsBare s) :
    ∃ d, IsDash d ∧ s = d ++ dropDash s := by
  unfold dropDash
  split
  · rename_i t
    obtain ⟨b, hb, ht, -⟩ := exists_blanks_trimStart t
    exact ⟨'-' :: b, .inr ⟨b, hb, rfl⟩, by rw [List.cons_append, ← ht]⟩
  · exact ⟨[], .inl rfl, rfl⟩

theorem exists_isSign (s : List Char) : ∃ g, IsSign g ∧ s = g ++ dropSign s := by
  unfold dropSign
  split
  · exact ⟨['@'], .inr rfl, rfl⟩
  · exact ⟨[], .inl rfl, rfl⟩

theorem exists_isLeader {s rest : List Char} (h : dropLeader? l s = some rest) :
    ∃ L, IsLeader l L ∧ s = L ++ rest := by
  cases l with
  | some leader => exact ⟨leader, rfl, eq_append_of_dropText? h⟩
  | none =>
    obtain rfl := Option.some.inj h
    unfold dropStarLeader
    split
    · exact ⟨['*'], .inr (.inl rfl), rfl⟩
    · exact ⟨['/', '/'], .inr (.inr (.inl rfl)), rfl⟩
    · exact ⟨['#'], .inr (.inr (.inr (.inl rfl))), rfl⟩
    · exact ⟨['-', '-'], .inr (.inr (.inr (.inr rfl))), rfl⟩
    · exact ⟨[], .inl rfl, rfl⟩

theorem exists_margin (h : afterMargin? l line = some x) : ∃ P, Margin l P ∧ line = P ++ x := by
  obtain ⟨rest, hrest, rfl⟩ := Option.map_eq_some_iff.mp h
  obtain ⟨a, ha, hline, -⟩ := exists_blanks_trimStart line
  obtain ⟨L, hL, hlead⟩ := exists_isLeader hrest
  obtain ⟨b, hb, htrim, hbare⟩ := exists_blanks_trimStart rest
  obtain ⟨d, hd, hdash⟩ := exists_isDash _ hbare
  obtain ⟨s, hs, hsign⟩ := exists_isSign (dropDash (trimStart rest))
  refine ⟨a ++ L ++ b ++ d ++ s, .mk ha hL hb hd hs, ?_⟩
  calc line = a ++ (L ++ rest) := by rw [← hlead, ← hline]
    _ = a ++ (L ++ (b ++ (d ++ dropDash (trimStart rest)))) := by rw [← hdash, ← htrim]
    _ = a ++ L ++ b ++ d ++ s ++ dropSign (dropDash (trimStart rest)) := by
        rw [List.append_assoc, ← hsign]
        simp only [List.append_assoc]

/-! ## Field lines -/

/-- What a line has after its margin if it holds the field of that key. -/
theorem dropColon?_eq_some_iff {s rest : List Char} :
    dropColon? s = some rest ↔ ∃ t, s = ':' :: t ∧ rest = trimStart t := by
  unfold dropColon?
  split
  · simp [eq_comm]
  · rename_i h
    simp only [reduceCtorEq, false_iff, not_exists, not_and]
    rintro t rfl
    exact absurd rfl (h t)

theorem written?_eq_some_iff (hl : Distinct l) (f : Field) {s : List Char} :
    written? l f.keyText line = some s ↔ ∃ P b t, Margin l P ∧ Blanks b ∧
      line = P ++ (f.keyText ++ (b ++ ':' :: t)) ∧ s = trimStart t := by
  rw [written?_eq_bind]
  constructor
  · intro h
    obtain ⟨x, hx, h⟩ := Option.bind_eq_some_iff.mp h
    obtain ⟨y, hy, h⟩ := Option.bind_eq_some_iff.mp h
    obtain ⟨t, ht, rfl⟩ := dropColon?_eq_some_iff.mp h
    obtain ⟨P, hP, rfl⟩ := exists_margin hx
    obtain ⟨b, hb, hyb, -⟩ := exists_blanks_trimStart y
    refine ⟨P, b, t, hP, hb, ?_, rfl⟩
    rw [eq_append_of_dropText? hy, ← ht, ← hyb]
  · rintro ⟨P, b, t, hP, hb, rfl, rfl⟩
    rw [afterMargin?_append hl hP (startsWithLetter_keyText f _), Option.bind_some,
      dropText?_append, Option.bind_some,
      trimStart_eq hb (startsBare_cons_iff.mpr (by decide)), dropColon?]

/-- A line that holds the field of one key holds that of no other. -/
theorem written?_of_ne {f g : Field} (hne : f ≠ g) (hl : Distinct l) {P b t : List Char}
    (hP : Margin l P) (hb : Blanks b) :
    written? l g.keyText (P ++ (f.keyText ++ (b ++ ':' :: t))) = none := by
  rw [written?_eq_bind, afterMargin?_append hl hP (startsWithLetter_keyText f _),
    Option.bind_some]
  cases hd : dropText? g.keyText (f.keyText ++ (b ++ ':' :: t)) with
  | none => rfl
  | some y =>
    have heq := eq_append_of_dropText? hd
    -- one of the keys starts the other
    rcases List.append_eq_append_iff.mp heq with ⟨u, hg, hy⟩ | ⟨u, hf, rfl⟩
    · cases u with
      | nil => exact absurd (Field.keyText_injective (by simpa using hg.symm)) hne
      | cons c u =>
        have hc := Field.of_mem_keyText (f := g) (c := c) (by rw [hg]; simp)
        cases b with
        | nil =>
          have : c = ':' := by simpa using congrArg List.head? hy.symm
          exact absurd this hc.2
        | cons e b =>
          obtain rfl : c = e := by simpa using congrArg List.head? hy.symm
          exact absurd (hb c (List.mem_cons_self ..)) (by simp [hc.1])
    · cases u with
      | nil => exact absurd (Field.keyText_injective (by simpa using hf)) hne
      | cons c u =>
        have hc := Field.of_mem_keyText (f := f) (c := c) (by rw [hf]; simp)
        rw [Option.bind_some, List.cons_append,
          trimStart_of_startsBare (startsBare_cons_iff.mpr hc.1)]
        simp [dropColon?, hc.2]

/-- A line that goes on still holds its field. -/
theorem exists_written?_append (hl : Distinct l) {f : Field} {s t u : List Char}
    (h : written? l f.keyText s = some u) : ∃ u', written? l f.keyText (s ++ t) = some u' := by
  obtain ⟨P, b, r, hP, hb, rfl, -⟩ := (written?_eq_some_iff hl f).mp h
  exact ⟨_, (written?_eq_some_iff hl f).mpr ⟨P, b, r ++ t, hP, hb, by simp, rfl⟩⟩

theorem written?_of_append (hl : Distinct l) {f : Field} {s t : List Char}
    (h : written? l f.keyText (s ++ t) = none) : written? l f.keyText s = none := by
  cases hs : written? l f.keyText s with
  | none => rfl
  | some u =>
    obtain ⟨u', hu⟩ := @exists_written?_append l hl f s t u hs
    rw [hu] at h
    exact absurd h (by simp)

/-- A slash in a margin is one of the leader of a line comment. -/
theorem Margin.exists_of_slash {P : List Char} (h : Margin none P) (hm : '/' ∈ P) :
    ∃ t, trimStart P = '/' :: t := by
  have hblank : ∀ {s : List Char}, Blanks s → '/' ∉ s := fun hs hm =>
    absurd (hs _ hm) (by decide)
  obtain @⟨a, L, b, d, s, ha, hL, hb, hd, hs⟩ := h
  simp only [List.mem_append] at hm
  rcases hm with (((hm | hm) | hm) | hm) | hm
  · exact absurd hm (hblank ha)
  · obtain rfl : L = ['/', '/'] := by
      rcases hL with rfl | rfl | rfl | rfl | rfl <;> simp at hm ⊢
    refine ⟨'/' :: (b ++ d ++ s), ?_⟩
    have hbare : StartsBare ('/' :: '/' :: (b ++ d ++ s)) := startsBare_cons_iff.mpr (by decide)
    rw [← trimStart_eq ha hbare]
    simp only [List.append_assoc, List.cons_append, List.nil_append]
  · exact absurd hm (hblank hb)
  · rcases hd with rfl | ⟨b', hb', rfl⟩
    · simp at hm
    · simp [hblank hb'] at hm
  · rcases hs with rfl | rfl <;> simp at hm

theorem Margin.isLower_eq_false {P : List Char} (h : Margin none P) {c : Char} (hc : c ∈ P) :
    c.isLower = false := by
  have hsymbols : ∀ {s : List Char}, s.all (!·.isLower) = true → c ∈ s → c.isLower = false := by
    intro s hs hm
    simpa using List.all_eq_true.mp hs c hm
  have hblank : ∀ {s : List Char}, Blanks s → c ∈ s → c.isLower = false := by
    intro s hs hm
    refine Bool.eq_false_iff.mpr fun hlower => ?_
    have hbare := isBlank_of_isLower hlower
    rw [hs c hm] at hbare
    exact absurd hbare (by decide)
  obtain ⟨ha, hL, hb, hd, hs⟩ := h
  simp only [List.mem_append] at hc
  rcases hc with (((hc | hc) | hc) | hc) | hc
  · exact hblank ha hc
  · rcases hL with rfl | rfl | rfl | rfl | rfl <;> exact hsymbols (by decide) hc
  · exact hblank hb hc
  · rcases hd with rfl | ⟨b, hb, rfl⟩
    · exact absurd hc List.not_mem_nil
    · rcases List.mem_cons.mp hc with rfl | hc
      · decide
      · exact hblank hb hc
  · rcases hs with rfl | rfl <;> exact hsymbols (by decide) hc

/-- A line with a sign and a letter behind it holds a field in front of the sign, or right behind
it: no key and no blanks after one reach over a sign. -/
theorem written?_sign {f : Field} {lead s : List Char} (hx : StartsWithLetter x)
    (h : written? none f.keyText (lead ++ '@' :: x) = some s) :
    (∃ u, written? none f.keyText lead = some u) ∨ Margin none (lead ++ ['@']) := by
  have hl := distinct_none
  obtain ⟨P, b, t, hP, hb, hline, -⟩ := (written?_eq_some_iff hl f).mp h
  rcases List.append_eq_append_iff.mp hline with ⟨u, rfl, hu⟩ | ⟨u, rfl, hu⟩
  · -- the margin reaches the sign, and no letter behind it
    obtain ⟨c, y, rfl, hc⟩ := hx
    obtain ⟨k, ks, hk, hkl⟩ := f.exists_keyText_eq_cons
    rcases u with - | ⟨d, - | ⟨e, u⟩⟩
    · rw [hk] at hu
      obtain ⟨rfl, -⟩ := List.cons.inj hu
      exact absurd hkl (by decide)
    · obtain ⟨rfl, -⟩ := List.cons.inj hu
      exact .inr hP
    · obtain ⟨-, htail⟩ := List.cons.inj hu
      obtain ⟨rfl, -⟩ := List.cons.inj htail
      have := hP.isLower_eq_false (c := c) (by simp)
      rw [hc] at this
      exact absurd this (by decide)
  · -- the margin ends before the sign, and no key has one in it, so the colon stands before it too
    have hno : '@' ∉ f.keyText ++ b ++ [':'] := by
      simp only [List.mem_append, not_or]
      refine ⟨⟨f.sign_notMem_keyText, fun hm => ?_⟩, by decide⟩
      exact absurd (hb _ hm) (by decide)
    have hcut : f.keyText ++ b ++ [':'] ++ t = u ++ '@' :: x := by simpa using hu
    refine .inl ?_
    rcases List.append_eq_append_iff.mp hcut with ⟨r, rfl, -⟩ | ⟨r, hr, hsign⟩
    · exact ⟨_, (written?_eq_some_iff hl f).mpr ⟨P, b, r, hP, hb, by simp, rfl⟩⟩
    · cases r with
      | nil =>
        rw [List.append_nil] at hr
        exact ⟨_, (written?_eq_some_iff hl f).mpr ⟨P, b, [], hP, hb, by simp [← hr], rfl⟩⟩
      | cons c r =>
        obtain ⟨rfl, -⟩ := List.cons.inj hsign
        exact absurd (by rw [hr]; simp) hno

theorem continues_of_margin {leader P : List Char} (hl : Distinct (some leader))
    (hP : Margin (some leader) P) : Block.continues leader (P ++ x) = true := by
  obtain ⟨ha, hL, -, -, -⟩ := hP
  rename_i a L c d s
  obtain rfl : L = leader := hL
  obtain ⟨hne, hstart⟩ := hl L rfl
  obtain ⟨e, L, rfl⟩ := List.exists_cons_of_ne_nil hne
  have hline : a ++ (e :: L) ++ c ++ d ++ s ++ x = a ++ ((e :: L) ++ (c ++ (d ++ (s ++ x)))) := by
    simp only [List.append_assoc]
  have hbare : StartsBare ((e :: L) ++ (c ++ (d ++ (s ++ x)))) :=
    startsBare_cons_iff.mpr (startsBare_cons_iff.mp hstart)
  rw [Block.continues, hline, trimStart_eq ha hbare, dropText?_append]
  rfl

/-! ## What stands before a value -/

/-- A field line up to its value. -/
inductive Opening (l : Option (List Char)) (f : Field) : List Char → Prop where
  | mk {P b pad : List Char} : Margin l P → Blanks b → Blanks pad →
      Opening l f (P ++ (f.keyText ++ (b ++ ':' :: pad)))

theorem exists_opening (hl : Distinct l) {f : Field} {s : List Char}
    (h : written? l f.keyText line = some s) :
    ∃ front, Opening l f front ∧ line = front ++ s ∧ StartsBare s := by
  obtain ⟨P, b, t, hP, hb, hline, rfl⟩ := (written?_eq_some_iff hl f).mp h
  obtain ⟨pad, hpad, ht, hbare⟩ := exists_blanks_trimStart t
  refine ⟨_, .mk hP hb hpad, ?_, hbare⟩
  rw [hline, ht]
  simp only [List.append_assoc, List.cons_append, ← ht]

variable {front s : List Char} {f g : Field}

theorem Opening.written? (hl : Distinct l) (h : Opening l f front) (hs : StartsBare s) :
    written? l f.keyText (front ++ s) = some s := by
  obtain ⟨hP, hb, hpad⟩ := h
  refine (written?_eq_some_iff hl f).mpr ⟨_, _, _, hP, hb, ?_, (trimStart_eq hpad hs).symm⟩
  simp only [List.append_assoc, List.cons_append]

/-- After an opening of one key, no other key is found. -/
theorem Opening.written?_of_ne (hl : Distinct l) (h : Opening l f front) (hne : f ≠ g) :
    Cell.written? l g.keyText (front ++ s) = none := by
  obtain ⟨hP, hb, -⟩ := h
  have := fun t => written?_of_ne hne hl (t := t) hP hb
  simpa only [List.append_assoc, List.cons_append] using this _

/-- A field line of a block of line comments belongs to the block, whatever its value. -/
theorem Opening.continues {leader : List Char} (hl : Distinct (some leader))
    (h : Opening (some leader) f front) : Block.continues leader (front ++ s) = true := by
  obtain ⟨hP, -, -⟩ := h
  rw [List.append_assoc]
  exact continues_of_margin hl hP

end Cell

end EditGate
