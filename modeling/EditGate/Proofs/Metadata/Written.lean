import EditGate.Proofs.Metadata.Local

/-!
# Free texts in values

Method names, items of lists and the context are spliced into values as they are, between quotes. A
value stays on its line and in its comment if the texts in it do (`Patch.Keeps`), since what is
written around them makes no delimiter with them. After an update of a documented text the values
that are written last are there if they stay, whatever was written before them into a block that
was there already; in a new block everything has to stay (`exists_update`).
-/

namespace EditGate

open Text Cell

variable {text s t v : List Char} {f : Field} {b : Block} {es : List (Field × String)}

/-! ## Texts that stay -/

/-- A text that breaks neither its line nor its comment. -/
structure Contained (s : List Char) : Prop where
  not_closing : ¬ closing <:+: s
  newline_notMem : '\n' ∉ s

/-- A text that makes no delimiter with what stands around it. -/
structure Sealed (s : List Char) : Prop extends Contained s where
  head : s.head? ≠ some '/'
  last : s.getLast? ≠ some '*'

theorem Contained.writable (h : Contained v) (hfirm : Firm v) : Writable v :=
  ⟨hfirm, h.not_closing, h.newline_notMem⟩

theorem Sealed.append (hs : Sealed s) (ht : Sealed t) : Sealed (s ++ t) where
  not_closing := by
    rw [closing_infix_append_iff (.inl hs.last), not_or]
    exact ⟨hs.not_closing, ht.not_closing⟩
  newline_notMem := by
    rw [List.mem_append, not_or]
    exact ⟨hs.newline_notMem, ht.newline_notMem⟩
  head := by
    cases s with
    | nil => exact ht.head
    | cons c s => exact hs.head
  last := by
    rcases List.eq_nil_or_concat t with rfl | ⟨t, z, rfl⟩
    · rw [List.append_nil]
      exact hs.last
    · have hz := ht.last
      rw [List.concat_eq_append, ← List.append_assoc, List.getLast?_concat] at *
      exact hz

theorem sealed_singleton {c : Char} (hc : c ≠ '/' ∧ c ≠ '*' ∧ c ≠ '\n') : Sealed [c] := by
  refine ⟨⟨fun h => ?_, ?_⟩, ?_, ?_⟩
  · have hle := h.length_le
    rw [List.length_singleton] at hle
    exact absurd hle (by decide)
  · simpa using Ne.symm hc.2.2
  · simpa using hc.1
  · simpa using hc.2.1

/-- Between two characters that are no part of a delimiter a text is sealed. -/
theorem Contained.between (h : Contained s) {c d : Char} (hc : c ≠ '/' ∧ c ≠ '*' ∧ c ≠ '\n')
    (hd : d ≠ '/' ∧ d ≠ '*' ∧ d ≠ '\n') : Sealed (c :: s ++ [d]) := by
  have hopen := sealed_singleton hc
  have hend := sealed_singleton hd
  refine ⟨⟨?_, ?_⟩, by simpa using hc.1, ?_⟩
  · rw [← List.singleton_append, List.append_assoc, closing_infix_append_iff (.inl hopen.last),
      closing_infix_append_iff (.inr hend.head)]
    rintro (h₁ | h₂ | h₃)
    · exact hopen.not_closing h₁
    · exact h.not_closing h₂
    · exact hend.not_closing h₃
  · simp [h.newline_notMem, Ne.symm hc.2.2, Ne.symm hd.2.2]
  · rw [List.getLast?_concat]
    exact hend.last

theorem sealed_of_cutAt? (h : cutAt? closing s = none ∧ '\n' ∉ s ∧ s.head? ≠ some '/' ∧
    s.getLast? ≠ some '*') : Sealed s :=
  ⟨⟨cutAt?_eq_none_iff.mp h.1, h.2.1⟩, h.2.2.1, h.2.2.2⟩

theorem sealed_nil : Sealed [] := sealed_of_cutAt? (by decide)

theorem sealed_intercalate {sep : List Char} {xs : List (List Char)} (hsep : Sealed sep)
    (h : ∀ x ∈ xs, Sealed x) : Sealed (sep.intercalate xs) := by
  induction xs with
  | nil => exact sealed_nil
  | cons x xs ih =>
    obtain ⟨hx, hxs⟩ := List.forall_mem_cons.mp h
    by_cases hne : xs = []
    · rw [hne, List.intercalate_singleton]
      exact hx
    · rw [List.intercalate_cons_of_ne_nil hne]
      exact (hx.append hsep).append (ih hxs)

/-! ## Values of free texts -/

namespace Metadata

/-- A text between double quotes. -/
def quote (s : List Char) : List Char := '"' :: s ++ ['"']

theorem sealed_quote (h : Contained s) : Sealed (quote s) := h.between (by decide) (by decide)

theorem toList_inQuotes (s : String) : (inQuotes s).toList = quote s.toList := by
  have hquote : "\"".toList = ['"'] := rfl
  rw [inQuotes, String.toList_append, String.toList_append, hquote, List.singleton_append, quote]

theorem toList_writeList (ss : List String) :
    (writeList ss).toList =
      '[' :: [',', ' '].intercalate ((ss.map String.toList).map quote) ++ [']'] := by
  have hopen : "[".toList = ['['] := rfl
  have hend : "]".toList = [']'] := rfl
  have hsep : ", ".toList = [',', ' '] := rfl
  have hitems : (ss.map inQuotes).map String.toList = (ss.map String.toList).map quote := by
    rw [List.map_map, List.map_map]
    exact List.map_congr_left fun s _ => toList_inQuotes s
  rw [writeList, String.toList_append, String.toList_append, String.toList_intercalate, hopen,
    hend, hsep, hitems, List.singleton_append]

theorem writable_writeList {ss : List String} (h : ∀ s ∈ ss, Contained s.toList) :
    Writable (writeList ss).toList := by
  refine Contained.writable ?_ (firm_writeList ss)
  rw [toList_writeList]
  refine (Contained.between ?_ (by decide) (by decide)).toContained
  have hsep : Sealed [',', ' '] := (sealed_singleton (by decide)).append
    (sealed_singleton (by decide))
  refine (sealed_intercalate hsep fun x hx => ?_).toContained
  obtain ⟨t, ht, rfl⟩ := List.mem_map.mp hx
  obtain ⟨s, hs, rfl⟩ := List.mem_map.mp ht
  exact sealed_quote (h s hs)

theorem sealed_permissionWord (a : MethodPermission) : Sealed a.word.toList := by
  cases a <;> exact sealed_of_cutAt? (by decide)

theorem writable_writePermissions {map : Keyed MethodPermission}
    (h : ∀ b ∈ map, Contained b.1.toList) : Writable (writePermissions map).toList := by
  refine Contained.writable ?_ (firm_writePermissions map)
  unfold writePermissions
  split
  · exact (sealed_of_cutAt? (by decide)).toContained
  · have hopen : Sealed "\x7b ".toList := ⟨⟨by decide, by decide⟩, by decide, by decide⟩
    have hend : Sealed " \x7d".toList := ⟨⟨by decide, by decide⟩, by decide, by decide⟩
    have hsep : Sealed ", ".toList := ⟨⟨by decide, by decide⟩, by decide, by decide⟩
    have hcolon : Sealed ": ".toList := ⟨⟨by decide, by decide⟩, by decide, by decide⟩
    rw [String.toList_append, String.toList_append, String.toList_intercalate, List.map_map]
    refine ((hopen.append (sealed_intercalate hsep fun x hx => ?_)).append hend).toContained
    obtain ⟨b, hb, rfl⟩ := List.mem_map.mp hx
    rw [Function.comp_apply, String.toList_append, String.toList_append, toList_inQuotes,
      toList_inQuotes]
    exact ((sealed_quote (h b hb)).append hcolon).append
      (sealed_quote (sealed_permissionWord b.2).toContained)

/-- A character as it is written in the context: line feeds and carriage returns are spaces, and
double quotes are single ones. -/
def flatChar (c : Char) : Char :=
  if c = '\n' ∨ c = '\r' then ' ' else if c = '"' then '\x27' else c

/-- A text on one line and without double quotes. -/
def flat (s : List Char) : List Char := s.map flatChar

theorem toList_writeText (s : String) : (writeText s).toList = quote (flat s.toList) := by
  have hflat : replaceChar '"' '\x27' (replaceChar '\r' ' ' (replaceChar '\n' ' ' s.toList)) =
      flat s.toList := by
    simp only [replaceChar, flat, List.map_map]
    refine List.map_congr_left fun c _ => ?_
    simp only [Function.comp_apply, flatChar]
    split <;> split <;> simp_all
  rw [writeText, toList_inQuotes, String.toList_ofList, hflat]

/-- A character is written as itself, or as a space or a single quote. -/
theorem flatChar_cases (c : Char) :
    ((c = '\n' ∨ c = '\r') ∧ flatChar c = ' ') ∨ (c = '"' ∧ flatChar c = '\x27') ∨
      (c ≠ '\n' ∧ c ≠ '"' ∧ flatChar c = c) := by
  unfold flatChar
  split
  · rename_i h
    exact .inl ⟨h, rfl⟩
  · rename_i h
    rw [not_or] at h
    split
    · rename_i hquote
      exact .inr (.inl ⟨hquote, rfl⟩)
    · rename_i hquote
      exact .inr (.inr ⟨h.1, hquote, rfl⟩)

theorem eq_of_flatChar {c d : Char} (hd : d = '*' ∨ d = '/') (h : flatChar c = d) : c = d := by
  rcases flatChar_cases c with ⟨-, hc⟩ | ⟨-, hc⟩ | ⟨-, -, hc⟩
  · rw [← h, hc] at hd
    exact absurd hd (by decide)
  · rw [← h, hc] at hd
    exact absurd hd (by decide)
  · rw [← hc, h]

/-- Flattening a text brings in no delimiter. -/
theorem closing_of_flat (h : closing <:+: flat s) : closing <:+: s := by
  obtain ⟨a, b, hab⟩ := h
  rw [List.append_assoc] at hab
  obtain ⟨a', r, rfl, -, hr⟩ := List.map_eq_append_iff.mp hab.symm
  obtain ⟨m, b', rfl, hm, -⟩ := List.map_eq_append_iff.mp hr
  obtain ⟨x, r, rfl, hx, hr⟩ := List.map_eq_cons_iff.mp hm
  obtain ⟨y, r, rfl, hy, hnil⟩ := List.map_eq_cons_iff.mp hr
  obtain rfl := List.map_eq_nil_iff.mp hnil
  obtain rfl := eq_of_flatChar (.inl rfl) hx
  obtain rfl := eq_of_flatChar (.inr rfl) hy
  exact ⟨a', b', List.append_assoc ..⟩

theorem newline_notMem_flat (s : List Char) : '\n' ∉ flat s := by
  intro hm
  obtain ⟨c, -, hc⟩ := List.mem_map.mp hm
  rcases flatChar_cases c with ⟨-, h⟩ | ⟨-, h⟩ | ⟨h, -, h'⟩
  · exact absurd (h.symm.trans hc) (by decide)
  · exact absurd (h.symm.trans hc) (by decide)
  · exact h (h'.symm.trans hc)

theorem writable_writeText {s : String} (h : ¬ closing <:+: s.toList) :
    Writable (writeText s).toList := by
  refine Contained.writable ?_ (firm_inQuotes _)
  rw [toList_writeText]
  exact (sealed_quote ⟨mt closing_of_flat h, newline_notMem_flat _⟩).toContained

/-! ## Reading between quotes -/

/-- A text that ends in a run is cut like the text without that run. -/
theorem trimMatches_append_of_all {p : Char → Bool} (ht : ∀ c ∈ t, p c = true) :
    trimMatches p (s ++ t) = trimMatches p s := by
  rw [trimMatches, trimMatches, List.dropWhile_append]
  split
  · rename_i hs
    have hnil := @List.dropWhile_append_of_pos _ p t [] ht
    rw [List.append_nil, List.dropWhile_nil] at hnil
    rw [hnil, List.isEmpty_iff.mp hs]
  · exact dropEndWhile_append_of_all ht

theorem trimMatches_of_ends {p : Char → Bool} (hhead : ∀ c ∈ s.head?, p c = false)
    (hlast : ∀ c ∈ s.getLast?, p c = false) : trimMatches p s = s := by
  have hstart : s.dropWhile p = s := by
    cases s with
    | nil => rfl
    | cons c s => rw [List.dropWhile_cons_of_neg (by simp [hhead c rfl])]
  rw [trimMatches, hstart]
  rcases List.eq_nil_or_concat s with rfl | ⟨front, z, rfl⟩
  · rfl
  · rw [List.concat_eq_append] at hlast ⊢
    exact dropEndWhile_concat_of_neg (hlast z List.getLast?_concat)

/-- What is read of a text between double quotes is the text without quotes at its ends, and then
without blanks there. -/
theorem unquote_quoted (hpad : Blanks t) (s : List Char) :
    unquote (t ++ quote s) = trim (trimMatches isQuote s) := by
  have hbare : StartsBare (quote s) := startsBare_cons_iff.mpr (by decide)
  have hend : trimEnd (quote s) = quote s := dropEndWhile_concat_of_neg (by decide)
  have hlast : ∀ c ∈ ['"'], isQuote c = true := List.all_eq_true.mp (by decide)
  have hquotes : trimMatches isQuote (quote s) = trimMatches isQuote s := by
    rw [quote, trimMatches_append_of_all hlast, trimMatches,
      List.dropWhile_cons_of_pos (by decide), trimMatches]
  have htrim : trim (t ++ quote s) = quote s := by rw [trim, trimStart_eq hpad hbare, hend]
  rw [unquote, htrim, hquotes]

/-! ## The values of a patch -/

/-- Whether the texts that a patch writes into the value of a field stay on their line and in the
comment. Line breaks in the context are not written. -/
def Patch.Keeps (p : Patch) : Field → Prop
  | .methodPermissions => ∀ map ∈ p.methodPermissions, ∀ b ∈ map, Contained b.1.toList
  | .aiContext => ∀ s ∈ p.aiContext, ¬ closing <:+: s.toList
  | .dependencies => ∀ ss ∈ p.dependencies, ∀ s ∈ ss, Contained s.toList
  | .tests => ∀ ss ∈ p.tests, ∀ s ∈ ss, Contained s.toList
  | _ => True

variable {p : Patch} {time : String}

theorem writable_of_keeps (ht : Writable time.toList) {e : Field × String}
    (he : e ∈ p.changes time) (hkeeps : p.Keeps e.1) : Writable e.2.toList := by
  unfold Patch.changes at he
  split at he
  · exact absurd he List.not_mem_nil
  simp only [Patch.entries, List.mem_append, List.mem_singleton] at he
  rcases he with (((((((he | he) | he) | he) | he) | he) | he) | he) | rfl
  · obtain ⟨x, -, rfl⟩ := mem_entry he
    exact (plain_stability x).writable
  · obtain ⟨x, -, rfl⟩ := mem_entry he
    exact (plain_editPermission x).writable
  · obtain ⟨map, hmap, rfl⟩ := mem_entry he
    exact writable_writePermissions (hkeeps map hmap)
  · obtain ⟨x, -, rfl⟩ := mem_entry he
    exact (plain_riskLevel x).writable
  · obtain ⟨x, -, rfl⟩ := mem_entry he
    exact (plain_writeBool x).writable
  · obtain ⟨s, hs, rfl⟩ := mem_entry he
    exact writable_writeText (hkeeps s hs)
  · obtain ⟨ss, hss, rfl⟩ := mem_entry he
    exact writable_writeList (hkeeps ss hss)
  · obtain ⟨ss, hss, rfl⟩ := mem_entry he
    exact writable_writeList (hkeeps ss hss)
  · exact ht

end Metadata

/-! ## Updated texts -/

/-- A documented text with a field set to any value has its first marker where it was. -/
theorem Documented.exists_locate?_set (hd : Documented text) (h : Block.locate? text = some b)
    (f : Field) (v : List Char) :
    Documented (b.set f v) ∧ ∃ b', Block.locate? (b.set f v) = some b' := by
  obtain ⟨before, lead, rest, hm, rfl⟩ := exists_marked h
  have hlead := hd _ _ _ hm
  have hclear := (editable_ofParts hlead hm.newline_notMem before rest).toClear
  obtain ⟨inner, hbody⟩ := exists_body_ofParts before lead rest
  obtain ⟨top, more, hsplit⟩ := List.exists_cons_of_ne_nil (splitOn_ne_nil '\n' inner)
  obtain ⟨top', more', -, hset⟩ := hclear.exists_edit hm.newline_notMem hbody hsplit f v
  have htext : (Block.ofParts before lead rest).set f v = before ++ lead ++ marker ++
      (top' ++ Block.unlines more' ++ (Block.ofParts before lead rest).after) := by
    refine set_eq (before_ofParts before lead rest) ?_
    rw [hset, List.append_assoc (lead ++ marker)]
  have hm' := hm.replace (top' ++ Block.unlines more' ++ (Block.ofParts before lead rest).after)
  rw [← htext] at hm'
  exact ⟨hm'.documented hlead, _, hm'.locate?⟩

theorem Documented.exists_locate?_setFields (hd : Documented text)
    (h : Block.locate? text = some b) (es : List (Field × String)) :
    Documented (Metadata.setFields text es) ∧
      ∃ b', Block.locate? (Metadata.setFields text es) = some b' := by
  induction es generalizing text b with
  | nil => exact ⟨hd, b, h⟩
  | cons e es ih =>
    have hstep : setField text e.1 e.2.toList = b.set e.1 e.2.toList := by rw [setField, h]
    obtain ⟨hd', b', h'⟩ := hd.exists_locate?_set h e.1 e.2.toList
    rw [Metadata.setFields, List.foldl_cons, hstep]
    exact ih hd' h'

namespace Metadata

variable {p : Patch} {time : String} {es₁ es₂ : List (Field × String)}

theorem isEmpty_eq_false {e : Field × String} (he : e ∈ p.entries) : p.isEmpty = false := by
  rw [Patch.isEmpty, List.isEmpty_eq_false_iff]
  exact List.ne_nil_of_mem he

theorem changes_eq (hne : p.isEmpty = false) (time : String) :
    p.changes time = p.entries ++ [(.lastModified, time)] := by
  simp [Patch.changes, hne]

/-- The changes that are made last: the lists, and then the time. -/
def Patch.lastChanges (p : Patch) (time : String) : List (Field × String) :=
  Patch.entry .dependencies writeList p.dependencies ++
    Patch.entry .tests writeList p.tests ++ [(.lastModified, time)]

/-- The context is written right before the lists. -/
theorem exists_changes_eq (hne : p.isEmpty = false) (time : String) :
    ∃ es, p.changes time =
      es ++ (Patch.entry .aiContext writeText p.aiContext ++ p.lastChanges time) := by
  refine ⟨Patch.entry .stability Stability.word p.stability ++
    Patch.entry .editPermissions EditPermission.word p.editPermissions ++
    Patch.entry .methodPermissions writePermissions p.methodPermissions ++
    Patch.entry .breakingChangesRisk RiskLevel.word p.breakingChangesRisk ++
    Patch.entry .reviewRequired writeBool p.reviewRequired, ?_⟩
  rw [changes_eq hne, Patch.entries, Patch.lastChanges]
  simp only [List.append_assoc]

theorem Patch.keeps_all (hnames : p.Keeps .methodPermissions) (hcontext : p.Keeps .aiContext)
    (hdependencies : p.Keeps .dependencies) (htests : p.Keeps .tests) (f : Field) : p.Keeps f := by
  cases f with
  | methodPermissions => exact hnames
  | aiContext => exact hcontext
  | dependencies => exact hdependencies
  | tests => exact htests
  | _ => trivial

theorem keeps_of_mem_lastChanges (hdependencies : p.Keeps .dependencies) (htests : p.Keeps .tests) :
    ∀ e ∈ p.lastChanges time, p.Keeps e.1 := by
  intro e he
  rw [Patch.lastChanges, List.mem_append, List.mem_append, List.mem_singleton] at he
  rcases he with (he | he) | rfl
  · obtain ⟨_, -, rfl⟩ := mem_entry he
    exact hdependencies
  · obtain ⟨_, -, rfl⟩ := mem_entry he
    exact htests
  · trivial

/-- The values that an update writes last, and that stay where they are written, are in the block
of the updated text. Values that are written before them do not matter to a block that is there; all
values of a new block have to stay. -/
theorem exists_update (hd : Documented text) (ht : Writable time.toList)
    (hne : p.isEmpty = false) (hsplit : p.changes time = es₁ ++ es₂)
    (hnew : ¬ marker <:+: text → ∀ f, p.Keeps f) (hkeeps : ∀ e ∈ es₂, p.Keeps e.1) :
    ∃ b, Block.locate? (update text p time) = some b ∧
      ∀ e ∈ es₂, b.raw? e.1 = some e.2.toList := by
  have hnodup := nodup_changes p time
  have hmem : ∀ e ∈ es₂, e ∈ p.changes time := fun e he => by
    rw [hsplit]
    exact List.mem_append_right _ he
  cases hloc : Block.locate? text with
  | none =>
    have hupdate : update text p time = withNewBlock (p.changes time) text := by
      simp [update, hne, hloc, changes_eq hne]
    have hall := hnew (locate?_eq_none_iff.mp hloc)
    obtain ⟨b, hb, hraw⟩ :=
      exists_withNewBlock (fun e he => writable_of_keeps ht he (hall e.1)) text
    refine ⟨b, hupdate ▸ hb, fun e he => ?_⟩
    rw [hraw, entryValue_of_mem hnodup (hmem e he)]
  | some b =>
    -- what the first entries leave behind is a documented text, and the others stay in it
    obtain ⟨hd₁, b₁, h₁⟩ := hd.exists_locate?_setFields hloc es₁
    have hnodup₂ : (es₂.map Prod.fst).Nodup := by
      rw [hsplit, List.map_append] at hnodup
      exact (List.nodup_append.mp hnodup).2.1
    obtain ⟨b', hb', hraw⟩ := hd₁.exists_setFields h₁ hnodup₂ fun e he =>
      writable_of_keeps ht (hmem e he) (hkeeps e he)
    have hupdate : update text p time = setFields (setFields text es₁) es₂ := by
      rw [update_of_locate? hloc, hsplit, setFields, List.foldl_append, setFields, setFields]
    refine ⟨b', hupdate ▸ hb', fun e he => ?_⟩
    rw [hraw, entryValue_of_mem hnodup₂ he, Option.some_or]

theorem documented_sampleText : Documented sampleText := fun _ _ _ hm =>
  (enclosed_sampleBlock.lead _ _ _ hm).isPlainLead

/-- A text without a marker is documented. -/
theorem documented_nil : Documented [] := fun _ _ _ hm =>
  absurd (hm.cut.symm.trans (show cutAt? marker [] = none by decide)) (by simp)

end Metadata

end EditGate
