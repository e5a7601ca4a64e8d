import EditGate.Proofs.Metadata.Written
import Mathlib.Data.List.Infix

/-!
# Lists read back

Items are written between double quotes and separated by commas, within brackets. A list is read up
to the first bracket that closes one, wherever it stands, so it is read as it was written just if no
item has such a bracket (`readList?_writeList_iff`). The other characters of a path, brackets that
open among them, are read as they are.
-/

namespace EditGate

open Text Cell

variable {text s : List Char} {items : List (List Char)}

/-- An item that can be told from what is written around it, and that stays where it is written. -/
structure IsItem (s : List Char) : Prop extends Contained s where
  ne_nil : s ≠ []
  trim : Text.trim s = s
  bare : ∀ c ∈ s, Metadata.isQuote c = false
  comma_notMem : ',' ∉ s

namespace Metadata

/-! ## What a list is read as -/

theorem dropEndWhile_subset (p : Char → Bool) (s : List Char) : dropEndWhile p s ⊆ s := by
  intro c hc
  obtain ⟨b, -, hs⟩ := exists_dropEndWhile p s
  rw [hs]
  exact List.mem_append_left _ hc

theorem trim_subset (s : List Char) : trim s ⊆ s := fun _ hc =>
  List.dropWhile_subset _ (dropEndWhile_subset _ _ hc)

theorem unquote_subset (s : List Char) : unquote s ⊆ s := fun _ hc =>
  trim_subset s (List.dropWhile_subset _ (dropEndWhile_subset _ _ (trim_subset _ hc)))

/-- No item that is read has a closing bracket. -/
theorem bracket_notMem_of_readList? {raw : List Char} {ss : List String}
    (h : readList? raw = some ss) : ∀ s ∈ ss, ']' ∉ s.toList := by
  unfold readList? at h
  split at h
  · rename_i rest
    obtain ⟨⟨inner, after⟩, hcut, rfl⟩ := Option.map_eq_some_iff.mp h
    have hinner : ']' ∉ inner := by
      have hfirst := first_of_cutAt? (by decide) hcut
      rwa [List.dropLast_singleton, List.append_nil, List.singleton_infix_iff] at hfirst
    intro s hs hbracket
    obtain ⟨item, hitem, rfl⟩ := List.mem_map.mp hs
    obtain ⟨piece, hpiece, rfl⟩ := List.mem_map.mp (List.mem_filter.mp hitem).1
    rw [String.toList_ofList] at hbracket
    exact hinner (subset_of_mem_splitOn hpiece (unquote_subset _ hbracket))
  · exact absurd h (by simp)

/-! ## Written lists -/

/-- Pieces with a comma and a blank between them are cut at the commas. -/
theorem splitOn_commas {pad first : List Char} (hpad : ',' ∉ pad) (hfirst : ',' ∉ first)
    (h : ∀ x ∈ items, ',' ∉ x) :
    splitOn ',' (pad ++ [',', ' '].intercalate (first :: items)) =
      (pad ++ first) :: items.map (' ' :: ·) := by
  induction items generalizing pad first with
  | nil =>
    rw [List.intercalate_singleton, List.map_nil]
    exact splitOn_of_notMem (by simp [hpad, hfirst])
  | cons next items ih =>
    obtain ⟨hnext, hitems⟩ := List.forall_mem_cons.mp h
    have hpiece : ',' ∉ pad ++ first := by simp [hpad, hfirst]
    have hrest := @ih [' '] next (by decide) hnext hitems
    have hjoin : pad ++ [',', ' '].intercalate (first :: next :: items) =
        (pad ++ first) ++ ',' :: ([' '] ++ [',', ' '].intercalate (next :: items)) := by
      rw [List.intercalate_cons_cons]
      simp only [List.append_assoc, List.cons_append, List.nil_append]
    rw [hjoin, splitOn_append, splitOn_of_notMem hpiece, hrest]
    rfl

theorem unquote_item (h : IsItem s) {pad : List Char} (hpad : Blanks pad) :
    unquote (pad ++ quote s) = s := by
  have hends : trimMatches isQuote s = s :=
    trimMatches_of_ends (fun c hc => h.bare c (List.mem_of_mem_head? hc)) fun c hc =>
      h.bare c (List.mem_of_mem_getLast? hc)
  rw [unquote_quoted hpad, hends, h.trim]

theorem comma_notMem_quote (h : IsItem s) : ',' ∉ quote s := by
  simp [quote, h.comma_notMem]

/-- The items between the brackets are read as they are. -/
theorem map_unquote_splitOn (h : ∀ s ∈ items, IsItem s) :
    ((splitOn ',' ([',', ' '].intercalate (items.map quote))).map unquote).filter (!·.isEmpty) =
      items := by
  cases items with
  | nil => rfl
  | cons first items =>
    obtain ⟨hfirst, hitems⟩ := List.forall_mem_cons.mp h
    have hcommas : ∀ x ∈ items.map quote, ',' ∉ x := fun x hx => by
      obtain ⟨s, hs, rfl⟩ := List.mem_map.mp hx
      exact comma_notMem_quote (hitems s hs)
    have hsplit := @splitOn_commas _ [] _ List.not_mem_nil (comma_notMem_quote hfirst) hcommas
    have hrest : ((items.map quote).map (' ' :: ·)).map unquote = items := by
      have hitem : ∀ s ∈ items, unquote (' ' :: quote s) = s := fun s hs => by
        rw [← List.singleton_append, unquote_item (hitems s hs) blanks_space]
      simp only [List.map_map, Function.comp_def]
      exact (List.map_congr_left hitem).trans (List.map_id' items)
    have hone : unquote ([] ++ quote first) = first := unquote_item hfirst blanks_nil
    rw [List.nil_append] at hsplit
    rw [List.map_cons, hsplit, List.map_cons, hone, hrest, List.filter_eq_self]
    exact fun s hs => by simpa using (h s hs).ne_nil

theorem bracket_notMem_intercalate (h : ∀ s ∈ items, ']' ∉ s) :
    ']' ∉ [',', ' '].intercalate (items.map quote) := by
  intro hm
  rcases mem_intercalate_cases hm with hm | ⟨x, hx, hm⟩
  · exact absurd hm (by decide)
  · obtain ⟨s, hs, rfl⟩ := List.mem_map.mp hx
    simp [quote, h s hs] at hm

/-- Items are read back just if none of them has a closing bracket. -/
theorem readList?_writeList_iff {ss : List String} (h : ∀ s ∈ ss, IsItem s.toList) :
    readList? (writeList ss).toList = some ss ↔ ∀ s ∈ ss, ']' ∉ s.toList := by
  refine ⟨bracket_notMem_of_readList?, fun hbracket => ?_⟩
  have hinner : ¬ [']'] <:+: [',', ' '].intercalate ((ss.map String.toList).map quote) ++
      [']'].dropLast := by
    rw [List.dropLast_singleton, List.append_nil, List.singleton_infix_iff]
    exact bracket_notMem_intercalate (List.forall_mem_map.mpr hbracket)
  have hcut := @cutAt?_of_first _ _ [] (by decide) hinner
  rw [List.append_nil] at hcut
  have hitems := map_unquote_splitOn (List.forall_mem_map.mpr h)
  rw [toList_writeList, List.cons_append, readList?, hcut, Option.map_some]
  simp only [hitems]
  rw [List.map_map]
  simp [Function.comp_def]

/-! ## Updated texts -/

variable {p : Patch} {time : String}

/-- The lists that an update writes are read back just if no item has a closing bracket. The texts
of other fields have to stay in place only if they are written into a new block, above the lists. -/
theorem lists_read_back_iff (text : List Char) (p : Patch) (time : String) (hd : Documented text)
    (ht : Writable time.toList) (hset : p.dependencies ≠ none ∨ p.tests ≠ none)
    (hitems : ∀ ss, p.dependencies = some ss ∨ p.tests = some ss → ∀ s ∈ ss, IsItem s.toList)
    (hnew : ¬ marker <:+: text → p.Keeps .methodPermissions ∧ p.Keeps .aiContext) :
    ∃ m, extract (update text p time) = some m ∧
      (∀ ss, p.dependencies = some ss →
        (m.dependencies = some ss ↔ ∀ s ∈ ss, ']' ∉ s.toList)) ∧
      ∀ ss, p.tests = some ss → (m.tests = some ss ↔ ∀ s ∈ ss, ']' ∉ s.toList) := by
  have hne : p.isEmpty = false := by
    rcases hset with h | h <;> obtain ⟨ss, hss⟩ := Option.ne_none_iff_exists'.mp h
    · exact isEmpty_eq_false (e := (.dependencies, writeList ss)) (by
        simp [Patch.entries, Patch.entry, hss])
    · exact isEmpty_eq_false (e := (.tests, writeList ss)) (by
        simp [Patch.entries, Patch.entry, hss])
  have hkeeps : p.Keeps .dependencies ∧ p.Keeps .tests :=
    ⟨fun ss hss s hs => (hitems ss (.inl hss) s hs).toContained,
      fun ss hss s hs => (hitems ss (.inr hss) s hs).toContained⟩
  obtain ⟨es, hsplit⟩ := exists_changes_eq hne time
  rw [← List.append_assoc] at hsplit
  obtain ⟨b, hb, hraw⟩ := exists_update hd ht hne hsplit
    (fun hno => Patch.keeps_all (hnew hno).1 (hnew hno).2 hkeeps.1 hkeeps.2)
    (keeps_of_mem_lastChanges hkeeps.1 hkeeps.2)
  refine ⟨_, extract_of_locate? hb, fun ss hss => ?_, fun ss hss => ?_⟩
  · have hvalue := hraw (.dependencies, writeList ss) (by
      simp [Patch.lastChanges, Patch.entry, hss])
    simp only [ofBlock, hvalue, Option.bind_some]
    exact readList?_writeList_iff (hitems ss (.inl hss))
  · have hvalue := hraw (.tests, writeList ss) (by
      simp [Patch.lastChanges, Patch.entry, hss])
    simp only [ofBlock, hvalue, Option.bind_some]
    exact readList?_writeList_iff (hitems ss (.inr hss))

/-- What an item has to be, as it can be computed. -/
theorem isItem_of_all (hcut : cutAt? closing s = none) (hne : s ≠ []) (htrim : Text.trim s = s)
    (hall : s.all (fun c => !isQuote c && c != ',' && c != '\n') = true) : IsItem s := by
  have hplain : ∀ c ∈ s, isQuote c = false ∧ c ≠ ',' ∧ c ≠ '\n' := fun c hc => by
    simpa [and_assoc] using List.all_eq_true.mp hall c hc
  exact ⟨⟨cutAt?_eq_none_iff.mp hcut, fun hc => (hplain _ hc).2.2 rfl⟩, hne, htrim,
    fun c hc => (hplain c hc).1, fun hc => (hplain _ hc).2.1 rfl⟩

/-- Blanks, signs and brackets that open are read back, and so is an empty list. -/
theorem lists_read_back_sample :
    let ss := ["./a b.ts", "@scope/[é:1.ts"]
    let p : Patch := { dependencies := some ss, tests := some [], aiContext := some "*/" }
    Documented sampleText ∧ Writable "12Z".toList ∧ (∀ s ∈ ss, IsItem s.toList) ∧
      ∃ m, extract (update sampleText p "12Z") = some m ∧ m.dependencies = some ss ∧
        m.tests = some [] := by
  intro ss p
  have ht : Writable "12Z".toList :=
    (IsStamp.plain ⟨['1', '2'], rfl, List.all_eq_true.mp (by decide)⟩).writable
  have hss : ∀ s ∈ ss, IsItem s.toList := by
    simp only [ss, List.forall_mem_cons]
    exact ⟨isItem_of_all (by decide) (by decide) (by decide) (by decide),
      isItem_of_all (by decide) (by decide) (by decide) (by decide),
      fun _ hs => absurd hs List.not_mem_nil⟩
  obtain ⟨m, hm, hdependencies, htests⟩ := lists_read_back_iff sampleText p "12Z"
    documented_sampleText ht (.inl (by simp [p]))
    (fun l hl => by
      rcases hl with hl | hl
      · exact Option.some.inj hl ▸ hss
      · exact Option.some.inj hl ▸ fun s hs => absurd hs List.not_mem_nil)
    (fun hno => absurd (locate?_eq_none_iff.mpr hno) (by decide))
  exact ⟨documented_sampleText, ht, hss, m, hm, (hdependencies ss rfl).mpr (by decide),
    (htests [] rfl).mpr (by decide)⟩

/-- The path of a page with a parameter is cut off at its bracket. -/
theorem lists_not_read_back :
    let p : Patch := { tests := some ["app/[id]/page.ts"] }
    Documented [] ∧ Writable "1Z".toList ∧ IsItem "app/[id]/page.ts".toList ∧
      ∃ m, extract (update [] p "1Z") = some m ∧ m.tests = some ["app/[id"] ∧
        m.tests ≠ p.tests := by
  intro p
  have hread : (extract (update [] p "1Z")).map Metadata.tests = some (some ["app/[id"]) := by
    decide
  obtain ⟨m, hm, htests⟩ := Option.map_eq_some_iff.mp hread
  have ht : Writable "1Z".toList :=
    (IsStamp.plain ⟨['1'], rfl, List.all_eq_true.mp (by decide)⟩).writable
  have hitem : IsItem "app/[id]/page.ts".toList :=
    isItem_of_all (by decide) (by decide) (by decide) (by decide)
  refine ⟨documented_nil, ht, hitem, m, hm, htests, ?_⟩
  rw [htests]
  decide

end Metadata

end EditGate
