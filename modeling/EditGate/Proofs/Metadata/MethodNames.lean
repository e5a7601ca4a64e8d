import EditGate.Proofs.Json.Escapes
import EditGate.Proofs.Metadata.Written

/-!
# Method permissions read back

The names of methods are written between double quotes without escapes, and read as the names of an
object, with single quotes as good as double ones. So names without quotes, backslashes and controls
are read back. There is no other way: an object that is read from the text is the map that was
written only if no name needed an escape, since an escape counts for more in the text than in the
name that is read (`isMethodName_of_readPermissions`).
-/

namespace EditGate

open Text Json

variable {s raw : List Char} {map : Keyed MethodPermission}

/-- A name that is read as it is written: no quotes, backslashes and controls. -/
def IsMethodName (s : List Char) : Prop := ∀ c ∈ s, c ≠ '\x27' ∧ IsLiteral c

instance : DecidablePred IsMethodName := fun s =>
  List.decidableBAll (fun c => c ≠ '\x27' ∧ IsLiteral c) s

namespace Metadata

/-! ## The written object -/

/-- A method with its permission as it stands in the object. -/
def memberText (b : String × MethodPermission) : List Char :=
  quote b.1.toList ++ ':' :: ' ' :: quote b.2.word.toList

theorem toList_writePermissions (hne : map ≠ []) :
    (writePermissions map).toList =
      '\x7b' :: ' ' :: ([',', ' '].intercalate (map.map memberText) ++ [' ', '\x7d']) := by
  have hopen : "\x7b ".toList = ['\x7b', ' '] := rfl
  have hend : " \x7d".toList = [' ', '\x7d'] := rfl
  have hsep : ", ".toList = [',', ' '] := rfl
  have hcolon : ": ".toList = [':', ' '] := rfl
  have hmembers : (map.map fun b => inQuotes b.1 ++ ": " ++ inQuotes b.2.word).map
      String.toList = map.map memberText := by
    rw [List.map_map]
    refine List.map_congr_left fun b _ => ?_
    rw [Function.comp_apply, String.toList_append, String.toList_append, toList_inQuotes,
      toList_inQuotes, hcolon, memberText, List.append_assoc]
    rfl
  have hempty : map.isEmpty = false := by simpa using hne
  rw [writePermissions, hempty]
  simp only [Bool.false_eq_true, if_false, String.toList_append, String.toList_intercalate, hopen,
    hend, hsep, hmembers, List.cons_append, List.nil_append]

theorem isMethodName_permissionWord (a : MethodPermission) : IsMethodName a.word.toList := by
  cases a <;> decide

/-! ## Reading it -/

/-- The member that the text of a method and its permission is read as. -/
def memberTree (b : String × MethodPermission) : List Piece × Tree :=
  (b.1.toList.map .char, .string (b.2.word.toList.map .char))

theorem permissionOfTree?_word (a : MethodPermission) :
    permissionOfTree? (.string (a.word.toList.map .char)) = some a := by
  rw [permissionOfTree?, string?, characters?_map_char]
  cases a <;> decide

theorem permissionsOfMembers?_memberTree (map : Keyed MethodPermission) :
    permissionsOfMembers? (map.map memberTree) = some map := by
  induction map with
  | nil => rfl
  | cons b map ih =>
    have hname : string? (b.1.toList.map .char) = some b.1 := by
      rw [string?, characters?_map_char, Option.map_some, String.ofList_toList]
    rw [List.map_cons, memberTree, permissionsOfMembers?, hname, permissionOfTree?_word, ih]
    rfl

/-- What a member is read as, whatever follows it. -/
theorem readPieces_memberText {b : String × MethodPermission}
    (h : ∀ c ∈ b.1.toList, IsLiteral c) (fuel : Nat) (rest : List Char) :
    ∃ t value, skipSpace (memberText b ++ rest) = '"' :: t ∧
      readPieces t = some (b.1.toList.map .char, ':' :: value) ∧
      readTree (fuel + 1) value = some (.string (b.2.word.toList.map .char), rest) := by
  have hword : ∀ c ∈ b.2.word.toList, IsLiteral c := fun c hc =>
    (isMethodName_permissionWord b.2 c hc).2
  refine ⟨b.1.toList ++ '"' :: ':' :: ' ' :: '"' :: (b.2.word.toList ++ '"' :: rest),
    ' ' :: '"' :: (b.2.word.toList ++ '"' :: rest), ?_, readPieces_literal h _, ?_⟩
  · rw [memberText, quote, quote]
    simp only [List.append_assoc, List.cons_append, List.nil_append]
    exact skipSpace_cons (by decide) _
  · rw [readTree_congr (skipSpace_space (by decide) _), readTree_quote,
      readPieces_literal hword, Option.map_some]

/-- Members are read one by one, with blanks before each. -/
theorem readMembers_memberTexts (hne : map ≠ [])
    (h : ∀ b ∈ map, ∀ c ∈ b.1.toList, IsLiteral c) (fuel : Nat) (rest : List Char) :
    readMembers (map.length + (fuel + 1))
        ([',', ' '].intercalate (map.map memberText) ++ ' ' :: '\x7d' :: rest) =
      some (map.map memberTree, rest) := by
  induction map with
  | nil => exact absurd rfl hne
  | cons b map ih =>
    obtain ⟨hb, hmap⟩ := List.forall_mem_cons.mp h
    have hfuel : (b :: map).length + (fuel + 1) = (map.length + fuel + 1) + 1 := by
      rw [List.length_cons]
      omega
    rw [hfuel, List.map_cons, List.map_cons]
    by_cases hnil : map = []
    · -- the last member ends at the brace
      subst hnil
      obtain ⟨t, value, hs, ht, hvalue⟩ := readPieces_memberText hb (0 + fuel)
        (' ' :: '\x7d' :: rest)
      rw [List.map_nil, List.intercalate_singleton]
      refine readMembers_brace hs ht hvalue ?_
      rw [skipSpace_space (by decide), skipSpace_cons (by decide)]
    · obtain ⟨t, value, hs, ht, hvalue⟩ := readPieces_memberText hb (map.length + fuel)
        (',' :: ' ' :: ([',', ' '].intercalate (map.map memberText) ++ ' ' :: '\x7d' :: rest))
      have hjoin : [',', ' '].intercalate (memberText b :: map.map memberText) ++
          ' ' :: '\x7d' :: rest = memberText b ++
            ',' :: ' ' :: ([',', ' '].intercalate (map.map memberText) ++ ' ' :: '\x7d' :: rest) := by
        rw [List.intercalate_cons_of_ne_nil (by simpa using hnil)]
        simp only [List.append_assoc, List.cons_append, List.nil_append]
      -- the blank behind a comma is skipped before the next member
      have hnext := readMembers_congr (skipSpace_space (c := ' ') (by decide)
        ([',', ' '].intercalate (map.map memberText) ++ ' ' :: '\x7d' :: rest))
          (map.length + fuel + 1)
      rw [hjoin, readMembers_comma hs ht hvalue (skipSpace_cons (by decide) _), hnext,
        Nat.add_assoc, ih hnil hmap]
      rfl

/-- No single quote is written but those of names. -/
theorem apostrophe_notMem_writePermissions (h : ∀ b ∈ map, IsMethodName b.1.toList) :
    '\x27' ∉ (writePermissions map).toList := by
  by_cases hne : map = []
  · rw [hne]
    decide
  · rw [toList_writePermissions hne]
    intro hm
    simp only [List.mem_cons, List.mem_append] at hm
    rcases hm with hm | hm | hm | hm | hm | hm
    · exact absurd hm (by decide)
    · exact absurd hm (by decide)
    · rcases mem_intercalate_cases hm with hm | ⟨x, hx, hm⟩
      · exact absurd hm (by decide)
      · obtain ⟨b, hb, rfl⟩ := List.mem_map.mp hx
        have hname : '\x27' ∉ b.1.toList := fun hc => (h b hb _ hc).1 rfl
        have hword : '\x27' ∉ b.2.word.toList := fun hc =>
          (isMethodName_permissionWord b.2 _ hc).1 rfl
        simp [memberText, quote, hname, hword] at hm
    · exact absurd hm (by decide)
    · exact absurd hm (by decide)
    · exact absurd hm List.not_mem_nil

theorem exists_memberTexts (hne : map ≠ []) :
    ∃ u, [',', ' '].intercalate (map.map memberText) = '"' :: u := by
  obtain ⟨b, rest, rfl⟩ := List.exists_cons_of_ne_nil hne
  rw [List.map_cons]
  by_cases hrest : rest = []
  · rw [hrest, List.map_nil, List.intercalate_singleton]
    exact ⟨_, rfl⟩
  · rw [List.intercalate_cons_of_ne_nil (by simpa using hrest), List.append_assoc]
    exact ⟨_, rfl⟩

theorem length_le_memberTexts (map : Keyed MethodPermission) :
    map.length ≤ ([',', ' '].intercalate (map.map memberText)).length := by
  induction map with
  | nil => exact Nat.le_refl _
  | cons b map ih =>
    have hone : 1 ≤ (memberText b).length := by simp [memberText, quote]
    by_cases hne : map = []
    · simpa [hne] using hone
    · rw [List.map_cons, List.intercalate_cons_of_ne_nil (by simpa using hne)]
      simp only [List.length_append, List.length_cons]
      omega

theorem readTree_writePermissions (hne : map ≠ [])
    (h : ∀ b ∈ map, ∀ c ∈ b.1.toList, IsLiteral c) :
    Tree.read? (writePermissions map).toList = some (.object (map.map memberTree)) := by
  have hlength := length_le_memberTexts map
  obtain ⟨u, hu⟩ := exists_memberTexts hne
  rw [toList_writePermissions hne]
  generalize hX : [',', ' '].intercalate (map.map memberText) = X at hu hlength
  have hskip : skipSpace (' ' :: (X ++ [' ', '\x7d'])) = X ++ [' ', '\x7d'] := by
    rw [skipSpace_space (by decide), hu, List.cons_append, skipSpace_cons (by decide)]
  obtain ⟨fuel, hfuel⟩ : ∃ fuel, 2 * ('\x7b' :: ' ' :: (X ++ [' ', '\x7d'])).length + 2 =
      (map.length + (fuel + 1)) + 1 := by
    refine ⟨2 * X.length + 8 - map.length, ?_⟩
    simp only [List.length_cons, List.length_append, List.length_nil]
    omega
  have hmembers := readMembers_memberTexts hne h fuel []
  have htree := readTree_object (map.length + (fuel + 1)) (s := ' ' :: (X ++ [' ', '\x7d']))
    fun t => by
      rw [hskip, hu, List.cons_append]
      simp
  rw [hX] at hmembers
  rw [hskip, hmembers, Option.map_some, ← hfuel] at htree
  rw [Tree.read?, htree]
  rfl

/-- Names that need no escapes are read back. -/
theorem readPermissions_writePermissions (hsorted : Keyed.Sorted map)
    (h : ∀ b ∈ map, IsMethodName b.1.toList) :
    readPermissions (writePermissions map).toList = .ok map := by
  have hsame : replaceChar '\x27' '"' (writePermissions map).toList =
      (writePermissions map).toList := by
    refine (List.map_congr_left fun c hc => ?_).trans (List.map_id _)
    refine if_neg fun heq => ?_
    exact apostrophe_notMem_writePermissions h (heq ▸ hc)
  by_cases hne : map = []
  · subst hne
    rfl
  · have hbraces : (writePermissions map).toList.head? = some '\x7b' ∧
        (writePermissions map).toList.getLast? = some '\x7d' := by
      rw [toList_writePermissions hne]
      refine ⟨rfl, ?_⟩
      have hend : ∀ X : List Char, '\x7b' :: ' ' :: (X ++ [' ', '\x7d']) =
          ('\x7b' :: ' ' :: X ++ [' ']) ++ ['\x7d'] := fun X => by simp
      rw [hend, List.getLast?_concat]
    have hread := readTree_writePermissions hne fun b hb c hc => (h b hb c hc).2
    rw [readPermissions, if_pos hbraces, hsame, hread]
    simp only [permissionsOfMembers?_memberTree, Keyed.ofList_eq_self hsorted]

/-! ## What a map is read from -/

theorem exists_of_readPermissions (h : readPermissions raw = .ok map) :
    ∃ members bindings, Tree.read? (replaceChar '\x27' '"' raw) = some (.object members) ∧
      permissionsOfMembers? members = some bindings ∧ Keyed.ofList bindings = map := by
  unfold readPermissions at h
  split at h
  · split at h
    · rename_i members hread
      split at h
      · rename_i bindings hbindings
        exact ⟨members, bindings, hread, hbindings, Except.ok.inj h⟩
      · exact absurd h (by simp)
    · exact absurd h (by simp)
  · exact absurd h (by simp)

theorem map_string?_of_permissionsOfMembers? {members : List (List Piece × Tree)}
    {bindings : List (String × MethodPermission)}
    (h : permissionsOfMembers? members = some bindings) :
    members.map (fun m => string? m.1) = (bindings.map Prod.fst).map some := by
  induction members generalizing bindings with
  | nil =>
    obtain rfl := Option.some.inj h
    rfl
  | cons m members ih =>
    obtain ⟨pieces, tree⟩ := m
    simp only [permissionsOfMembers?, Option.bind_eq_bind, Option.bind_eq_some_iff,
      Option.pure_def, Option.some.injEq] at h
    obtain ⟨name, hname, a, -, rest, hrest, rfl⟩ := h
    simp [hname, ih hrest]

theorem marks_quote (s : List Char) : marks (quote s) = marks s := by
  have hquote : marks ['"'] = 0 := by decide
  have hopen := marks_cons '"' (s ++ ['"'])
  rw [marks_append, hquote] at hopen
  rw [quote, List.cons_append, hopen]
  omega

theorem marks_memberText (b : String × MethodPermission) :
    marks (memberText b) = marks b.1.toList := by
  have hword : marks b.2.word.toList = 0 := by cases b.2 <;> decide
  have hcolon : marks [':', ' '] = 0 := by decide
  have htext : memberText b = quote b.1.toList ++ ([':', ' '] ++ quote b.2.word.toList) := rfl
  rw [htext, marks_append, marks_append, marks_quote, marks_quote, hword, hcolon,
    Nat.add_zero]

theorem marks_memberTexts (map : Keyed MethodPermission) :
    marks ([',', ' '].intercalate (map.map memberText)) = nameMarks (map.map Prod.fst) := by
  induction map with
  | nil => rfl
  | cons b map ih =>
    rw [List.map_cons, List.map_cons, nameMarks]
    by_cases hne : map = []
    · rw [hne, List.map_nil, List.intercalate_singleton, marks_memberText]
      rfl
    · have hsep : marks [',', ' '] = 0 := by decide
      rw [List.intercalate_cons_of_ne_nil (by simpa using hne), marks_append, marks_append, hsep,
        marks_memberText, ih, Nat.add_zero]

/-- What is counted in the text is in the names. -/
theorem marks_writePermissions (map : Keyed MethodPermission) :
    marks (writePermissions map).toList = nameMarks (map.map Prod.fst) := by
  by_cases hne : map = []
  · rw [hne]
    decide
  · have hends : marks ['\x7b', ' '] = 0 ∧ marks [' ', '\x7d'] = 0 := by decide
    have htext : (writePermissions map).toList = ['\x7b', ' '] ++
        ([',', ' '].intercalate (map.map memberText) ++ [' ', '\x7d']) :=
      toList_writePermissions hne
    rw [htext, marks_append, marks_append, hends.1, hends.2, marks_memberTexts, Nat.zero_add,
      Nat.add_zero]

theorem marks_replaceChar (s : List Char) : marks (replaceChar '\x27' '"' s) = marks s := by
  rw [marks, replaceChar, List.countP_map, marks]
  refine List.countP_congr fun c _ => ?_
  by_cases hc : c = '\x27'
  · subst hc
    decide
  · simp [hc]

theorem nameMarks_put_le (name : String) (a : MethodPermission) (map : Keyed MethodPermission) :
    nameMarks ((Keyed.put name a map).map Prod.fst) ≤
      marks name.toList + nameMarks (map.map Prod.fst) := by
  induction map with
  | nil => exact Nat.le_refl _
  | cons b map ih =>
    obtain ⟨k, v⟩ := b
    rw [Keyed.put]
    split
    · exact Nat.le_refl _
    · split
      · simp only [List.map_cons, nameMarks]
        omega
      · simp only [List.map_cons, nameMarks]
        omega

/-- Bindings of one name count once. -/
theorem nameMarks_ofList_le (bindings : List (String × MethodPermission)) :
    nameMarks ((Keyed.ofList bindings).map Prod.fst) ≤ nameMarks (bindings.map Prod.fst) := by
  suffices hfold : ∀ m : Keyed MethodPermission,
      nameMarks ((bindings.foldl (fun m b => Keyed.put b.1 b.2 m) m).map Prod.fst) ≤
        nameMarks (m.map Prod.fst) + nameMarks (bindings.map Prod.fst) by
    exact Nat.le_trans (hfold []) (Nat.le_of_eq (Nat.zero_add _))
  induction bindings with
  | nil => exact fun m => Nat.le_add_right _ _
  | cons b bindings ih =>
    intro m
    have hput := nameMarks_put_le b.1 b.2 m
    have hrest := ih (Keyed.put b.1 b.2 m)
    rw [List.foldl_cons, List.map_cons, nameMarks]
    omega

theorem notMem_replaceChar {old new : Char} (h : new ≠ old) (s : List Char) :
    old ∉ replaceChar old new s := by
  intro hm
  obtain ⟨c, -, hc⟩ := List.mem_map.mp hm
  split at hc
  · exact h hc
  · exact absurd hc ‹_›

/-- A map that is read back has names that need no escapes. -/
theorem isMethodName_of_readPermissions
    (h : readPermissions (writePermissions map).toList = .ok map) :
    ∀ b ∈ map, IsMethodName b.1.toList := by
  obtain ⟨members, bindings, hread, hbindings, hmap⟩ := exists_of_readPermissions h
  generalize htext : replaceChar '\x27' '"' (writePermissions map).toList = text at hread
  simp only [Tree.read?, Option.bind_eq_bind, Option.bind_eq_some_iff] at hread
  obtain ⟨⟨tree, rest⟩, htree, hwhole⟩ := hread
  obtain rfl : tree = .object members := by
    simp only [Option.ite_none_right_eq_some, Option.some.injEq] at hwhole
    exact hwhole.2
  obtain ⟨t, ht, hmembers⟩ := readTree_object_cases htree
  have hsuffix : skipSpace t <:+ text := suffix_of_skipSpace ht (skipSpace_suffix t)
  rcases hmembers with rfl | hmembers
  · obtain rfl := Option.some.inj hbindings
    rw [← hmap]
    exact fun b hb => absurd hb List.not_mem_nil
  · obtain ⟨hle, hequal⟩ :=
      readMembers_marks hmembers (map_string?_of_permissionsOfMembers? hbindings)
    -- the map has all that is counted in the text, so the bindings leave nothing
    have hmarks := marks_le_of_suffix hsuffix
    have hcount := nameMarks_ofList_le bindings
    rw [← htext, marks_replaceChar, marks_writePermissions] at hmarks
    rw [hmap] at hcount
    have hall := hequal (by omega)
    intro b hb c hc
    have hbinding : b ∈ bindings := Keyed.mem_ofList (hmap ▸ hb)
    obtain ⟨hmem, hliteral⟩ := hall b.1 (List.mem_map_of_mem hbinding) c hc
    refine ⟨?_, hliteral⟩
    rintro rfl
    have happears := hsuffix.subset hmem
    rw [← htext] at happears
    exact notMem_replaceChar (by decide) _ happears

theorem readPermissions_iff (hsorted : Keyed.Sorted map) :
    readPermissions (writePermissions map).toList = .ok map ↔
      ∀ b ∈ map, IsMethodName b.1.toList :=
  ⟨isMethodName_of_readPermissions, readPermissions_writePermissions hsorted⟩

/-! ## Updated texts -/

/-- What is said of method permissions that are left out. -/
def malformed : String := "metadata.method_permissions.malformed"

theorem code_ne_malformed {α : Type} [Enumerated α] {b : Block} {subject : Option String}
    {f : Field} : ∀ n ∈ (enumerated α b subject f).2, n.code ≠ malformed := by
  intro n hn
  unfold enumerated at hn
  split at hn
  · exact absurd hn List.not_mem_nil
  · split at hn
    · exact absurd hn List.not_mem_nil
    · rw [List.mem_singleton.mp hn]
      show "metadata.field.invalid" ≠ malformed
      decide

/-- Permissions are read with no complaint just if their text is read. -/
theorem permissions_iff {b : Block} {subject : Option String}
    (hraw : b.raw? .methodPermissions = some raw) :
    ((permissions b subject).1 = some map ∧
        ∀ n ∈ (permissions b subject).2, n.code ≠ malformed) ↔
      readPermissions raw = .ok map := by
  cases hread : readPermissions raw with
  | ok found => simp [permissions, hraw, hread]
  | error fault => simp [permissions, hraw, hread]

/-- The method permissions that an update writes are read back, and nothing is said of them, just if
no name has a quote, a backslash or a control. -/
theorem method_permissions_read_back_iff (text : List Char) (p : Patch) (time : String)
    (map : Keyed MethodPermission) (subject : Option String) (hd : Documented text)
    (ht : Writable time.toList) (hmap : p.methodPermissions = some map)
    (hsorted : Keyed.Sorted map) (hkeeps : ∀ f, p.Keeps f) :
    ∃ m notices, extractWith (update text p time) subject = (some m, notices) ∧
      ((m.methodPermissions = some map ∧ ∀ n ∈ notices, n.code ≠ malformed) ↔
        ∀ b ∈ map, IsMethodName b.1.toList) := by
  have hmem : (Field.methodPermissions, writePermissions map) ∈ p.entries := by
    simp [Patch.entries, Patch.entry, hmap]
  have hne := isEmpty_eq_false hmem
  obtain ⟨b, hb, hraw⟩ := exists_update hd ht hne (List.nil_append _).symm (fun _ => hkeeps)
    fun e _ => hkeeps e.1
  have hvalue : b.raw? .methodPermissions = some (writePermissions map).toList :=
    hraw (.methodPermissions, writePermissions map) (by
      rw [changes_eq hne]
      exact List.mem_append_left _ hmem)
  have hread : extractWith (update text p time) subject =
      (some (ofBlock b subject).1, (ofBlock b subject).2) := by
    rw [extractWith, hb]
  refine ⟨_, _, hread, ?_⟩
  rw [← readPermissions_iff hsorted, ← permissions_iff hvalue]
  -- no other field has a notice of that kind
  refine and_congr_right fun _ => ⟨fun h n hn => h n ?_, fun h n hn => ?_⟩
  · exact List.mem_append_right _ hn
  · simp only [ofBlock, List.mem_append] at hn
    rcases hn with ((hn | hn) | hn) | hn
    · exact code_ne_malformed n hn
    · exact code_ne_malformed n hn
    · exact code_ne_malformed n hn
    · exact h n hn

/-- A map of three methods, among them one with brackets and commas in its name. -/
theorem method_permissions_read_back_sample :
    let map : Keyed MethodPermission :=
      [("f, g: x", .readOnly), ("get[]", .allow), ("r\u00e9sum\u00e9", .restricted)]
    let p : Patch := { methodPermissions := some map }
    Documented sampleText ∧ Writable "12Z".toList ∧ Keyed.Sorted map ∧
      ∃ m notices, extractWith (update sampleText p "12Z") none = (some m, notices) ∧
        m.methodPermissions = some map := by
  intro map p
  have ht : Writable "12Z".toList :=
    (IsStamp.plain ⟨['1', '2'], rfl, List.all_eq_true.mp (by decide)⟩).writable
  have hsorted : Keyed.Sorted map := by decide
  have hkeeps : ∀ f, p.Keeps f := by
    have hnames : ∀ b ∈ map, cutAt? closing b.1.toList = none ∧ '\n' ∉ b.1.toList := by decide
    have hcontained : ∀ b ∈ map, Contained b.1.toList := fun b hb =>
      ⟨cutAt?_eq_none_iff.mp (hnames b hb).1, (hnames b hb).2⟩
    intro f
    cases f with
    | methodPermissions => exact fun _ hmap => Option.some.inj hmap ▸ hcontained
    | _ => simp [Patch.Keeps, p]
  obtain ⟨m, notices, hm, hiff⟩ := method_permissions_read_back_iff sampleText p "12Z" map none
    documented_sampleText ht rfl hsorted hkeeps
  exact ⟨documented_sampleText, ht, hsorted, m, notices, hm, (hiff.mpr (by decide)).1⟩

/-- A name with a backslash is no string that can be read, so the protection is dropped. -/
theorem method_permissions_not_read_back :
    let map : Keyed MethodPermission := [("App\\Billing", .readOnly)]
    let p : Patch := { methodPermissions := some map }
    Documented [] ∧ Writable "1Z".toList ∧ Contained "App\\Billing".toList ∧
      ∃ m notices, extractWith (update [] p "1Z") none = (some m, notices) ∧
        m.methodPermissions = none ∧ ∃ n ∈ notices, n.code = malformed := by
  intro map p
  have hname : cutAt? closing "App\\Billing".toList = none ∧ '\n' ∉ "App\\Billing".toList := by
    decide
  have hread : (extractWith (update [] p "1Z") none).1.map Metadata.methodPermissions = some none ∧
      (extractWith (update [] p "1Z") none).2.map Notice.code = [malformed] := by
    decide +kernel
  generalize extractWith (update [] p "1Z") none = result at hread ⊢
  obtain ⟨found, notices⟩ := result
  obtain ⟨m, rfl, hnone⟩ := Option.map_eq_some_iff.mp hread.1
  have hmalformed : malformed ∈ notices.map Notice.code := by
    rw [hread.2]
    exact List.mem_singleton_self _
  have ht : Writable "1Z".toList :=
    (IsStamp.plain ⟨['1'], rfl, List.all_eq_true.mp (by decide)⟩).writable
  exact ⟨documented_nil, ht, ⟨cutAt?_eq_none_iff.mp hname.1, hname.2⟩, m, notices, rfl, hnone,
    List.mem_map.mp hmalformed⟩

end Metadata

end EditGate
