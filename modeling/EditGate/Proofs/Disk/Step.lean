import EditGate.Proofs.Disk.Find

/-!
# What steps do to a disk

A path that is read or written names a place in a directory that is there (`Names`). Making files
and directories, writing to files and moving a file lose no directory, so a path that names a place
goes on naming it. Each step beside a place leaves the file at that place as it is (`Grown`); moving
a file changes what is at its old place and at its new one only.
-/

namespace EditGate.Disk

variable {d d' : Disk} {wd p q P : Place} {path source target : Path} {n : Node}

/-- The path leads to a name in a directory that is there. -/
def Names (d : Disk) (wd : Place) (path : Path) : Prop :=
  ∃ dir name, d.find wd path = .ok (.named dir name false) ∧
    Text.utf8Length name.toList ≤ nameMax

theorem Names.mono (h : d.Names wd path) (hkeep : KeepsDirectories d d') : d'.Names wd path := by
  obtain ⟨dir, name, hfind, hname⟩ := h
  exact ⟨dir, name, find_mono hkeep hfind, hname⟩

theorem lexical_of_find {dir : Place} {name : String} {slash : Bool}
    (h : d.find wd path = .ok (.named dir name slash)) : lexical wd path = dir ++ [name] :=
  (place_of_find h).symm

theorem child?_eq {dir : Place} {name : String} (h : Text.utf8Length name.toList ≤ nameMax) :
    d.child? dir name = .ok (d.node? (dir ++ [name])) := if_neg (by omega)

theorem child?_eq_ok {dir : Place} {name : String} {o : Option Node}
    (h : d.child? dir name = .ok o) :
    Text.utf8Length name.toList ≤ nameMax ∧ o = d.node? (dir ++ [name]) := by
  rw [child?] at h
  split at h
  · exact nomatch h
  · exact ⟨by omega, (Except.ok.inj h).symm⟩

/-! ## Reading -/

/-- What is read at a path that names a place is what is there. -/
theorem Names.read_eq (h : d.Names wd path) :
    d.read wd path =
      match d.node? (lexical wd path) with
      | none => .error .notFound
      | some .directory => .error .isADirectory
      | some (.file content) => .ok content := by
  obtain ⟨dir, name, hfind, hname⟩ := h
  rw [read, hfind, ok_bind]
  simp only [child?_eq hname, ok_bind, lexical_of_find hfind]
  rfl

theorem names_of_read {content : ByteArray} (h : d.read wd path = .ok content) :
    d.Names wd path ∧ d.node? (lexical wd path) = some (.file content) := by
  rw [read] at h
  obtain ⟨spot, hfind, h⟩ := bind_eq_ok h
  cases spot with
  | here => exact nomatch h
  | named dir name slash =>
    obtain ⟨o, ho, h⟩ := bind_eq_ok h
    obtain ⟨hname, ho⟩ := child?_eq_ok ho
    split at h
    · exact nomatch h
    · exact nomatch h
    · cases slash with
      | true => exact nomatch h
      | false =>
        rw [lexical_of_find hfind, ← ho, Except.ok.inj h]
        exact ⟨⟨dir, name, hfind, hname⟩, rfl⟩

theorem fromUTF8?_toUTF8 (s : String) : String.fromUTF8? s.toUTF8 = some s := by
  rw [String.fromUTF8?, String.toUTF8_eq_toByteArray, dif_pos s.isValidUTF8]
  rfl

/-- Bytes that are those of a text are its bytes. -/
theorem toUTF8_of_fromUTF8? {bytes : ByteArray} {s : String} (h : String.fromUTF8? bytes = some s) :
    s.toUTF8 = bytes := by
  rw [String.fromUTF8?] at h
  split at h
  · obtain rfl := Option.some.inj h
    rfl
  · cases h

/-- A text is read from a file that holds its bytes. -/
theorem Names.readText_eq (h : d.Names wd path) {text : String}
    (hfile : d.node? (lexical wd path) = some (.file text.toUTF8)) :
    d.readText wd path = .ok text := by
  rw [readText, h.read_eq, hfile]
  simp only [ok_bind, fromUTF8?_toUTF8]
  rfl

theorem names_of_readText {text : String} (h : d.readText wd path = .ok text) :
    d.Names wd path ∧ ∃ content, d.node? (lexical wd path) = some (.file content) ∧
      String.fromUTF8? content = some text := by
  rw [readText] at h
  obtain ⟨content, hread, h⟩ := bind_eq_ok h
  obtain ⟨hnames, hfile⟩ := names_of_read hread
  refine ⟨hnames, content, hfile, ?_⟩
  split at h
  · rename_i s hs
    rw [hs, Except.ok.inj h]
  · exact nomatch h

/-! ## Writing -/

/-- The place is in a directory and is none itself. -/
structure IsOpen (d : Disk) (p : Place) : Prop where
  ne_nil : p ≠ []
  up : d.node? p.dropLast = some .directory
  not_directory : d.node? p ≠ some .directory

/-- What holds of a disk that steps beside `P` have grown. -/
structure Grown (P : Place) (d d' : Disk) : Prop where
  tree : d'.IsTree
  directories : KeepsDirectories d d'
  file : ∀ content, d'.node? P = some (.file content) ↔ d.node? P = some (.file content)

theorem Grown.refl (P : Place) (h : d.IsTree) : Grown P d d := ⟨h, fun _ h => h, fun _ => Iff.rfl⟩

theorem Grown.trans {d'' : Disk} (h : Grown P d d') (h' : Grown P d' d'') : Grown P d d'' :=
  ⟨h'.tree, fun p hp => h'.directories p (h.directories p hp),
    fun content => (h'.file content).trans (h.file content)⟩

theorem keepsDirectories_put (hp : p ≠ []) (hnot : d.node? p ≠ some .directory) :
    KeepsDirectories d (d.put p n) := by
  intro q hq
  have hne : q ≠ p := fun he => hnot (he ▸ hq)
  rw [node?_put_of_ne hp hne, hq]

theorem grown_put_file (ht : d.IsTree) (hp : IsOpen d p) (hP : p ≠ P) (content : ByteArray) :
    Grown P d (d.put p (.file content)) where
  tree := ht.put hp.ne_nil hp.up (.inr hp.not_directory)
  directories := keepsDirectories_put hp.ne_nil hp.not_directory
  file := fun c => by rw [node?_put_of_ne hp.ne_nil (Ne.symm hP)]

/-- A directory that is made where nothing is takes no file away. -/
theorem grown_put_directory (ht : d.IsTree) (hp : IsOpen d p) (hnone : d.node? p = none) :
    Grown P d (d.put p .directory) where
  tree := ht.put hp.ne_nil hp.up (.inl rfl)
  directories := keepsDirectories_put hp.ne_nil hp.not_directory
  file := fun c => by
    by_cases hP : P = p
    · rw [hP, node?_put_self hp.ne_nil, hnone]
      simp
    · rw [node?_put_of_ne hp.ne_nil hP]

/-- A file that is removed takes nothing else with it. -/
theorem grown_remove_file {content : ByteArray} (ht : d.IsTree)
    (hfile : d.node? p = some (.file content)) (hP : p ≠ P) : Grown P d (d.removeTree p) := by
  have hp : p ≠ [] := by
    rintro rfl
    exact nomatch (node?_nil d).symm.trans hfile
  have hnot : d.node? p ≠ some .directory := by rw [hfile]; simp
  have hdirectories : KeepsDirectories d (d.removeTree p) := by
    intro q hq
    rw [node?_removeTree hp, if_neg (ht.not_below hnot hq), hq]
  refine ⟨fun q n hq hn => ?_, hdirectories, fun c => ?_⟩
  · rw [node?_removeTree hp] at hn
    split at hn
    · exact nomatch hn
    · exact hdirectories _ (ht q n hq hn)
  · rw [node?_removeTree hp]
    split
    · rename_i hbelow
      refine ⟨nofun, fun hc => ?_⟩
      exact absurd (ht.eq_of_prefix hnot hbelow hc) (Ne.symm hP)
    · exact Iff.rfl

theorem isOpen_of_find {dir : Place} {name : String} {slash : Bool} (ht : d.IsTree)
    (hwd : d.node? wd = some .directory) (hfind : d.find wd path = .ok (.named dir name slash))
    (hnot : d.node? (dir ++ [name]) ≠ some .directory) : IsOpen d (dir ++ [name]) := by
  refine ⟨by simp, ?_, hnot⟩
  rw [List.dropLast_concat]
  exact directory_of_find ht hwd hfind

/-- What can be written is a name in a directory that is there, and no directory itself. -/
theorem names_of_writable (h : d.writable wd path = .ok p) :
    d.Names wd path ∧ p = lexical wd path ∧ p ≠ [] ∧ d.node? p ≠ some .directory := by
  rw [writable] at h
  obtain ⟨spot, hfind, h⟩ := bind_eq_ok h
  cases spot with
  | here => exact nomatch h
  | named dir name slash =>
    cases slash with
    | true => exact nomatch h
    | false =>
      obtain ⟨o, ho, h⟩ := bind_eq_ok h
      obtain ⟨hname, ho⟩ := child?_eq_ok ho
      split at h
      · exact nomatch h
      · rename_i hnot
        obtain rfl : dir ++ [name] = p := Except.ok.inj h
        exact ⟨⟨dir, name, hfind, hname⟩, (lexical_of_find hfind).symm, by simp,
          fun hdir => hnot (ho.trans hdir)⟩

theorem writable_eq_ok (ht : d.IsTree) (hwd : d.node? wd = some .directory)
    (h : d.writable wd path = .ok p) :
    d.Names wd path ∧ p = lexical wd path ∧ IsOpen d p := by
  obtain ⟨hnames, rfl, -, hnot⟩ := names_of_writable h
  obtain ⟨dir, name, hfind, -⟩ := id hnames
  rw [lexical_of_find hfind] at hnot ⊢
  exact ⟨hnames, rfl, isOpen_of_find ht hwd hfind hnot⟩

theorem create_eq_ok (ht : d.IsTree) (hwd : d.node? wd = some .directory)
    (h : d.create wd path = .ok d') :
    d.Names wd path ∧ IsOpen d (lexical wd path) ∧
      d' = d.put (lexical wd path) (.file .empty) := by
  obtain ⟨p, hp, h⟩ := bind_eq_ok h
  obtain ⟨hnames, rfl, hopen⟩ := writable_eq_ok ht hwd hp
  exact ⟨hnames, hopen, (Except.ok.inj h).symm⟩

/-- The bytes of a file; none where there is no file. -/
def bytesAt (d : Disk) (p : Place) : ByteArray :=
  match d.node? p with
  | some (.file content) => content
  | _ => .empty

theorem append_eq_ok (ht : d.IsTree) (hwd : d.node? wd = some .directory) {bytes : ByteArray}
    (h : d.append wd path bytes = .ok d') :
    d.Names wd path ∧ IsOpen d (lexical wd path) ∧
      d' = d.put (lexical wd path) (.file (d.bytesAt (lexical wd path) ++ bytes)) := by
  obtain ⟨p, hp, h⟩ := bind_eq_ok h
  obtain ⟨hnames, rfl, hopen⟩ := writable_eq_ok ht hwd hp
  exact ⟨hnames, hopen, (Except.ok.inj h).symm⟩

theorem makeDirectory_eq_ok (ht : d.IsTree) (hwd : d.node? wd = some .directory)
    (h : d.makeDirectory wd path = .ok d') :
    IsOpen d (lexical wd path) ∧ d.node? (lexical wd path) = none ∧
      d' = d.put (lexical wd path) .directory := by
  rw [makeDirectory] at h
  obtain ⟨spot, hfind, h⟩ := bind_eq_ok h
  cases spot with
  | here => exact nomatch h
  | named dir name slash =>
    obtain ⟨o, ho, h⟩ := bind_eq_ok h
    obtain ⟨-, ho⟩ := child?_eq_ok ho
    split at h
    · have hnone : d.node? (dir ++ [name]) = none := ho.symm
      have hopen := isOpen_of_find ht hwd hfind (by rw [hnone]; simp)
      rw [lexical_of_find hfind]
      exact ⟨hopen, hnone, (Except.ok.inj h).symm⟩
    · exact nomatch h

/-- What is removed is a file in a directory that is there. -/
theorem removeFile_eq_ok (h : d.removeFile wd path = .ok d') :
    d.Names wd path ∧ ∃ content, d.node? (lexical wd path) = some (.file content) ∧
      d' = d.removeTree (lexical wd path) := by
  rw [removeFile] at h
  obtain ⟨spot, hfind, h⟩ := bind_eq_ok h
  cases spot with
  | here => exact nomatch h
  | named dir name slash =>
    obtain ⟨o, ho, h⟩ := bind_eq_ok h
    obtain ⟨hname, ho⟩ := child?_eq_ok ho
    split at h
    · exact nomatch h
    · exact nomatch h
    · rename_i content _
      cases slash with
      | true => exact nomatch h
      | false =>
        rw [lexical_of_find hfind]
        exact ⟨⟨dir, name, hfind, hname⟩, content, ho.symm, (Except.ok.inj h).symm⟩

/-! ## Moving -/

/-- What moving one place to another needs and does. -/
structure Moves (d : Disk) (p q : Place) (n : Node) (d' : Disk) : Prop where
  source : d.node? p = some n
  source_ne_nil : p ≠ []
  target_ne_nil : q ≠ []
  target_up : d.node? q.dropLast = some .directory
  not_into : ¬p <+: q
  not_over : ¬q <+: p
  may : d.mayReplace p q = .ok ()
  eq : d' = d.moveTree p q

theorem moves_of_find {dir : Place} {name : String} {slash : Bool} (ht : d.IsTree)
    (hwd : d.node? wd = some .directory) (hfind : d.find wd target = .ok (.named dir name slash))
    (hsource : d.node? p = some n) (hp : p ≠ []) (hinto : ¬p.isPrefixOf (dir ++ [name]) = true)
    (hover : ¬(dir ++ [name]).isPrefixOf p = true)
    (hmay : d.mayReplace p (dir ++ [name]) = .ok ()) :
    Moves d p (dir ++ [name]) n (d.moveTree p (dir ++ [name])) where
  source := hsource
  source_ne_nil := hp
  target_ne_nil := by simp
  target_up := by
    rw [List.dropLast_concat]
    exact directory_of_find ht hwd hfind
  not_into := fun h => hinto (List.isPrefixOf_iff_prefix.mpr h)
  not_over := fun h => hover (List.isPrefixOf_iff_prefix.mpr h)
  may := hmay
  eq := rfl

theorem rename_eq_ok (ht : d.IsTree) (hwd : d.node? wd = some .directory)
    (h : d.rename wd source target = .ok d') :
    ∃ n, d.node? (lexical wd source) = some n ∧ (n ≠ .directory → d.Names wd target) ∧
      ((lexical wd source = lexical wd target ∧ d' = d) ∨
        Moves d (lexical wd source) (lexical wd target) n d') := by
  rw [rename] at h
  obtain ⟨spot, hfind, h⟩ := bind_eq_ok h
  obtain ⟨spot', hfind', h⟩ := bind_eq_ok h
  cases spot with
  | here => exact nomatch h
  | named dir name slash =>
    cases spot' with
    | here => exact nomatch h
    | named dir' name' slash' =>
      obtain ⟨o, ho, h⟩ := bind_eq_ok h
      obtain ⟨-, ho⟩ := child?_eq_ok ho
      rw [lexical_of_find hfind, lexical_of_find hfind']
      cases o with
      | none => exact nomatch h
      | some n =>
        obtain ⟨o', ho', h⟩ := bind_eq_ok h
        obtain ⟨hname', -⟩ := child?_eq_ok ho'
        refine ⟨n, ho.symm, ?_, ?_⟩
        · -- a file is not moved to a name with a slash after it
          intro hn
          cases slash' with
          | true => exact nomatch (if_pos ⟨hn, .inr rfl⟩ : ite _ _ _ = _).symm.trans h
          | false => exact ⟨dir', name', hfind', hname'⟩
        · -- the checks one by one: each that does not fail is a fact about the move
          split at h
          · exact nomatch h
          · split at h
            · rename_i heq
              exact .inl ⟨heq, (Except.ok.inj h).symm⟩
            · split at h
              · exact nomatch h
              · rename_i hinto
                split at h
                · exact nomatch h
                · rename_i hover
                  obtain ⟨u, hmay, h⟩ := bind_eq_ok h
                  obtain rfl := Except.ok.inj h
                  exact .inr (moves_of_find ht hwd hfind' ho.symm (by simp) hinto hover hmay)

namespace Moves

theorem tree (h : Moves d p q n d') (ht : d.IsTree) : d'.IsTree := by
  rw [h.eq]
  exact ht.moveTree h.source_ne_nil h.target_ne_nil h.not_into h.not_over h.target_up

theorem directory (h : Moves d p q n d') (ht : d.IsTree) {r : Place}
    (hr : d.node? r = some .directory) (hpr : ¬p <+: r) : d'.node? r = some .directory := by
  rw [h.eq]
  exact directory_moveTree ht h.source_ne_nil h.target_ne_nil h.not_into h.not_over h.source h.may
    hr hpr

theorem node?_below_target (h : Moves d p q n d') (r : Place) :
    d'.node? (q ++ r) = d.node? (p ++ r) := by
  rw [h.eq]
  exact node?_moveTree_append h.source_ne_nil h.target_ne_nil h.not_into h.not_over r

theorem node?_below_source (h : Moves d p q n d') {r : Place} (hr : p <+: r) :
    d'.node? r = none := by
  rw [h.eq]
  exact node?_moveTree_source h.source_ne_nil h.not_into h.not_over hr

theorem node?_beside (h : Moves d p q n d') {r : Place} (hp : ¬p <+: r) (hq : ¬q <+: r) :
    d'.node? r = d.node? r := by
  rw [h.eq]
  exact node?_moveTree_of_not_below h.target_ne_nil hp hq

theorem source_after (h : Moves d p q n d') : d'.node? p = none :=
  h.node?_below_source List.prefix_rfl

theorem target_after (h : Moves d p q n d') : d'.node? q = some n := by
  have hbelow := h.node?_below_target []
  rwa [List.append_nil, List.append_nil, h.source] at hbelow

/-- Moving a file changes what is at its old and its new place only. -/
theorem elsewhere {content : ByteArray} (h : Moves d p q (.file content) d') (ht : d.IsTree)
    {r : Place} (hrp : r ≠ p) (hrq : r ≠ q) : d'.node? r = d.node? r := by
  rw [h.eq]
  exact node?_moveTree_file ht h.source_ne_nil h.target_ne_nil h.not_into h.not_over h.source h.may
    hrp hrq

/-- Moving a file loses no directory. -/
theorem keepsDirectories {content : ByteArray} (h : Moves d p q (.file content) d')
    (ht : d.IsTree) : KeepsDirectories d d' :=
  fun r hr => h.directory ht hr (ht.not_below (by rw [h.source]; simp) hr)

end Moves

/-! ## Steps that succeed -/

theorem Names.isOpen (h : d.Names wd path) (ht : d.IsTree) (hwd : d.node? wd = some .directory)
    (hfree : d.node? (lexical wd path) ≠ some .directory) : IsOpen d (lexical wd path) := by
  obtain ⟨dir, name, hfind, -⟩ := h
  rw [lexical_of_find hfind] at hfree ⊢
  exact isOpen_of_find ht hwd hfind hfree

/-- A path that names a place can be written unless a directory is there. -/
theorem Names.writable_eq (h : d.Names wd path)
    (hfree : d.node? (lexical wd path) ≠ some .directory) :
    d.writable wd path = .ok (lexical wd path) := by
  obtain ⟨dir, name, hfind, hname⟩ := h
  rw [lexical_of_find hfind] at hfree ⊢
  rw [writable, hfind, ok_bind]
  simp only [child?_eq hname, ok_bind, Bool.false_eq_true, if_false]

theorem Names.create_eq (h : d.Names wd path)
    (hfree : d.node? (lexical wd path) ≠ some .directory) :
    d.create wd path = .ok (d.put (lexical wd path) (.file .empty)) := by
  rw [create, h.writable_eq hfree]
  rfl

theorem Names.append_eq (h : d.Names wd path)
    (hfree : d.node? (lexical wd path) ≠ some .directory) (bytes : ByteArray) :
    d.append wd path bytes =
      .ok (d.put (lexical wd path) (.file (d.bytesAt (lexical wd path) ++ bytes))) := by
  rw [append, h.writable_eq hfree]
  rfl

theorem Names.removeFile_eq {content : ByteArray} (h : d.Names wd path)
    (hfile : d.node? (lexical wd path) = some (.file content)) :
    d.removeFile wd path = .ok (d.removeTree (lexical wd path)) := by
  obtain ⟨dir, name, hfind, hname⟩ := h
  rw [lexical_of_find hfind] at hfile ⊢
  rw [removeFile, hfind, ok_bind]
  simp only [child?_eq hname, ok_bind, hfile, Bool.false_eq_true, if_false]
  rfl

/-- Making a directory that is there fails, but not for a directory that is missing. -/
theorem makeDirectory_of_isDirectory (h : d.isDirectory wd path = true) :
    ∃ cause, d.makeDirectory wd path = .error cause ∧ cause ≠ .notFound := by
  rw [isDirectory] at h
  rw [makeDirectory]
  split at h
  · exact nomatch h
  · rename_i spot hfind
    rw [hfind, ok_bind]
    cases spot with
    | here p => exact ⟨.alreadyExists, rfl, by decide⟩
    | named dir name slash =>
      have hnode : d.node? (dir ++ [name]) = some .directory := of_decide_eq_true h
      by_cases hname : Text.utf8Length name.toList ≤ nameMax
      · simp only [child?_eq hname, ok_bind, hnode]
        exact ⟨.alreadyExists, rfl, by decide⟩
      · have hchild : d.child? dir name = .error .nameTooLong := if_pos (by omega)
        simp only [hchild]
        exact ⟨.nameTooLong, rfl, by decide⟩

/-- A place that is no directory is above no other one that is in a directory. -/
theorem not_prefix_of_ne {dir : Place} {name : String} (ht : d.IsTree)
    (hp : d.node? p ≠ some .directory) (hdir : d.node? dir = some .directory)
    (hne : p ≠ dir ++ [name]) : p.isPrefixOf (dir ++ [name]) = false := by
  by_cases hpre : p <+: dir ++ [name]
  · rcases List.prefix_concat_iff.mp hpre with heq | hpre
    · exact absurd heq hne
    · exact absurd hpre (ht.not_below hp hdir)
  · exact Bool.eq_false_iff.mpr fun h => hpre (List.isPrefixOf_iff_prefix.mp h)

/-- A file can be moved to where no directory is. -/
theorem Names.rename_eq {content : ByteArray} (hsource : d.Names wd source)
    (htarget : d.Names wd target) (ht : d.IsTree) (hwd : d.node? wd = some .directory)
    (hfile : d.node? (lexical wd source) = some (.file content))
    (hfree : d.node? (lexical wd target) ≠ some .directory)
    (hne : lexical wd source ≠ lexical wd target) :
    d.rename wd source target =
      .ok (d.moveTree (lexical wd source) (lexical wd target)) := by
  obtain ⟨dir, name, hfind, hname⟩ := hsource
  obtain ⟨dir', name', hfind', hname'⟩ := htarget
  rw [lexical_of_find hfind] at hfile hne ⊢
  rw [lexical_of_find hfind'] at hfree hne ⊢
  have hinto := not_prefix_of_ne ht (by rw [hfile]; simp) (directory_of_find ht hwd hfind') hne
  have hover := not_prefix_of_ne ht hfree (directory_of_find ht hwd hfind) (Ne.symm hne)
  have hmay : d.mayReplace (dir ++ [name]) (dir' ++ [name']) = .ok () := by
    rw [mayReplace, hfile]
    cases hn : d.node? (dir' ++ [name']) with
    | none => rfl
    | some n =>
      cases n with
      | file content' => rfl
      | directory => exact absurd hn hfree
  rw [rename, hfind, ok_bind, hfind', ok_bind]
  simp only [child?_eq hname, child?_eq hname', ok_bind, hfile, hne, hinto, hover, hmay]
  rfl

end EditGate.Disk
