import EditGate.Proofs.Disk.Make

/-!
# Disks that differ in what a file leaves behind

Two disks are twins if they differ at one file and at the directories that were made for it only
(`Twin`). On one of them the directories may be missing, so a path that leads through one of them is
not found there, and on the other one it comes to nothing either, unless it goes up again
(`Twin.find_cases`). Steps on twins answer the same and leave twins (`Alike`).
-/

namespace EditGate.Disk

variable {d d' : Disk} {wd p q : Place} {path source target : Path} {piece : List Char}
  {pieces before : List (List Char)} {n : Node} {cause : Cause}

/-! ## Twins -/

/-- Where disks may differ. -/
structure Slack where
  /-- Where one disk may have a directory and the other one nothing. -/
  directory : Place → Prop
  /-- Where the disks may have anything. -/
  file : Place → Prop
  /-- Where both have a directory. -/
  kept : Place → Prop
  /-- Whether there is nothing but directories where only one disk may have one. -/
  bare : Prop
  directory_ne_file : ∀ p, directory p → ¬file p
  kept_ne : ∀ p, kept p → ¬directory p ∧ ¬file p

variable {s : Slack}

namespace Slack

/-- The disks agree at the place. -/
def Spares (s : Slack) (p : Place) : Prop := ¬s.directory p ∧ ¬s.file p

/-- The place is not above one that is spoken of. -/
def Clears (s : Slack) (p : Place) : Prop :=
  ∀ q, s.directory q ∨ s.file q ∨ s.kept q → ¬p <+: q

/-- The path leads to a place where the disks agree. It does not go through the file, and from a
directory that may be missing it goes on to a name only. -/
structure Admits (s : Slack) (wd : Place) (path : Path) : Prop where
  file : ∀ fs rest, Text.splitOn '/' path = fs ++ rest → (∃ x ∈ rest, x ≠ []) →
    ¬s.file (fs.foldl stride (startOf wd path))
  directory : ∀ fs x rest, Text.splitOn '/' path = fs ++ x :: rest →
    s.directory (fs.foldl stride (startOf wd path)) →
      x ≠ Path.dotDot ∧ Text.utf8Length x ≤ nameMax

theorem Clears.spares (h : s.Clears p) : s.Spares p :=
  ⟨fun hp => h p (.inl hp) List.prefix_rfl, fun hp => h p (.inr (.inl hp)) List.prefix_rfl⟩

theorem Clears.spares_append (h : s.Clears p) (r : Place) : s.Spares (p ++ r) :=
  ⟨fun hp => h _ (.inl hp) (List.prefix_append p r),
    fun hp => h _ (.inr (.inl hp)) (List.prefix_append p r)⟩

end Slack

/-- Nothing is in a directory that is missing. -/
theorem IsTree.none_below {name : String} (h : d.IsTree) (hp : d.node? p = none) :
    d.node? (p ++ [name]) = none := by
  by_contra hsome
  obtain ⟨n, hn⟩ := Option.ne_none_iff_exists'.mp hsome
  exact nomatch (h.directory_above hn (List.cons_ne_nil _ _)).symm.trans hp

/-- The second disk has what the first one has, but for the file and directories that lead to it. -/
structure Twin (s : Slack) (d d' : Disk) : Prop where
  tree : d.IsTree
  tree' : d'.IsTree
  same : ∀ p, s.Spares p → d'.node? p = d.node? p
  directory : ∀ p, s.directory p → d'.node? p = d.node? p ∨
    (d.node? p = none ∧ d'.node? p = some .directory ∧ IsShort p)
  file : ∀ p, s.file p → d.node? p ≠ some .directory
  kept : ∀ p, s.kept p → d.node? p = some .directory
  bare : s.bare → ∀ p, s.directory p → ∀ content, d.node? p ≠ some (.file content)

namespace Twin

theorem refl (ht : d.IsTree) (hfile : ∀ p, s.file p → d.node? p ≠ some .directory)
    (hkept : ∀ p, s.kept p → d.node? p = some .directory)
    (hbare : s.bare → ∀ p, s.directory p → ∀ content, d.node? p ≠ some (.file content)) :
    Twin s d d := ⟨ht, ht, fun _ _ => rfl, fun _ _ => .inl rfl, hfile, hkept, hbare⟩

theorem kept' (h : Twin s d d') (hp : s.kept p) : d'.node? p = some .directory := by
  rw [h.same p (s.kept_ne p hp), h.kept p hp]

/-- What is a directory on the first disk is one on the second. -/
theorem same_of_directory (h : Twin s d d') (hp : d.node? p = some .directory) :
    d'.node? p = d.node? p := by
  by_cases hdir : s.directory p
  · exact (h.directory p hdir).resolve_right fun hnone => nomatch hp.symm.trans hnone.1
  · exact h.same p ⟨hdir, fun hfile => h.file p hfile hp⟩

theorem directories (h : Twin s d d') : KeepsDirectories d d' := fun _ hp =>
  (h.same_of_directory hp).trans hp

/-! ## Looking for paths -/

/-- From a directory that is missing on the first disk, names lead to nothing on the second, or to
another such directory. -/
theorem foldlM_missing (h : Twin s d d') (hp : s.directory p) (hnone : d.node? p = none)
    (hfile : ∀ fs, fs <+: pieces → ¬s.file (fs.foldl stride p))
    (hdir : ∀ fs x rest, pieces = fs ++ x :: rest → s.directory (fs.foldl stride p) →
      x ≠ Path.dotDot ∧ Text.utf8Length x ≤ nameMax) :
    pieces.foldlM d'.descend p = .error .notFound ∨
      ∃ q, pieces.foldlM d'.descend p = .ok q ∧ s.directory q ∧ d.node? q = none := by
  induction pieces generalizing p with
  | nil => exact .inr ⟨p, rfl, hp, hnone⟩
  | cons x xs ih =>
    have hrest : ∀ q, stride p x = q → s.directory q → d.node? q = none →
        xs.foldlM d'.descend q = .error .notFound ∨
          ∃ q', xs.foldlM d'.descend q = .ok q' ∧ s.directory q' ∧ d.node? q' = none := by
      rintro q rfl hq hqnone
      exact ih hq hqnone (fun fs hfs => hfile (x :: fs) ((List.prefix_cons_inj x).mpr hfs))
        fun fs y rest hxs => hdir (x :: fs) y rest (by rw [hxs]; rfl)
    obtain ⟨hup, hshort⟩ := hdir [] x xs rfl hp
    rw [List.foldlM_cons]
    by_cases hidle : Idle x
    · rw [descend, if_pos hidle]
      exact hrest p (by rw [stride, if_pos hidle]) hp hnone
    -- nothing is below a place that is missing, so every further name is missing on the first disk
    -- too
    have hqnone : d.node? (stride p x) = none := by
      rw [stride, if_neg hidle, if_neg hup]
      exact h.tree.none_below hnone
    rw [descend_of_name hidle hup hshort]
    by_cases hq : s.directory (stride p x)
    · rcases h.directory _ hq with hsame | ⟨-, hdir', -⟩
      · simp only [hsame, hqnone]
        exact .inl rfl
      · simp only [hdir']
        exact hrest _ rfl hq hqnone
    · simp only [h.same _ ⟨hq, hfile [x] (by simp)⟩, hqnone]
      exact .inl rfl

/-- Names lead to the same on both disks, or to a directory that is missing on the first. -/
theorem foldlM_cases (h : Twin s d d')
    (hfile : ∀ fs, fs <+: pieces → ¬s.file (fs.foldl stride p))
    (hdir : ∀ fs x rest, pieces = fs ++ x :: rest → s.directory (fs.foldl stride p) →
      x ≠ Path.dotDot ∧ Text.utf8Length x ≤ nameMax) :
    pieces.foldlM d'.descend p = pieces.foldlM d.descend p ∨
      (pieces.foldlM d.descend p = .error .notFound ∧
        (pieces.foldlM d'.descend p = .error .notFound ∨
          ∃ q, pieces.foldlM d'.descend p = .ok q ∧ s.directory q ∧ d.node? q = none)) := by
  induction pieces generalizing p with
  | nil => exact .inl rfl
  | cons x xs ih =>
    have hfile' : ∀ fs, fs <+: xs → ¬s.file (fs.foldl stride (stride p x)) := fun fs hfs =>
      hfile (x :: fs) ((List.prefix_cons_inj x).mpr hfs)
    have hdir' : ∀ fs y rest, xs = fs ++ y :: rest → s.directory (fs.foldl stride (stride p x)) →
        y ≠ Path.dotDot ∧ Text.utf8Length y ≤ nameMax := fun fs y rest hxs =>
      hdir (x :: fs) y rest (by rw [hxs]; rfl)
    rw [List.foldlM_cons, List.foldlM_cons]
    by_cases hsame : d'.descend p x = d.descend p x
    · -- both disks lead the same way by this name, so the induction goes on from there
      rw [hsame]
      cases hq : d.descend p x with
      | error cause => exact .inl rfl
      | ok q =>
        obtain rfl := eq_stride_of_descend hq
        exact ih hfile' hdir'
    · -- the name leads to a directory that only the second disk has
      have hne : d'.node? (stride p x) ≠ d.node? (stride p x) := fun he => hsame (descend_congr he)
      have hxdir : s.directory (stride p x) := by
        by_contra hxdir
        exact hne (h.same _ ⟨hxdir, hfile [x] (by simp)⟩)
      obtain ⟨hnone, hsome, -⟩ := (h.directory _ hxdir).resolve_left hne
      obtain ⟨hidle, hup, hshort⟩ := name_of_descend_ne hsame
      rw [descend_of_name hidle hup hshort, descend_of_name hidle hup hshort]
      simp only [hnone, hsome]
      exact .inr ⟨rfl, h.foldlM_missing hxdir hnone hfile' hdir'⟩

/-- A path is found alike on both disks, or it is not found on the first; then on the second it ends
in a name that is looked for in a directory that is missing on the first. -/
theorem find_cases (h : Twin s d d') (hpath : s.Admits wd path) :
    d'.find wd path = d.find wd path ∨
      (d.find wd path = .error .notFound ∧
        (d'.find wd path = .error .notFound ∨ ∃ before last slash q, Last path before last slash ∧
          before.foldlM d'.descend (startOf wd path) = .ok q ∧ s.directory q ∧ d.node? q = none ∧
          last ≠ Path.dotDot ∧ Text.utf8Length last ≤ nameMax)) := by
  rcases find_eq path with hrefused | ⟨-, hfind⟩ | ⟨before, last, slash, hlast⟩
  · obtain ⟨cause, hfind⟩ := hrefused.find
    exact .inl (by rw [hfind, hfind])
  · exact .inl (by rw [hfind, hfind])
  · obtain ⟨trailing, hsplit, -⟩ := hlast.split
    have hfile : ∀ fs, fs <+: before → ¬s.file (fs.foldl stride (startOf wd path)) := by
      rintro fs ⟨t, rfl⟩
      exact hpath.file fs (t ++ last :: trailing) (by rw [hsplit, List.append_assoc])
        ⟨last, by simp, hlast.ne_nil⟩
    have hdir : ∀ fs x rest, before = fs ++ x :: rest →
        s.directory (fs.foldl stride (startOf wd path)) →
          x ≠ Path.dotDot ∧ Text.utf8Length x ≤ nameMax := by
      rintro fs x rest rfl
      exact hpath.directory fs x (rest ++ last :: trailing) (by rw [hsplit]; simp)
    rw [hlast.find, hlast.find]
    rcases h.foldlM_cases hfile hdir with hsame | ⟨hd, hd' | ⟨q, hd', hq, hnone⟩⟩
    · rw [hsame]
      simp only [finish_congr d d', true_or]
    · rw [hd, hd']
      exact .inl rfl
    · -- the way is missing on the first disk, and ends before the last name on the second
      rw [hd]
      obtain rfl := eq_foldl_of_foldlM hd'
      obtain ⟨hup, hshort⟩ := hpath.directory before last trailing hsplit hq
      exact .inr ⟨rfl, .inr ⟨before, last, slash, _, hlast, hd', hq, hnone, hup, hshort⟩⟩

end Twin

/-- The path comes to nothing. -/
def Vain (d : Disk) (wd : Place) (path : Path) : Prop :=
  d.find wd path = .error .notFound ∨ ∃ dir name slash,
    d.find wd path = .ok (.named dir name slash) ∧ Text.utf8Length name.toList ≤ nameMax ∧
      d.node? (dir ++ [name]) = none

theorem Vain.read (h : d.Vain wd path) : d.read wd path = .error .notFound := by
  rw [Disk.read]
  rcases h with hfind | ⟨dir, name, slash, hfind, hname, hnone⟩
  · rw [hfind]
    rfl
  · rw [hfind, ok_bind]
    simp only [child?_eq hname, ok_bind, hnone]

theorem Vain.removeFile (h : d.Vain wd path) : d.removeFile wd path = .error .notFound := by
  rw [Disk.removeFile]
  rcases h with hfind | ⟨dir, name, slash, hfind, hname, hnone⟩
  · rw [hfind]
    rfl
  · rw [hfind, ok_bind]
    simp only [child?_eq hname, ok_bind, hnone]

namespace Twin

/-- A path to a place where the disks agree is found alike, or comes to nothing on both. -/
theorem find_spared (h : Twin s d d') (hpath : s.Admits wd path)
    (hplace : s.Spares (lexical wd path)) :
    d'.find wd path = d.find wd path ∨ (d.Vain wd path ∧ d'.Vain wd path) := by
  rcases h.find_cases hpath with hsame | ⟨hd, hd' | ⟨before, last, slash, q, hlast, hq, hdir, hnone,
    hup, hshort⟩⟩
  · exact .inl hsame
  · exact .inr ⟨.inl hd, .inl hd'⟩
  · refine .inr ⟨.inl hd, .inr ⟨q, String.ofList last, slash, ?_⟩⟩
    obtain ⟨trailing, hsplit, htrailing⟩ := hlast.split
    have hlexical : lexical wd path = stride q last := by
      rw [lexical, hsplit, List.foldl_append, List.foldl_cons, foldl_stride_empty htrailing,
        ← eq_foldl_of_foldlM hq]
    have hidle : ¬Idle last := by
      intro hidle
      rw [hlexical, stride, if_pos hidle] at hplace
      exact hplace.1 hdir
    rw [hlexical, stride, if_neg hidle, if_neg hup] at hplace
    refine ⟨?_, by rwa [String.toList_ofList], ?_⟩
    · rw [hlast.find, hq, ok_bind, finish, if_neg fun hdots => hdots.elim (hidle ∘ .inr) hup]
    · rw [h.same _ hplace, h.tree.none_below hnone]

theorem child?_eq (h : Twin s d d') {dir : Place} {name : String} (hp : s.Spares (dir ++ [name])) :
    d'.child? dir name = d.child? dir name := by
  rw [child?, child?, h.same _ hp]

/-- A file where the disks agree reads the same. -/
theorem read_of_find (h : Twin s d d') (hfind : d'.find wd path = d.find wd path)
    (hplace : s.Spares (lexical wd path)) : d'.read wd path = d.read wd path := by
  rw [Disk.read, Disk.read, hfind]
  cases hspot : d.find wd path with
  | error cause => rfl
  | ok spot =>
    cases spot with
    | here q => rfl
    | named dir name slash =>
      rw [lexical_of_find hspot] at hplace
      simp only [ok_bind, h.child?_eq hplace]

theorem read_eq (h : Twin s d d') (hpath : s.Admits wd path) (hplace : s.Spares (lexical wd path)) :
    d'.read wd path = d.read wd path := by
  rcases h.find_spared hpath hplace with hsame | ⟨hvain, hvain'⟩
  · exact h.read_of_find hsame hplace
  · rw [hvain.read, hvain'.read]

/-- A paved path is found alike. -/
theorem find_paved (h : Twin s d d') (hwd : d.node? wd = some .directory)
    (hpaved : d.Paved wd path) (hplace : s.Spares (lexical wd path) ∨ Tight path) :
    d'.find wd path = d.find wd path := by
  refine find_congr fun fs rest hsplit hrest => ?_
  by_cases hcounts : ∃ x ∈ rest, ¬Idle x
  · exact h.same_of_directory (hpaved fs rest hsplit hcounts)
  rcases hplace with hplace | htight
  · -- the path has led to its end
    have hidle : ∀ x ∈ rest, Idle x := fun x hx => by_contra fun hx' => hcounts ⟨x, hx, hx'⟩
    refine h.same _ ?_
    rwa [lexical, hsplit, List.foldl_append, foldl_stride_idle hidle] at hplace
  · rw [foldl_stride_idle ((htight fs rest hsplit hrest).resolve_left hcounts)]
    exact h.same_of_directory (directory_of_startOf hwd path)

end Twin

end EditGate.Disk
