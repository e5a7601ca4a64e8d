import EditGate.Proofs.Disk.Walk

/-!
# Making directories

Making a directory and those that lead to it, as a function of the disk (`makeAll`). It adds
directories on the way only (`node?_makeAll`), nothing is made that is there
(`makeAll_of_isDirectory`), and it succeeds if each place on the way is a directory or nothing
(`makeAll_ok`).
-/

namespace EditGate.Disk

variable {d d' : Disk} {wd p q : Place} {path parent : Path} {piece last : List Char}
  {front back before : List (List Char)} {spot : Spot} {limit : Nat}

/-- Makes a directory unless it is there. -/
def settle (d : Disk) (wd : Place) (path : Path) : Except Cause Unit × Disk :=
  match d.makeDirectory wd path with
  | .ok d' => (.ok (), d')
  | .error cause => (if d.isDirectory wd path then .ok () else .error cause, d)

/-- Makes a directory once those that lead to it are made. -/
def settleAfter (wd : Place) (path : Path) : Except Cause Unit × Disk → Except Cause Unit × Disk
  | (.error cause, d) => (.error cause, d)
  | (.ok (), d) => d.settle wd path

/-- Makes a directory and those that lead to it; `limit` bounds how many of those are tried. -/
def makeAll : (limit : Nat) → Disk → Place → Path → Except Cause Unit × Disk
  | 0, d, _, _ => (.error .noWholeTree, d)
  | limit + 1, d, wd, path =>
    if path.isEmpty then (.ok (), d)
    else
      match d.makeDirectory wd path with
      | .error .notFound =>
        match path.parent? with
        | none => (.error .noWholeTree, d)
        | some parent => settleAfter wd path (makeAll limit d wd parent)
      | _ => d.settle wd path

/-- Makes the directory that a path is in, and those that lead to it. -/
def makeParents (d : Disk) (wd : Place) (path : Path) : Except Cause Unit × Disk :=
  match path.parent? with
  | some parent => makeAll (parent.length + 1) d wd parent
  | none => (.ok (), d)

theorem makeDirectory_of_error {cause : Cause} (h : d.find wd path = .error cause) :
    d.makeDirectory wd path = .error cause := by
  rw [makeDirectory, h]
  rfl

theorem makeDirectory_of_here (h : d.find wd path = .ok (.here p)) :
    d.makeDirectory wd path = .error .alreadyExists := by
  rw [makeDirectory, h]
  rfl

theorem makeDirectory_of_named {dir : Place} {name : String} {slash : Bool}
    (h : d.find wd path = .ok (.named dir name slash)) :
    d.makeDirectory wd path =
      if Text.utf8Length name.toList > nameMax then .error .nameTooLong
      else if d.node? (dir ++ [name]) = none then .ok (d.put (dir ++ [name]) .directory)
      else .error .alreadyExists := by
  rw [makeDirectory, h, ok_bind]
  simp only [child?]
  split
  · rfl
  · rw [ok_bind]
    cases d.node? (dir ++ [name]) with
    | none => rfl
    | some n => rfl

theorem makeDirectory_eq_notFound_iff :
    d.makeDirectory wd path = .error .notFound ↔ d.find wd path = .error .notFound := by
  cases hfind : d.find wd path with
  | error cause => rw [makeDirectory_of_error hfind, Except.error.injEq, Except.error.injEq]
  | ok spot =>
    cases spot with
    | here q => simp [makeDirectory_of_here hfind]
    | named dir name slash =>
      rw [makeDirectory_of_named hfind]
      split
      · simp
      · split
        · simp
        · simp

theorem isDirectory_of_find (h : d.find wd path = .ok spot) :
    d.isDirectory wd path = d.isDirectoryAt spot.place := by
  rw [isDirectory, h]

/-- A directory is at a path that leads to its name. -/
theorem isDirectory_of_named {dir : Place} {name : String} {slash : Bool}
    (hfind : d.find wd path = .ok (.named dir name slash))
    (h : d.node? (dir ++ [name]) = some .directory) : d.isDirectory wd path = true := by
  rw [isDirectory_of_find hfind]
  exact decide_eq_true h

/-- Where a path leads, a directory that is made there is at the path. -/
theorem isDirectory_put {dir : Place} {name : String} {slash : Bool}
    (hfind : d.find wd path = .ok (.named dir name slash)) (hopen : IsOpen d (dir ++ [name])) :
    (d.put (dir ++ [name]) .directory).isDirectory wd path = true :=
  isDirectory_of_named
    (find_mono (keepsDirectories_put hopen.ne_nil hopen.not_directory) hfind)
    (node?_put_self hopen.ne_nil)

theorem settle_of_error {cause : Cause} (h : d.find wd path = .error cause) :
    d.settle wd path = (.error cause, d) := by
  have hnot : d.isDirectory wd path = false := by rw [isDirectory, h]
  rw [settle, makeDirectory_of_error h]
  simp only [hnot, Bool.false_eq_true, if_false]

theorem settle_of_here (h : d.find wd path = .ok (.here p)) (hp : d.node? p = some .directory) :
    d.settle wd path = (.ok (), d) := by
  have hdir : d.isDirectory wd path = true := by
    rw [isDirectory_of_find h]
    exact decide_eq_true hp
  rw [settle, makeDirectory_of_here h]
  simp only [hdir, if_true]

theorem settle_of_named {dir : Place} {name : String} {slash : Bool}
    (h : d.find wd path = .ok (.named dir name slash)) :
    d.settle wd path =
      if d.node? (dir ++ [name]) = some .directory then (.ok (), d)
      else if Text.utf8Length name.toList > nameMax then (.error .nameTooLong, d)
      else if d.node? (dir ++ [name]) = none then (.ok (), d.put (dir ++ [name]) .directory)
      else (.error .alreadyExists, d) := by
  rw [settle, makeDirectory_of_named h, isDirectory_of_find h, Spot.place, isDirectoryAt]
  by_cases hlong : Text.utf8Length name.toList > nameMax
  · simp only [if_pos hlong, decide_eq_true_eq]
    split
    · rfl
    · rfl
  · simp only [if_neg hlong]
    by_cases hnone : d.node? (dir ++ [name]) = none
    · simp [hnone]
    · simp only [if_neg hnone, decide_eq_true_eq]
      split
      · rfl
      · rfl

/-- A path that is not found has its parents made first. -/
theorem makeAll_of_notFound (hne : path ≠ []) (h : d.find wd path = .error .notFound) :
    makeAll (limit + 1) d wd path =
      match path.parent? with
      | none => (.error .noWholeTree, d)
      | some parent => settleAfter wd path (makeAll limit d wd parent) := by
  rw [makeAll, if_neg (by simpa using hne), makeDirectory_eq_notFound_iff.mpr h]

theorem makeAll_of_ne_notFound (hne : path ≠ []) (h : d.find wd path ≠ .error .notFound) :
    makeAll (limit + 1) d wd path = d.settle wd path := by
  rw [makeAll, if_neg (by simpa using hne)]
  split
  · rename_i hmake
    exact absurd (makeDirectory_eq_notFound_iff.mp hmake) h
  · rfl

/-! ## Directories that are there -/

theorem directory_of_here (ht : d.IsTree) (hwd : d.node? wd = some .directory)
    (h : d.find wd path = .ok (.here p)) : d.node? p = some .directory := by
  rcases find_cases h with ⟨hspot, -⟩ | ⟨before, last, slash, dir, hlast, hdir, hspot⟩
  · cases hspot
    exact directory_of_startOf hwd path
  · rcases finish_eq_ok hspot with ⟨-, hq, -⟩ | ⟨-, hspot⟩
    · exact directory_of_descend ht (directory_of_foldlM ht (directory_of_startOf hwd path) hdir) hq
    · cases hspot

/-- What comes before the last component of a path that is found is walked through. -/
theorem foldlM_front (h : Parent wd path parent front piece back)
    (hfind : d.find wd path = .ok spot) :
    ∃ q, front.foldlM d.descend (startOf wd path) = .ok q := by
  rcases find_cases hfind with ⟨-, hempty⟩ | ⟨before, last, slash, dir, hlast, hdir, -⟩
  · exact absurd (hempty piece (by rw [h.split]; simp)) h.piece_ne_nil
  · obtain ⟨trailing, hsplit, htrailing⟩ := hlast.split
    have hfront : front <+: before := by
      by_cases hfront : front = []
      · simp [hfront]
      · exact prefix_of_trailing (hsplit.symm.trans h.split) (fun x hx => .inl (htrailing x hx))
          ⟨piece, by simp, h.counts hfront⟩
    obtain ⟨t, rfl⟩ := hfront
    rw [List.foldlM_append] at hdir
    obtain ⟨q, hq, -⟩ := bind_eq_ok hdir
    exact ⟨q, hq⟩

theorem Parent.refused (h : Parent wd path parent front piece back) (hne : parent ≠ [])
    (hrefused : Refused parent) : Refused path := by
  obtain ⟨rest, rfl⟩ := h.starts
  rcases hrefused with hnul | hempty | hlong
  · exact .inl (by simp_all)
  · exact absurd hempty hne
  · refine .inr (.inr ?_)
    rw [Text.utf8Length_append]
    omega

/-- A path is found if what comes before the last component of one in it is walked through. -/
theorem exists_find_parent (h : Parent wd path parent front piece back)
    (hrefused : ¬Refused parent) (hq : front.foldlM d.descend (startOf wd path) = .ok q) :
    ∃ spot, d.find wd parent = .ok spot := by
  rcases find_eq parent with hrefused' | ⟨-, hfind⟩ | ⟨before, last, slash, hlast⟩
  · exact absurd hrefused' hrefused
  · exact ⟨_, hfind d wd⟩
  · obtain ⟨trailing, hsplit, htrailing⟩ := hlast.split
    obtain ⟨kept, dropped, trail, rfl, hpieces, -, htrail⟩ := h.pieces
    have hnot : last ∉ trail := fun hmem => hlast.ne_nil (htrail last hmem)
    have hkept : before ++ [last] <+: kept := by
      have heq : before ++ last :: trailing = kept ++ trail := hsplit.symm.trans hpieces
      rcases List.append_eq_append_iff.mp heq with ⟨t, rfl, ht⟩ | ⟨t, rfl, ht⟩
      · cases t with
        | nil =>
          rw [List.nil_append] at ht
          exact absurd (ht ▸ List.mem_cons_self) hnot
        | cons x xs =>
          obtain ⟨rfl, -⟩ := List.cons.inj ht
          exact (List.prefix_append_right_inj before).mpr (by simp)
      · exact absurd (by rw [ht]; simp) hnot
    obtain ⟨t, ht⟩ := hkept.trans (List.prefix_append kept dropped)
    rw [← ht, List.append_assoc, List.foldlM_append, ← h.start] at hq
    obtain ⟨dir, hdir, hq⟩ := bind_eq_ok hq
    obtain ⟨q', hq', -⟩ := foldlM_descend_cons hq
    rw [hlast.find, hdir, ok_bind, finish]
    split
    · exact ⟨_, by rw [hq']; rfl⟩
    · exact ⟨_, rfl⟩

/-- The parent of a path that is found is there. -/
theorem isDirectory_parent (ht : d.IsTree) (hwd : d.node? wd = some .directory)
    (h : Parent wd path parent front piece back) (hfind : d.find wd path = .ok spot) :
    parent = [] ∨ d.isDirectory wd parent = true := by
  by_cases hnil : parent = []
  · exact .inl hnil
  obtain ⟨q, hq⟩ := foldlM_front h hfind
  have hrefused : ¬Refused parent := by
    intro hrefused
    obtain ⟨cause, hnever⟩ := (h.refused hnil hrefused).find
    cases (hnever d wd).symm.trans hfind
  obtain ⟨spot, hfound⟩ := exists_find_parent h hrefused hq
  have hplace : d.node? spot.place = some .directory := by
    rw [place_of_find hfound, h.lexical_parent, ← eq_foldl_of_foldlM hq]
    exact directory_of_foldlM ht (directory_of_startOf hwd path) hq
  refine .inr ?_
  rw [isDirectory, hfound]
  exact decide_eq_true hplace

/-- What is there already is not made. -/
theorem makeAll_of_isDirectory (hlimit : 0 < limit)
    (h : path = [] ∨ d.isDirectory wd path = true) : makeAll limit d wd path = (.ok (), d) := by
  obtain ⟨limit, rfl⟩ := Nat.exists_eq_add_one.mpr hlimit
  by_cases hne : path = []
  · rw [hne, makeAll]
    rfl
  have hdir := h.resolve_left hne
  obtain ⟨cause, hmake, hcause⟩ := makeDirectory_of_isDirectory hdir
  have hfind : d.find wd path ≠ .error .notFound := fun hfind =>
    hcause (Except.error.inj (hmake.symm.trans (makeDirectory_of_error hfind)))
  rw [makeAll_of_ne_notFound hne hfind, settle, hmake]
  simp only [hdir, if_true]

/-! ## What is made -/

/-- The last name of a place can be looked for. -/
def IsShort (p : Place) : Prop := ∀ name ∈ p.getLast?, Text.utf8Length name.toList ≤ nameMax

/-- A directory that is made is made where nothing was. -/
theorem settle_cases (ht : d.IsTree) (hwd : d.node? wd = some .directory) :
    (d.settle wd path).2 = d ∨ ((d.settle wd path).2 = d.put (lexical wd path) .directory ∧
      IsOpen d (lexical wd path) ∧ d.node? (lexical wd path) = none ∧
      IsShort (lexical wd path)) := by
  cases hspot : d.find wd path with
  | error cause => exact .inl (by rw [settle_of_error hspot])
  | ok spot =>
    cases spot with
    | here p => exact .inl (by rw [settle_of_here hspot (directory_of_here ht hwd hspot)])
    | named dir name slash =>
      rw [settle_of_named hspot, lexical_of_find hspot]
      split
      · exact .inl rfl
      · split
        · exact .inl rfl
        · split
          · rename_i hnot hshort hnone
            refine .inr ⟨rfl, isOpen_of_find ht hwd hspot hnot, hnone, fun last hlast => ?_⟩
            rw [List.getLast?_concat, Option.mem_some_iff] at hlast
            exact hlast ▸ Nat.le_of_not_gt hshort
          · exact .inl rfl

/-- What the directory at the end of a path preserves, if it is made, is preserved by settling. -/
theorem settle_preserves {P : Disk → Prop} (ht : d.IsTree) (hwd : d.node? wd = some .directory)
    (hput : IsOpen d (lexical wd path) → d.node? (lexical wd path) = none →
      IsShort (lexical wd path) → P (d.put (lexical wd path) .directory)) (hP : P d) :
    P (d.settle wd path).2 ∧ (d.settle wd path).2.IsTree ∧
      KeepsDirectories d (d.settle wd path).2 := by
  rcases @settle_cases d wd path ht hwd with hsame | ⟨hmade, hopen, hnone, hshort⟩
  · rw [hsame]
    exact ⟨hP, ht, fun _ hq => hq⟩
  · rw [hmade]
    exact ⟨hput hopen hnone hshort, ht.put hopen.ne_nil hopen.up (.inl rfl),
      keepsDirectories_put hopen.ne_nil hopen.not_directory⟩

/-- What each directory that is made preserves is preserved by making all of them. -/
theorem makeAll_preserves {P : Disk → Prop} (limit : Nat)
    (hput : ∀ e q, P e → q ∈ way wd path → IsOpen e q → e.node? q = none → IsShort q →
      P (e.put q .directory))
    (ht : d.IsTree) (hwd : d.node? wd = some .directory) (hP : P d) :
    P (makeAll limit d wd path).2 ∧ (makeAll limit d wd path).2.IsTree ∧
      KeepsDirectories d (makeAll limit d wd path).2 := by
  induction limit generalizing path with
  | zero => exact ⟨hP, ht, fun _ hp => hp⟩
  | succ limit ih =>
    by_cases hne : path = []
    · rw [hne]
      exact ⟨hP, ht, fun _ hp => hp⟩
    by_cases hd : d.find wd path = .error .notFound
    · rw [makeAll_of_notFound hne hd]
      cases hparent : path.parent? with
      | none => exact ⟨hP, ht, fun _ hp => hp⟩
      | some parent =>
        -- all that leads to the parent is on the way to the path
        obtain ⟨front, piece, back, -, hp⟩ := parent_of_parent? hparent wd
        have hmade := @ih parent fun e q heP hq => hput e q heP (hp.way_subset hq)
        revert hmade
        dsimp only
        obtain ⟨o, e⟩ := makeAll limit d wd parent
        intro hmade
        obtain ⟨heP, het, hkeep⟩ := hmade
        cases o with
        | error cause => exact ⟨heP, het, hkeep⟩
        | ok u =>
          obtain ⟨hsettled, htree, hkept⟩ := settle_preserves het (hkeep wd hwd)
            (hput e _ heP (lexical_mem_way wd path)) heP
          exact ⟨hsettled, htree, fun q hq => hkept q (hkeep q hq)⟩
    · rw [makeAll_of_ne_notFound hne hd]
      exact settle_preserves ht hwd (hput d _ hP (lexical_mem_way wd path)) hP

/-- Making directories leaves everything that is there, and adds directories on the way only. -/
theorem node?_makeAll (limit : Nat) (ht : d.IsTree) (hwd : d.node? wd = some .directory) (q : Place) :
    (makeAll limit d wd path).2.node? q = d.node? q ∨
      (q ∈ way wd path ∧ d.node? q = none ∧
        (makeAll limit d wd path).2.node? q = some .directory) := by
  refine (makeAll_preserves (P := fun e => e.node? q = d.node? q ∨
    (q ∈ way wd path ∧ d.node? q = none ∧ e.node? q = some .directory)) limit
    (fun e r he hr hopen hnone _ => ?_) ht hwd (.inl rfl)).1
  rw [node?_put hopen.ne_nil]
  split
  · rename_i hqr
    subst hqr
    refine .inr ⟨hr, ?_, rfl⟩
    rcases he with he | ⟨-, hnone', -⟩
    · rw [← he, hnone]
    · exact hnone'
  · exact he

/-! ## When making directories succeeds -/

/-- There is a directory at the place, or room for one. -/
def Free (d : Disk) (q : Place) : Prop := d.node? q = some .directory ∨ d.node? q = none

/-- No piece of the path is too long for a name. -/
def ShortPieces (path : Path) : Prop :=
  ∀ x ∈ Text.splitOn '/' path, Text.utf8Length x ≤ nameMax

theorem foldlM_free {pieces : List (List Char)} (hfree : ∀ q ∈ strides p pieces, d.Free q)
    (hshort : ∀ x ∈ pieces, Text.utf8Length x ≤ nameMax) :
    (∃ q, pieces.foldlM d.descend p = .ok q) ∨ (pieces.foldlM d.descend p = .error .notFound ∧
      ∃ q ∈ strides p pieces, d.node? q = none) := by
  induction pieces generalizing p with
  | nil => exact .inl ⟨p, rfl⟩
  | cons x xs ih =>
    have hstrides : strides (stride p x) xs ⊆ strides p (x :: xs) := by
      intro q hq
      obtain ⟨fs, hfs, rfl⟩ := mem_strides_iff.mp hq
      exact mem_strides_iff.mpr ⟨x :: fs, (List.prefix_cons_inj x).mpr hfs, rfl⟩
    have hx : stride p x ∈ strides p (x :: xs) := mem_strides_iff.mpr ⟨[x], by simp, rfl⟩
    have hrest : ∀ q, stride p x = q → (∃ q', xs.foldlM d.descend q = .ok q') ∨
        (xs.foldlM d.descend q = .error .notFound ∧
          ∃ q ∈ strides p (x :: xs), d.node? q = none) := by
      rintro q rfl
      refine (ih (fun q hq => hfree q (hstrides hq)) fun y hy =>
        hshort y (List.mem_cons_of_mem x hy)).imp_right ?_
      exact fun ⟨hnot, q, hq, hnone⟩ => ⟨hnot, q, hstrides hq, hnone⟩
    rw [List.foldlM_cons]
    by_cases hidle : Idle x
    · rw [descend, if_pos hidle]
      exact hrest p (by rw [stride, if_pos hidle])
    by_cases hup : x = Path.dotDot
    · rw [descend, if_neg hidle, if_pos hup]
      exact hrest _ (by rw [stride, if_neg hidle, if_pos hup])
    · rw [descend_of_name hidle hup (hshort x List.mem_cons_self)]
      -- a name leads on if a directory is there, and the walk ends where nothing is
      rcases hfree _ hx with hdir | hnone
      · simp only [hdir]
        exact hrest _ rfl
      · simp only [hnone]
        exact .inr ⟨rfl, _, hx, hnone⟩

theorem foldlM_directories {pieces : List (List Char)}
    (hdir : ∀ q ∈ strides p pieces, d.node? q = some .directory)
    (hshort : ∀ x ∈ pieces, Text.utf8Length x ≤ nameMax) :
    ∃ q, pieces.foldlM d.descend p = .ok q := by
  refine (foldlM_free (fun q hq => .inl (hdir q hq)) hshort).resolve_right ?_
  rintro ⟨-, q, hq, hnone⟩
  cases hnone.symm.trans (hdir q hq)

/-- A path with its last piece left to look at is found. -/
theorem Last.exists_find {slash : Bool} (h : Last path before last slash)
    (hq : before.foldlM d.descend (startOf wd path) = .ok q) :
    ∃ spot, d.find wd path = .ok spot := by
  rw [h.find, hq, ok_bind, finish]
  split
  · rename_i hdots
    rw [descend]
    rcases hdots with rfl | rfl
    · exact ⟨_, rfl⟩
    · exact ⟨_, rfl⟩
  · exact ⟨_, rfl⟩

theorem name_mem_of_find {dir : Place} {name : String} {slash : Bool}
    (h : d.find wd path = .ok (.named dir name slash)) : name.toList ∈ Text.splitOn '/' path := by
  rcases find_cases h with ⟨hspot, -⟩ | ⟨before, last, slash', top, hlast, -, hspot⟩
  · cases hspot
  · rcases finish_eq_ok hspot with ⟨-, -, hspot⟩ | ⟨-, hspot⟩
    · cases hspot
    · cases hspot
      obtain ⟨trailing, hsplit, -⟩ := hlast.split
      rw [String.toList_ofList, hsplit]
      simp

/-- Where there is room on its way, a path is found unless something is missing that leads there. -/
theorem find_free (hwd : d.node? wd = some .directory) (htight : Tight path)
    (hrefused : ¬Refused path) (hshort : ShortPieces path) (hfree : ∀ q ∈ way wd path, d.Free q) :
    (∃ spot, d.find wd path = .ok spot) ∨
      (d.find wd path = .error .notFound ∧ ¬d.Paved wd path) := by
  rcases find_eq path with hrefused' | ⟨-, hfind⟩ | ⟨before, last, slash, hlast⟩
  · exact absurd hrefused' hrefused
  · exact .inl ⟨_, hfind d wd⟩
  obtain ⟨trailing, hsplit, -⟩ := hlast.split
  have hbefore : before <+: Text.splitOn '/' path := by
    rw [hsplit]
    exact List.prefix_append _ _
  rcases foldlM_free (fun q hq => hfree q (strides_subset hbefore hq)) fun x hx =>
    hshort x (hbefore.subset hx) with ⟨q, hq⟩ | ⟨hnot, q, hq, hnone⟩
  · exact .inl (hlast.exists_find hq)
  · refine .inr ⟨by rw [hlast.find, hnot]; rfl, fun hpaved => ?_⟩
    obtain ⟨fs, ⟨t, rfl⟩, rfl⟩ := mem_strides_iff.mp hq
    have hsplit' : Text.splitOn '/' path = fs ++ (t ++ last :: trailing) := by
      rw [hsplit, List.append_assoc]
    rcases htight fs _ hsplit' ⟨last, by simp, hlast.ne_nil⟩ with hcounts | hidle
    · cases hnone.symm.trans (hpaved fs _ hsplit' hcounts)
    · rw [foldl_stride_idle hidle, directory_of_startOf hwd path] at hnone
      cases hnone

/-- Where there is room for a directory, it is made. -/
theorem settle_ok (ht : d.IsTree) (hwd : d.node? wd = some .directory) (hshort : ShortPieces path)
    (hfree : d.Free (lexical wd path)) (hfind : d.find wd path = .ok spot) :
    (d.settle wd path).1 = .ok () ∧ (d.settle wd path).2.isDirectory wd path = true := by
  cases spot with
  | here p =>
    have hp := directory_of_here ht hwd hfind
    rw [settle_of_here hfind hp, isDirectory_of_find hfind]
    exact ⟨rfl, decide_eq_true hp⟩
  | named dir name slash =>
    rw [settle_of_named hfind]
    rw [lexical_of_find hfind] at hfree
    split
    · rename_i hdir
      exact ⟨rfl, isDirectory_of_named hfind hdir⟩
    · rename_i hnot
      have hname := hshort _ (name_mem_of_find hfind)
      rw [if_neg (by omega), if_pos (hfree.resolve_left hnot)]
      exact ⟨rfl, isDirectory_put hfind (isOpen_of_find ht hwd hfind hnot)⟩

theorem Parent.shortPieces (h : Parent wd path parent front piece back)
    (hshort : ShortPieces path) : ShortPieces parent := by
  obtain ⟨kept, dropped, trail, rfl, hpieces, -, htrail⟩ := h.pieces
  intro x hx
  rw [hpieces] at hx
  rcases List.mem_append.mp hx with hx | hx
  · exact hshort x (by rw [h.split]; simp [hx])
  · rw [htrail x hx]
    exact Nat.zero_le _

/-- Where there is room on the whole way, all directories are made. -/
theorem makeAll_ok (ht : d.IsTree) (hwd : d.node? wd = some .directory) (htight : Tight path)
    (hrefused : path = [] ∨ ¬Refused path) (hshort : ShortPieces path)
    (hfree : ∀ q ∈ way wd path, d.Free q) (hlimit : path.length < limit) :
    (makeAll limit d wd path).1 = .ok () ∧
      (path = [] ∨ (makeAll limit d wd path).2.isDirectory wd path = true) := by
  induction limit generalizing path with
  | zero => exact absurd hlimit (Nat.not_lt_zero _)
  | succ limit ih =>
    by_cases hne : path = []
    · rw [hne]
      exact ⟨rfl, .inl rfl⟩
    have hrefused := hrefused.resolve_left hne
    have hlexical := hfree _ (lexical_mem_way wd path)
    rcases find_free hwd htight hrefused hshort hfree with ⟨spot, hfind⟩ | ⟨hnot, hpaved⟩
    · rw [makeAll_of_ne_notFound hne (by rw [hfind]; exact nofun)]
      exact (settle_ok ht hwd hshort hlexical hfind).imp_right .inr
    · rw [makeAll_of_notFound hne hnot]
      cases hparent : path.parent? with
      | none => exact absurd (paved_of_parent? hparent) hpaved
      | some parent =>
        obtain ⟨front, piece, back, -, hp⟩ := parent_of_parent? hparent wd
        have hshorter := hp.shorter
        have hrefusedParent : parent = [] ∨ ¬Refused parent :=
          or_iff_not_imp_left.mpr fun hnil h => hrefused (hp.refused hnil h)
        have hmade := ih hp.tight hrefusedParent (hp.shortPieces hshort)
          (fun q hq => hfree q (hp.way_subset hq)) (by omega)
        have hkept := @makeAll_preserves d wd parent (fun _ => True) limit
          (fun _ _ h _ _ _ _ => h) ht hwd trivial
        have hnode := @node?_makeAll d wd parent limit ht hwd
        dsimp only
        revert hmade hkept hnode
        obtain ⟨o, e⟩ := makeAll limit d wd parent
        rintro ⟨rfl, hdir⟩ ⟨-, het, hkeep⟩ hnode
        -- with the parent there is all that leads to the path
        have hfree' : ∀ q ∈ way wd path, e.Free q := by
          intro q hq
          rcases hnode q with hsame | ⟨-, -, hdir'⟩
          · rw [Free, hsame]
            exact hfree q hq
          · exact .inl hdir'
        have hpaved' := paved_of_parent het (hkeep wd hwd) hp hdir
        obtain ⟨spot, hfind⟩ := (find_free (hkeep wd hwd) htight hrefused hshort
          hfree').resolve_right fun h => h.2 hpaved'
        exact (settle_ok het (hkeep wd hwd) hshort (hfree' _ (lexical_mem_way wd path))
          hfind).imp_right .inr

end EditGate.Disk
