import EditGate.Proofs.Disk.TwinStep

/-!
# Making directories on twins

Making directories on both of two twins answers the same and leaves twins (`Twin.makeAll`), though
there is less to make on the disk that has some of them. What leads to the file may be made on one
of them alone (`Twin.makeAll_right`).
-/

namespace EditGate.Disk

variable {s : Slack} {d d' : Disk} {wd p q : Place} {path parent : Path} {piece : List Char}
  {front back : List (List Char)} {limit : Nat}

/-! ## On both -/

/-- Both made a directory, or failed to alike. -/
structure MadeAlike (s : Slack) (d d' : Disk) (wd : Place) (path : Path)
    (r r' : Except Cause Unit × Disk) : Prop where
  answer : r'.1 = r.1
  next : Next s d d' r.2 r'.2
  directories : KeepsDirectories d r.2
  made : r.1 = .ok () → path = [] ∨ r.2.isDirectory wd path = true

namespace Twin

/-- A directory is made on the first disk that the second one has. -/
theorem putLeft (h : Twin s d d') (hp : s.directory p) (hopen : IsOpen d p)
    (hdir : d'.node? p = some .directory) : Next s d d' (d.put p .directory) d' where
  twin := {
    tree := h.tree.put hopen.ne_nil hopen.up (.inl rfl)
    tree' := h.tree'
    same := by
      intro q hq
      have hne : q ≠ p := fun he => hq.1 (he ▸ hp)
      rw [node?_put_of_ne hopen.ne_nil hne]
      exact h.same q hq
    directory := by
      intro q hq
      rw [node?_put hopen.ne_nil]
      split
      · rename_i he
        exact .inl (he ▸ hdir)
      · exact h.directory q hq
    file := by
      intro q hq
      have hne : q ≠ p := fun he => s.directory_ne_file p hp (he ▸ hq)
      rw [node?_put_of_ne hopen.ne_nil hne]
      exact h.file q hq
    kept := fun q hq => keepsDirectories_put hopen.ne_nil hopen.not_directory q (h.kept q hq)
    bare := by
      intro hbare q hq content
      rw [node?_put hopen.ne_nil]
      split
      · exact nofun
      · exact h.bare hbare q hq content }
  own := fun _ _ => rfl

theorem madeAlike_of_eq (h : Twin s d d') {answer : Except Cause Unit}
    (hmade : answer = .ok () → path = [] ∨ d.isDirectory wd path = true) :
    MadeAlike s d d' wd path (answer, d) (answer, d') where
  answer := rfl
  next := h.next
  directories := fun _ hp => hp
  made := hmade

/-- A directory is made where a path leads, on the first disk at least. -/
theorem madeAlike_put {dir : Place} {name : String} {slash : Bool} {e' : Disk}
    (hspot : d.find wd path = .ok (.named dir name slash)) (hopen : IsOpen d (dir ++ [name]))
    (hnext : Next s d d' (d.put (dir ++ [name]) .directory) e') :
    MadeAlike s d d' wd path (.ok (), d.put (dir ++ [name]) .directory) (.ok (), e') where
  answer := rfl
  next := hnext
  directories := keepsDirectories_put hopen.ne_nil hopen.not_directory
  made := fun _ => .inr (isDirectory_put hspot hopen)

/-- A directory is made alike where a path leads to the same on both disks. -/
theorem settle_of_same {dir : Place} {name : String} {slash : Bool} (h : Twin s d d')
    (hwd : s.kept wd) (hspot : d.find wd path = .ok (.named dir name slash))
    (hspot' : d'.find wd path = .ok (.named dir name slash)) (hfile : ¬s.file (dir ++ [name]))
    (hsame : d'.node? (dir ++ [name]) = d.node? (dir ++ [name])) :
    MadeAlike s d d' wd path (d.settle wd path) (d'.settle wd path) := by
  rw [settle_of_named hspot, settle_of_named hspot', hsame]
  split
  · rename_i hnode
    exact h.madeAlike_of_eq fun _ => .inr (isDirectory_of_named hspot hnode)
  · split
    · exact h.madeAlike_of_eq nofun
    · split
      · rename_i hnot _ hnone
        have hopen := isOpen_of_find h.tree (h.kept wd hwd) hspot hnot
        have hopen' := isOpen_of_find h.tree' (h.kept' hwd) hspot' (hsame ▸ hnot)
        exact madeAlike_put hspot hopen (h.put hopen hopen' hfile (.inl rfl))
      · exact h.madeAlike_of_eq nofun

/-- A directory that only the second disk has is made on the first. -/
theorem settle_of_missing {dir : Place} {name : String} {slash : Bool} (h : Twin s d d')
    (hwd : s.kept wd) (hspot : d.find wd path = .ok (.named dir name slash))
    (hspot' : d'.find wd path = .ok (.named dir name slash)) (hdir : s.directory (dir ++ [name]))
    (hnone : d.node? (dir ++ [name]) = none)
    (hdir' : d'.node? (dir ++ [name]) = some .directory) (hshort : IsShort (dir ++ [name])) :
    MadeAlike s d d' wd path (d.settle wd path) (d'.settle wd path) := by
  have hnot : d.node? (dir ++ [name]) ≠ some .directory := by
    rw [hnone]
    exact nofun
  have hname : ¬Text.utf8Length name.toList > nameMax := by
    have hle := hshort name (by simp)
    omega
  have hopen := isOpen_of_find h.tree (h.kept wd hwd) hspot hnot
  rw [settle_of_named hspot, settle_of_named hspot', if_neg hnot, if_neg hname, if_pos hnone,
    if_pos hdir']
  exact madeAlike_put hspot hopen (h.putLeft hdir hopen hdir')

/-- A directory is made alike where the path is found alike. -/
theorem settle (h : Twin s d d') (hwd : s.kept wd) (hfind : d'.find wd path = d.find wd path)
    (hfile : ¬s.file (lexical wd path)) :
    MadeAlike s d d' wd path (d.settle wd path) (d'.settle wd path) := by
  cases hspot : d.find wd path with
  | error cause =>
    rw [settle_of_error hspot, settle_of_error (hfind.trans hspot)]
    exact h.madeAlike_of_eq nofun
  | ok spot =>
    have hspot' := hfind.trans hspot
    cases spot with
    | here p =>
      have hp := directory_of_here h.tree (h.kept wd hwd) hspot
      rw [settle_of_here hspot hp, settle_of_here hspot' (h.directories p hp)]
      refine h.madeAlike_of_eq fun _ => .inr ?_
      rw [isDirectory_of_find hspot]
      exact decide_eq_true hp
    | named dir name slash =>
      rw [lexical_of_find hspot] at hfile
      by_cases hdir : s.directory (dir ++ [name])
      · rcases h.directory _ hdir with hsame | ⟨hnone, hdir', hshort⟩
        · exact h.settle_of_same hwd hspot hspot' hfile hsame
        · exact h.settle_of_missing hwd hspot hspot' hdir hnone hdir' hshort
      · exact h.settle_of_same hwd hspot hspot' hfile (h.same _ ⟨hdir, hfile⟩)

end Twin

theorem Slack.Admits.admits_parent (h : s.Admits wd path)
    (hp : Parent wd path parent front piece back) : s.Admits wd parent := by
  obtain ⟨kept, dropped, trail, rfl, hpieces, -, htrail⟩ := hp.pieces
  have hpath : Text.splitOn '/' path = kept ++ (dropped ++ piece :: back) := by
    rw [hp.split, List.append_assoc]
  constructor
  · rintro fs rest hsplit ⟨x, hx, hne⟩
    rw [hp.start]
    rcases List.append_eq_append_iff.mp (hpieces.symm.trans hsplit) with ⟨t, rfl, ht⟩ | ⟨t, rfl, -⟩
    · exact absurd (htrail x (by rw [ht]; exact List.mem_append_right _ hx)) hne
    · exact h.file fs (t ++ (dropped ++ piece :: back)) (by rw [hpath, List.append_assoc])
        ⟨piece, by simp, hp.piece_ne_nil⟩
  · intro fs x rest hsplit
    rw [hp.start]
    rcases List.append_eq_append_iff.mp (hpieces.symm.trans hsplit) with ⟨t, rfl, ht⟩ | ⟨t, rfl, ht⟩
    · intro _
      rw [htrail x (by rw [ht]; simp)]
      exact ⟨by decide, Nat.zero_le _⟩
    · cases t with
      | nil =>
        intro _
        rw [List.nil_append] at ht
        rw [htrail x (by rw [← ht]; simp)]
        exact ⟨by decide, Nat.zero_le _⟩
      | cons y ys =>
        obtain ⟨rfl, -⟩ := List.cons.inj ht
        exact h.directory fs x (ys ++ (dropped ++ piece :: back)) (by rw [hpath]; simp)

theorem Slack.Admits.not_file_parent (h : s.Admits wd path)
    (hp : Parent wd path parent front piece back) : ¬s.file (lexical wd parent) := by
  rw [hp.lexical_parent]
  exact h.file front (piece :: back) hp.split ⟨piece, by simp, hp.piece_ne_nil⟩

/-- After the parent of a path the path is made alike. -/
theorem MadeAlike.settleAfter {r r' : Except Cause Unit × Disk} (hwd : s.kept wd)
    (htight : Tight path) (hfile : ¬s.file (lexical wd path))
    (hp : Parent wd path parent front piece back) (h : MadeAlike s d d' wd parent r r') :
    MadeAlike s d d' wd path (settleAfter wd path r) (settleAfter wd path r') := by
  obtain ⟨o, e⟩ := r
  obtain ⟨o', e'⟩ := r'
  have htwin : Twin s e e' := h.next.twin
  cases o with
  | error cause =>
    obtain rfl : o' = .error cause := h.answer
    exact ⟨rfl, h.next, h.directories, nofun⟩
  | ok u =>
    obtain rfl : o' = .ok u := h.answer
    have hpaved := paved_of_parent htwin.tree (htwin.kept wd hwd) hp (h.made rfl)
    have hfind := htwin.find_paved (htwin.kept wd hwd) hpaved (.inr htight)
    have hsettle := htwin.settle hwd hfind hfile
    exact {
      answer := hsettle.answer
      next := h.next.trans hsettle.next
      directories := fun q hq => hsettle.directories q (h.directories q hq)
      made := hsettle.made }

/-- Directories are made alike on twins. -/
theorem Twin.makeAll (h : Twin s d d') (hwd : s.kept wd) (hlimit : path.length < limit)
    (htight : Tight path) (hpath : s.Admits wd path) (hfile : ¬s.file (lexical wd path)) :
    MadeAlike s d d' wd path (Disk.makeAll limit d wd path) (Disk.makeAll limit d' wd path) := by
  induction limit generalizing path with
  | zero => exact absurd hlimit (Nat.not_lt_zero _)
  | succ limit ih =>
    by_cases hne : path = []
    · subst hne
      exact h.madeAlike_of_eq fun _ => .inl rfl
    -- the parent is shorter than the path, and all that is assumed of the path holds of it
    have hparents : ∀ parent, path.parent? = some parent → ∃ front piece back,
        Parent wd path parent front piece back ∧ MadeAlike s d d' wd parent
          (Disk.makeAll limit d wd parent) (Disk.makeAll limit d' wd parent) := by
      intro parent hparent
      obtain ⟨front, piece, back, -, hp⟩ := parent_of_parent? hparent wd
      have hshorter := hp.shorter
      exact ⟨front, piece, back, hp, ih (by omega) hp.tight (hpath.admits_parent hp)
        (hpath.not_file_parent hp)⟩
    -- where neither disk finds the path, both make the parent first and the path after it
    have hboth : d.find wd path = .error .notFound → d'.find wd path = .error .notFound →
        MadeAlike s d d' wd path (Disk.makeAll (limit + 1) d wd path)
          (Disk.makeAll (limit + 1) d' wd path) := by
      intro hd hd'
      rw [makeAll_of_notFound hne hd, makeAll_of_notFound hne hd']
      cases hparent : path.parent? with
      | none => exact h.madeAlike_of_eq nofun
      | some parent =>
        obtain ⟨front, piece, back, hp, hmade⟩ := hparents parent hparent
        exact hmade.settleAfter hwd htight hfile hp
    rcases h.find_cases hpath with hfind | ⟨hd, hd' | ⟨before, last, slash, q, hlast, hq, -, hnone,
      -⟩⟩
    · by_cases hd : d.find wd path = .error .notFound
      · exact hboth hd (hfind.trans hd)
      · rw [makeAll_of_ne_notFound hne hd, makeAll_of_ne_notFound hne (hfind ▸ hd)]
        exact h.settle hwd hfind hfile
    · exact hboth hd hd'
    · -- the second disk has a directory on the way that is missing on the first
      obtain ⟨spot, hfound⟩ := hlast.exists_find hq
      rw [makeAll_of_notFound hne hd, makeAll_of_ne_notFound hne (by rw [hfound]; exact nofun)]
      cases hparent : path.parent? with
      | none =>
        -- a path without a parent leads where it starts, and that is no directory that is missing
        obtain ⟨trailing, hsplit, -⟩ := hlast.split
        have hidle := idle_of_parent? hparent
        have hstart : q = startOf wd path := by
          rw [eq_foldl_of_foldlM hq]
          exact foldl_stride_idle (fun x hx => hidle x (by
            rw [hsplit]
            exact List.mem_append_left _ hx)) _
        rw [hstart, directory_of_startOf (h.kept wd hwd) path] at hnone
        cases hnone
      | some parent =>
        obtain ⟨front, piece, back, hp, hmade⟩ := hparents parent hparent
        have hshorter := hp.shorter
        -- on the second disk the parent is there, so making it again does nothing
        rw [makeAll_of_isDirectory (by omega)
          (isDirectory_parent h.tree' (h.kept' hwd) hp hfound)] at hmade
        exact hmade.settleAfter hwd htight hfile hp

/-- The directories that lead to a path are made alike, and then the path is paved. -/
theorem Twin.makeParents (h : Twin s d d') (hwd : s.kept wd) (hpath : s.Admits wd path) :
    (d'.makeParents wd path).1 = (d.makeParents wd path).1 ∧
      Next s d d' (d.makeParents wd path).2 (d'.makeParents wd path).2 ∧
      ((d.makeParents wd path).1 = .ok () → (d.makeParents wd path).2.Paved wd path) := by
  rw [Disk.makeParents, Disk.makeParents]
  cases hparent : path.parent? with
  | none => exact ⟨rfl, h.next, fun _ => paved_of_parent? hparent⟩
  | some parent =>
    obtain ⟨front, piece, back, -, hp⟩ := parent_of_parent? hparent wd
    have hmade := h.makeAll hwd (Nat.lt_succ_self parent.length) hp.tight (hpath.admits_parent hp)
      (hpath.not_file_parent hp)
    exact ⟨hmade.answer, hmade.next, fun hok => paved_of_parent hmade.next.twin.tree
      (hmade.next.twin.kept wd hwd) hp (hmade.made hok)⟩

/-! ## On the second disk alone -/

namespace Twin

/-- A directory is made on the second disk where the first has nothing. -/
theorem putRight (h : Twin s d d') (hp : s.directory p ∨ s.file p) (hopen' : IsOpen d' p)
    (hnone : d'.node? p = none) (hshort : IsShort p) : Twin s d (d'.put p .directory) where
  tree := h.tree
  tree' := h.tree'.put hopen'.ne_nil hopen'.up (.inl rfl)
  same := by
    intro q hq
    have hne : q ≠ p := fun he => hp.elim (he ▸ hq.1) (he ▸ hq.2)
    rw [node?_put_of_ne hopen'.ne_nil hne]
    exact h.same q hq
  directory := by
    intro q hq
    rw [node?_put hopen'.ne_nil]
    split
    · rename_i he
      subst he
      refine .inr ⟨?_, rfl, hshort⟩
      rcases h.directory q hq with hsame | ⟨hmissing, -, -⟩
      · rw [← hsame, hnone]
      · exact hmissing
    · exact h.directory q hq
  file := h.file
  kept := h.kept
  bare := h.bare

/-- Whatever is put at the file of the second disk leaves twins. -/
theorem putFile (h : Twin s d d') (hp : s.file p) (hopen' : IsOpen d' p) (content : ByteArray) :
    Twin s d (d'.put p (.file content)) where
  tree := h.tree
  tree' := h.tree'.put hopen'.ne_nil hopen'.up (.inr hopen'.not_directory)
  same := by
    intro q hq
    have hne : q ≠ p := fun he => hq.2 (he ▸ hp)
    rw [node?_put_of_ne hopen'.ne_nil hne]
    exact h.same q hq
  directory := by
    intro q hq
    have hne : q ≠ p := fun he => s.directory_ne_file q hq (he ▸ hp)
    rw [node?_put_of_ne hopen'.ne_nil hne]
    exact h.directory q hq
  file := h.file
  kept := h.kept
  bare := h.bare

/-- Where there is nothing but directories, there is room for directories on the second disk too. -/
theorem free (h : Twin s d d') (hbare : s.bare) (hp : s.directory p ∨ s.kept p) : d'.Free p := by
  rcases hp with hp | hp
  · rcases h.directory p hp with hsame | ⟨-, hdir, -⟩
    · rw [Free, hsame]
      cases hnode : d.node? p with
      | none => exact .inr rfl
      | some n =>
        cases n with
        | directory => exact .inl rfl
        | file content => exact absurd hnode (h.bare hbare p hp content)
    · exact .inl hdir
  · exact .inl (h.kept' hp)

/-- What leads to the file may be made on the second disk alone. -/
theorem makeParents_right (h : Twin s d d') (hwd : s.kept wd)
    (hway : ∀ q ∈ way wd path, s.directory q ∨ s.file q ∨ s.kept q) :
    Twin s d (d'.makeParents wd path).2 := by
  rw [Disk.makeParents]
  cases hparent : path.parent? with
  | none => exact h
  | some parent =>
    obtain ⟨front, piece, back, -, hp⟩ := parent_of_parent? hparent wd
    refine (makeAll_preserves (P := Twin s d) _ (fun e q he hq hopen hnone hshort => ?_) h.tree'
      (h.kept' hwd) h).1
    rcases hway q (hp.way_subset hq) with hdir | hfile | hkept
    · exact he.putRight (.inl hdir) hopen hnone hshort
    · exact he.putRight (.inr hfile) hopen hnone hshort
    · cases hnone.symm.trans (he.kept' hkept)

end Twin

end EditGate.Disk
