import EditGate.Proofs.Disk.Tree
import EditGate.Proofs.Except

/-!
# Where paths lead

The names of a path alone say where it leads (`lexical`): whenever a path is found on a disk, it is
found at that place (`place_of_find`), and in a directory that is there (`directory_of_find`). What
was found is found again as long as no directory is lost (`find_mono`).
-/

namespace EditGate.Disk

variable {d d' : Disk} {wd dir p q : Place} {path : Path} {spot : Spot}

/-- The place that a piece of a path leads to, whatever is there. -/
def stride (p : Place) (piece : List Char) : Place :=
  if piece = [] ∨ piece = Path.dot then p
  else if piece = Path.dotDot then p.dropLast
  else p ++ [String.ofList piece]

/-- Where a path starts. -/
def startOf (wd : Place) (path : Path) : Place := if path.isAbsolute then [] else wd

/-- The place that a path leads to, whatever is there. -/
def lexical (wd : Place) (path : Path) : Place :=
  (Text.splitOn '/' path).foldl stride (startOf wd path)

/-- No directory of one disk is missing on another. -/
def KeepsDirectories (d d' : Disk) : Prop :=
  ∀ p, d.node? p = some .directory → d'.node? p = some .directory

/-! ## One name -/

theorem eq_stride_of_descend {name : List Char} (h : d.descend dir name = .ok q) :
    q = stride dir name := by
  rw [descend] at h
  rw [stride]
  split at h
  · rename_i hidle
    rw [if_pos hidle]
    exact (Except.ok.inj h).symm
  · rename_i hidle
    rw [if_neg hidle]
    split at h
    · rename_i hup
      rw [if_pos hup]
      exact (Except.ok.inj h).symm
    · rename_i hup
      rw [if_neg hup]
      split at h
      · exact nomatch h
      · simp only at h
        split at h
        · exact nomatch h
        · exact nomatch h
        · exact (Except.ok.inj h).symm

theorem directory_of_descend {name : List Char} (ht : d.IsTree)
    (hdir : d.node? dir = some .directory) (h : d.descend dir name = .ok q) :
    d.node? q = some .directory := by
  rw [descend] at h
  split at h
  · exact Except.ok.inj h ▸ hdir
  · split at h
    · by_cases hroot : dir = []
      · rw [← Except.ok.inj h, hroot]
        exact node?_nil d
      · exact Except.ok.inj h ▸ ht dir _ hroot hdir
    · split at h
      · exact nomatch h
      · simp only at h
        split at h
        · exact nomatch h
        · exact nomatch h
        · rename_i hq
          exact Except.ok.inj h ▸ hq

theorem descend_mono {name : List Char} (hkeep : KeepsDirectories d d')
    (h : d.descend dir name = .ok q) : d'.descend dir name = .ok q := by
  rw [descend] at h ⊢
  split at h
  · rename_i hidle
    rw [if_pos hidle, h]
  · rename_i hidle
    rw [if_neg hidle]
    split at h
    · rename_i hup
      rw [if_pos hup, h]
    · rename_i hup
      rw [if_neg hup]
      split at h
      · exact nomatch h
      · rename_i hlong
        rw [if_neg hlong]
        simp only at h ⊢
        split at h
        · exact nomatch h
        · exact nomatch h
        · rename_i hq
          rw [hkeep _ hq, h]

/-! ## Many names -/

theorem foldlM_descend_cons {piece : List Char} {pieces : List (List Char)}
    (h : (piece :: pieces).foldlM d.descend dir = .ok q) :
    ∃ p, d.descend dir piece = .ok p ∧ pieces.foldlM d.descend p = .ok q := by
  rw [List.foldlM_cons] at h
  exact bind_eq_ok h

theorem eq_foldl_of_foldlM {pieces : List (List Char)} (h : pieces.foldlM d.descend dir = .ok q) :
    q = pieces.foldl stride dir := by
  induction pieces generalizing dir with
  | nil => exact (Except.ok.inj h).symm
  | cons piece pieces ih =>
    obtain ⟨p, hp, hq⟩ := foldlM_descend_cons h
    rw [List.foldl_cons, ← eq_stride_of_descend hp]
    exact ih hq

theorem directory_of_foldlM {pieces : List (List Char)} (ht : d.IsTree)
    (hdir : d.node? dir = some .directory) (h : pieces.foldlM d.descend dir = .ok q) :
    d.node? q = some .directory := by
  induction pieces generalizing dir with
  | nil => exact Except.ok.inj h ▸ hdir
  | cons piece pieces ih =>
    obtain ⟨p, hp, hq⟩ := foldlM_descend_cons h
    exact ih (directory_of_descend ht hdir hp) hq

theorem foldlM_mono {pieces : List (List Char)} (hkeep : KeepsDirectories d d')
    (h : pieces.foldlM d.descend dir = .ok q) : pieces.foldlM d'.descend dir = .ok q := by
  induction pieces generalizing dir with
  | nil => exact h
  | cons piece pieces ih =>
    obtain ⟨p, hp, hq⟩ := foldlM_descend_cons h
    rw [List.foldlM_cons, descend_mono hkeep hp]
    exact ih hq

/-! ## Paths -/

/-- Pieces that are empty lead nowhere else. -/
theorem foldl_stride_empty {pieces : List (List Char)} (h : ∀ piece ∈ pieces, piece = [])
    (p : Place) : pieces.foldl stride p = p := by
  induction pieces with
  | nil => rfl
  | cons piece pieces ih =>
    rw [List.foldl_cons, h piece List.mem_cons_self, stride, if_pos (.inl rfl),
      ih fun x hx => h x (List.mem_cons_of_mem _ hx)]

/-- The last piece that is not empty, with what is before it and the empty ones after it. -/
theorem splitOn_eq_of_dropWhile {last : List Char} {before : List (List Char)}
    (h : (Text.splitOn '/' path).reverse.dropWhile (fun x => decide (x = [])) = last :: before) :
    ∃ trailing, Text.splitOn '/' path = before.reverse ++ last :: trailing ∧
      ∀ piece ∈ trailing, piece = [] := by
  have hsplit := List.takeWhile_append_dropWhile (p := fun x : List Char => decide (x = []))
    (l := (Text.splitOn '/' path).reverse)
  rw [h] at hsplit
  refine ⟨((Text.splitOn '/' path).reverse.takeWhile fun x => decide (x = [])).reverse, ?_, ?_⟩
  · have := congrArg List.reverse hsplit
    rw [List.reverse_append, List.reverse_reverse, List.reverse_cons, List.append_assoc] at this
    exact this.symm
  · intro piece hpiece
    rw [List.mem_reverse] at hpiece
    exact of_decide_eq_true (List.all_eq_true.mp List.all_takeWhile piece hpiece)

/-- What a path comes to once its last piece is left to look at. -/
def finish (d : Disk) (dir : Place) (last : List Char) (slash : Bool) : Except Cause Spot :=
  if last = Path.dot ∨ last = Path.dotDot then (d.descend dir last).map .here
  else .ok (.named dir (String.ofList last) slash)

/-- The last piece of a path that is not empty, and what is before it. -/
structure Last (path : Path) (before : List (List Char)) (last : List Char) (slash : Bool) : Prop where
  split : ∃ trailing, Text.splitOn '/' path = before ++ last :: trailing ∧ ∀ x ∈ trailing, x = []
  ne_nil : last ≠ []
  find : ∀ d wd, find d wd path =
    before.foldlM d.descend (startOf wd path) >>= fun dir => d.finish dir last slash

/-- No disk finds the path. -/
def Refused (path : Path) : Prop :=
  path.contains '\x00' = true ∨ path = [] ∨ pathMax < Text.utf8Length path

theorem Refused.find (h : Refused path) : ∃ cause, ∀ d wd, find d wd path = .error cause := by
  by_cases hnul : path.contains '\x00' = true
  · exact ⟨.nulInName, fun d wd => by rw [Disk.find, if_pos hnul]⟩
  by_cases hempty : path = []
  · refine ⟨.notFound, fun d wd => ?_⟩
    rw [hempty]
    rfl
  · have hlong := (h.resolve_left hnul).resolve_left hempty
    refine ⟨.nameTooLong, fun d wd => ?_⟩
    rw [Disk.find, if_neg hnul, if_neg (by simpa using hempty), if_pos hlong]

/-- A path is refused as it is, or it is nothing but slashes, or it has a last piece. -/
theorem find_eq (path : Path) :
    Refused path ∨
    ((∀ x ∈ Text.splitOn '/' path, x = []) ∧ ∀ d wd, find d wd path = .ok (.here (startOf wd path))) ∨
    ∃ before last slash, Last path before last slash := by
  by_cases hrefused : Refused path
  · exact .inl hrefused
  refine .inr ?_
  rw [Refused, not_or, not_or] at hrefused
  obtain ⟨hnul, hempty, hlong⟩ := hrefused
  have hempty : ¬path.isEmpty = true := by simpa using hempty
  cases hpieces : (Text.splitOn '/' path).reverse.dropWhile (fun x => decide (x = [])) with
  | nil =>
    -- no piece is left, so all of them were empty
    refine .inl ⟨fun x hx => ?_, fun d wd => ?_⟩
    · have hsplit := List.takeWhile_append_dropWhile (p := fun x : List Char => decide (x = []))
        (l := (Text.splitOn '/' path).reverse)
      rw [hpieces, List.append_nil] at hsplit
      rw [← List.mem_reverse, ← hsplit] at hx
      exact of_decide_eq_true (List.all_eq_true.mp List.all_takeWhile x hx)
    · rw [find, if_neg hnul, if_neg hempty, if_neg hlong]
      simp only [hpieces, startOf]
  | cons last before =>
    obtain ⟨trailing, hsplit, htrailing⟩ := splitOn_eq_of_dropWhile hpieces
    refine .inr ⟨before.reverse, last,
      decide ((Text.splitOn '/' path).reverse.head? = some []), ⟨trailing, hsplit, htrailing⟩, ?_,
      fun d wd => ?_⟩
    · -- the last piece is not empty, since the empty ones were dropped
      rintro rfl
      have hhead := List.head?_dropWhile_not (fun x : List Char => decide (x = []))
        (Text.splitOn '/' path).reverse
      rw [hpieces] at hhead
      simp at hhead
    · rw [find, if_neg hnul, if_neg hempty, if_neg hlong]
      simp only [hpieces, startOf]
      refine bind_congr fun dir => ?_
      rw [finish]
      split
      · cases d.descend dir last with
        | ok q => rfl
        | error cause => rfl
      · rfl

/-- A path that is found is nothing but slashes, or it ends in a name that is looked for in a
directory, but for slashes at its end. -/
theorem find_cases (h : d.find wd path = .ok spot) :
    (spot = .here (startOf wd path) ∧ ∀ x ∈ Text.splitOn '/' path, x = []) ∨
    ∃ before last slash dir, Last path before last slash ∧
      before.foldlM d.descend (startOf wd path) = .ok dir ∧ d.finish dir last slash = .ok spot := by
  rcases find_eq path with hrefused | ⟨hempty, hfind⟩ | ⟨before, last, slash, hlast⟩
  · obtain ⟨cause, hfind⟩ := hrefused.find
    exact nomatch (hfind d wd).symm.trans h
  · exact .inl ⟨Except.ok.inj (h.symm.trans (hfind d wd)), hempty⟩
  · rw [hlast.find] at h
    obtain ⟨dir, hdir, h⟩ := bind_eq_ok h
    exact .inr ⟨before, last, slash, dir, hlast, hdir, h⟩

theorem finish_eq_ok {last : List Char} {slash : Bool} (h : d.finish dir last slash = .ok spot) :
    ((last = Path.dot ∨ last = Path.dotDot) ∧ d.descend dir last = .ok spot.place ∧
      spot = .here spot.place) ∨
    (¬(last = Path.dot ∨ last = Path.dotDot) ∧ spot = .named dir (String.ofList last) slash) := by
  rw [finish] at h
  split at h
  · rename_i hdots
    cases hq : d.descend dir last with
    | error cause =>
      rw [hq] at h
      cases h
    | ok q =>
      rw [hq] at h
      cases h
      exact .inl ⟨hdots, rfl, rfl⟩
  · rename_i hdots
    exact .inr ⟨hdots, (Except.ok.inj h).symm⟩

/-- A path is found at the place that its names say. -/
theorem place_of_find (h : d.find wd path = .ok spot) : spot.place = lexical wd path := by
  rcases find_cases h with ⟨rfl, hempty⟩ | ⟨before, last, slash, dir, hlast, hdir, hspot⟩
  · exact (foldl_stride_empty hempty _).symm
  · obtain ⟨trailing, hsplit, htrailing⟩ := hlast.split
    have hlexical : lexical wd path = stride dir last := by
      rw [lexical, hsplit, List.foldl_append, List.foldl_cons, foldl_stride_empty htrailing,
        ← eq_foldl_of_foldlM hdir]
    rw [hlexical]
    rcases finish_eq_ok hspot with ⟨-, hq, -⟩ | ⟨hdots, rfl⟩
    · exact eq_stride_of_descend hq
    · rw [stride, if_neg fun h => h.elim hlast.ne_nil fun h => hdots (.inl h),
        if_neg fun h => hdots (.inr h)]
      rfl

theorem directory_of_startOf (hwd : d.node? wd = some .directory) (path : Path) :
    d.node? (startOf wd path) = some .directory := by
  rw [startOf]
  split
  · exact node?_nil d
  · exact hwd

theorem directory_of_find {name : String} {slash : Bool} (ht : d.IsTree)
    (hwd : d.node? wd = some .directory) (h : d.find wd path = .ok (.named dir name slash)) :
    d.node? dir = some .directory := by
  rcases find_cases h with ⟨hspot, -⟩ | ⟨before, last, slash', top, -, hdir, hspot⟩
  · exact nomatch hspot
  · rcases finish_eq_ok hspot with ⟨-, -, hspot⟩ | ⟨-, hspot⟩
    · exact nomatch hspot
    · cases hspot
      exact directory_of_foldlM ht (directory_of_startOf hwd path) hdir

/-- What is found stays found as long as no directory is lost. -/
theorem find_mono (hkeep : KeepsDirectories d d') (h : d.find wd path = .ok spot) :
    d'.find wd path = .ok spot := by
  rcases find_eq path with hrefused | ⟨hempty, hfind⟩ | ⟨before, last, slash, hlast⟩
  · obtain ⟨cause, hfind⟩ := hrefused.find
    exact nomatch (hfind d wd).symm.trans h
  · rw [← h, hfind, hfind]
  · rw [hlast.find] at h ⊢
    obtain ⟨dir, hdir, h⟩ := bind_eq_ok h
    rw [foldlM_mono hkeep hdir, ok_bind, ← h]
    rcases finish_eq_ok h with ⟨hdots, hq, -⟩ | ⟨hdots, -⟩
    · rw [finish, if_pos hdots, finish, if_pos hdots, descend_mono hkeep hq, hq]
    · rw [finish, if_neg hdots, finish, if_neg hdots]

theorem isDirectory_mono (hkeep : KeepsDirectories d d') (h : d.isDirectory wd path = true) :
    d'.isDirectory wd path = true := by
  unfold isDirectory at h ⊢
  cases hfind : d.find wd path with
  | error cause => simp [hfind] at h
  | ok spot =>
    simp only [hfind] at h
    simp only [find_mono hkeep hfind]
    exact decide_eq_true (hkeep _ (of_decide_eq_true h))

end EditGate.Disk
