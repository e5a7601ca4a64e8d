import EditGate.Proofs.Disk.Step
import EditGate.Proofs.Disk.Way

/-!
# Walking along a path

Two disks find the same for a path if they agree on the directories that lead there (`find_congr`).
A path is paved if every place that it leads through before its last component is a directory
(`Paved`): so it is when the path is found, or when its parent is a directory, and then every path
beside it is paved too (`Paved.withFileName`).
-/

namespace EditGate.Disk

variable {d d' : Disk} {wd p q : Place} {path parent : Path} {piece last name : List Char}
  {pieces front back before : List (List Char)} {spot : Spot}

/-! ## The same on two disks -/

theorem descend_congr (h : d'.node? (stride p piece) = d.node? (stride p piece)) :
    d'.descend p piece = d.descend p piece := by
  rw [stride] at h
  rw [descend, descend]
  split
  · rfl
  · rename_i hidle
    rw [if_neg hidle] at h
    split
    · rfl
    · rename_i hup
      rw [if_neg hup] at h
      split
      · rfl
      · simp only [h]

/-- A name that is not too long leads to a directory of that name. -/
theorem descend_of_name (hidle : ¬Idle piece) (hup : piece ≠ Path.dotDot)
    (hshort : Text.utf8Length piece ≤ nameMax) :
    d.descend p piece =
      match d.node? (stride p piece) with
      | none => .error .notFound
      | some (.file _) => .error .notADirectory
      | some .directory => .ok (stride p piece) := by
  have hfits : ¬Text.utf8Length piece > nameMax := Nat.not_lt.mpr hshort
  rw [stride, if_neg hidle, if_neg hup]
  exact (if_neg hidle).trans ((if_neg hup).trans (if_neg hfits))

/-- Disks differ on a name that is not too long, if on anything. -/
theorem name_of_descend_ne (h : d'.descend p piece ≠ d.descend p piece) :
    ¬Idle piece ∧ piece ≠ Path.dotDot ∧ Text.utf8Length piece ≤ nameMax := by
  have hidle : ¬Idle piece := fun hidle => h (by rw [descend, descend, if_pos hidle, if_pos hidle])
  have hup : piece ≠ Path.dotDot := fun hup => h (by
    rw [descend, descend, if_neg hidle, if_neg hidle, if_pos hup, if_pos hup])
  refine ⟨hidle, hup, ?_⟩
  by_contra hlong
  refine h ?_
  rw [descend, descend, if_neg hidle, if_neg hidle, if_neg hup, if_neg hup, if_pos (by omega),
    if_pos (by omega)]

theorem foldlM_congr (h : ∀ fs, fs <+: pieces →
      d'.node? (fs.foldl stride p) = d.node? (fs.foldl stride p)) :
    pieces.foldlM d'.descend p = pieces.foldlM d.descend p := by
  induction pieces generalizing p with
  | nil => rfl
  | cons x xs ih =>
    rw [List.foldlM_cons, List.foldlM_cons, descend_congr (h [x] (by simp))]
    cases hq : d.descend p x with
    | error cause => rfl
    | ok q =>
      obtain rfl := eq_stride_of_descend hq
      exact ih fun fs hfs => h (x :: fs) (List.prefix_cons_inj x |>.mpr hfs)

/-- A dot or two is nothing that is looked for. -/
theorem finish_congr (d d' : Disk) (p : Place) (last : List Char) (slash : Bool) :
    d'.finish p last slash = d.finish p last slash := by
  rw [finish, finish]
  split
  · rename_i hdots
    have hsame : d'.descend p last = d.descend p last := by
      rw [descend, descend]
      rcases hdots with rfl | rfl
      · rw [if_pos (.inr rfl), if_pos (.inr rfl)]
      · rw [if_neg (by decide), if_pos rfl, if_neg (by decide), if_pos rfl]
    rw [hsame]
  · rfl

/-- Disks that agree on all that a path leads through find the same. -/
theorem find_congr (h : ∀ fs rest, Text.splitOn '/' path = fs ++ rest → (∃ x ∈ rest, x ≠ []) →
      d'.node? (fs.foldl stride (startOf wd path)) = d.node? (fs.foldl stride (startOf wd path))) :
    d'.find wd path = d.find wd path := by
  rcases find_eq path with hrefused | ⟨-, hfind⟩ | ⟨before, last, slash, hlast⟩
  · obtain ⟨cause, hfind⟩ := hrefused.find
    rw [hfind, hfind]
  · rw [hfind, hfind]
  · obtain ⟨trailing, hsplit, -⟩ := hlast.split
    have hsame : before.foldlM d'.descend (startOf wd path) =
        before.foldlM d.descend (startOf wd path) := by
      refine foldlM_congr ?_
      rintro fs ⟨t, rfl⟩
      exact h fs (t ++ last :: trailing) (by rw [hsplit, List.append_assoc])
        ⟨last, by simp, hlast.ne_nil⟩
    rw [hlast.find, hlast.find, hsame]
    simp only [finish_congr d d']

/-! ## Paved paths -/

/-- Every place that a path leads through before its last component is a directory. -/
def Paved (d : Disk) (wd : Place) (path : Path) : Prop :=
  ∀ fs rest, Text.splitOn '/' path = fs ++ rest → (∃ x ∈ rest, ¬Idle x) →
    d.node? (fs.foldl stride (startOf wd path)) = some .directory

theorem Paved.mono (h : d.Paved wd path) (hkeep : KeepsDirectories d d') : d'.Paved wd path :=
  fun fs rest hsplit hrest => hkeep _ (h fs rest hsplit hrest)

theorem directory_of_prefix (ht : d.IsTree) (hp : d.node? p = some .directory)
    (h : pieces.foldlM d.descend p = .ok q) {fs : List (List Char)} (hfs : fs <+: pieces) :
    d.node? (fs.foldl stride p) = some .directory := by
  obtain ⟨t, rfl⟩ := hfs
  rw [List.foldlM_append] at h
  obtain ⟨dir, hdir, -⟩ := bind_eq_ok h
  rw [← eq_foldl_of_foldlM hdir]
  exact directory_of_foldlM ht hp hdir

/-- What comes before something that counts comes before the last piece. -/
theorem prefix_of_trailing {fs rest trailing : List (List Char)}
    (h : before ++ last :: trailing = fs ++ rest) (htrailing : ∀ x ∈ trailing, Idle x)
    (hrest : ∃ x ∈ rest, ¬Idle x) : fs <+: before := by
  rcases List.append_eq_append_iff.mp h with ⟨t, rfl, ht⟩ | ⟨t, rfl, -⟩
  · cases t with
    | nil => simp
    | cons x xs =>
      obtain ⟨-, rfl⟩ := List.cons.inj ht
      obtain ⟨y, hy, hidle⟩ := hrest
      exact absurd (htrailing y (List.mem_append_right _ hy)) hidle
  · exact List.prefix_append fs t

/-- A path that is found is paved. -/
theorem paved_of_find (ht : d.IsTree) (hwd : d.node? wd = some .directory)
    (h : d.find wd path = .ok spot) : d.Paved wd path := by
  intro fs rest hsplit hrest
  rcases find_cases h with ⟨-, hempty⟩ | ⟨before, last, slash, dir, hlast, hdir, -⟩
  · obtain ⟨x, hx, hidle⟩ := hrest
    exact absurd (.inl (hempty x (by rw [hsplit]; exact List.mem_append_right _ hx))) hidle
  · obtain ⟨trailing, hsplit', htrailing⟩ := hlast.split
    refine directory_of_prefix ht (directory_of_startOf hwd path) hdir ?_
    exact prefix_of_trailing (hsplit'.symm.trans hsplit) (fun x hx => .inl (htrailing x hx)) hrest

/-- All that leads to a directory that is found is a directory. -/
theorem directory_of_mem_way (ht : d.IsTree) (hwd : d.node? wd = some .directory)
    (h : d.isDirectory wd path = true) (hq : q ∈ way wd path) : d.node? q = some .directory := by
  rw [isDirectory] at h
  split at h
  · cases h
  rename_i spot hfind
  have hplace : d.node? spot.place = some .directory := of_decide_eq_true h
  obtain ⟨fs, hfs, rfl⟩ := mem_strides_iff.mp hq
  rcases find_cases hfind with ⟨-, hempty⟩ | ⟨before, last, slash, dir, hlast, hdir, hspot⟩
  · rw [foldl_stride_empty fun x hx => hempty x (hfs.subset hx)]
    exact directory_of_startOf hwd path
  · obtain ⟨trailing, hsplit, htrailing⟩ := hlast.split
    obtain ⟨rest, hrest⟩ := hfs
    by_cases hidle : ∃ x ∈ rest, ¬Idle x
    · exact paved_of_find ht hwd hfind fs rest hrest.symm hidle
    · -- what is left leads nowhere else
      have hall : ∀ x ∈ rest, Idle x := fun x hx => by_contra fun hx' => hidle ⟨x, hx, hx'⟩
      have hlex : lexical wd path = fs.foldl stride (startOf wd path) := by
        rw [lexical, ← hrest, List.foldl_append, foldl_stride_idle hall]
      rw [← hlex, ← place_of_find hfind, hplace]

/-- Pieces that do not go up lead further down, or nowhere else. -/
theorem foldl_stride_down (h : Path.dotDot ∉ pieces) (p : Place) :
    ∃ r, pieces.foldl stride p = p ++ r ∧ ((∃ x ∈ pieces, ¬Idle x) → r ≠ []) := by
  induction pieces generalizing p with
  | nil =>
    refine ⟨[], (List.append_nil p).symm, ?_⟩
    rintro ⟨x, hx, -⟩
    exact absurd hx List.not_mem_nil
  | cons piece pieces ih =>
    rw [List.mem_cons, not_or] at h
    obtain ⟨r, hr, hne⟩ := ih h.2 (stride p piece)
    rw [List.foldl_cons, hr, stride]
    by_cases hidle : Idle piece
    · refine ⟨r, by rw [if_pos hidle], ?_⟩
      rintro ⟨x, hx, hcounts⟩
      refine hne ⟨x, ?_, hcounts⟩
      exact (List.mem_cons.mp hx).resolve_left fun he => hcounts (he ▸ hidle)
    · refine ⟨String.ofList piece :: r, ?_, fun _ => List.cons_ne_nil _ _⟩
      rw [if_neg hidle, if_neg (Ne.symm h.1), List.append_assoc, List.singleton_append]

/-- A path that does not go up is paved if something is where it leads. -/
theorem paved_of_down (ht : d.IsTree) {n : Node} (hn : d.node? (lexical wd path) = some n)
    (h : Path.dotDot ∉ Text.splitOn '/' path) : d.Paved wd path := by
  intro fs rest hsplit hrest
  rw [lexical, hsplit, List.foldl_append] at hn
  rw [hsplit, List.mem_append, not_or] at h
  obtain ⟨r, hr, hne⟩ := foldl_stride_down h.2 (fs.foldl stride (startOf wd path))
  rw [hr] at hn
  exact ht.directory_above hn (hne hrest)

theorem paved_of_front (h : Parent wd path parent front piece back)
    (hfront : ∀ q ∈ strides (startOf wd path) front, d.node? q = some .directory) :
    d.Paved wd path := fun _ _ hsplit hrest =>
  hfront _ (foldl_mem_strides (prefix_of_trailing (h.split.symm.trans hsplit) h.idle hrest))

/-- All that leads to a parent that is there is a directory. -/
theorem Parent.directory_of_mem_way (h : Parent wd path parent front piece back) (ht : d.IsTree)
    (hwd : d.node? wd = some .directory) (hparent : parent = [] ∨ d.isDirectory wd parent = true)
    (hq : q ∈ way wd parent) : d.node? q = some .directory := by
  rcases hparent with rfl | hdir
  · have hall : q = wd := by
      have hmem : q ∈ strides wd [[]] := hq
      simpa [strides, List.inits, stride] using hmem
    rw [hall, hwd]
  · exact Disk.directory_of_mem_way ht hwd hdir hq

/-- A path in a directory that is there is paved. -/
theorem paved_of_parent (ht : d.IsTree) (hwd : d.node? wd = some .directory)
    (h : Parent wd path parent front piece back)
    (hparent : parent = [] ∨ d.isDirectory wd parent = true) : d.Paved wd path :=
  paved_of_front h fun _ hq => h.directory_of_mem_way ht hwd hparent (h.mem_way_iff.mpr hq)

/-! ## Paths without a name -/

/-- The pieces of a path without a last component lead nowhere. -/
theorem idle_of_parent? (h : path.parent? = none) : ∀ x ∈ Text.splitOn '/' path, Idle x := by
  have hnone : path.last? = none := Option.map_eq_none_iff.mp h
  have hne : (Text.splitOn '/' path).reverse ≠ [] := by
    rw [ne_eq, List.reverse_eq_nil_iff]
    exact Text.splitOn_ne_nil '/' path
  obtain ⟨idle, last, rest, heq, hidle, hdrop, -⟩ := dropIdle_spec hne
  rw [Path.last?, hdrop] at hnone
  have hroot : last = [] ∧ rest = [] := by
    cases rest with
    | nil =>
      simp only at hnone
      split at hnone
      · rename_i hnil
        exact ⟨hnil, rfl⟩
      · cases hnone
    | cons next rest => cases hnone
  obtain ⟨rfl, rfl⟩ := hroot
  intro x hx
  rw [← List.mem_reverse, heq, List.mem_append, List.mem_singleton] at hx
  exact hx.elim (hidle x) .inl

theorem paved_of_parent? (h : path.parent? = none) : d.Paved wd path := by
  rintro fs rest hsplit ⟨x, hx, hidle⟩
  exact absurd (idle_of_parent? h x (by rw [hsplit]; exact List.mem_append_right _ hx)) hidle

/-- All that a paved path without a name leads through is a directory, the place where it leads
too. -/
theorem Paved.directory_of_mem_way (h : d.Paved wd path) (ht : d.IsTree)
    (hwd : d.node? wd = some .directory) (hfile : path.fileName? = none) (hq : q ∈ way wd path) :
    d.node? q = some .directory := by
  obtain ⟨fs, ⟨rest, hrest⟩, rfl⟩ := mem_strides_iff.mp hq
  by_cases hidle : ∃ x ∈ rest, ¬Idle x
  · exact h fs rest hrest.symm hidle
  have hall : ∀ x ∈ rest, Idle x := fun x hx => by_contra fun hx' => hidle ⟨x, hx, hx'⟩
  have hlex : lexical wd path = fs.foldl stride (startOf wd path) := by
    rw [lexical, ← hrest, List.foldl_append, foldl_stride_idle hall]
  rw [← hlex]
  cases hparent : path.parent? with
  | none =>
    rw [lexical, foldl_stride_idle (idle_of_parent? hparent)]
    exact directory_of_startOf hwd path
  | some parent =>
    obtain ⟨front, piece, back, hlast, hp⟩ := parent_of_parent? hparent wd
    rw [lexical, hp.split, List.foldl_append, List.foldl_cons, foldl_stride_idle hp.idle]
    rw [fileName?_eq hlast] at hfile
    by_cases hup : piece = Path.dotDot
    · -- the way goes back by one
      have hdir := h front (piece :: back) hp.split ⟨piece, by simp, by rw [hup]; decide⟩
      rw [hup, stride, if_neg (by decide), if_pos rfl]
      by_cases hroot : front.foldl stride (startOf wd path) = []
      · rw [hroot]
        exact node?_nil d
      · exact ht _ _ hroot hdir
    · have hdot : piece = Path.dot := by
        by_contra hdot
        simp [hdot, hup] at hfile
      have hfront : front = [] := by_contra fun hne => hp.counts hne (.inr hdot)
      rw [hfront, hdot]
      exact directory_of_startOf hwd path

/-! ## Paths beside a paved one -/

/-- Joining adds a piece, in place of an empty one at the end. -/
theorem splitOn_join (path : Path) (hne : name ≠ []) (hname : '/' ∉ name) :
    startOf wd (path.join name) = startOf wd path ∧ ∃ base extra,
      Text.splitOn '/' path = base ++ extra ∧ Text.splitOn '/' (path.join name) = base ++ [name] := by
  have hrelative := isAbsolute_of_notMem hne hname
  rw [Path.join, if_neg (by simp [hrelative])]
  split
  · rename_i hend
    rw [Bool.or_eq_true, List.isEmpty_iff, beq_iff_eq] at hend
    rcases hend with rfl | hlast
    · refine ⟨?_, [], _, rfl, Text.splitOn_of_notMem hname⟩
      rw [List.nil_append, startOf, startOf, if_neg (by simp [hrelative]), if_neg (by decide)]
    · -- the slash is there already
      obtain ⟨base, rfl⟩ := List.getLast?_eq_some_iff.mp hlast
      refine ⟨?_, Text.splitOn '/' base, [[]], Text.splitOn_append '/' base [], ?_⟩
      · cases base with
        | nil => rfl
        | cons c t => rfl
      · rw [List.append_assoc, List.singleton_append, Text.splitOn_append,
          Text.splitOn_of_notMem hname]
  · rename_i hend
    refine ⟨?_, Text.splitOn '/' path, [], (List.append_nil _).symm, ?_⟩
    · cases path with
      | nil => exact absurd rfl hend
      | cons c t => rfl
    · rw [Text.splitOn_append, Text.splitOn_of_notMem hname]

/-- A name in a place that is a directory like all that leads there. -/
theorem paved_join (hne : name ≠ []) (hname : '/' ∉ name)
    (h : ∀ q ∈ way wd path, d.node? q = some .directory) : d.Paved wd (path.join name) := by
  obtain ⟨hstart, base, extra, hpath, hjoin⟩ := @splitOn_join wd name path hne hname
  intro fs rest hsplit hrest
  have hfs := prefix_of_trailing (hjoin.symm.trans hsplit) (fun x hx => absurd hx List.not_mem_nil)
    hrest
  rw [hstart]
  refine h _ (foldl_mem_strides (hfs.trans ?_))
  rw [hpath]
  exact List.prefix_append base extra

/-- With another name in place of its own a paved path is paved. -/
theorem Paved.withFileName (h : d.Paved wd path) (ht : d.IsTree)
    (hwd : d.node? wd = some .directory) (hne : name ≠ []) (hname : '/' ∉ name) :
    d.Paved wd (path.withFileName name) := by
  rw [Path.withFileName]
  cases hfile : path.fileName? with
  | none => exact paved_join hne hname fun q hq => h.directory_of_mem_way ht hwd hfile hq
  | some last =>
    obtain ⟨parent, front, back, hparent, hp, hdots⟩ := exists_parent_of_fileName? hfile wd
    simp only [hparent, Option.getD_some]
    refine paved_join hne hname fun q hq => ?_
    rw [hp.mem_way_iff] at hq
    obtain ⟨fs, ⟨t, rfl⟩, rfl⟩ := mem_strides_iff.mp hq
    refine h fs (t ++ last :: back) (by rw [hp.split, List.append_assoc]) ⟨last, by simp, ?_⟩
    exact fun hidle => hidle.elim hp.piece_ne_nil fun hdot => hdots (.inl hdot)

end EditGate.Disk
