import EditGate.Proofs.Disk.Sibling
import Mathlib.Data.List.Infix

/-!
# The way of a path

A path leads through places before it leads to the last one (`way`). The way of the path without its
last component is a part of its way, and ends where the last component is added
(`Parent`, `parent_of_parent?`); another name in place of the last one leads to a place beside it
(`lexical_withFileName`).
-/

namespace EditGate.Disk

variable {wd p q : Place} {path parent : Path} {piece name : List Char}
  {pieces front : List (List Char)}

/-! ## Ways -/

/-- The places that some pieces lead through, the first one and the last one among them. -/
def strides (p : Place) (pieces : List (List Char)) : List Place :=
  pieces.inits.map fun front => front.foldl stride p

/-- The places that a path leads through, the one where it leads among them. -/
def way (wd : Place) (path : Path) : List Place :=
  strides (startOf wd path) (Text.splitOn '/' path)

theorem mem_strides_iff :
    q ∈ strides p pieces ↔ ∃ front, front <+: pieces ∧ front.foldl stride p = q := by
  simp [strides]

theorem foldl_mem_strides (h : front <+: pieces) : front.foldl stride p ∈ strides p pieces :=
  mem_strides_iff.mpr ⟨front, h, rfl⟩

theorem strides_subset (h : front <+: pieces) : strides p front ⊆ strides p pieces := by
  intro q hq
  obtain ⟨fs, hfs, rfl⟩ := mem_strides_iff.mp hq
  exact foldl_mem_strides (hfs.trans h)

theorem lexical_mem_way (wd : Place) (path : Path) : lexical wd path ∈ way wd path :=
  foldl_mem_strides List.prefix_rfl

/-! ## Parents -/

/-- A piece that leads nowhere else. -/
abbrev Idle (piece : List Char) : Prop := piece = [] ∨ piece = Path.dot

/-- Where something follows that is not empty, something follows that leads elsewhere, unless the
path has led nowhere yet. -/
def Tight (path : Path) : Prop :=
  ∀ fs rest, Text.splitOn '/' path = fs ++ rest → (∃ x ∈ rest, x ≠ []) →
    (∃ x ∈ rest, ¬Idle x) ∨ ∀ x ∈ fs, Idle x

/-- A path is its parent, and then its last component. -/
structure Parent (wd : Place) (path parent : Path) (front : List (List Char))
    (piece : List Char) (back : List (List Char)) : Prop where
  split : Text.splitOn '/' path = front ++ piece :: back
  piece_ne_nil : piece ≠ []
  counts : front ≠ [] → ¬Idle piece
  idle : ∀ x ∈ back, Idle x
  start : startOf wd parent = startOf wd path
  /-- The parent has the pieces before the last component, but for idle ones at their end. -/
  pieces : ∃ kept dropped trail, front = kept ++ dropped ∧
    Text.splitOn '/' parent = kept ++ trail ∧ (∀ x ∈ dropped, Idle x) ∧ ∀ x ∈ trail, x = []
  tight : Tight parent
  starts : parent <+: path
  shorter : parent.length < path.length

theorem isAbsolute_iff_splitOn :
    path.isAbsolute = true ↔ ∃ next rest, Text.splitOn '/' path = [] :: next :: rest := by
  cases path with
  | nil => simp [Path.isAbsolute, Text.splitOn]
  | cons c t =>
    obtain ⟨next, rest, ht⟩ := List.exists_cons_of_ne_nil (Text.splitOn_ne_nil '/' t)
    by_cases hc : c = '/'
    · simp [Path.isAbsolute, Text.splitOn, hc, ht]
    · simp [Path.isAbsolute, Text.splitOn, hc, ht]

/-- The pieces of a path around its last component: only idle ones follow it. -/
theorem splitOn_of_last? {before : List (List Char)} (h : path.last? = some (piece, before)) :
    ∃ back, Text.splitOn '/' path = before.reverse ++ piece :: back ∧ piece ≠ [] ∧
      (before ≠ [] → ¬Idle piece) ∧ ∀ x ∈ back, Idle x := by
  have hne : (Text.splitOn '/' path).reverse ≠ [] := by
    rw [ne_eq, List.reverse_eq_nil_iff]
    exact Text.splitOn_ne_nil '/' path
  obtain ⟨idle, last, rest, heq, hidle, hdrop, hlast⟩ := dropIdle_spec hne
  rw [Path.last?, hdrop] at h
  have hsome : last ≠ [] ∧ (last, rest) = (piece, before) := by
    cases rest with
    | nil =>
      simp only at h
      split at h
      · cases h
      · rename_i hnil
        exact ⟨hnil, Option.some.inj h⟩
    | cons next rest =>
      exact ⟨fun hnil => hlast (List.cons_ne_nil _ _) (.inl hnil), Option.some.inj h⟩
  obtain ⟨hnil, heq'⟩ := hsome
  obtain ⟨rfl, rfl⟩ := Prod.mk.inj heq'
  refine ⟨idle.reverse, ?_, hnil, hlast, fun x hx => hidle x (List.mem_reverse.mp hx)⟩
  rw [← List.reverse_reverse (Text.splitOn '/' path), heq]
  simp

theorem intercalate_append {a b : List (List Char)} (ha : a ≠ []) (hb : b ≠ []) :
    ['/'].intercalate (a ++ b) = ['/'].intercalate a ++ '/' :: ['/'].intercalate b := by
  induction a with
  | nil => exact absurd rfl ha
  | cons x xs ih =>
    cases xs with
    | nil =>
      obtain ⟨y, ys, rfl⟩ := List.exists_cons_of_ne_nil hb
      rw [List.singleton_append, List.intercalate_cons_cons, List.intercalate_singleton,
        List.append_assoc, List.singleton_append]
    | cons y ys =>
      have hrest := ih (List.cons_ne_nil y ys)
      rw [List.cons_append, List.cons_append, List.intercalate_cons_cons, ← List.cons_append,
        hrest, List.intercalate_cons_cons]
      simp only [List.append_assoc]

/-- A path starts with its first pieces. -/
theorem starts_of_splitOn {kept rest : List (List Char)} (hkept : kept ≠ []) (hrest : rest ≠ [])
    (h : Text.splitOn '/' path = kept ++ rest) :
    path = Path.ofPieces kept ++ '/' :: Path.ofPieces rest := by
  rw [← Text.intercalate_splitOn '/' path, h, intercalate_append hkept hrest]
  rfl

/-- A path that leads nowhere else at all is tight. -/
theorem tight_of_forall_eq_nil (h : ∀ x ∈ Text.splitOn '/' path, x = []) : Tight path := by
  rintro fs rest hfs ⟨y, hy, hne⟩
  have hmem : y ∈ Text.splitOn '/' path := by
    rw [hfs]
    exact List.mem_append_right _ hy
  exact absurd (h y hmem) hne

/-- A path is tight if its last piece leads elsewhere, or is the only one. -/
theorem tight_of_splitOn (h : Text.splitOn '/' path = front ++ [piece])
    (hpiece : front ≠ [] → ¬Idle piece) : Tight path := by
  rintro fs rest hfs ⟨y, hy, -⟩
  rw [h] at hfs
  have hrest : rest ≠ [] := List.ne_nil_of_mem hy
  by_cases hone : front = []
  · refine .inr fun x hx => ?_
    subst hone
    cases fs with
    | nil => exact absurd hx List.not_mem_nil
    | cons f fs => simp [hrest] at hfs
  · refine .inl ⟨piece, ?_, hpiece hone⟩
    have hlast := congrArg List.getLast? hfs
    rw [List.getLast?_concat, List.getLast?_append_of_ne_nil _ hrest] at hlast
    exact List.mem_of_getLast? hlast.symm

section

variable {kept dropped back : List (List Char)}

/-- A path of one component starts where it is resolved: its parent is empty. -/
theorem parent_nil (wd : Place) (h : Text.splitOn '/' path = piece :: back) (hpiece : piece ≠ [])
    (hback : ∀ x ∈ back, Idle x) : Parent wd path [] [] piece back where
  split := h
  piece_ne_nil := hpiece
  counts := fun hne => absurd rfl hne
  idle := hback
  start := by
    have hrelative : ¬path.isAbsolute = true := by
      intro habs
      obtain ⟨next, rest, hroot⟩ := isAbsolute_iff_splitOn.mp habs
      rw [h] at hroot
      exact hpiece (List.cons.inj hroot).1
    rw [startOf, startOf, if_neg hrelative]
    rfl
  pieces := ⟨[], [], [[]], rfl, rfl, by simp, by simp⟩
  tight := tight_of_forall_eq_nil fun _ hx => List.mem_singleton.mp hx
  starts := List.nil_prefix
  shorter := by
    refine List.length_pos_iff.mpr ?_
    rintro rfl
    exact hpiece (List.cons.inj h).1.symm

/-- An absolute path of one component has the root as its parent. -/
theorem parent_root (wd : Place)
    (h : Text.splitOn '/' path = [[]] ++ (dropped ++ piece :: back)) (hpiece : ¬Idle piece)
    (hback : ∀ x ∈ back, Idle x) (hdropped : ∀ x ∈ dropped, Idle x) :
    Parent wd path ['/'] ([[]] ++ dropped) piece back := by
  have hnil : piece ≠ [] := fun hnil => hpiece (.inl hnil)
  have hpath := starts_of_splitOn (List.cons_ne_nil [] []) (by simp) h
  rw [Path.ofPieces, List.intercalate_singleton, List.nil_append] at hpath
  -- with nothing after the root the last component would be empty
  have hlong : Path.ofPieces (dropped ++ piece :: back) ≠ [] := by
    intro hshort
    have hmem : piece ∈ Text.splitOn '/' path := by
      rw [h]
      simp
    rw [hpath, hshort] at hmem
    exact hnil (by simpa [Text.splitOn] using hmem)
  exact {
    split := by rw [h, List.append_assoc]
    piece_ne_nil := hnil
    counts := fun _ => hpiece
    idle := hback
    start := by
      rw [hpath]
      rfl
    pieces := ⟨[[]], dropped, [[]], rfl, rfl, hdropped, by simp⟩
    tight := tight_of_forall_eq_nil fun x hx => by simpa [Text.splitOn] using hx
    starts := ⟨_, hpath.symm⟩
    shorter := by
      have hpos := List.length_pos_iff.mpr hlong
      rw [hpath, List.length_cons, List.length_cons, List.length_nil]
      omega }

/-- Any other path has a parent of the pieces that are kept, the last of which counts. -/
theorem parent_ofPieces (wd : Place) {last : List Char}
    (h : Text.splitOn '/' path = (kept ++ [last]) ++ (dropped ++ piece :: back))
    (hpiece : ¬Idle piece) (hback : ∀ x ∈ back, Idle x) (hdropped : ∀ x ∈ dropped, Idle x)
    (hlast : kept ≠ [] → ¬Idle last) (hroot : kept ++ [last] ≠ [[]]) :
    Parent wd path (Path.ofPieces (kept ++ [last])) ((kept ++ [last]) ++ dropped) piece back := by
  have hkept : kept ++ [last] ≠ [] := by simp
  have hpath := starts_of_splitOn hkept (by simp) h
  have hpieces : Text.splitOn '/' (Path.ofPieces (kept ++ [last])) = kept ++ [last] :=
    Text.splitOn_intercalate hkept fun x hx =>
      Text.notMem_of_mem_splitOn (by rw [h]; exact List.mem_append_left _ hx)
  have hne : Path.ofPieces (kept ++ [last]) ≠ [] := by
    intro hnil
    rw [hnil] at hpieces
    exact hroot hpieces.symm
  exact {
    split := by rw [h, ← List.append_assoc]
    piece_ne_nil := fun hnil => hpiece (.inl hnil)
    counts := fun _ => hpiece
    idle := hback
    start := by
      obtain ⟨c, t, hparent⟩ := List.exists_cons_of_ne_nil hne
      rw [hpath, hparent]
      rfl
    pieces := ⟨kept ++ [last], dropped, [], rfl, by rw [hpieces, List.append_nil], hdropped,
      by simp⟩
    tight := tight_of_splitOn hpieces hlast
    starts := ⟨_, hpath.symm⟩
    shorter := by
      rw [hpath, List.length_append, List.length_cons]
      omega }

end

theorem parent_of_parent? (h : path.parent? = some parent) (wd : Place) :
    ∃ front piece back, path.last?.map Prod.fst = some piece ∧
      Parent wd path parent front piece back := by
  rw [Path.parent?] at h
  obtain ⟨⟨piece, before⟩, hlast, hparent⟩ := Option.map_eq_some_iff.mp h
  obtain ⟨back, hsplit, hpiece, hcounts, hback⟩ := splitOn_of_last? hlast
  refine ⟨before.reverse, piece, back, by rw [hlast]; rfl, ?_⟩
  by_cases hbefore : before = []
  · subst hbefore
    obtain rfl : [] = parent := hparent
    exact parent_nil wd hsplit hpiece hback
  · obtain ⟨idle, last, rest, heq, hidle, hdrop, hrest⟩ := dropIdle_spec hbefore
    have hdropped : ∀ x ∈ idle.reverse, Idle x := fun x hx => hidle x (List.mem_reverse.mp hx)
    have hfront : before.reverse = (rest.reverse ++ [last]) ++ idle.reverse := by
      rw [heq, List.reverse_append, List.reverse_cons]
    rw [hfront, List.append_assoc] at hsplit
    simp only [hdrop] at hparent
    rw [hfront]
    split at hparent
    · rename_i hroot
      obtain ⟨rfl, rfl⟩ := List.cons.inj hroot
      obtain rfl := hparent
      exact parent_root wd hsplit (hcounts hbefore) hback hdropped
    · rename_i hroot
      rw [List.reverse_cons] at hparent
      obtain rfl := hparent
      refine parent_ofPieces wd hsplit (hcounts hbefore) hback hdropped ?_ ?_
      · exact fun hne => hrest fun hnil => hne (by rw [hnil]; rfl)
      · intro hone
        have hrev := congrArg List.reverse hone
        rw [List.reverse_append, List.reverse_reverse] at hrev
        exact hroot hrev

namespace Parent

variable {back : List (List Char)}

theorem front_prefix (h : Parent wd path parent front piece back) :
    front <+: Text.splitOn '/' path := by
  rw [h.split]
  exact List.prefix_append _ _

/-- The parent leads to where the pieces before the last component lead. -/
theorem lexical_parent (h : Parent wd path parent front piece back) :
    Disk.lexical wd parent = front.foldl stride (startOf wd path) := by
  obtain ⟨kept, dropped, trail, rfl, hparent, hdropped, htrail⟩ := h.pieces
  rw [Disk.lexical, hparent, h.start, List.foldl_append, List.foldl_append,
    foldl_stride_idle hdropped, foldl_stride_idle fun x hx => .inl (htrail x hx)]

/-- The way of the parent is that of the pieces before the last component. -/
theorem mem_way_iff (h : Parent wd path parent front piece back) :
    q ∈ Disk.way wd parent ↔ q ∈ strides (startOf wd path) front := by
  obtain ⟨kept, dropped, trail, rfl, hparent, hdropped, htrail⟩ := h.pieces
  have hstrides : ∀ extra : List (List Char), (∀ x ∈ extra, Idle x) → ∀ p,
      (q ∈ strides p (kept ++ extra) ↔ q ∈ strides p kept) := by
    intro extra hextra p
    refine ⟨fun hq => ?_, fun hq => strides_subset (List.prefix_append _ _) hq⟩
    obtain ⟨fs, hfs, rfl⟩ := mem_strides_iff.mp hq
    rcases List.prefix_or_prefix_of_prefix hfs (List.prefix_append kept extra) with hle | ⟨t, rfl⟩
    · exact foldl_mem_strides hle
    · have ht := (List.prefix_append_right_inj kept).mp hfs
      rw [List.foldl_append, foldl_stride_idle fun x hx => hextra x (ht.subset hx)]
      exact foldl_mem_strides List.prefix_rfl
  rw [Disk.way, hparent, h.start, hstrides _ (fun x hx => .inl (htrail x hx)),
    hstrides _ hdropped]

theorem way_subset (h : Parent wd path parent front piece back) :
    Disk.way wd parent ⊆ Disk.way wd path :=
  fun _ hq => strides_subset h.front_prefix (h.mem_way_iff.mp hq)

/-- A path leads where its last component leads from its parent. -/
theorem lexical_eq (h : Parent wd path parent front piece back) :
    Disk.lexical wd path = stride (Disk.lexical wd parent) piece := by
  rw [h.lexical_parent, Disk.lexical, h.split, List.foldl_append, List.foldl_cons,
    foldl_stride_idle h.idle]

end Parent

theorem fileName?_eq (h : path.last?.map Prod.fst = some piece) :
    path.fileName? = if piece = Path.dot ∨ piece = Path.dotDot then none else some piece := by
  obtain ⟨⟨last, before⟩, hlast, rfl⟩ := Option.map_eq_some_iff.mp h
  rw [Path.fileName?, hlast]

/-- A path with a name has a parent that the name is in. -/
theorem exists_parent_of_fileName? {last : List Char} (h : path.fileName? = some last)
    (wd : Place) : ∃ parent front back, path.parent? = some parent ∧
      Parent wd path parent front last back ∧ ¬(last = Path.dot ∨ last = Path.dotDot) := by
  obtain ⟨parent, hparent⟩ : ∃ parent, path.parent? = some parent := by
    rw [Path.fileName?] at h
    split at h
    · rename_i piece before hlast
      exact ⟨_, by rw [Path.parent?, hlast]; rfl⟩
    · cases h
  obtain ⟨front, piece, back, hlast, hp⟩ := parent_of_parent? hparent wd
  rw [fileName?_eq hlast] at h
  split at h
  · cases h
  · rename_i hdots
    obtain rfl := Option.some.inj h
    exact ⟨parent, front, back, hparent, hp, hdots⟩

/-- With another name in place of its own a path leads beside where it leads; a path without a name
leads below. -/
theorem lexical_withFileName (hname : name ≠ []) (hslash : '/' ∉ name) (hdot : name ≠ Path.dot)
    (hdots : name ≠ Path.dotDot) :
    lexical wd (path.withFileName name) =
      (match path.fileName? with
        | some _ => (lexical wd path).dropLast
        | none => lexical wd path) ++ [String.ofList name] := by
  rw [Path.withFileName]
  cases hfile : path.fileName? with
  | none => simp only [lexical_join hname hslash, stride_of_name _ hname hdot hdots]
  | some last =>
    obtain ⟨parent, front, back, hparent, hp, hpiece⟩ := exists_parent_of_fileName? hfile wd
    rw [not_or] at hpiece
    simp only [hparent, Option.getD_some, lexical_join hname hslash,
      stride_of_name _ hname hdot hdots]
    rw [hp.lexical_eq, stride_of_name _ hp.piece_ne_nil hpiece.1 hpiece.2, List.dropLast_concat]

end EditGate.Disk
