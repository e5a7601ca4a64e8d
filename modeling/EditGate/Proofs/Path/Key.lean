import EditGate.Project
import EditGate.Proofs.Disk.Sibling

/-!
# What keys are made of

A path says something from the root of a project on: all of it if it is relative, and what follows
the root if it is absolute and begins with the root (`fromRoot?`). Then its key is as many `..` as
the path climbs above the root (`climb`), and the names that lead from there to the place of the
path (`key_of_fromRoot?`). The key of any other path is absolute and spells out its place
(`key_of_foreign`). So a key depends on the place and on how far the path climbs, and on nothing
else.
-/

namespace EditGate.Path

/-! ## Components and places -/

/-- The place that a component leads to. -/
def Component.stride (p : Place) : Component → Place
  | .name s => p ++ [String.ofList s]
  | .up => p.dropLast
  | .root | .here => p

theorem foldl_component? (pieces : List (List Char)) (p : Place) :
    (pieces.filterMap component?).foldl Component.stride p = pieces.foldl Disk.stride p := by
  induction pieces generalizing p with
  | nil => rfl
  | cons piece pieces ih =>
    rw [List.foldl_cons, List.filterMap_cons, Disk.stride, component?]
    by_cases hidle : piece = [] ∨ piece = dot
    · rw [if_pos hidle, if_pos hidle, ih]
    by_cases hup : piece = dotDot
    · rw [if_neg hidle, if_pos hup, if_neg hidle, if_pos hup]
      exact ih _
    · rw [if_neg hidle, if_neg hup, if_neg hidle, if_neg hup]
      exact ih _

/-- A path leads where its components lead. -/
theorem foldl_components (path : Path) (p : Place) :
    (components path).foldl Component.stride p =
      (Text.splitOn '/' path).foldl Disk.stride p := by
  rw [components]
  split
  · exact foldl_component? _ p
  · split
    · next heq => rw [heq]; rfl
    · next piece pieces heq =>
      rw [heq, ← foldl_component?, List.filterMap_cons]
      by_cases hdot : piece = dot
      · rw [if_pos hdot, component?, if_pos (.inr hdot)]
        rfl
      · rw [if_neg hdot]
        cases component? piece <;> rfl

/-- A text between slashes that names something. -/
structure IsName (s : List Char) : Prop where
  ne_nil : s ≠ []
  ne_dot : s ≠ dot
  ne_dotDot : s ≠ dotDot
  slash_notMem : '/' ∉ s

theorem component?_eq_name {piece s : List Char} (h : component? piece = some (.name s)) :
    piece = s ∧ s ≠ [] ∧ s ≠ dot ∧ s ≠ dotDot := by
  rw [component?] at h
  split at h
  · cases h
  · next hidle =>
    split at h
    · cases h
    · next hup =>
      cases h
      exact ⟨rfl, fun h => hidle (.inl h), fun h => hidle (.inr h), hup⟩

theorem component?_ne_root (piece : List Char) : component? piece ≠ some .root := by
  rw [component?]
  split
  · simp
  · split <;> simp

theorem mem_components {path : Path} {c : Component} (h : c ∈ components path) :
    (c = .root ∧ isAbsolute path) ∨ c = .here ∨
      ∃ piece ∈ Text.splitOn '/' path, component? piece = some c := by
  rw [components] at h
  split at h
  · next habs =>
    obtain rfl | h := List.mem_cons.mp h
    · exact .inl ⟨rfl, habs⟩
    · exact .inr (.inr (List.mem_filterMap.mp h))
  · split at h
    · cases h
    · next piece pieces heq =>
      rw [heq]
      obtain h | h := List.mem_append.mp h
      · split at h
        · exact .inr (.inl (List.mem_singleton.mp h))
        · exact .inr (.inr ⟨piece, List.mem_cons_self, Option.mem_toList.mp h⟩)
      · obtain ⟨x, hx, hc⟩ := List.mem_filterMap.mp h
        exact .inr (.inr ⟨x, List.mem_cons_of_mem _ hx, hc⟩)

theorem isName_of_mem_components {path : Path} {s : List Char}
    (h : .name s ∈ components path) : IsName s := by
  obtain ⟨h, -⟩ | h | ⟨piece, hpiece, h⟩ := mem_components h
  · cases h
  · cases h
  · obtain ⟨rfl, hnil, hdot, hup⟩ := component?_eq_name h
    exact ⟨hnil, hdot, hup, Text.notMem_of_mem_splitOn hpiece⟩

theorem root_notMem_of_relative {path : Path} (h : ¬isAbsolute path) :
    .root ∉ components path := by
  intro hroot
  obtain ⟨-, habs⟩ | h | ⟨piece, -, hpiece⟩ := mem_components hroot
  · exact h habs
  · cases h
  · exact component?_ne_root piece hpiece

theorem components_of_absolute {path : Path} (h : isAbsolute path) :
    ∃ cs, components path = .root :: cs ∧ .root ∉ cs := by
  rw [components, if_pos h]
  refine ⟨_, rfl, fun hroot => ?_⟩
  obtain ⟨piece, -, hpiece⟩ := List.mem_filterMap.mp hroot
  exact component?_ne_root piece hpiece

theorem head?_components_iff (path : Path) :
    (components path).head? = some .root ↔ isAbsolute path := by
  constructor
  · intro h
    by_cases habs : isAbsolute path
    · exact habs
    · exact absurd (List.mem_of_head? h) (root_notMem_of_relative habs)
  · intro h
    obtain ⟨cs, hcs, -⟩ := components_of_absolute h
    rw [hcs]
    rfl

theorem eq_append_of_stripComponents? {base cs rest : List Component}
    (h : stripComponents? base cs = some rest) : cs = base ++ rest := by
  induction base generalizing cs with
  | nil => exact Option.some.inj h
  | cons b base ih =>
    cases cs with
    | nil => cases h
    | cons c cs =>
      rw [stripComponents?] at h
      split at h
      · next hb => rw [hb, ih h, List.cons_append]
      · cases h

/-! ## Climbing -/

/-- How many of the components go up with no name before them left to undo; `depth` names stand
before them all. -/
def climb : (depth : Nat) → List Component → Nat
  | _, [] => 0
  | depth, .name _ :: cs => climb (depth + 1) cs
  | 0, .up :: cs => climb 0 cs + 1
  | depth + 1, .up :: cs => climb depth cs
  | depth, .root :: cs => climb depth cs
  | depth, .here :: cs => climb depth cs

/-- The place that is `levels` above another. -/
def above (levels : Nat) (p : Place) : Place := p.take (p.length - levels)

theorem above_zero (p : Place) : above 0 p = p := by rw [above, Nat.sub_zero, List.take_length]

theorem dropLast_above (levels : Nat) (p : Place) :
    (above levels p).dropLast = above (levels + 1) p := by
  rw [above, above, List.dropLast_eq_take, List.length_take, List.take_take]
  congr 1
  omega

/-- The names of a place below another, the last one first. -/
def named (stack : List (List Char)) : Place := (stack.map String.ofList).reverse

/-- A name leads below the names before it. -/
theorem stride_name (p : Place) (stack : List (List Char)) (s : List Char) :
    Component.stride (p ++ named stack) (.name s) = p ++ named (s :: stack) := by
  rw [Component.stride, named, named, List.map_cons, List.reverse_cons, List.append_assoc]

/-- Going up undoes a name. -/
theorem stride_up (p : Place) (stack : List (List Char)) (s : List Char) :
    Component.stride (p ++ named (s :: stack)) .up = p ++ named stack := by
  rw [← stride_name]
  exact List.dropLast_concat

/-- With no name to undo, going up leads one level further above. -/
theorem stride_up_above (levels : Nat) (p : Place) :
    Component.stride (above levels p ++ named []) .up = above (levels + 1) p ++ named [] := by
  rw [← dropLast_above]
  simp only [named, List.map_nil, List.reverse_nil, List.append_nil]
  rfl

theorem pushComponent_up {s : List Char} (hs : IsName s) (segments : List (List Char)) :
    pushComponent (s :: segments) .up = segments := by
  rw [pushComponent, if_neg hs.ne_dotDot]
  exact hs.ne_nil

theorem pushComponent_up_replicate (levels : Nat) :
    pushComponent (List.replicate levels dotDot) .up = List.replicate (levels + 1) dotDot := by
  cases levels <;> rfl

variable {cs : List Component}

/-- Components from some place on come down to the times that they climb above it and to names, and
lead to these names below the place that is so far above. Going up at any moment undoes the last
name, or is one level more once there is no name. -/
theorem foldl_pushComponent (hroot : .root ∉ cs) (hnames : ∀ s, .name s ∈ cs → IsName s)
    {levels : Nat} {stack : List (List Char)} (hstack : ∀ s ∈ stack, IsName s) :
    ∃ stack', (∀ s ∈ stack', IsName s) ∧
      cs.foldl pushComponent (stack ++ List.replicate levels dotDot) =
        stack' ++ List.replicate (levels + climb stack.length cs) dotDot ∧
      ∀ p : Place, cs.foldl Component.stride (above levels p ++ named stack) =
        above (levels + climb stack.length cs) p ++ named stack' := by
  induction cs generalizing levels stack with
  | nil => exact ⟨stack, hstack, rfl, fun _ => rfl⟩
  | cons c cs ih =>
    have hroot' : .root ∉ cs := fun h => hroot (List.mem_cons_of_mem _ h)
    have hnames' : ∀ s, .name s ∈ cs → IsName s := fun s h => hnames s (List.mem_cons_of_mem _ h)
    cases c with
    | root => exact absurd List.mem_cons_self hroot
    | here => exact ih hroot' hnames' hstack
    | name s =>
      simp only [List.foldl_cons, stride_name]
      exact ih hroot' hnames' (List.forall_mem_cons.mpr ⟨hnames s List.mem_cons_self, hstack⟩)
    | up =>
      cases stack with
      | nil =>
        have hlevels : levels + climb 0 (.up :: cs) = levels + 1 + climb 0 cs := by
          rw [climb]
          omega
        simp only [List.foldl_cons, List.nil_append, pushComponent_up_replicate, stride_up_above,
          List.length_nil, hlevels]
        exact @ih hroot' hnames' (levels + 1) [] hstack
      | cons s stack =>
        simp only [List.foldl_cons, stride_up, List.cons_append,
          pushComponent_up (hstack s List.mem_cons_self)]
        exact ih hroot' hnames' fun x hx => hstack x (List.mem_cons_of_mem _ hx)

/-- After a root, components come down to names alone, which lead to their place. -/
theorem foldl_pushComponent_root (hroot : .root ∉ cs) (hnames : ∀ s, .name s ∈ cs → IsName s)
    {stack : List (List Char)} (hstack : ∀ s ∈ stack, IsName s) :
    ∃ stack', (∀ s ∈ stack', IsName s) ∧
      cs.foldl pushComponent (stack ++ [[]]) = stack' ++ [[]] ∧
      cs.foldl Component.stride ([] ++ named stack) = [] ++ named stack' := by
  induction cs generalizing stack with
  | nil => exact ⟨stack, hstack, rfl, rfl⟩
  | cons c cs ih =>
    have hroot' : .root ∉ cs := fun h => hroot (List.mem_cons_of_mem _ h)
    have hnames' : ∀ s, .name s ∈ cs → IsName s := fun s h => hnames s (List.mem_cons_of_mem _ h)
    cases c with
    | root => exact absurd List.mem_cons_self hroot
    | here => exact ih hroot' hnames' hstack
    | name s =>
      rw [List.foldl_cons, List.foldl_cons, stride_name]
      exact ih hroot' hnames' (List.forall_mem_cons.mpr ⟨hnames s List.mem_cons_self, hstack⟩)
    | up =>
      cases stack with
      | nil =>
        -- above the root is the root, for keys as for places
        exact ih hroot' hnames' hstack
      | cons s stack =>
        rw [List.foldl_cons, List.foldl_cons, stride_up, List.cons_append,
          pushComponent_up (hstack s List.mem_cons_self)]
        exact ih hroot' hnames' fun x hx => hstack x (List.mem_cons_of_mem _ hx)

/-! ## Keys -/

/-- What a path says from the root on: all of a relative one, and what follows the root in an
absolute one that begins with the root. -/
def fromRoot? (root p : Path) : Option (List Component) :=
  if isAbsolute p then stripComponents? (components root) (components p) else some (components p)

/-- How far a path climbs above the root; none if it does not start from there. -/
def vantage (root p : Path) : Option Nat := (fromRoot? root p).map (climb 0)

theorem replaceChar_of_notMem {old new : Char} {s : List Char} (h : old ∉ s) :
    Text.replaceChar old new s = s := by
  rw [Text.replaceChar]
  refine (List.map_congr_left fun c hc => ?_).trans (List.map_id s)
  exact if_neg fun (hold : c = old) => h (hold ▸ hc)

variable {root p : Path}

theorem key_eq (hp : '\\' ∉ p) :
    key root p = ofPieces (keySegments ((fromRoot? root p).getD (components p))) := by
  rw [key, replaceChar_of_notMem hp, fromRoot?]
  by_cases habs : isAbsolute p
  · simp only [(head?_components_iff p).mpr habs, habs, if_true]
  · have hhead := mt (head?_components_iff p).mp habs
    rw [if_neg habs]
    simp only [if_neg hhead, Option.getD_some]

theorem mem_components_of_fromRoot? {way : List Component} {c : Component}
    (h : fromRoot? root p = some way) (hc : c ∈ way) : c ∈ components p := by
  rw [fromRoot?] at h
  split at h
  · rw [eq_append_of_stripComponents? h]
    exact List.mem_append_right _ hc
  · cases h
    exact hc

theorem root_notMem_of_fromRoot? {way : List Component} (hroot : isAbsolute root)
    (h : fromRoot? root p = some way) : .root ∉ way := by
  rw [fromRoot?] at h
  split at h
  · next habs =>
    -- the only root of the path is that of the root it begins with
    obtain ⟨base, hbase, -⟩ := components_of_absolute hroot
    obtain ⟨cs, hcs, hrest⟩ := components_of_absolute habs
    have heq := eq_append_of_stripComponents? h
    rw [hcs, hbase, List.cons_append, List.cons.injEq] at heq
    exact fun hmem => hrest (heq.2 ▸ List.mem_append_right _ hmem)
  · next habs =>
    cases h
    exact root_notMem_of_relative habs

theorem foldl_stride_append_slash (base p : Path) (q : Place) :
    (Text.splitOn '/' (base ++ '/' :: p)).foldl Disk.stride q =
      (Text.splitOn '/' p).foldl Disk.stride ((Text.splitOn '/' base).foldl Disk.stride q) := by
  rw [Text.splitOn_append, List.foldl_append]

theorem lexical_eq_foldl (path : Path) :
    Disk.lexical [] path = (Text.splitOn '/' path).foldl Disk.stride [] := by
  rw [Disk.lexical, Disk.startOf, ite_self]

/-- A relative path leads on from the place that it is joined to. -/
theorem lexical_join_relative (base : Path) (h : ¬isAbsolute p) :
    Disk.lexical [] (base.join p) =
      (Text.splitOn '/' p).foldl Disk.stride (Disk.lexical [] base) := by
  rw [join, if_neg h, lexical_eq_foldl, lexical_eq_foldl]
  split
  · next hend =>
    rw [Bool.or_eq_true, List.isEmpty_iff, beq_iff_eq] at hend
    obtain rfl | hlast := hend
    · rfl
    · -- the slash is there already
      obtain ⟨base, rfl⟩ := List.getLast?_eq_some_iff.mp hlast
      rw [List.append_assoc, List.singleton_append, foldl_stride_append_slash,
        foldl_stride_append_slash]
      rfl
  · exact foldl_stride_append_slash base p []

/-- The place of a path that starts from the root. -/
theorem lexical_of_fromRoot? {way : List Component} (h : fromRoot? root p = some way) :
    Disk.lexical [] (Project.locate ⟨root⟩ p) =
      way.foldl Component.stride (Disk.lexical [] root) := by
  have hlexical : ∀ path, Disk.lexical [] path = (components path).foldl Component.stride [] :=
    fun path => (lexical_eq_foldl path).trans (foldl_components path []).symm
  rw [fromRoot?] at h
  by_cases habs : isAbsolute p
  · -- the components of the root lead to its place, and the others on from there
    rw [if_pos habs] at h
    rw [Project.locate, if_pos habs, hlexical, eq_append_of_stripComponents? h,
      List.foldl_append, ← hlexical]
  · rw [if_neg habs] at h
    cases h
    rw [Project.locate, if_neg habs, lexical_join_relative root habs, foldl_components]

/-- The key of a path that starts from the root: how far it climbs, and the names from there to its
place. -/
theorem key_of_fromRoot? {way : List Component} (hroot : isAbsolute root) (hp : '\\' ∉ p)
    (h : fromRoot? root p = some way) :
    ∃ names, (∀ s ∈ names, IsName s) ∧
      key root p = ofPieces (List.replicate (climb 0 way) dotDot ++ names) ∧
      Disk.lexical [] (Project.locate ⟨root⟩ p) =
        above (climb 0 way) (Disk.lexical [] root) ++ names.map String.ofList := by
  obtain ⟨stack, hstack, hsegments, hplace⟩ :=
    @foldl_pushComponent way (root_notMem_of_fromRoot? hroot h)
      (fun s hs => isName_of_mem_components (mem_components_of_fromRoot? h hs)) 0 []
      (fun s hs => absurd hs List.not_mem_nil)
  rw [Nat.zero_add, List.length_nil] at hsegments hplace
  refine ⟨stack.reverse, fun s hs => hstack s (List.mem_reverse.mp hs), ?_, ?_⟩
  · have hfold : way.foldl pushComponent [] = stack ++ List.replicate (climb 0 way) dotDot :=
      hsegments
    rw [key_eq hp, h, Option.getD_some, keySegments, hfold, List.reverse_append,
      List.reverse_replicate]
  · have := hplace (Disk.lexical [] root)
    rw [above_zero, named, List.map_nil, List.reverse_nil, List.append_nil] at this
    rw [lexical_of_fromRoot? h, this, named, List.map_reverse]

/-- The key of any other path: a slash before each name that leads to its place. -/
theorem key_of_foreign (hp : '\\' ∉ p) (h : fromRoot? root p = none) :
    ∃ names, (∀ s ∈ names, IsName s) ∧ key root p = ofPieces ([] :: names) ∧
      Disk.lexical [] (Project.locate ⟨root⟩ p) = names.map String.ofList := by
  have habs : isAbsolute p := by
    by_cases habs : isAbsolute p
    · exact habs
    · rw [fromRoot?, if_neg habs] at h
      cases h
  obtain ⟨cs, hcs, hroot⟩ := components_of_absolute habs
  have hnames : ∀ s, .name s ∈ cs → IsName s := by
    intro s hs
    have hmem : .name s ∈ components p := hcs ▸ List.mem_cons_of_mem _ hs
    exact isName_of_mem_components hmem
  obtain ⟨stack, hstack, hsegments, hplace⟩ :=
    @foldl_pushComponent_root cs hroot hnames [] fun s hs => absurd hs List.not_mem_nil
  refine ⟨stack.reverse, fun s hs => hstack s (List.mem_reverse.mp hs), ?_, ?_⟩
  · have hfold : (components p).foldl pushComponent [] = stack ++ [[]] := by
      rw [hcs, List.foldl_cons]
      exact hsegments
    rw [key_eq hp, h, Option.getD_none, keySegments, hfold, List.reverse_append]
    rfl
  · rw [Project.locate, if_pos habs, Disk.lexical, Disk.startOf, ite_self, ← foldl_components,
      hcs, List.foldl_cons]
    exact hplace.trans (by rw [List.nil_append, named, List.map_reverse])

/-! ## One key -/

/-- Paths that lead to one place from one vantage have one key. -/
theorem key_eq_of_vantage_eq {q : Path} (hroot : isAbsolute root) (hp : '\\' ∉ p) (hq : '\\' ∉ q)
    (hplace : Disk.lexical [] (Project.locate ⟨root⟩ p) =
      Disk.lexical [] (Project.locate ⟨root⟩ q))
    (h : vantage root p = vantage root q) : key root p = key root q := by
  have hinj : ∀ {xs ys : List (List Char)},
      xs.map String.ofList = ys.map String.ofList → xs = ys :=
    fun h => (List.map_inj_right fun _ _ => String.ofList_injective).mp h
  cases hway : fromRoot? root p with
  | none =>
    have hway' : fromRoot? root q = none := by
      rw [vantage, hway, Option.map_none] at h
      exact Option.map_eq_none_iff.mp h.symm
    obtain ⟨names, -, hkey, hnames⟩ := key_of_foreign hp hway
    obtain ⟨names', -, hkey', hnames'⟩ := key_of_foreign hq hway'
    rw [hkey, hkey', hinj (hnames.symm.trans (hplace.trans hnames'))]
  | some way =>
    rw [vantage, hway, Option.map_some] at h
    obtain ⟨way', hway', hclimb⟩ := Option.map_eq_some_iff.mp h.symm
    obtain ⟨names, -, hkey, hnames⟩ := key_of_fromRoot? hroot hp hway
    obtain ⟨names', -, hkey', hnames'⟩ := key_of_fromRoot? hroot hq hway'
    rw [hclimb] at hkey' hnames'
    rw [hkey, hkey', hinj (List.append_cancel_left (hnames.symm.trans (hplace.trans hnames')))]

/-- What stands between the slashes of a key; nothing does in the key of the root. -/
def segments (k : Path) : List (List Char) := if k = [] then [] else Text.splitOn '/' k

theorem segments_ofPieces {pieces : List (List Char)} (hslash : ∀ s ∈ pieces, '/' ∉ s)
    (hne : pieces ≠ [[]]) : segments (ofPieces pieces) = pieces := by
  cases pieces with
  | nil => rfl
  | cons s rest =>
    have hsplit : Text.splitOn '/' (ofPieces (s :: rest)) = s :: rest :=
      Text.splitOn_intercalate (List.cons_ne_nil s rest) hslash
    rw [segments, if_neg, hsplit]
    intro hnil
    rw [hnil] at hsplit
    exact hne hsplit.symm

theorem ofPieces_injective {xs ys : List (List Char)} (hxs : ∀ s ∈ xs, s ≠ [] ∧ '/' ∉ s)
    (hys : ∀ s ∈ ys, s ≠ [] ∧ '/' ∉ s) (h : ofPieces xs = ofPieces ys) : xs = ys := by
  have hback : ∀ {ps : List (List Char)}, (∀ s ∈ ps, s ≠ [] ∧ '/' ∉ s) →
      segments (ofPieces ps) = ps := by
    intro ps hps
    refine segments_ofPieces (fun s hs => (hps s hs).2) ?_
    rintro rfl
    exact (hps [] List.mem_cons_self).1 rfl
  rw [← hback hxs, h, hback hys]

theorem climb_eq_of_replicate_append {a b : Nat} {names names' : List (List Char)}
    (hnames : ∀ s ∈ names, IsName s) (hnames' : ∀ s ∈ names', IsName s)
    (h : List.replicate a dotDot ++ names = List.replicate b dotDot ++ names') : a = b := by
  have hcount : ∀ (n : Nat) {ns : List (List Char)}, (∀ s ∈ ns, IsName s) →
      (List.replicate n dotDot ++ ns).count dotDot = n := by
    intro n ns hns
    rw [List.count_append, List.count_replicate_self,
      List.count_eq_zero.mpr fun hmem => (hns dotDot hmem).ne_dotDot rfl, Nat.add_zero]
  rw [← hcount a hnames, h, hcount b hnames']

/-- Paths from the root that have one key climb equally far. -/
theorem climb_eq_of_key_eq {q : Path} {way way' : List Component} (hroot : isAbsolute root)
    (hp : '\\' ∉ p) (hq : '\\' ∉ q) (hway : fromRoot? root p = some way)
    (hway' : fromRoot? root q = some way') (h : key root p = key root q) :
    climb 0 way = climb 0 way' := by
  obtain ⟨names, hnames, hkey, -⟩ := key_of_fromRoot? hroot hp hway
  obtain ⟨names', hnames', hkey', -⟩ := key_of_fromRoot? hroot hq hway'
  have hpieces : ∀ (n : Nat) {ns : List (List Char)}, (∀ s ∈ ns, IsName s) →
      ∀ s ∈ List.replicate n dotDot ++ ns, s ≠ [] ∧ '/' ∉ s := by
    intro n ns hns s hs
    obtain hs | hs := List.mem_append.mp hs
    · rw [List.eq_of_mem_replicate hs]
      decide
    · exact ⟨(hns s hs).ne_nil, (hns s hs).slash_notMem⟩
  rw [hkey, hkey'] at h
  exact climb_eq_of_replicate_append hnames hnames'
    (ofPieces_injective (hpieces _ hnames) (hpieces _ hnames') h)

end EditGate.Path
