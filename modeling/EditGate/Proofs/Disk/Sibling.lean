import EditGate.Proofs.Disk.Find
import EditGate.Proofs.Text.Cut

/-!
# Paths with another name

A path with a name added leads below the place of the path (`lexical_join`). A path with another
name in place of its own leads elsewhere (`lexical_withFileName_ne`), so what is written there is
written beside what the path names.
-/

namespace EditGate.Disk

variable {wd : Place} {path : Path} {name : List Char}

theorem lexical_nil (wd : Place) : lexical wd [] = wd := rfl

/-- A slash and a name at the end lead one name further. -/
theorem lexical_append_slash (hpath : path ≠ []) (hname : '/' ∉ name) :
    lexical wd (path ++ '/' :: name) = stride (lexical wd path) name := by
  have hstart : startOf wd (path ++ '/' :: name) = startOf wd path := by
    obtain ⟨c, t, rfl⟩ := List.exists_cons_of_ne_nil hpath
    rfl
  rw [lexical, Text.splitOn_append, Text.splitOn_of_notMem hname, List.foldl_append, hstart]
  rfl

theorem lexical_append_empty (hpath : path ≠ []) :
    lexical wd (path ++ ['/']) = lexical wd path := by
  rw [lexical_append_slash hpath List.not_mem_nil, stride, if_pos (.inl rfl)]

theorem isAbsolute_of_notMem (hne : name ≠ []) (hname : '/' ∉ name) :
    Path.isAbsolute name = false := by
  obtain ⟨c, t, rfl⟩ := List.exists_cons_of_ne_nil hne
  have hc : c ≠ '/' := fun hc => hname (hc ▸ List.mem_cons_self)
  simp [Path.isAbsolute, hc]

/-- A path with a name added leads to the name at the place of the path. -/
theorem lexical_join (hne : name ≠ []) (hname : '/' ∉ name) :
    lexical wd (path.join name) = stride (lexical wd path) name := by
  have hrelative := isAbsolute_of_notMem hne hname
  rw [Path.join, if_neg (by simp [hrelative])]
  split
  · rename_i hend
    rw [Bool.or_eq_true, List.isEmpty_iff, beq_iff_eq] at hend
    rcases hend with rfl | hlast
    · rw [List.nil_append, lexical_nil, lexical, Text.splitOn_of_notMem hname, startOf,
        if_neg (by simp [hrelative])]
      rfl
    · -- the slash is there already
      obtain ⟨base, rfl⟩ := List.getLast?_eq_some_iff.mp hlast
      by_cases hbase : base = []
      · subst hbase
        rw [lexical, lexical, startOf, startOf]
        rw [List.nil_append, List.singleton_append]
        simp [Text.splitOn, Text.splitOn_of_notMem hname, Path.isAbsolute, stride]
      · rw [List.append_assoc, List.singleton_append, lexical_append_slash hbase hname,
          lexical_append_empty hbase]
  · rename_i hend
    refine lexical_append_slash (fun he => hend ?_) hname
    rw [he]
    rfl

/-- A name leads below the place that it is added to. -/
theorem stride_of_name (p : Place) (hne : name ≠ []) (hdot : name ≠ Path.dot)
    (hdots : name ≠ Path.dotDot) : stride p name = p ++ [String.ofList name] := by
  rw [stride, if_neg fun h => h.elim hne hdot, if_neg hdots]

/-! ## The last name -/

/-- What is dropped from the end of a path leads nowhere else. -/
theorem dropIdle_spec {pieces : List (List Char)} (h : pieces ≠ []) :
    ∃ idle piece before, pieces = idle ++ piece :: before ∧
      (∀ x ∈ idle, x = [] ∨ x = Path.dot) ∧ Path.dropIdle pieces = piece :: before ∧
      (before ≠ [] → ¬(piece = [] ∨ piece = Path.dot)) := by
  induction pieces with
  | nil => exact absurd rfl h
  | cons piece pieces ih =>
    cases pieces with
    | nil => exact ⟨[], piece, [], rfl, by simp, rfl, fun hb => absurd rfl hb⟩
    | cons next rest =>
      by_cases hidle : piece = [] ∨ piece = Path.dot
      · obtain ⟨idle, last, before, heq, hall, hdrop, hlast⟩ := ih (List.cons_ne_nil next rest)
        refine ⟨piece :: idle, last, before, by rw [heq]; rfl, ?_, ?_, hlast⟩
        · exact List.forall_mem_cons.mpr ⟨hidle, hall⟩
        · rw [Path.dropIdle, if_pos hidle, hdrop]
          exact fun he => nomatch he
      · refine ⟨[], piece, next :: rest, rfl, by simp, ?_, fun _ => hidle⟩
        rw [Path.dropIdle, if_neg hidle]
        exact fun he => nomatch he

theorem foldl_stride_idle {pieces : List (List Char)} (h : ∀ x ∈ pieces, x = [] ∨ x = Path.dot)
    (p : Place) : pieces.foldl stride p = p := by
  induction pieces with
  | nil => rfl
  | cons piece pieces ih =>
    rw [List.foldl_cons, stride, if_pos (h piece List.mem_cons_self),
      ih fun x hx => h x (List.mem_cons_of_mem _ hx)]

/-- A path that ends in a name leads to that name somewhere. -/
theorem lexical_of_fileName? {piece : List Char} (h : Path.fileName? path = some piece) :
    piece ≠ [] ∧ '/' ∉ piece ∧ ∃ dir, lexical wd path = dir ++ [String.ofList piece] := by
  have hne : (Text.splitOn '/' path).reverse ≠ [] := by
    rw [ne_eq, List.reverse_eq_nil_iff]
    exact Text.splitOn_ne_nil '/' path
  obtain ⟨idle, last, before, heq, hidle, hdrop, hbefore⟩ := dropIdle_spec hne
  have hlast : last = piece ∧ piece ≠ [] ∧ piece ≠ Path.dot ∧ piece ≠ Path.dotDot := by
    have hpath : Path.last? path = if last = [] then none else some (last, before) := by
      rw [Path.last?, hdrop]
      cases before with
      | nil => rfl
      | cons next rest => rw [if_neg fun hnil => hbefore (List.cons_ne_nil next rest) (.inl hnil)]
    by_cases hnil : last = []
    · rw [Path.fileName?, hpath, if_pos hnil] at h
      exact nomatch h
    · rw [Path.fileName?, hpath, if_neg hnil] at h
      simp only at h
      by_cases hdots : last = Path.dot ∨ last = Path.dotDot
      · rw [if_pos hdots] at h
        exact nomatch h
      · rw [if_neg hdots, Option.some.injEq] at h
        rw [not_or] at hdots
        exact ⟨h, h ▸ ⟨hnil, hdots⟩⟩
  obtain ⟨rfl, hnil, hdot, hdots⟩ := hlast
  have hsplit := congrArg List.reverse heq
  rw [List.reverse_reverse, List.reverse_append, List.reverse_cons, List.append_assoc] at hsplit
  refine ⟨hnil, Text.notMem_of_mem_splitOn (by rw [hsplit]; simp), ?_⟩
  have hidle' : ∀ x ∈ idle.reverse, x = [] ∨ x = Path.dot := fun x hx =>
    hidle x (List.mem_reverse.mp hx)
  rw [lexical, hsplit, List.foldl_append, List.singleton_append, List.foldl_cons,
    foldl_stride_idle hidle', stride_of_name _ hnil hdot hdots]
  exact ⟨_, rfl⟩

/-- With a longer name in place of its own a path leads elsewhere. -/
theorem lexical_withFileName_ne (hslash : '/' ∉ name)
    (hlong : ((path.fileName?).getD []).length + 2 < name.length) :
    lexical wd (path.withFileName name) ≠ lexical wd path := by
  have hne : name ≠ [] := fun h => by simp [h] at hlong
  have hstride : ∀ p, stride p name = p ++ [String.ofList name] := by
    refine fun p => stride_of_name p hne ?_ ?_
    · intro h
      rw [h, Path.dot, List.length_singleton] at hlong
      omega
    · intro h
      rw [h] at hlong
      simp only [Path.dotDot, List.length_cons, List.length_nil] at hlong
      omega
  rw [Path.withFileName]
  cases hfile : path.fileName? with
  | none =>
    simp only [lexical_join hne hslash, hstride]
    intro h
    have := congrArg List.length h
    rw [List.length_append, List.length_singleton] at this
    omega
  | some piece =>
    obtain ⟨-, -, dir, hdir⟩ := @lexical_of_fileName? wd path piece hfile
    simp only [lexical_join hne hslash, hstride]
    rw [hdir]
    intro h
    -- the names at the end have different lengths
    have hlast := congrArg List.getLast? h
    rw [List.getLast?_concat, List.getLast?_concat, Option.some.injEq] at hlast
    have hname := String.ofList_injective hlast
    rw [hfile, Option.getD_some, hname] at hlong
    omega

end EditGate.Disk
