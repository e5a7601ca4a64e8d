import EditGate.Proofs.Disk.Way
import EditGate.Proofs.Gate.Fixed
import EditGate.Proofs.Ledger.Document
import EditGate.Proofs.Path.Key

/-!
# The file of a key

A key is itself a path, written without detours: `..` stand only at its start, and not in an
absolute one (`Path.Canonical`). From the root of the project it leads where the path leads that it
was made from (`Path.lexical_join_key`), so two files never have one key, and an entry of the ledger
is about one file (`Gate.key_names_file`). The root of the disk is no file; it is the one place
whose key does not lead there.
-/

namespace EditGate

namespace Path

variable {root p k : Path} {names : List (List Char)}

/-- How a key is written. -/
inductive Canonical (k : Path) : Prop where
  /-- A slash before each name. -/
  | absolute (names : List (List Char)) (habs : isAbsolute k)
      (hsegments : segments k = [] :: names) (hnames : ∀ s ∈ names, IsName s)
  /-- Names, with some `..` before them. -/
  | relative (climbs : Nat) (names : List (List Char)) (hrel : ¬isAbsolute k)
      (hsegments : segments k = List.replicate climbs dotDot ++ names)
      (hnames : ∀ s ∈ names, IsName s)

theorem slash_notMem_climbs (climbs : Nat) (hnames : ∀ s ∈ names, IsName s) :
    ∀ s ∈ List.replicate climbs dotDot ++ names, s ≠ [] ∧ '/' ∉ s := by
  intro s hs
  rcases List.mem_append.mp hs with hs | hs
  · rw [List.eq_of_mem_replicate hs]
    decide
  · exact ⟨(hnames s hs).ne_nil, (hnames s hs).slash_notMem⟩

/-! ## Where keys lead -/

theorem foldl_segments (k : Path) (q : Place) :
    (Text.splitOn '/' k).foldl Disk.stride q = (segments k).foldl Disk.stride q := by
  rw [segments]
  split
  · next hnil => rw [hnil]; rfl
  · rfl

theorem foldl_stride_names (hnames : ∀ s ∈ names, IsName s) (q : Place) :
    names.foldl Disk.stride q = q ++ names.map String.ofList := by
  induction names generalizing q with
  | nil => exact (List.append_nil q).symm
  | cons s names ih =>
    have hs := hnames s List.mem_cons_self
    rw [List.foldl_cons, Disk.stride_of_name q hs.ne_nil hs.ne_dot hs.ne_dotDot,
      ih fun x hx => hnames x (List.mem_cons_of_mem s hx), List.map_cons, List.append_assoc,
      List.singleton_append]

theorem foldl_stride_climbs (climbs levels : Nat) (q : Place) :
    (List.replicate climbs dotDot).foldl Disk.stride (above levels q) =
      above (levels + climbs) q := by
  induction climbs generalizing levels with
  | zero => rfl
  | succ climbs ih =>
    have hup : Disk.stride (above levels q) dotDot = above (levels + 1) q := dropLast_above levels q
    rw [List.replicate_succ, List.foldl_cons, hup, ih, Nat.add_right_comm, Nat.add_assoc]

/-- What stands before the slash that an absolute path starts with is one of its segments. -/
theorem nil_mem_segments {k : Path} (h : isAbsolute k) : [] ∈ segments k := by
  obtain ⟨next, rest, hsplit⟩ := Disk.isAbsolute_iff_splitOn.mp h
  have hne : k ≠ [] := by
    rintro rfl
    cases h
  rw [segments, if_neg hne, hsplit]
  exact List.mem_cons_self

/-- A key that climbs leads above the place that it is joined to, and down by its names. -/
theorem lexical_join_ofPieces (climbs : Nat) (hnames : ∀ s ∈ names, IsName s) :
    let k := ofPieces (List.replicate climbs dotDot ++ names)
    Canonical k ∧ Disk.lexical [] (root.join k) =
      above climbs (Disk.lexical [] root) ++ names.map String.ofList := by
  intro k
  have hpieces := slash_notMem_climbs climbs hnames
  have hsegments : segments k = List.replicate climbs dotDot ++ names := by
    refine segments_ofPieces (fun s hs => (hpieces s hs).2) fun he => ?_
    have hempty : [] ∈ List.replicate climbs dotDot ++ names := by
      rw [he]
      exact List.mem_singleton_self []
    exact (hpieces [] hempty).1 rfl
  have hrel : ¬isAbsolute k := by
    intro habs
    have hmem := nil_mem_segments habs
    rw [hsegments] at hmem
    exact (hpieces [] hmem).1 rfl
  refine ⟨.relative climbs names hrel hsegments hnames, ?_⟩
  have hclimbs := foldl_stride_climbs climbs 0 (Disk.lexical [] root)
  rw [above_zero, Nat.zero_add] at hclimbs
  rw [lexical_join_relative root hrel, foldl_segments, hsegments, List.foldl_append, hclimbs,
    foldl_stride_names hnames]

/-- An absolute key leads down from the root of the disk, whatever it is joined to. -/
theorem lexical_join_names (hne : names ≠ []) (hnames : ∀ s ∈ names, IsName s) :
    let k := ofPieces ([] :: names)
    Canonical k ∧ Disk.lexical [] (root.join k) = names.map String.ofList := by
  intro k
  have hsegments : segments k = [] :: names := by
    refine segments_ofPieces (fun s hs => ?_) fun he => hne (List.cons.inj he).2
    rcases List.mem_cons.mp hs with rfl | hs
    · exact List.not_mem_nil
    · exact (hnames s hs).slash_notMem
  have habs : isAbsolute k := by
    obtain ⟨s, rest, rfl⟩ := List.exists_cons_of_ne_nil hne
    rfl
  refine ⟨.absolute names habs hsegments hnames, ?_⟩
  rw [join, if_pos habs, lexical_eq_foldl, foldl_segments, hsegments, List.foldl_cons]
  exact (foldl_stride_names hnames []).trans (List.nil_append _)

/-- From the root a key leads to the place of the path that it was made from. -/
theorem lexical_join_key (hroot : isAbsolute root) (hp : '\\' ∉ p)
    (hplace : Disk.lexical [] (Project.locate ⟨root⟩ p) ≠ []) :
    Canonical (key root p) ∧
      Disk.lexical [] (root.join (key root p)) = Disk.lexical [] (Project.locate ⟨root⟩ p) := by
  cases hway : fromRoot? root p with
  | some way =>
    obtain ⟨names, hnames, hkey, hlexical⟩ := key_of_fromRoot? hroot hp hway
    rw [hkey, hlexical]
    exact lexical_join_ofPieces (climb 0 way) hnames
  | none =>
    obtain ⟨names, hnames, hkey, hlexical⟩ := key_of_foreign hp hway
    rw [hlexical] at hplace
    rw [hkey, hlexical]
    exact lexical_join_names (fun he => hplace (he ▸ rfl)) hnames

end Path

namespace Gate

/-- The key of a path is written without detours and, from the root of the project, leads where the
path leads. So paths that have one key name one file, and what the ledger has about another file
says nothing about this one. -/
theorem key_names_file (g : Gate) (p : String) (hroot : g.project.root.isAbsolute)
    (hp : '\\' ∉ p.toList) (hplace : Disk.lexical [] (g.locate p) ≠ []) :
    Disk.lexical [] (g.project.root.join (g.key p).toList) = Disk.lexical [] (g.locate p) ∧
      Path.Canonical (g.key p).toList ∧
      ∀ q : String, '\\' ∉ q.toList → Disk.lexical [] (g.locate q) ≠ [] →
        (g.key q = g.key p → Disk.lexical [] (g.locate q) = Disk.lexical [] (g.locate p)) ∧
        (Disk.lexical [] (g.locate q) ≠ Disk.lexical [] (g.locate p) →
          ∀ (d : Ledger.Document) (s : Approval.Status),
            (d.record (g.key q) s).status? (g.key p) = d.status? (g.key p)) := by
  have hleads : ∀ q : String, '\\' ∉ q.toList → Disk.lexical [] (g.locate q) ≠ [] →
      Path.Canonical (g.key q).toList ∧
        Disk.lexical [] (g.project.root.join (g.key q).toList) = Disk.lexical [] (g.locate q) := by
    intro q hq hne
    have hkey : (g.key q).toList = Path.key g.project.root q.toList := String.toList_ofList
    rw [hkey]
    exact Path.lexical_join_key hroot hq hne
  obtain ⟨hcanonical, hlexical⟩ := hleads p hp hplace
  refine ⟨hlexical, hcanonical, fun q hq hne => ?_⟩
  have hsame (h : g.key q = g.key p) :
      Disk.lexical [] (g.locate q) = Disk.lexical [] (g.locate p) := by
    rw [← (hleads q hq hne).2, h, hlexical]
  refine ⟨hsame, fun hother d s => ?_⟩
  rw [Ledger.status?_record, if_neg fun h => hother (hsame h)]

/-- A path that leaves the project and comes back, one that goes up past the root of the disk, and
an absolute one outside the project. -/
theorem key_names_file_sample :
    (sampleGate.key "x/../../q/./a" = "../q/a" ∧
      Disk.lexical [] (sampleGate.project.root.join (sampleGate.key "x/../../q/./a").toList) =
        ["q", "a"]) ∧
    Disk.lexical [] (sampleGate.project.root.join (sampleGate.key "../../../b").toList) = ["b"] ∧
    Path.Canonical (sampleGate.key "/q//../c/.").toList := by
  have houtside := (key_names_file sampleGate "x/../../q/./a" rfl (by decide) (by decide)).1
  have hpast := (key_names_file sampleGate "../../../b" rfl (by decide) (by decide)).1
  have habsolute := (key_names_file sampleGate "/q//../c/." rfl (by decide) (by decide)).2.1
  refine ⟨⟨by decide, houtside.trans (by decide)⟩, hpast.trans (by decide), habsolute⟩

end Gate

end EditGate
