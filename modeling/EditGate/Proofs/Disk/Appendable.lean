import EditGate.Proofs.Disk.Make

/-!
# Where a file can be appended to

If a file can be appended to once its directories are made (`Appendable`), then the path leads
through directories and free places only (`Appendable.free`), and it can be appended to on every
disk on which it does (`Reachable.makeParents_ok`).
-/

namespace EditGate.Disk

variable {d e : Disk} {wd q : Place} {path parent : Path} {piece : List Char}
  {front back pieces : List (List Char)}

/-- The file can be appended to once the directories that lead to it are made. -/
def Appendable (d : Disk) (wd : Place) (path : Path) : Prop :=
  (d.makeParents wd path).1 = .ok () ∧
    ((d.makeParents wd path).2.append wd path .empty).isOk = true

instance (d : Disk) (wd : Place) (path : Path) : Decidable (Appendable d wd path) :=
  inferInstanceAs (Decidable (_ ∧ _))

/-- The path can name a place, and does not lead there before its last component. -/
structure Reachable (wd : Place) (path : Path) : Prop where
  names : ∃ e : Disk, e.Names wd path
  apart : ∀ parent, path.parent? = some parent → lexical wd path ∉ way wd parent

/-- What a path leads through is what its parent leads through, and where it leads. -/
theorem Parent.mem_way_cases (h : Parent wd path parent front piece back) (hq : q ∈ way wd path) :
    q ∈ way wd parent ∨ q = lexical wd path := by
  obtain ⟨fs, hfs, rfl⟩ := mem_strides_iff.mp hq
  rw [h.mem_way_iff]
  rcases List.prefix_or_prefix_of_prefix hfs h.front_prefix with hle | ⟨t, rfl⟩
  · exact .inl (foldl_mem_strides hle)
  · rw [h.split] at hfs
    have ht := (List.prefix_append_right_inj front).mp hfs
    cases t with
    | nil =>
      rw [List.append_nil]
      exact .inl (foldl_mem_strides List.prefix_rfl)
    | cons x xs =>
      obtain ⟨rfl, hxs⟩ := List.cons_prefix_cons.mp ht
      refine .inr ?_
      rw [lexical, h.split, List.foldl_append, List.foldl_append, List.foldl_cons, List.foldl_cons,
        foldl_stride_idle h.idle, foldl_stride_idle fun y hy => h.idle y (hxs.subset hy)]

/-! ## What is known of a path that names a place -/

theorem short_of_foldlM {p : Place} (h : pieces.foldlM d.descend p = .ok q) :
    ∀ x ∈ pieces, Text.utf8Length x ≤ nameMax := by
  induction pieces generalizing p with
  | nil => exact fun x hx => absurd hx List.not_mem_nil
  | cons x xs ih =>
    obtain ⟨r, hr, hq⟩ := foldlM_descend_cons h
    refine List.forall_mem_cons.mpr ⟨?_, ih hq⟩
    by_contra hlong
    rw [descend] at hr
    split at hr
    · rename_i hidle
      rcases hidle with rfl | rfl
      · exact hlong (by decide)
      · exact hlong (by decide)
    · split at hr
      · rename_i hup
        exact hlong (by rw [hup]; decide)
      · rw [if_pos (by omega)] at hr
        cases hr

/-- The pieces of a path that names a place: those before the name are walked through. -/
theorem Names.last (h : d.Names wd path) : ∃ before last dir, Last path before last false ∧
    ¬Idle last ∧ before.foldlM d.descend (startOf wd path) = .ok dir ∧
      d.find wd path = .ok (.named dir (String.ofList last) false) ∧
        Text.utf8Length last ≤ nameMax := by
  obtain ⟨dir, name, hfind, hname⟩ := h
  rcases find_cases hfind with ⟨hspot, -⟩ | ⟨before, last, slash, top, hlast, htop, hspot⟩
  · cases hspot
  rcases finish_eq_ok hspot with ⟨-, -, hspot'⟩ | ⟨hdots, hspot'⟩
  · cases hspot'
  · cases hspot'
    rw [String.toList_ofList] at hname
    exact ⟨before, last, dir, hlast, fun hidle => hidle.elim hlast.ne_nil (hdots ∘ .inl), htop,
      hfind, hname⟩

theorem Names.shortPieces (h : d.Names wd path) : ShortPieces path := by
  obtain ⟨before, last, dir, hlast, -, hdir, -, hshort⟩ := h.last
  obtain ⟨trailing, hsplit, htrailing⟩ := hlast.split
  intro x hx
  rw [hsplit, List.mem_append, List.mem_cons] at hx
  rcases hx with hx | rfl | hx
  · exact short_of_foldlM hdir x hx
  · exact hshort
  · rw [htrailing x hx]
    exact Nat.zero_le _

theorem Names.not_refused (h : d.Names wd path) : ¬Refused path := by
  obtain ⟨dir, name, hfind, -⟩ := h
  intro hrefused
  obtain ⟨cause, hnever⟩ := hrefused.find
  cases (hnever d wd).symm.trans hfind

/-- A path that names a place on one disk does so on every disk on which it is paved. -/
theorem Names.of_paved (h : e.Names wd path) (hpaved : d.Paved wd path) : d.Names wd path := by
  obtain ⟨before, last, dir, hlast, hidle, hdir, hfind, hshort⟩ := h.last
  obtain ⟨trailing, hsplit, -⟩ := hlast.split
  have hdirs : ∀ q ∈ strides (startOf wd path) before, d.node? q = some .directory := by
    intro q hq
    obtain ⟨fs, ⟨t, rfl⟩, rfl⟩ := mem_strides_iff.mp hq
    exact hpaved fs (t ++ last :: trailing) (by rw [hsplit, List.append_assoc])
      ⟨last, by simp, hidle⟩
  obtain ⟨top, htop⟩ := foldlM_directories hdirs (short_of_foldlM hdir)
  refine ⟨top, String.ofList last, ?_, by rwa [String.toList_ofList]⟩
  -- the last piece names a place on the one disk, so it is none that leads back or nowhere
  rw [hlast.find, hdir, ok_bind] at hfind
  rcases finish_eq_ok hfind with ⟨-, -, hspot⟩ | ⟨hdots, -⟩
  · cases hspot
  · rw [hlast.find, htop, ok_bind, finish, if_neg hdots]

/-- What is read once more places were made was read before, unless the path goes up from a place
that was made. -/
theorem read_of_grown {bytes : ByteArray} (ht : d.IsTree) (hgrown : Grown (lexical wd path) d e)
    (hread : e.read wd path = .ok bytes)
    (h : d.Paved wd path ∨ Path.dotDot ∉ Text.splitOn '/' path) : d.read wd path = .ok bytes := by
  obtain ⟨hnames, hfile⟩ := names_of_read hread
  rw [hgrown.file] at hfile
  have hpaved : d.Paved wd path := h.elim id (paved_of_down ht hfile)
  rw [(hnames.of_paved hpaved).read_eq, hfile]

/-! ## Making what leads to a file -/

theorem makeParents_preserves (ht : d.IsTree) (hwd : d.node? wd = some .directory) :
    (d.makeParents wd path).2.IsTree ∧ KeepsDirectories d (d.makeParents wd path).2 ∧
      ∀ q, (d.makeParents wd path).2.node? q = d.node? q ∨
        (∃ parent, path.parent? = some parent ∧ q ∈ way wd parent) ∧ d.node? q = none ∧
          (d.makeParents wd path).2.node? q = some .directory := by
  rw [makeParents]
  cases hparent : path.parent? with
  | none => exact ⟨ht, fun _ hp => hp, fun _ => .inl rfl⟩
  | some parent =>
    obtain ⟨-, htree, hkeep⟩ := @makeAll_preserves d wd parent (fun _ => True)
      (parent.length + 1) (fun _ _ h _ _ _ _ => h) ht hwd trivial
    refine ⟨htree, hkeep, fun q => (node?_makeAll (parent.length + 1) ht hwd q).imp_right ?_⟩
    exact fun ⟨hq, hnone, hdir⟩ => ⟨⟨parent, rfl, hq⟩, hnone, hdir⟩

/-- Making directories leaves every file its bytes, and where there is no file there still is none. -/
theorem bytesAt_makeParents (ht : d.IsTree) (hwd : d.node? wd = some .directory) (path : Path)
    (q : Place) : (d.makeParents wd path).2.bytesAt q = d.bytesAt q := by
  obtain ⟨-, -, hnode⟩ := @makeParents_preserves d wd path ht hwd
  rw [bytesAt, bytesAt]
  rcases hnode q with hsame | ⟨-, hnone, hdir⟩
  · rw [hsame]
  · rw [hnone, hdir]

/-- Wherever the path leads through directories and free places, it names a place once its
directories are made. -/
theorem Reachable.makeParents_ok (h : Reachable wd path) (ht : d.IsTree)
    (hwd : d.node? wd = some .directory)
    (hfree : ∀ q ∈ way wd path, q ≠ lexical wd path → d.Free q) :
    (d.makeParents wd path).1 = .ok () ∧ (d.makeParents wd path).2.Names wd path ∧
      (d.makeParents wd path).2.node? (lexical wd path) = d.node? (lexical wd path) := by
  obtain ⟨e, hnames⟩ := h.names
  obtain ⟨htree, hkeep, hnode⟩ := @makeParents_preserves d wd path ht hwd
  have hsame : (d.makeParents wd path).2.node? (lexical wd path) = d.node? (lexical wd path) := by
    refine (hnode _).resolve_right ?_
    rintro ⟨⟨parent, hparent, hmem⟩, -⟩
    exact h.apart parent hparent hmem
  have hmade : (d.makeParents wd path).1 = .ok () ∧
      (d.makeParents wd path).2.Paved wd path := by
    rw [makeParents] at htree hkeep ⊢
    cases hparent : path.parent? with
    | none => exact ⟨rfl, paved_of_parent? hparent⟩
    | some parent =>
      simp only [hparent] at htree hkeep
      obtain ⟨front, piece, back, -, hp⟩ := parent_of_parent? hparent wd
      obtain ⟨hok, hdir⟩ := @makeAll_ok d wd parent (parent.length + 1) ht hwd hp.tight
        (or_iff_not_imp_left.mpr fun hne hrefused => hnames.not_refused (hp.refused hne hrefused))
        (hp.shortPieces hnames.shortPieces)
        (fun q hq => hfree q (hp.way_subset hq) fun he => h.apart parent hparent (he ▸ hq))
        (Nat.lt_succ_self _)
      exact ⟨hok, paved_of_parent htree (hkeep wd hwd) hp hdir⟩
  exact ⟨hmade.1, hnames.of_paved hmade.2, hsame⟩

/-- A file that can be appended to is reached through directories and free places. -/
theorem Appendable.reachable (h : d.Appendable wd path) (ht : d.IsTree)
    (hwd : d.node? wd = some .directory) :
    Reachable wd path ∧ d.node? (lexical wd path) ≠ some .directory ∧
      ∀ q ∈ way wd path, q ≠ lexical wd path → d.Free q := by
  obtain ⟨-, hok⟩ := h
  obtain ⟨htree, hkeep, hnode⟩ := @makeParents_preserves d wd path ht hwd
  cases happend : (d.makeParents wd path).2.append wd path .empty with
  | error cause =>
    rw [happend] at hok
    cases hok
  | ok e =>
    obtain ⟨hnames, hopen, -⟩ := append_eq_ok htree (hkeep wd hwd) happend
    -- once the append has succeeded, all that leads to its file is a directory
    have hdirs : ∀ parent, path.parent? = some parent → ∀ q ∈ way wd parent,
        (d.makeParents wd path).2.node? q = some .directory := by
      intro parent hparent q hq
      obtain ⟨front, piece, back, -, hp⟩ := parent_of_parent? hparent wd
      obtain ⟨dir, name, hfind, -⟩ := id hnames
      exact hp.directory_of_mem_way htree (hkeep wd hwd)
        (isDirectory_parent htree (hkeep wd hwd) hp hfind) hq
    refine ⟨⟨⟨_, hnames⟩, fun parent hparent hmem => ?_⟩, fun hdir => ?_, fun q hq hne => ?_⟩
    · exact hopen.not_directory (hdirs parent hparent _ hmem)
    · exact hopen.not_directory (hkeep _ hdir)
    · cases hparent : path.parent? with
      | none =>
        obtain ⟨fs, hfs, rfl⟩ := mem_strides_iff.mp hq
        have hidle := idle_of_parent? hparent
        refine absurd ?_ hne
        rw [lexical, foldl_stride_idle hidle, foldl_stride_idle fun x hx => hidle x (hfs.subset hx)]
      | some parent =>
        obtain ⟨front, piece, back, -, hp⟩ := parent_of_parent? hparent wd
        have hmem := (hp.mem_way_cases hq).resolve_right hne
        -- a directory that leads there was there before or was made where nothing was
        rcases hnode q with hsame | ⟨-, hnone, -⟩
        · exact .inl (hsame ▸ hdirs parent hparent q hmem)
        · exact .inr hnone

end EditGate.Disk
