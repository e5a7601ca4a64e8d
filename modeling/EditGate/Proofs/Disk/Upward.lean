import EditGate.Proofs.Disk.Appendable

/-!
# Paths that go up

A walk that leaves what is below a place goes up from that place (`exists_up`). So a path that leads
to a file once directories were made did so before, unless it goes up from a directory that was made
(`read_of_made`). Only making directories makes directories: writing, moving and removing files does
not.
-/

namespace EditGate.Disk

variable {d e : Disk} {wd p q : Place} {path source target : Path} {pieces : List (List Char)}
  {bytes : ByteArray}

/-! ## Walks -/

/-- A walk from below a place that ends elsewhere comes to the place and goes up from it. -/
theorem exists_up {t : Place} (h : ¬q <+: pieces.foldl stride (q ++ t)) :
    ∃ m r, pieces = m ++ Path.dotDot :: r ∧ m.foldl stride (q ++ t) = q := by
  induction pieces generalizing t with
  | nil => exact absurd (List.prefix_append q t) h
  | cons piece pieces ih =>
    rw [List.foldl_cons] at h
    -- a stride that stays below the place leaves the rest of the walk
    have hbelow : ∀ s, stride (q ++ t) piece = q ++ s →
        ∃ m r, piece :: pieces = m ++ Path.dotDot :: r ∧ m.foldl stride (q ++ t) = q := by
      intro s hs
      rw [hs] at h
      obtain ⟨m, r, rfl, hm⟩ := ih h
      exact ⟨piece :: m, r, rfl, by rw [List.foldl_cons, hs, hm]⟩
    by_cases hidle : Idle piece
    · exact hbelow t (by rw [stride, if_pos hidle])
    by_cases hup : piece = Path.dotDot
    · by_cases ht : t = []
      · exact ⟨[], pieces, by rw [hup]; rfl, by rw [ht, List.append_nil]; rfl⟩
      · refine hbelow t.dropLast ?_
        rw [stride, if_neg hidle, if_pos hup, List.dropLast_append_of_ne_nil ht]
    · refine hbelow (t ++ [String.ofList piece]) ?_
      rw [stride, if_neg hidle, if_neg hup, List.append_assoc]

/-- What is read once directories were made was read before, if every directory that the path goes
up from was there. -/
theorem read_of_made (ht : d.IsTree) (hwd : d.node? wd = some .directory)
    (hgrown : Grown (lexical wd path) d e)
    (hup : ∀ fs rest, Text.splitOn '/' path = fs ++ Path.dotDot :: rest →
      e.node? (fs.foldl stride (startOf wd path)) = some .directory →
        d.node? (fs.foldl stride (startOf wd path)) = some .directory)
    (hread : e.read wd path = .ok bytes) : d.read wd path = .ok bytes := by
  obtain ⟨hnames, hfile⟩ := names_of_read hread
  have hfile₀ := (hgrown.file bytes).mp hfile
  obtain ⟨dir, name, hfind, -⟩ := (names_of_read hread).1
  have hpaved := paved_of_find hgrown.tree (hgrown.directories wd hwd) hfind
  have hpaved₀ : d.Paved wd path := by
    intro fs rest hsplit hrest
    have hdir := hpaved fs rest hsplit hrest
    by_cases hbelow : fs.foldl stride (startOf wd path) <+: lexical wd path
    · -- what is above the file was there with it
      obtain ⟨t, hlex⟩ := hbelow
      rw [← hlex] at hfile hfile₀
      refine ht.directory_above hfile₀ fun hnil => ?_
      rw [hnil, List.append_nil, hdir] at hfile
      cases hfile
    · rw [lexical, hsplit, List.foldl_append] at hbelow
      rw [← List.append_nil (fs.foldl stride (startOf wd path))] at hbelow
      obtain ⟨m, r, rfl, hm⟩ := exists_up (t := []) (by simpa using hbelow)
      rw [List.append_nil] at hm
      have hplace : (fs ++ m).foldl stride (startOf wd path) = fs.foldl stride (startOf wd path) := by
        rw [List.foldl_append, hm]
      rw [← hplace] at hdir ⊢
      exact hup (fs ++ m) r (by rw [hsplit, List.append_assoc]) hdir
  rw [(hnames.of_paved hpaved₀).read_eq, hfile₀]

/-! ## Steps that make no directory -/

theorem keepsDirectories_of_put_file (hp : p ≠ []) (content : ByteArray) :
    KeepsDirectories (d.put p (.file content)) d := by
  intro q hq
  by_cases he : q = p
  · rw [he, node?_put_self hp] at hq
    cases hq
  · rwa [node?_put_of_ne hp he] at hq

theorem keepsDirectories_of_create (ht : d.IsTree) (hwd : d.node? wd = some .directory)
    (h : d.create wd path = .ok e) : KeepsDirectories e d := by
  obtain ⟨-, hopen, rfl⟩ := create_eq_ok ht hwd h
  exact keepsDirectories_of_put_file hopen.ne_nil _

theorem keepsDirectories_of_append (ht : d.IsTree) (hwd : d.node? wd = some .directory)
    (h : d.append wd path bytes = .ok e) : KeepsDirectories e d := by
  obtain ⟨-, hopen, rfl⟩ := append_eq_ok ht hwd h
  exact keepsDirectories_of_put_file hopen.ne_nil _

theorem keepsDirectories_of_removeFile (h : d.removeFile wd path = .ok e) :
    KeepsDirectories e d := by
  obtain ⟨-, content, hfile, rfl⟩ := removeFile_eq_ok h
  have hne : lexical wd path ≠ [] := by
    intro he
    rw [he, node?_nil] at hfile
    cases hfile
  intro q hq
  rw [node?_removeTree hne] at hq
  split at hq
  · cases hq
  · exact hq

/-- Moving a file makes no directory. -/
theorem keepsDirectories_of_rename (ht : d.IsTree) (hwd : d.node? wd = some .directory)
    (hsource : d.node? (lexical wd source) = some (.file bytes))
    (h : d.rename wd source target = .ok e) : KeepsDirectories e d := by
  obtain ⟨n, hn, -, ⟨-, rfl⟩ | hmoves⟩ := rename_eq_ok ht hwd h
  · exact fun _ hq => hq
  · obtain rfl : n = .file bytes := Option.some.inj (hn.symm.trans hsource)
    intro q hq
    by_cases hqs : q = lexical wd source
    · rw [hqs, hmoves.source_after] at hq
      cases hq
    by_cases hqt : q = lexical wd target
    · rw [hqt, hmoves.target_after] at hq
      cases hq
    · rwa [hmoves.elsewhere ht hqs hqt] at hq

end EditGate.Disk
