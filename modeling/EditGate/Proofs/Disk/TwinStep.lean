import EditGate.Proofs.Disk.Twin

/-!
# Steps on twins

A step on both of two twins answers the same and leaves twins (`Alike`): files are written, removed
and moved alike where the disks agree, and what is at the file stays as it is.
-/

namespace EditGate.Disk

variable {s : Slack} {d d' d₁ d₁' d₂ d₂' : Disk} {wd p q : Place}
  {path parent source target : Path} {n : Node}

/-- Twins that come from twins by steps that leave what is at the file. -/
structure Next (s : Slack) (d d' d₁ d₁' : Disk) : Prop where
  twin : Twin s d₁ d₁'
  own : ∀ p, s.file p → d₁'.node? p = d'.node? p

/-- Both steps fail alike, or they leave twins. -/
inductive Alike (s : Slack) (d d' : Disk) : Except Cause Disk → Except Cause Disk → Prop
  | ok {d₁ d₁' : Disk} (h : Next s d d' d₁ d₁') : Alike s d d' (.ok d₁) (.ok d₁')
  | error (cause : Cause) : Alike s d d' (.error cause) (.error cause)

theorem Twin.next (h : Twin s d d') : Next s d d' d d' := ⟨h, fun _ _ => rfl⟩

/-- Both begin with a step that answers the same, and go on alike after it. -/
theorem Alike.bind {α : Type} {x : Except Cause α} {f f' : α → Except Cause Disk}
    (h : ∀ a, x = .ok a → Alike s d d' (f a) (f' a)) : Alike s d d' (x >>= f) (x >>= f') := by
  cases x with
  | error cause => exact .error cause
  | ok a => exact h a rfl

/-- Both take the same branch, and go on alike in either. -/
theorem Alike.ite {c : Prop} [Decidable c] {x x' y y' : Except Cause Disk}
    (hx : c → Alike s d d' x x') (hy : ¬c → Alike s d d' y y') :
    Alike s d d' (if c then x else y) (if c then x' else y') := by
  split
  · exact hx ‹_›
  · exact hy ‹_›

theorem Next.trans (h : Next s d d' d₁ d₁') (h' : Next s d₁ d₁' d₂ d₂') : Next s d d' d₂ d₂' :=
  ⟨h'.twin, fun p hp => (h'.own p hp).trans (h.own p hp)⟩

namespace Twin

/-! ## Files -/

/-- The same is put at a place of both. -/
theorem put (h : Twin s d d') (hopen : IsOpen d p) (hopen' : IsOpen d' p) (hfile : ¬s.file p)
    (hn : n = .directory ∨ s.Spares p) : Next s d d' (d.put p n) (d'.put p n) where
  twin := {
    tree := h.tree.put hopen.ne_nil hopen.up (.inr hopen.not_directory)
    tree' := h.tree'.put hopen'.ne_nil hopen'.up (.inr hopen'.not_directory)
    same := by
      intro q hq
      rw [node?_put hopen.ne_nil, node?_put hopen.ne_nil, h.same q hq]
    directory := by
      intro q hq
      rw [node?_put hopen.ne_nil, node?_put hopen.ne_nil]
      split
      · exact .inl rfl
      · exact h.directory q hq
    file := by
      intro q hq
      rw [node?_put_of_ne hopen.ne_nil fun he => hfile (he ▸ hq)]
      exact h.file q hq
    kept := by
      intro q hq
      rw [node?_put_of_ne hopen.ne_nil fun he => hopen.not_directory (he ▸ h.kept q hq)]
      exact h.kept q hq
    bare := by
      intro hbare q hq content
      rw [node?_put hopen.ne_nil]
      split
      · rename_i he
        rcases hn with rfl | hp
        · exact nofun
        · exact absurd hq (he ▸ hp.1)
      · exact h.bare hbare q hq content }
  own := fun q hq => node?_put_of_ne hopen.ne_nil fun he => hfile (he ▸ hq)

theorem writable_eq (h : Twin s d d') (hfind : d'.find wd path = d.find wd path)
    (hplace : s.Spares (lexical wd path)) : d'.writable wd path = d.writable wd path := by
  rw [writable, writable, hfind]
  cases hspot : d.find wd path with
  | error cause => rfl
  | ok spot =>
    cases spot with
    | here q => rfl
    | named dir name slash =>
      rw [lexical_of_find hspot] at hplace
      simp only [ok_bind, h.child?_eq hplace]

theorem create (h : Twin s d d') (hwd : s.kept wd) (hfind : d'.find wd path = d.find wd path)
    (hplace : s.Spares (lexical wd path)) :
    Alike s d d' (d.create wd path) (d'.create wd path) := by
  have hsame := h.writable_eq hfind hplace
  rw [Disk.create, Disk.create, hsame]
  refine .bind fun p hp => ?_
  obtain ⟨-, rfl, hopen⟩ := writable_eq_ok h.tree (h.kept wd hwd) hp
  obtain ⟨-, -, hopen'⟩ := writable_eq_ok h.tree' (h.kept' hwd) (hsame.trans hp)
  exact .ok (h.put hopen hopen' hplace.2 (.inr hplace))

theorem append (h : Twin s d d') (hwd : s.kept wd) (hfind : d'.find wd path = d.find wd path)
    (hplace : s.Spares (lexical wd path)) (bytes : ByteArray) :
    Alike s d d' (d.append wd path bytes) (d'.append wd path bytes) := by
  have hsame := h.writable_eq hfind hplace
  rw [Disk.append, Disk.append, hsame]
  refine .bind fun p hp => ?_
  obtain ⟨-, rfl, hopen⟩ := writable_eq_ok h.tree (h.kept wd hwd) hp
  obtain ⟨-, -, hopen'⟩ := writable_eq_ok h.tree' (h.kept' hwd) (hsame.trans hp)
  simp only [h.same _ hplace]
  exact .ok (h.put hopen hopen' hplace.2 (.inr hplace))

/-- A file is removed from both. -/
theorem removeTree (h : Twin s d d') (hp : s.Spares p) {content : ByteArray}
    (hfile : d.node? p = some (.file content)) :
    Next s d d' (d.removeTree p) (d'.removeTree p) := by
  have hne : p ≠ [] := by
    rintro rfl
    exact nomatch (node?_nil d).symm.trans hfile
  have hfile' : d'.node? p = some (.file content) := (h.same p hp).trans hfile
  have hnot : d.node? p ≠ some .directory := by rw [hfile]; exact nofun
  have hnot' : d'.node? p ≠ some .directory := by rw [hfile']; exact nofun
  refine ⟨?_, fun q hq => ?_⟩
  · exact {
      tree := (grown_remove_file h.tree hfile hne).tree
      tree' := (grown_remove_file h.tree' hfile' hne).tree
      same := by
        intro q hq
        rw [node?_removeTree hne, node?_removeTree hne, h.same q hq]
      directory := by
        intro q hq
        rw [node?_removeTree hne, node?_removeTree hne]
        split
        · exact .inl rfl
        · exact h.directory q hq
      file := by
        intro q hq
        rw [node?_removeTree hne]
        split
        · exact nofun
        · exact h.file q hq
      kept := by
        intro q hq
        rw [node?_removeTree hne, if_neg (h.tree.not_below hnot (h.kept q hq))]
        exact h.kept q hq
      bare := by
        intro hbare q hq c
        rw [node?_removeTree hne]
        split
        · exact nofun
        · exact h.bare hbare q hq c }
  · rw [node?_removeTree hne]
    split
    · rename_i hbelow
      cases hq' : d'.node? q with
      | none => rfl
      -- nothing is below a file, and the file itself is spared
      | some m => exact absurd hq (h.tree'.eq_of_prefix hnot' hbelow hq' ▸ hp.2)
    · rfl

theorem removeFile_of_find (h : Twin s d d') (hfind : d'.find wd path = d.find wd path)
    (hplace : s.Spares (lexical wd path)) :
    Alike s d d' (d.removeFile wd path) (d'.removeFile wd path) := by
  rw [Disk.removeFile, Disk.removeFile, hfind]
  refine .bind fun spot hspot => ?_
  cases spot with
  | here q => exact .error .isADirectory
  | named dir name slash =>
    rw [lexical_of_find hspot] at hplace
    simp only [h.child?_eq hplace]
    refine .bind fun o hchild => ?_
    obtain ⟨-, ho⟩ := child?_eq_ok hchild
    cases o with
    | none => exact .error .notFound
    | some m =>
      cases m with
      | directory => exact .error .isADirectory
      | file content =>
        exact .ite (fun _ => .error .notADirectory) fun _ => .ok (h.removeTree hplace ho.symm)

theorem removeFile (h : Twin s d d') (hpath : s.Admits wd path)
    (hplace : s.Spares (lexical wd path)) :
    Alike s d d' (d.removeFile wd path) (d'.removeFile wd path) := by
  rcases h.find_spared hpath hplace with hsame | ⟨hvain, hvain'⟩
  · exact h.removeFile_of_find hsame hplace
  · rw [hvain.removeFile, hvain'.removeFile]
    exact .error .notFound

/-! ## Moving -/

end Twin

theorem hasEntriesBelow_iff :
    d.hasEntriesBelow p = true ↔ ∃ q, p <+: q ∧ q ≠ p ∧ d.node? q ≠ none := by
  have hnode : ∀ q, p <+: q → q ≠ p → d.node? q = d.entries.lookup q := by
    intro q hpq hne
    refine node?_of_ne_nil d ?_
    rintro rfl
    exact hne (List.prefix_nil.mp hpq).symm
  rw [hasEntriesBelow, List.any_eq_true]
  constructor
  · rintro ⟨e, he, hbelow⟩
    obtain ⟨hpre, hne⟩ := Bool.and_eq_true_iff.mp hbelow
    have hpre := List.isPrefixOf_iff_prefix.mp hpre
    have hne : e.1 ≠ p := of_decide_eq_true hne
    refine ⟨e.1, hpre, hne, ?_⟩
    rw [hnode e.1 hpre hne, ne_eq, List.lookup_eq_none_iff]
    exact fun hall => by simpa using hall e he
  · rintro ⟨q, hpre, hne, hsome⟩
    obtain ⟨n, hn⟩ := Option.ne_none_iff_exists'.mp hsome
    rw [hnode q hpre hne, List.lookup_eq_some_iff] at hn
    obtain ⟨before, after, hentries, -⟩ := hn
    refine ⟨(q, n), by rw [hentries]; simp, ?_⟩
    rw [Bool.and_eq_true_iff]
    exact ⟨List.isPrefixOf_iff_prefix.mpr hpre, decide_eq_true hne⟩

namespace Twin

theorem hasEntriesBelow_eq (h : Twin s d d') (hp : s.Clears p) :
    d'.hasEntriesBelow p = d.hasEntriesBelow p := by
  rw [Bool.eq_iff_iff, hasEntriesBelow_iff, hasEntriesBelow_iff]
  refine exists_congr fun q => and_congr_right ?_
  rintro ⟨r, rfl⟩
  rw [h.same _ (hp.spares_append r)]

theorem mayReplace_eq (h : Twin s d d') (hp : s.Spares p) (hq : s.Clears q) :
    d'.mayReplace p q = d.mayReplace p q := by
  rw [mayReplace, mayReplace, h.same p hp, h.same q hq.spares, h.hasEntriesBelow_eq hq]

/-- What is not above what differs is moved alike. -/
theorem moveTree (h : Twin s d d') (hp : s.Clears p) (hq : s.Clears q) (hmoves : Moves d p q n d₁)
    (hmoves' : Moves d' p q n d₁') : Next s d d' d₁ d₁' where
  twin := {
    tree := hmoves.tree h.tree
    tree' := hmoves'.tree h.tree'
    same := by
      intro r hr
      by_cases hqr : q <+: r
      · obtain ⟨t, rfl⟩ := hqr
        rw [hmoves.node?_below_target, hmoves'.node?_below_target, h.same _ (hp.spares_append t)]
      · by_cases hpr : p <+: r
        · rw [hmoves.node?_below_source hpr, hmoves'.node?_below_source hpr]
        · rw [hmoves.node?_beside hpr hqr, hmoves'.node?_beside hpr hqr, h.same r hr]
    directory := by
      intro r hr
      rw [hmoves.node?_beside (hp r (.inl hr)) (hq r (.inl hr)),
        hmoves'.node?_beside (hp r (.inl hr)) (hq r (.inl hr))]
      exact h.directory r hr
    file := by
      intro r hr
      rw [hmoves.node?_beside (hp r (.inr (.inl hr))) (hq r (.inr (.inl hr)))]
      exact h.file r hr
    kept := by
      intro r hr
      rw [hmoves.node?_beside (hp r (.inr (.inr hr))) (hq r (.inr (.inr hr)))]
      exact h.kept r hr
    bare := by
      intro hbare r hr content
      rw [hmoves.node?_beside (hp r (.inl hr)) (hq r (.inl hr))]
      exact h.bare hbare r hr content }
  own := fun r hr =>
    hmoves'.node?_beside (hp r (.inr (.inl hr))) (hq r (.inr (.inl hr)))

theorem rename (h : Twin s d d') (hwd : s.kept wd)
    (hsource : d'.find wd source = d.find wd source)
    (htarget : ∀ spot, d.find wd source = .ok spot → d'.find wd target = d.find wd target)
    (hp : s.Clears (lexical wd source)) (hq : s.Clears (lexical wd target)) :
    Alike s d d' (d.rename wd source target) (d'.rename wd source target) := by
  rw [Disk.rename, Disk.rename, hsource]
  refine .bind fun spot hfind => ?_
  rw [htarget spot hfind]
  refine .bind fun spot' hfind' => ?_
  have hfound' := (htarget spot hfind).trans hfind'
  cases spot with
  | here => exact .error .busy
  | named dir name slash =>
    cases spot' with
    | here => exact .error .busy
    | named dir' name' slash' =>
      rw [lexical_of_find hfind] at hp
      rw [lexical_of_find hfind'] at hq
      simp only [h.child?_eq hp.spares, h.child?_eq hq.spares, h.mayReplace_eq hp.spares hq]
      refine .bind fun o hchild => ?_
      obtain ⟨-, ho⟩ := child?_eq_ok hchild
      cases o with
      | none => exact .error .notFound
      | some n =>
        refine .bind fun _ _ => ?_
        -- both runs ask the same questions and get the same answers, up to the move itself
        refine .ite (fun _ => .error .notADirectory) fun _ => ?_
        refine .ite (fun _ => .ok h.next) fun _ => ?_
        refine .ite (fun _ => .error .invalidArgument) fun hinto => ?_
        refine .ite (fun _ => .error .notEmpty) fun hover => ?_
        refine .bind fun _ hmay => ?_
        have ho' := (h.same _ hp.spares).trans ho.symm
        have hmay' := (h.mayReplace_eq hp.spares hq).trans hmay
        exact .ok (h.moveTree hp hq
          (moves_of_find h.tree (h.kept wd hwd) hfind' ho.symm (by simp) hinto hover hmay)
          (moves_of_find h.tree' (h.kept' hwd) hfound' ho' (by simp) hinto hover hmay'))

end Twin

end EditGate.Disk
