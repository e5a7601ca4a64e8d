import EditGate.Proofs.Ledger.Inverse

/-!
# A text that was written passes its check

A save is refused only if the text that it reads back lacks sections. Whatever disk it works on and
whichever steps fail, the text that is read back is the one that was written
(`ends_writeDraft_text`), and loading yields a document whose text has all sections, as long as the
doubles of the stored text read back (`ends_load_sound`). So no save of the gate is ever refused
(`ends_approve_unrefused`, `ends_invalidate_unrefused`).
-/

namespace EditGate

open Run

variable {α β : Type} {w : World} {path : Path} {text : String}

/-! ## Outcomes that refuse nothing -/

/-- The outcome is no refusal. -/
def Unrefused (r : Except Failure α) : Prop := ∀ refusal, r ≠ .error (.validation refusal)

theorem unrefused_ok (a : α) : Unrefused (.ok a) := nofun

theorem unrefused_io (cause : Disk.Cause) : Unrefused (.error (.io cause) : Except Failure α) :=
  nofun

theorem Unrefused.error {e : Failure} (h : Unrefused (.error e : Except Failure α)) :
    Unrefused (.error e : Except Failure β) := fun refusal he => h refusal (by cases he; rfl)

namespace Trial

theorem ends_io_unrefused (m : Run (Except Disk.Cause α)) (w : World) :
    Ends w (io m) fun r _ => Unrefused r := by
  refine Trial.ends_io.mpr ?_
  have hall : ∀ r : Except Disk.Cause α, Unrefused (r.mapError .io) := by
    intro r
    cases r with
    | ok a => exact unrefused_ok a
    | error cause => exact unrefused_io cause
  exact hall _

/-- A trial in two parts of which neither refuses does not refuse. -/
theorem ends_bind_unrefused {m : Trial α} {f : α → Trial β} {post : α → World → Prop}
    (h : Ends w m fun r w' => Unrefused r ∧ ∀ a, r = .ok a → post a w')
    (hf : ∀ a w', post a w' → Ends w' (f a) fun r _ => Unrefused r) :
    Ends w (m >>= f) fun r _ => Unrefused r :=
  h.bind (fun a w' ha => hf a w' (ha.2 a rfl)) fun _ _ he => he.1.error

/-- A disk step, and then a trial that does not refuse what the step leaves. -/
theorem ends_io_bind_unrefused {m : Run (Except Disk.Cause α)} {f : α → Trial β}
    {post : Except Disk.Cause α → World → Prop} (h : Run.Ends w m post)
    (hf : ∀ a w', post (.ok a) w' → Ends w' (f a) fun r _ => Unrefused r) :
    Ends w (io m >>= f) fun r _ => Unrefused r :=
  h.bind_io hf fun cause _ _ => unrefused_io cause

end Trial

namespace Ledger

open Approval (Slot)
open Json (ReadsBack DoubleReadsBack)

variable {l : Ledger} {d : Document}

/-! ## Saving -/

/-- A draft that was written holds its text. -/
theorem ends_writeDraft_text (path : Path) (text : String) (w : World) :
    Trial.Ends w (writeDraft path text) fun r w' => Unrefused r ∧
      ∀ u, r = .ok u → w'.disk.readText w'.workingDir path = .ok text := by
  have hio : ∀ cause : Disk.Cause, Unrefused (.error (.io cause) : Except Failure Unit) ∧
      ∀ u, (.error (.io cause) : Except Failure Unit) = .ok u → False :=
    fun cause => ⟨unrefused_io cause, fun _ h => nomatch h⟩
  refine (ends_change_any _ w).bind_io (fun _ w₁ ⟨hdir₁, hcreate⟩ => ?_)
    fun cause _ _ => ⟨(hio cause).1, fun u h => ((hio cause).2 u h).elim⟩
  refine (ends_change_any _ w₁).bind_io (fun _ w₂ ⟨hdir₂, happend⟩ => ?_)
    fun cause _ _ => ⟨(hio cause).1, fun u h => ((hio cause).2 u h).elim⟩
  -- the file is empty when the text is added
  obtain ⟨p, hp, hdisk₁⟩ := bind_eq_ok (hcreate rfl)
  obtain ⟨-, rfl, hne, -⟩ := Disk.names_of_writable hp
  obtain ⟨q, hq, hdisk₂⟩ := bind_eq_ok (happend rfl)
  rw [hdir₁] at hq
  obtain ⟨hnames, rfl, -, hnot⟩ := Disk.names_of_writable hq
  have hempty : w₁.disk.node? (Disk.lexical w.workingDir path) = some (.file .empty) := by
    rw [← Except.ok.inj hdisk₁]
    exact Disk.node?_put_self hne
  simp only [hempty, ByteArray.empty_append] at hdisk₂
  have hdisk₂ := (Except.ok.inj hdisk₂).symm
  refine Trial.ends_io.mpr (Ends.imp (ends_step_any (fun d _ => (Except.ok d).map ((), ·)) w₂) ?_)
  rintro r w₃ ⟨hdir₃, ⟨a, rfl, hf⟩ | ⟨cause, rfl, -⟩⟩
  · refine ⟨unrefused_ok _, fun _ _ => ?_⟩
    have hdisk₃ : w₃.disk = w₂.disk := (Prod.mk.inj (Except.ok.inj hf)).2.symm
    rw [hdisk₃, hdir₃, hdir₂, hdir₁, hdisk₂]
    exact (hnames.mono (Disk.keepsDirectories_put hne hnot)).readText_eq (Disk.node?_put_self hne)
  · exact ⟨unrefused_io cause, fun _ h => nomatch h⟩

/-- A document whose text has all sections is not refused. -/
theorem ends_save_unrefused (h : ∃ obj, classify d.body.toList = .ok obj) (w : World) :
    Trial.Ends w (l.save d) fun r _ => Unrefused r := by
  obtain ⟨obj, hobj⟩ := h
  have hany : ∀ (m : Run (Except Disk.Cause Unit)) w, Ends w m fun _ _ => True := fun _ _ => trivial
  refine Trial.ends_io_bind_unrefused (hany _ w) fun _ w₁ _ => ?_
  refine Trial.ends_bind_unrefused (ends_writeDraft_text l.draftPath d.body w₁)
    fun _ w₂ htext => ?_
  refine Trial.ends_io_bind_unrefused (ends_readText_any l.draftPath w₂) fun written w₃ hread => ?_
  have hwritten : written = d.body := Except.ok.inj ((hread written rfl).symm.trans htext)
  rw [hwritten, hobj]
  exact Trial.ends_io_unrefused _ w₃

/-! ## Loading -/

/-- The doubles of the stored text read back. -/
def NumbersReadBack (l : Ledger) (w : World) : Prop :=
  ∀ text v, l.text? w = .ok text → Json.read? text.toList = some v →
    ∀ x ∈ v.doubles, DoubleReadsBack x

/-- A mandatory section is the stored one or a fresh one. -/
theorem sectionOr_cases (obj : Keyed Json) (name : String) (otherwise : Json) :
    sectionOr obj name otherwise = otherwise ∨
      Keyed.get? name obj = some (sectionOr obj name otherwise) := by
  unfold sectionOr
  split
  · rename_i v hv
    split
    · exact .inr hv
    · exact .inl rfl
  · exact .inl rfl

/-- An object that reads back holds a sound document, with sound sections for those it has not. -/
theorem sound_ofObject_of_readsBack {obj : Keyed Json} {f : Fresh}
    (hback : ReadsBack Json.maxDepth (.obj obj)) (hfresh : (Document.fresh f).Sound) :
    (Document.ofObject obj f).1.Sound := by
  obtain ⟨-, hsorted, hmembers⟩ := Json.storable_obj_iff.mp hback
  have hentries : Keyed.Sorted (entriesOf obj) ∧
      ∀ key v, Keyed.get? key (entriesOf obj) = some v → ReadsBack (sectionRoom - 1) v := by
    unfold entriesOf
    split
    · rename_i entries hstates
      have hentries := ReadsBack.of_get? hback hstates
      exact ⟨(Json.storable_obj_iff.mp hentries).2.1, fun _ _ => ReadsBack.of_get? hentries⟩
    · refine ⟨Keyed.sorted_nil, fun key v h => ?_⟩
      cases h
  -- a section is one of the object, or the one in its place
  have hsection : ∀ name otherwise, ReadsBack sectionRoom otherwise →
      ReadsBack sectionRoom (sectionOr obj name otherwise) := by
    intro name otherwise hother
    rcases sectionOr_cases obj name otherwise with h | h
    · rwa [h]
    · exact ReadsBack.of_get? hback h
  exact {
    toWellFormed := wellFormed_ofObject hsorted hentries.1
      (isObject_sectionOr obj contextSection hfresh.context_object)
      (isObject_sectionOr obj sessionSection hfresh.session_object)
    context_readsBack := hsection _ _ hfresh.context_readsBack
    session_readsBack := hsection _ _ hfresh.session_readsBack
    unreadable_readsBack := by
      intro key v hv
      simp only [Document.ofObject, salvage_eq, get?_unreadable key hentries.1] at hv
      obtain ⟨u, hu, hv⟩ := Option.bind_eq_some_iff.mp hv
      obtain ⟨rfl, -⟩ := unreadable?_eq_some_iff.mp hv
      exact hentries.2 key u hu
    extra_readsBack := by
      intro name v hv
      by_cases hown : IsOwnSection name
      · rw [get?_extra_own obj f hown] at hv
        cases hv
      · rw [get?_extra_ofObject obj f hown] at hv
        exact ReadsBack.of_get? hback hv }

theorem readsBack_objectOf {text : List Char}
    (h : ∀ v, Json.read? text = some v → ∀ x ∈ v.doubles, DoubleReadsBack x) :
    ReadsBack Json.maxDepth (.obj (objectOf text)) := by
  unfold objectOf
  split
  · rename_i members hread
    exact Json.storable_of_read? hread (h _ hread)
  · exact Json.storable_obj_iff.mpr ⟨by decide, Keyed.sorted_nil, by simp⟩

/-- Loading yields a sound document, whatever is at the path of the ledger and whichever steps
fail. -/
theorem ends_load_sound (h : l.NumbersReadBack w) : Ends w l.load fun d _ => d.Sound :=
  l.ends_load_of_forall l.ends_freshDocument_sound w fun text w' htext =>
    sound_ofObject_of_readsBack (readsBack_objectOf fun v => h text v htext)
      (sound_fresh l.project.root (stamp w'.now) (eventName w'.nextEvent) (stamp w'.now))

/-! ## Approvals -/

theorem ends_setStatus_unrefused (hd : d.Sound) (key : String) (s : Approval.Status) (w : World) :
    Trial.Ends w (l.save (d.setStatus key s)) fun r _ => Unrefused r := by
  refine ends_save_unrefused ⟨(d.record key s).stored, ?_⟩ w
  rw [body_setStatus hd]
  exact classify_body (hd.record key s)

/-- Without a name an approval is refused, before anything is done. -/
theorem run_approve_blank (path : String) (slot : Slot) {approver : String}
    (hname : (Text.trimString approver).isEmpty = true) (w : World) :
    (l.approve path slot approver).run.run w = (.error (.validation .emptyApprover), w) := by
  rw [approve, if_pos hname]
  rfl

/-- With a name an approval is not refused. -/
theorem ends_approve_unrefused (h : l.NumbersReadBack w) (path : String) (slot : Slot)
    {approver : String} (hname : (Text.trimString approver).isEmpty = false) :
    Trial.Ends w (l.approve path slot approver) fun r _ => Unrefused r := by
  rw [approve, if_neg (by simp [hname])]
  refine (ends_load_sound h).bind_lift fun d w₁ hd => ?_
  refine Trial.ends_timeStamp_bind.mpr ?_
  have hsave := ends_setStatus_unrefused (l := l) hd (l.key path)
    (d.granted (l.key path) slot (Text.trimString approver) (stamp w₁.now)) w₁
  exact hsave.bind (fun _ _ _ => unrefused_ok _) fun _ _ he => he.error

theorem ends_invalidate_unrefused (h : l.NumbersReadBack w) (path reason : String) :
    Trial.Ends w (l.invalidate path reason) fun r _ => Unrefused r := by
  refine (ends_load_sound h).bind_lift fun d w₁ hd => ?_
  cases d.status? (l.key path) with
  | none => exact unrefused_ok _
  | some s =>
    refine Trial.ends_timeStamp_bind.mpr ?_
    have hsave := ends_setStatus_unrefused (l := l) hd (l.key path)
      (.invalidate reason (stamp w₁.now)) w₁
    exact hsave.bind (fun _ _ _ => unrefused_ok _) fun _ _ he => he.error

end Ledger

end EditGate
