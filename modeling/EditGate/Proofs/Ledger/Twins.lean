import EditGate.Ledger.Approvals
import EditGate.Proofs.Ledger.Backup
import EditGate.Proofs.Twins

/-!
# The ledger on twins

Operations on a ledger are the same wherever its notices go: they answer alike on twins and leave
twins (`alike_load`, `alike_approve`, `alike_invalidate`), if the ledger, its draft and its backups
stay clear of the journal (`Clear`). A ledger that is moved or copied aside was found before, so the
path of the backup is found alike on both disks; the draft is written once the directories that lead
to the ledger are made.
-/

namespace EditGate.Ledger

open Approval (Slot)
open Run (Alike Same Both)

variable {l : Ledger} {s : Sink} {c : Stage} {w w' : World}

/-- The ledger with its notices going elsewhere. -/
def onto (l : Ledger) (s : Sink) : Ledger := { l with sink := s }

/-- The ledger and what is written beside it stay clear of what twins differ in. -/
structure Clear (c : Stage) (l : Ledger) : Prop where
  admits : c.slack.Admits c.workingDir l.path
  ledger : c.slack.Clears (Disk.lexical c.workingDir l.path)
  draft : c.slack.Clears (Disk.lexical c.workingDir l.draftPath)
  backup : ∀ kind ∈ backupKinds, ∀ now event,
    c.slack.Clears (Disk.lexical c.workingDir (l.backupFor kind now event))

/-! ## Paths beside the ledger -/

/-- Where the path of the ledger is paved, so is that of its draft. -/
theorem paved_draftPath (h : Laid c l.path w w') : w.disk.Paved c.workingDir l.draftPath := by
  refine h.withFileName (by simp) ?_
  have hname := @slash_notMem_fileName?_getD l.path [] List.not_mem_nil
  simp [hname]

theorem paved_backupFor (h : Laid c l.path w w') {kind : String} (hkind : kind ∈ backupKinds)
    (now : Int) (event : Nat) : w.disk.Paved c.workingDir (l.backupFor kind now event) :=
  h.withFileName (by simp [backupName]) (slash_notMem_backupName l hkind now event)

/-! ## Saving -/

theorem same_writeDraft (hc : l.Clear c) (h : Laid c l.path w w') (text : String) :
    Trial.Same (Laid c l.path) w w' (writeDraft l.draftPath text) (writeDraft l.draftPath text) := by
  have hplace := hc.draft.spares
  refine (Trial.same_io (h.createFile (paved_draftPath h) hplace)).bind (fun _ _ h => h)
    fun _ v v' hv => ?_
  refine (Trial.same_io (hv.append (paved_draftPath hv) hplace text.toUTF8)).bind (fun _ _ h => h)
    fun _ u u' hu => ?_
  exact Trial.same_io hu.sync

theorem alike_save (hc : l.Clear c) (d : Document) :
    Trial.Alike (Twins c) (l.save d) (l.save d) := by
  intro w w' h
  refine Trial.bind_io_same (h.makeParents hc.admits) (fun _ _ h => h) fun _ v v' hv hpaved => ?_
  have hlaid : Laid c l.path v v' := ⟨hv, hpaved rfl⟩
  refine (same_writeDraft hc hlaid d.body).bind (fun _ _ h => h.twins) fun _ u u' hu => ?_
  refine (Trial.same_io (hu.readText (paved_draftPath hu) hc.draft.spares)).bind
    (fun _ _ h => h.twins) fun written t t' ht => ?_
  have hdraft := paved_draftPath ht
  split
  · exact Trial.same_io (ht.rename hdraft hc.draft hc.ledger)
  · exact Trial.same_lift_bind (ht.removeFile hdraft hc.draft.spares) fun _ _ _ h => ⟨rfl, h⟩

/-! ## Loading -/

theorem alike_freshSections : Alike (Twins c) l.freshSections l.freshSections :=
  alike_timeStamp.bind fun _ => alike_newEvent.bind fun _ => Run.alike_pure _

theorem alike_freshDocument : Alike (Twins c) l.freshDocument l.freshDocument :=
  alike_freshSections.bind fun _ => Run.alike_pure _

theorem alike_fromObject (hs : c.Suits s) (obj : Keyed Json) :
    Alike (Twins c) ((l.onto .keep).fromObject obj) ((l.onto s).fromObject obj) :=
  alike_freshSections.bind fun _ => (alike_recordAll hs _).bind fun _ => Run.alike_pure _

/-- Naming a backup leaves the disks as they are. -/
theorem both_backupPath (h : Twins c w w') (kind : String) :
    Both w w' (l.backupPath kind) (l.backupPath kind) fun r r' v v' => r' = r ∧ Twins c v v' ∧
      (∃ now event, r = l.backupFor kind now event) ∧ v.disk = w.disk := by
  obtain ⟨hevent, htwins⟩ := alike_newEvent w w' h
  have hrun : ∀ v : World, (l.backupPath kind).run v =
      (l.backupFor kind v.now v.nextEvent, (Run.newEvent.run v).2) := fun _ => rfl
  rw [Both, hrun, hrun, h.now, h.nextEvent]
  exact ⟨rfl, htwins, ⟨_, _, rfl⟩, rfl⟩

theorem same_recoverCorrupt (hc : l.Clear c) (hs : c.Suits s) (h : Twins c w w')
    (hfound : w.disk.find c.workingDir l.path ≠ .error .notFound) (reason : String) :
    Same (Twins c) w w' ((l.onto .keep).recoverCorrupt reason)
      ((l.onto s).recoverCorrupt reason) := by
  refine Both.bind_same (both_backupPath h "corrupt") fun backup v v' hv hbackup => ?_
  obtain ⟨⟨now, event, rfl⟩, hdisk⟩ := hbackup
  rw [← hdisk] at hfound
  have hsource : v'.disk.find c.workingDir l.path = v.disk.find c.workingDir l.path :=
    (hv.disk.find_cases hc.admits).resolve_right fun hnot => hfound hnot.1
  have hclear := hc.backup "corrupt" (by decide) now event
  refine Same.bind (hv.rename hsource (fun spot hspot => ?_) hc.ledger hclear) fun r u u' hu => ?_
  · have hlaid : Laid c l.path v v' :=
      ⟨hv, Disk.paved_of_find hv.disk.tree (hv.disk.kept _ c.home) hspot⟩
    exact hv.find_eq (paved_backupFor hlaid (by decide) now event) hclear.spares
  · cases r with
    | ok o => exact ((alike_record hs _).bind fun _ => alike_freshDocument) u u' hu
    | error cause => exact ((alike_record hs _).bind fun _ => alike_freshDocument) u u' hu

theorem same_recoverIncomplete (hc : l.Clear c) (hs : c.Suits s) (h : Laid c l.path w w')
    (content : String) (missing : List String) :
    Same (Twins c) w w' ((l.onto .keep).recoverIncomplete content missing)
      ((l.onto s).recoverIncomplete content missing) := by
  refine Both.bind_same (both_backupPath h.twins "incomplete") fun backup v v' hv hbackup => ?_
  obtain ⟨⟨now, event, rfl⟩, hdisk⟩ := hbackup
  have hlaid : Laid c (l.backupFor "incomplete" now event) v v' :=
    ⟨hv, hdisk ▸ paved_backupFor h (by decide) now event⟩
  have hclear := hc.backup "incomplete" (by decide) now event
  refine Same.bind ((hlaid.writeText hclear.spares content).imp fun _ _ h => h.twins) fun r => ?_
  cases r
  case' error cause => refine (alike_record hs _).bind fun _ => ?_
  -- the rest is the same whether the backup could be written or not
  all_goals
    refine (alike_record hs _).bind fun _ => (alike_fromObject hs (objectOf content.toList)).bind
      fun d => Alike.bind (alike_save hc d) fun saved => ?_
    cases saved with
    | ok u => exact Run.alike_pure d
    | error failure => exact (alike_record hs _).bind fun _ => Run.alike_pure d

/-- Loading is the same wherever the notices go. -/
theorem alike_load (hc : l.Clear c) (hs : c.Suits s) :
    Alike (Twins c) (l.onto .keep).load (l.onto s).load := by
  intro w w' h
  refine Both.bind_same (h.readText (h.disk.read_eq hc.admits hc.ledger.spares))
    fun r v v' hv hr => ?_
  obtain ⟨hr, rfl⟩ := hr
  have hread : v.disk.readText c.workingDir l.path = r := hr.symm
  have hhome := hv.disk.kept _ c.home
  cases r with
  | ok content =>
    obtain ⟨dir, name, hfind, -⟩ := (Disk.names_of_readText hread).1
    cases hfault : classify content.toList with
    | ok obj =>
      simp only [hfault]
      exact alike_fromObject hs obj v v' hv
    | error fault =>
      simp only [hfault]
      cases fault with
      | corrupt reason => exact same_recoverCorrupt hc hs hv (by rw [hfind]; exact nofun) reason
      | incomplete missing =>
        exact same_recoverIncomplete hc hs ⟨hv, Disk.paved_of_find hv.disk.tree hhome hfind⟩
          content missing
  | error cause =>
    have hrecover : cause ≠ .notFound → ∀ reason, Same (Twins c) v v'
        ((l.onto .keep).recoverCorrupt reason) ((l.onto s).recoverCorrupt reason) := by
      refine fun hcause => same_recoverCorrupt hc hs hv fun hfind => hcause ?_
      rw [Disk.readText, Disk.read, hfind] at hread
      exact (Except.error.inj hread).symm
    cases cause with
    | notFound => exact alike_freshDocument v v' hv
    | _ => exact hrecover (by simp) _

/-! ## Approvals -/

variable (path : String)

theorem alike_status? (hc : l.Clear c) (hs : c.Suits s) :
    Alike (Twins c) ((l.onto .keep).status? path) ((l.onto s).status? path) :=
  (alike_load hc hs).bind fun _ => Run.alike_pure _

theorem alike_approve (hc : l.Clear c) (hs : c.Suits s) (slot : Slot) (approver : String) :
    Trial.Alike (Twins c) ((l.onto .keep).approve path slot approver)
      ((l.onto s).approve path slot approver) := by
  rw [approve, approve]
  split
  · exact Trial.alike_refuse _
  · refine Trial.alike_lift_bind (alike_load hc hs) fun d => ?_
    refine Trial.alike_lift_bind alike_timeStamp fun time => ?_
    refine (alike_save hc _).bind fun _ => ?_
    exact Trial.alike_lift_bind (alike_record hs _) fun _ => Trial.alike_pure _

theorem alike_invalidate (hc : l.Clear c) (hs : c.Suits s) (reason : String) :
    Trial.Alike (Twins c) ((l.onto .keep).invalidate path reason)
      ((l.onto s).invalidate path reason) := by
  refine Trial.alike_lift_bind (alike_load hc hs) fun d => ?_
  have hkey : (l.onto s).key path = (l.onto .keep).key path := rfl
  rw [hkey]
  cases d.status? ((l.onto .keep).key path) with
  | none => exact Trial.alike_pure ()
  | some status =>
    refine Trial.alike_lift_bind alike_timeStamp fun time => ?_
    refine (alike_save hc _).bind fun _ => ?_
    exact Trial.alike_lift (alike_record hs _)

end EditGate.Ledger
