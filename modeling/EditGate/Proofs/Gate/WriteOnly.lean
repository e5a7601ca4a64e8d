import EditGate.Proofs.Gate.Twins

/-!
# Notices are never read

Where notices go makes no difference to what the gate answers, nor to what it writes, but for the
journal and the directories that are made for it (`write_only`). Two gates that differ in where
their notices go take the same steps, through any operations, changes of the clock and edits by
others, as long as no path of the run leads to what the journal leaves behind, or on from there
(`Unentangled`). The journal gets the line of each diagnostic that a gate in memory keeps, in order.

The invariant is that the worlds are twins (`Twins`); each event keeps it (`both_happen`), and so
does a run of them (`both_happenAll`).
-/

namespace EditGate.Gate

open Run (Both)
open Rpc (Operation perform)

variable {g : Gate} {s : Sink} {c : Stage} {w w' : World}

/-! ## Runs -/

/-- What may happen. -/
inductive Event where
  | operate (op : Operation)
  | listApprovals
  | clock (now : Int)
  /-- Someone else writes a file, and makes the directories that lead there. -/
  | write (path : Path) (content : ByteArray)
  /-- Someone else removes a file. -/
  | remove (path : Path)

/-- What comes of it. -/
inductive Outcome where
  /-- The value of an operation and the files that it wrote. -/
  | answer (r : Except Failure (Json × List String))
  | approvals (m : Keyed Approval.Status)
  | edit (r : Except Disk.Cause Unit)
  | none
deriving DecidableEq

/-- The path of the file that an event is about. -/
def Event.path? (g : Gate) : Event → Option Path
  | operate op => op.file?.map g.locate
  | write path _ | remove path => some path
  | listApprovals | clock _ => none

/-- Writes a whole file that may be anything, and makes the directories that lead there. -/
def overwrite (path : Path) (content : ByteArray) : Run (Except Disk.Cause Unit) := do
  match ← Run.makeParents path with
  | .error cause => return .error cause
  | .ok () =>
    match ← Run.createFile path with
    | .error cause => return .error cause
    | .ok () => Run.change fun d wd => d.append wd path content

def happen (g : Gate) : Event → Run (Outcome × Gate)
  | .operate op => do
    let r ← (perform g op).run
    return (.answer (r.map fun a => (a.value, a.touched)), gateAfter g r)
  | .listApprovals => return (.approvals (← g.ledger.statuses), g)
  | .clock now => do
    modify fun w => { w with now }
    return (.none, g)
  | .write path content => return (.edit (← overwrite path content), g)
  | .remove path => return (.edit (← Run.removeFile path), g)

/-- What comes of events in order, and the gate after them. -/
def happenAll (g : Gate) : List Event → Run (List Outcome × Gate)
  | [] => return ([], g)
  | e :: es => do
    let (o, g) ← happen g e
    let (os, g) ← happenAll g es
    return (o :: os, g)

/-! ## Runs of twins -/

theorem alike_overwrite {path : Path} (hpath : c.Reads path) (content : ByteArray) :
    Run.Alike (Twins c) (overwrite path content) (overwrite path content) := by
  intro w w' h
  refine Both.bind_same (h.makeParents hpath.admits) fun r v v' hv hpaved => ?_
  cases r with
  | error cause => exact ⟨rfl, hv⟩
  | ok o =>
    have hlaid : Laid c path v v' := ⟨hv, hpaved rfl⟩
    refine Run.Same.bind (hlaid.createFile hlaid.paved hpath.spares) fun r u u' hu => ?_
    cases r with
    | error cause => exact ⟨rfl, hu.twins⟩
    | ok o => exact (hu.append hu.paved hpath.spares content).imp fun _ _ h => h.twins

/-- The same came of an event, and the gates differ in where notices go. -/
def Agree (g : Gate) (s : Sink) {α : Type} (r r' : α × Gate) : Prop :=
  r'.1 = r.1 ∧ ∃ g₁ : Gate, r.2 = g₁.onto .keep ∧ r'.2 = g₁.onto s ∧ g₁.ledger = g.ledger

theorem agree_same {α : Type} (a : α) : g.Agree s (a, g.onto .keep) (a, g.onto s) :=
  ⟨rfl, g, rfl, rfl, rfl⟩

theorem both_happen (hc : g.ledger.Clear c) (hs : c.Suits s) (h : Twins c w w') (e : Event)
    (he : ∀ path, e.path? g = some path → c.Reads path) :
    Both w w' (happen (g.onto .keep) e) (happen (g.onto s) e) fun r r' v v' =>
      g.Agree s r r' ∧ Twins c v v' := by
  cases e with
  | operate op =>
    have hop : ∀ path, op.file? = some path → c.Reads (g.locate path) := fun path hpath =>
      he _ (congrArg (Option.map g.locate) hpath)
    refine (both_perform hc hs h op hop).bind ?_
    rintro _ _ v v' ⟨⟨r₀, rfl, rfl, hledger⟩, hv⟩
    cases r₀ with
    | ok a => exact ⟨⟨rfl, a.gate, rfl, rfl, hledger a rfl⟩, hv⟩
    | error failure => exact ⟨⟨rfl, g, rfl, rfl, rfl⟩, hv⟩
  | listApprovals =>
    have hlist := (Ledger.alike_load hc hs).bind fun d => Run.alike_pure d.approvalStates
    refine Both.bind (hlist w w' h) ?_
    rintro _ m v v' ⟨rfl, hv⟩
    exact ⟨agree_same _, hv⟩
  | clock now => exact ⟨agree_same _, { h with now := rfl }⟩
  | write path content =>
    refine Both.bind (alike_overwrite (he path rfl) content w w' h) ?_
    rintro _ r v v' ⟨rfl, hv⟩
    exact ⟨agree_same _, hv⟩
  | remove path =>
    refine Both.bind (alike_removeFile (he path rfl) w w' h) ?_
    rintro _ r v v' ⟨rfl, hv⟩
    exact ⟨agree_same _, hv⟩

theorem Event.path?_congr {g₁ : Gate} (h : g₁.ledger = g.ledger) (e : Event) :
    e.path? g₁ = e.path? g := by
  have hproject : g₁.project = g.project := congrArg Ledger.project h
  have hlocate : g₁.locate = g.locate := by
    funext path
    rw [locate, locate, hproject]
  cases e with
  | operate op => rw [path?, path?, hlocate]
  | _ => rfl

theorem both_happenAll (hc : g.ledger.Clear c) (hs : c.Suits s) (h : Twins c w w')
    (es : List Event) (hes : ∀ e ∈ es, ∀ path, e.path? g = some path → c.Reads path) :
    Both w w' (happenAll (g.onto .keep) es) (happenAll (g.onto s) es) fun r r' v v' =>
      g.Agree s r r' ∧ Twins c v v' := by
  induction es generalizing g w w' with
  | nil => exact ⟨agree_same [], h⟩
  | cons e es ih =>
    refine (both_happen hc hs h e (hes e List.mem_cons_self)).bind ?_
    rintro ⟨o, _⟩ ⟨_, _⟩ v v' ⟨⟨rfl, g₁, rfl, rfl, hledger⟩, hv⟩
    have hrest := ih (g := g₁) (hledger ▸ hc) hv fun e he path hpath =>
      hes e (List.mem_cons_of_mem _ he) path (Event.path?_congr hledger e ▸ hpath)
    refine hrest.bind ?_
    rintro ⟨os, _⟩ ⟨_, _⟩ u u' ⟨⟨rfl, g₂, rfl, rfl, hledger₂⟩, hu⟩
    exact ⟨⟨rfl, g₂, rfl, rfl, hledger₂.trans hledger⟩, hu⟩

/-! ## Where runs start -/

/-- What a journal may leave behind on a disk: the file, and the directories on its way that are
not there yet. -/
def journalSlack (d : Disk) (wd : Place) (path : Path) : Disk.Slack where
  directory p := p ∈ Disk.way wd path ∧ p ≠ Disk.lexical wd path ∧ d.node? p ≠ some .directory
  file p := p = Disk.lexical wd path ∧ d.node? p ≠ some .directory
  kept p := (p = wd ∨ p ∈ Disk.way wd path) ∧ d.node? p = some .directory
  bare := d.Appendable wd path
  directory_ne_file := fun _ hp hfile => hp.2.1 hfile.1
  kept_ne := fun _ hp => ⟨fun hdir => hdir.2.2 hp.2, fun hfile => hfile.2 hp.2⟩

/-- Nothing is left behind without a journal. -/
def noSlack (wd : Place) : Disk.Slack where
  directory _ := False
  file _ := False
  kept p := p = wd
  bare := False
  directory_ne_file := fun _ h => h.elim
  kept_ne := fun _ _ => ⟨id, id⟩

/-- Where a run starts whose notices go nowhere that is on the disk. -/
def quietStage (w : World) : Stage where
  slack := noSlack w.workingDir
  workingDir := w.workingDir
  journal := w.workingDir
  kept := w.kept
  bytes := w.disk.bytesAt w.workingDir
  home := rfl
  place := .inr rfl
  file_of_bare := False.elim

def journalStage (hw : w.Calm) (path : Path) : Stage where
  slack := journalSlack w.disk w.workingDir path
  workingDir := w.workingDir
  journal := Disk.lexical w.workingDir path
  kept := w.kept
  bytes := w.disk.bytesAt (Disk.lexical w.workingDir path)
  home := ⟨.inl rfl, hw.home⟩
  place := by
    by_cases hdir : w.disk.node? (Disk.lexical w.workingDir path) = some .directory
    · exact .inr ⟨.inr (Disk.lexical_mem_way _ _), hdir⟩
    · exact .inl ⟨rfl, hdir⟩
  file_of_bare := fun hbare => ⟨rfl, (hbare.reachable hw.tree hw.home).2.1⟩

/-- Where a run starts whose notices go there. -/
def stage (hw : w.Calm) : Sink → Stage
  | .journal path => journalStage hw path
  | .keep => quietStage w
  | .discard => quietStage w

theorem suits_stage (hw : w.Calm) (s : Sink) : (stage hw s).Suits s := by
  cases s with
  | keep => exact id
  | discard => exact id
  | journal path =>
    exact {
      place := rfl
      way := by
        intro q hq
        by_cases hdir : w.disk.node? q = some .directory
        · exact .inr (.inr ⟨.inr hq, hdir⟩)
        · by_cases hplace : q = Disk.lexical w.workingDir path
          · exact .inr (.inl ⟨hplace, hdir⟩)
          · exact .inl ⟨hq, hplace, hdir⟩
      ready := by
        intro hbare
        refine ⟨(hbare.reachable hw.tree hw.home).1, fun q hq hne => ?_⟩
        by_cases hdir : w.disk.node? q = some .directory
        · exact .inr ⟨.inr hq, hdir⟩
        · exact .inl ⟨hq, hne, hdir⟩ }

theorem told_start {c : Stage} {disk : Disk} (h : disk.bytesAt c.journal = c.bytes) :
    c.Told c.kept disk := by
  refine ⟨[], [], (List.append_nil _).symm, List.Sublist.refl [], ?_, fun _ => rfl⟩
  rw [h]
  exact ByteArray.append_empty.symm

/-- A world is its own twin. -/
theorem twins_start (hw : w.Calm) (hplan : w.plan = []) (s : Sink) :
    Twins (stage hw s) w w := by
  have hquiet : Twins (quietStage w) w w := {
    disk := .refl hw.tree (fun _ h => h.elim) (fun _ hp => hp ▸ hw.home) (fun h => h.elim)
    workingDir := rfl
    workingDir' := rfl
    now := rfl
    nextEvent := rfl
    unplanned := hplan
    unplanned' := hplan
    told := told_start rfl
    room := False.elim }
  cases s with
  | keep => exact hquiet
  | discard => exact hquiet
  | journal path =>
    exact {
      disk := by
        -- on a bare way every place is a directory or free, so that none of them holds a file
        refine .refl hw.tree (fun _ hp => hp.2) (fun _ hp => hp.2) fun hbare p hp content hnode => ?_
        rcases (hbare.reachable hw.tree hw.home).2.2 p hp.1 hp.2.1 with hdir | hnone
        · exact hp.2.2 hdir
        · cases hnode.symm.trans hnone
      workingDir := rfl
      workingDir' := rfl
      now := rfl
      nextEvent := rfl
      unplanned := hplan
      unplanned' := hplan
      told := told_start rfl
      room := fun hbare => (hbare.reachable hw.tree hw.home).2.1 }

/-! ## The main result -/

/-- No file of a run and nothing that the ledger needs is at what the journal leaves behind, nor on
from there. -/
structure Unentangled (hw : w.Calm) (g : Gate) (s : Sink) (es : List Event) : Prop where
  ledger : g.ledger.Clear (stage hw s)
  files : ∀ e ∈ es, ∀ path, e.path? g = some path → (stage hw s).Reads path

/-- Two disks that came from one are the same, but for the file of a journal and for directories
on the way to it that were not there. -/
def SameFiles (w : World) (s : Sink) (d d' : Disk) : Prop :=
  ∀ p, d'.node? p = d.node? p ∨ ∃ path, s = .journal path ∧ (p = w.placeOf path ∨
    (p ∈ Disk.way w.workingDir path ∧ w.disk.node? p ≠ some .directory ∧
      d.node? p = none ∧ d'.node? p = some .directory))

theorem sameFiles_of_twin (hw : w.Calm) {d d' : Disk} (h : Disk.Twin (stage hw s).slack d d') :
    SameFiles w s d d' := by
  intro p
  cases s with
  | keep => exact .inl (h.same p ⟨id, id⟩)
  | discard => exact .inl (h.same p ⟨id, id⟩)
  | journal path =>
    by_cases hdir : (stage hw (.journal path)).slack.directory p
    · refine (h.directory p hdir).imp_right fun ⟨hnone, hsome, _⟩ => ?_
      exact ⟨path, rfl, .inr ⟨hdir.1, hdir.2.2, hnone, hsome⟩⟩
    · by_cases hfile : (stage hw (.journal path)).slack.file p
      · exact .inr ⟨path, rfl, .inl hfile.1⟩
      · exact .inl (h.same p ⟨hdir, hfile⟩)

/-- A path that leads through nothing that the journal leaves behind can be read. -/
theorem reads_of_way (hw : w.Calm) {path file : Path}
    (h : ∀ q ∈ Disk.way w.workingDir file, q ∈ Disk.way w.workingDir path →
      w.disk.node? q = some .directory) : (stage hw (.journal path)).Reads file := by
  have hspares : ∀ q ∈ Disk.way w.workingDir file,
      (stage hw (.journal path)).slack.Spares q := by
    refine fun q hq => ⟨fun hdir => hdir.2.2 (h q hq hdir.1), fun hfile => hfile.2 (h q hq ?_)⟩
    rw [hfile.1]
    exact Disk.lexical_mem_way _ _
  refine ⟨⟨fun fs rest hsplit _ => ?_, fun fs x rest hsplit hdir => ?_⟩,
    hspares _ (Disk.lexical_mem_way _ _)⟩
  · exact (hspares _ (Disk.foldl_mem_strides (hsplit ▸ List.prefix_append fs rest))).2
  · refine absurd hdir (hspares _ (Disk.foldl_mem_strides ?_)).1
    exact hsplit ▸ List.prefix_append fs (x :: rest)

theorem clears_of_way (hw : w.Calm) {path : Path} {p : Place}
    (h : ∀ q ∈ w.workingDir :: Disk.way w.workingDir path, ¬p <+: q) :
    (stage hw (.journal path)).slack.Clears p := by
  rintro q (hdir | hfile | hkept)
  · exact h q (List.mem_cons_of_mem _ hdir.1)
  · rw [hfile.1]
    exact h _ (List.mem_cons_of_mem _ (Disk.lexical_mem_way _ _))
  · exact h q (List.mem_cons.mpr hkept.1)

theorem ofConfig_sink (p : Project) (cfg : Config) (journal : Bool) (s : Sink) :
    ofConfig p { cfg with journal } s = (ofConfig p cfg .keep).map (·.onto s) := by
  rw [ofConfig, ofConfig]
  cases RuleBook.addAll { RuleBook.builtin with dedupe := cfg.dedupe } cfg.rules with
  | ok book => rfl
  | error refusal => rfl

/-- Notices elsewhere are all that is different in a project that is opened with them there. -/
theorem ofProject_sink (p : Project) (sink : Option Sink) (s : Sink) :
    ofProject p (some s) = (·.onto s) <$> ofProject p sink := by
  rw [ofProject, ofProject, map_bind]
  refine congrArg (readConfig p >>= ·) (funext fun cfg => ?_)
  have hkeep := ofConfig_sink p cfg cfg.journal
  have hsome := hkeep ((some s).getD (configuredSink p cfg))
  have hsink := hkeep (sink.getD (configuredSink p cfg))
  rw [hsome, hsink]
  cases ofConfig p cfg .keep <;> rfl

/-- Diagnostics are write-only. A project opens to the same gate, or fails to alike, wherever its
notices go, by its configuration or else. Through any events the gate that keeps its notices and the
gate that sends them to a journal, or nowhere, have the same outcomes and leave the same files but
for the journal and the directories made for it. To a journal lines are added only, which read back
to kept diagnostics in order, and to all of them if the journal can be appended to when the run
starts. -/
theorem write_only :
    (∀ (p : Project) (cfg : Config) (journal : Bool) (s : Sink),
      ofConfig p { cfg with journal } s = (ofConfig p cfg .keep).map (·.onto s)) ∧
    (∀ (p : Project) (sink : Option Sink) (s : Sink),
      ofProject p (some s) = (·.onto s) <$> ofProject p sink) ∧
    ∀ (w : World) (hw : w.Calm) (g : Gate) (s : Sink) (es : List Event), w.plan = [] →
      Unentangled hw g s es →
        let kept := (happenAll (g.onto .keep) es).run w
        let sent := (happenAll (g.onto s) es).run w
        sent.1.1 = kept.1.1 ∧
        (∃ g₁ : Gate, kept.1.2 = g₁.onto .keep ∧ sent.1.2 = g₁.onto s) ∧
        SameFiles w s kept.2.disk sent.2.disk ∧
        ∀ path, s = .journal path → ∃ since told, kept.2.kept = w.kept ++ since ∧
          told.Sublist since ∧
          sent.2.disk.bytesAt (w.placeOf path) =
            w.disk.bytesAt (w.placeOf path) ++ (Diagnostic.lines told).toUTF8 ∧
          Diagnostic.readLines (Diagnostic.lines told).toList = told.map some ∧
          (w.disk.Appendable w.workingDir path → told = since) := by
  refine ⟨ofConfig_sink, ofProject_sink, fun w hw g s es hplan hes => ?_⟩
  obtain ⟨⟨hanswers, g₁, hkept, hsent, -⟩, htwins⟩ :=
    both_happenAll hes.ledger (suits_stage hw s) (twins_start hw hplan s) es hes.files
  refine ⟨hanswers, ⟨g₁, hkept, hsent⟩, sameFiles_of_twin hw htwins.disk, ?_⟩
  rintro path rfl
  obtain ⟨since, told, hsince, hsub, hbytes, hall⟩ := htwins.told
  exact ⟨since, told, hsince, hsub, hbytes, Diagnostic.readLines_lines told, hall⟩

/-! ### A journal in a directory that is missing -/

/-- A path in a directory that the sample project does not have. -/
def sampleJournal : Path := "/p/logs/e".toList

/-- A file that is missing, an approval, and the file that it is for. -/
def sampleEvents : List Event :=
  [.operate (.check "none"), .operate (.approve "a" .dev "kim"), .operate (.check "a")]

theorem unentangled_sample :
    Unentangled calm_sampleWorld sampleGate (.journal sampleJournal) sampleEvents := by
  have hway : ∀ q ∈ (["p"] : Place) :: Disk.way ["p"] sampleJournal,
      q = [] ∨ q = ["p"] ∨ q = ["p", "logs"] ∨ q = ["p", "logs", "e"] := by decide
  have hbeside : ∀ name : String, name ≠ "logs" →
      (stage calm_sampleWorld (.journal sampleJournal)).slack.Clears ["p", name] := by
    refine fun name hname => clears_of_way calm_sampleWorld fun q hq hprefix => ?_
    rcases hway q hq with rfl | rfl | rfl | rfl
    all_goals simp at hprefix
    · exact hname hprefix
    · exact hname hprefix
  have hreads : ∀ file : Path, (∀ q ∈ Disk.way ["p"] file, q ∈ Disk.way ["p"] sampleJournal →
      sampleWorld.disk.node? q = some .directory) →
        (stage calm_sampleWorld (.journal sampleJournal)).Reads file :=
    fun file => reads_of_way calm_sampleWorld
  refine ⟨⟨?_, ?_, ?_, fun kind hkind now event => ?_⟩, ?_⟩
  · exact (hreads "/p/l".toList (by decide)).admits
  · have hplace : Disk.lexical ["p"] sampleGate.ledger.path = ["p", "l"] := by decide
    exact hplace ▸ hbeside "l" (by decide)
  · have hplace : Disk.lexical ["p"] sampleGate.ledger.draftPath = ["p", ".l.tmp"] := by
      decide
    exact hplace ▸ hbeside ".l.tmp" (by decide)
  · have hfile : sampleGate.ledger.path.fileName? = some ['l'] := by decide
    have hname : ∃ t, sampleGate.ledger.backupName kind now event = 'l' :: '.' :: t := by
      rw [Ledger.backupName, hfile]
      exact ⟨_, rfl⟩
    have hslash := Ledger.slash_notMem_backupName sampleGate.ledger hkind now event
    obtain ⟨t, ht⟩ := hname
    rw [ht] at hslash
    have hplace : Disk.lexical ["p"] (sampleGate.ledger.backupFor kind now event) =
        ["p", String.ofList ('l' :: '.' :: t)] := by
      have hparent : (Disk.lexical ["p"] sampleGate.ledger.path).dropLast = ["p"] := by
        decide
      rw [Ledger.backupFor, ht, Disk.lexical_withFileName (List.cons_ne_nil _ _) hslash
        (by simp [Path.dot]) (by simp [Path.dotDot]), hfile]
      simp only [hparent]
      rfl
    refine hplace ▸ hbeside _ fun hlogs => ?_
    have hlist := congrArg String.toList hlogs
    rw [String.toList_ofList] at hlist
    exact absurd (List.cons.inj (List.cons.inj hlist).2).1 (by decide)
  · intro e he path hpath
    simp only [sampleEvents, List.mem_cons, List.not_mem_nil, or_false] at he
    rcases he with rfl | rfl | rfl
    · cases hpath
      exact hreads _ (by decide)
    · cases hpath
      exact hreads _ (by decide)
    · cases hpath
      exact hreads _ (by decide)

/-- Three events with a journal in a directory that is made for the first of its lines. -/
theorem write_only_sample :
    let kept := (happenAll (sampleGate.onto .keep) sampleEvents).run sampleWorld
    let sent := (happenAll (sampleGate.onto (.journal sampleJournal)) sampleEvents).run sampleWorld
    sampleWorld.plan = [] ∧
      Unentangled calm_sampleWorld sampleGate (.journal sampleJournal) sampleEvents ∧
      sent.1.1 = kept.1.1 ∧
      SameFiles sampleWorld (.journal sampleJournal) kept.2.disk sent.2.disk ∧
      ∃ told, kept.2.kept = sampleWorld.kept ++ told ∧
        sent.2.disk.bytesAt (sampleWorld.placeOf sampleJournal) =
          sampleWorld.disk.bytesAt (sampleWorld.placeOf sampleJournal) ++
            (Diagnostic.lines told).toUTF8 ∧
        Diagnostic.readLines (Diagnostic.lines told).toList = told.map some := by
  have h := write_only.2.2 sampleWorld calm_sampleWorld sampleGate (.journal sampleJournal)
    sampleEvents rfl unentangled_sample
  obtain ⟨hanswers, -, hfiles, hjournal⟩ := h
  obtain ⟨since, told, hkept, -, hbytes, hread, hall⟩ := hjournal sampleJournal rfl
  obtain rfl := hall (by decide)
  exact ⟨rfl, unentangled_sample, hanswers, hfiles, told, hkept, hbytes, hread⟩

/-! ### A path that goes through a directory made for the journal -/

/-- The journal is not the ledger, the configuration or a file of the run. -/
def JournalApart (w : World) (g : Gate) (path : Path) (es : List Event) : Prop :=
  w.placeOf path ≠ w.placeOf g.ledgerPath ∧ w.placeOf path ≠ w.placeOf g.project.configPath ∧
    ∀ e ∈ es, ∀ file, e.path? g = some file → w.placeOf path ≠ w.placeOf file

/-- A file that is missing, and one that is named by way of the journal's directory. -/
def upwardEvents : List Event := [.operate (.check "none"), .operate (.check "logs/../a")]

theorem journalApart_upward : JournalApart sampleWorld sampleGate sampleJournal upwardEvents := by
  refine ⟨by decide, by decide, fun e he file hfile => ?_⟩
  simp only [upwardEvents, List.mem_cons, List.not_mem_nil, or_false] at he
  rcases he with rfl | rfl
  · cases hfile
    decide
  · cases hfile
    decide

/-- Notices are seen where a path goes on by `..` from the directory that is made for the journal:
the file is found as soon as there is a notice. -/
theorem not_write_only_upward :
    ¬∀ (w : World) (g : Gate) (path : Path) (es : List Event), w.Calm → w.plan = [] →
      JournalApart w g path es → w.disk.Appendable w.workingDir path →
        ((happenAll (g.onto (.journal path)) es).run w).1.1 =
          ((happenAll (g.onto .keep) es).run w).1.1 := by
  intro h
  have hsame := h sampleWorld sampleGate sampleJournal upwardEvents calm_sampleWorld rfl
    journalApart_upward (by decide)
  have hdiffer : ((happenAll (sampleGate.onto (.journal sampleJournal)) upwardEvents).run
      sampleWorld).1.1 ≠ ((happenAll (sampleGate.onto .keep) upwardEvents).run sampleWorld).1.1 := by
    decide +kernel
  exact hdiffer hsame

end EditGate.Gate
