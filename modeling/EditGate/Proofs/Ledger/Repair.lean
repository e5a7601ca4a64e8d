import EditGate.Proofs.Ledger.Reading
import EditGate.Proofs.Ledger.Recovery
import EditGate.Proofs.Ledger.Verified

/-!
# A ledger is recovered once

What a load leaves depends on the bytes that it finds: those of an accepted text stay, those that
hold no object are moved aside, and an object with sections missing is copied aside and replaced by
a document with everything in it that could be kept (`Recovered`, `Repairs`). If the steps of this
succeed, the next load finds nothing to recover. It gives the same document and only reports, once
more, the entries that cannot be read (`LoadsAgain`, `recovers_once`).

A journal is on the disk as well: what is reported changes it, and it must not be in the way of the
ledger (`journal_unsettles`).
-/

namespace EditGate.Ledger

open Run World
open World (Spares Steps)

variable {l : Ledger} {d : Document} {w w' : World} {bytes : ByteArray}

/-! ## What is kept -/

/-- What becomes of a stored entry: one that can be read is stored as its status, another as it
stands. -/
def kept (v : Json) : Json :=
  match readable? v with
  | some s => s.toJson.canonical
  | none => v

/-- The second object has all that is worth keeping of the first. -/
structure Repairs (obj obj' : Keyed Json) : Prop where
  foreign : ∀ name, ¬IsOwnSection name → Keyed.get? name obj' = Keyed.get? name obj
  mandatory : ∀ name ∈ [contextSection, sessionSection], ∀ v, Keyed.get? name obj = some v →
    v.isObject = true → Keyed.get? name obj' = some v
  /-- Each entry is kept once. -/
  entries : entriesOf obj' = Keyed.mapValues kept (entriesOf obj)

theorem entriesOf_stored (d : Document) : entriesOf d.stored = d.storedStates := by
  rw [entriesOf, get?_stored_states]

/-- The entries of an object are those of its document, each as it is kept. -/
theorem storedStates_ofObject {obj : Keyed Json} (h : Keyed.Sorted (entriesOf obj)) (f : Fresh) :
    (Document.ofObject obj f).1.storedStates = Keyed.mapValues kept (entriesOf obj) := by
  have husable : (Document.ofObject obj f).1.approvalStates =
      (salvageEntries (entriesOf obj)).usable := by
    simp only [Document.ofObject, salvage_eq]
  have hunreadable : (Document.ofObject obj f).1.unreadableStates =
      (salvageEntries (entriesOf obj)).unreadable := by
    simp only [Document.ofObject, salvage_eq]
  have hsorted : Keyed.Sorted (Document.ofObject obj f).1.approvalStates :=
    husable ▸ sorted_usable h
  refine Keyed.ext (sorted_storedStates (hunreadable ▸ sorted_unreadable h))
    (Keyed.sorted_mapValues kept h) fun key => ?_
  rw [get?_storedStates hsorted, husable, hunreadable, get?_usable key h, get?_unreadable key h,
    Keyed.get?_mapValues]
  cases Keyed.get? key (entriesOf obj) with
  | none => rfl
  | some v =>
    simp only [Option.bind_some, Option.map_some, kept, unreadable?]
    cases readable? v <;> rfl

theorem repairs_ofObject {obj : Keyed Json} (h : Keyed.Sorted (entriesOf obj)) (f : Fresh) :
    Repairs obj (Document.ofObject obj f).1.stored where
  foreign name hname := by rw [get?_stored_foreign _ hname, get?_extra_ofObject obj f hname]
  mandatory name hname v hv hobject := by
    rcases List.mem_pair.mp hname with rfl | rfl
    · rw [get?_stored_context]
      exact congrArg some (sectionOr_eq hv hobject _)
    · rw [get?_stored_session]
      exact congrArg some (sectionOr_eq hv hobject _)
  entries := by rw [entriesOf_stored, storedStates_ofObject h f]

/-- What is repaired is sound where the numbers of the stored text read back. -/
theorem Repaired.sound {text : List Char} (h : l.Repaired (objectOf text) d)
    (hnumbers : ∀ v, Json.read? text = some v → ∀ x ∈ v.doubles, Json.DoubleReadsBack x) :
    d.Sound := by
  obtain ⟨f, hfresh, rfl⟩ := h
  exact sound_ofObject_of_readsBack (readsBack_objectOf hnumbers) hfresh.sound

theorem Repaired.repairs {text : List Char} (h : l.Repaired (objectOf text) d) :
    Repairs (objectOf text) d.stored := by
  obtain ⟨f, -, rfl⟩ := h
  exact repairs_ofObject (sorted_objectOf text).2 f

/-! ## The first load -/

/-- The steps of the course succeeded. -/
inductive Course.Succeeded : Course → Prop
  | plain : Succeeded .plain
  | aside : Succeeded (.aside (.ok ()))
  | anew : Succeeded (.anew (.ok ()) (.ok ()))

instance : DecidablePred Course.Succeeded
  | .plain => .isTrue .plain
  | .aside (.ok ()) => .isTrue .aside
  | .aside (.error _) => .isFalse nofun
  | .anew (.ok ()) (.ok ()) => .isTrue .anew
  | .anew (.ok ()) (.error _) => .isFalse nofun
  | .anew (.error _) _ => .isFalse nofun

/-- What a load leaves, by what the bytes at the path of the ledger hold. -/
structure Recovered (l : Ledger) (w : World) (bytes : ByteArray) (w' : World) : Prop where
  accepted : ∀ text obj, String.fromUTF8? bytes = some text → classify text.toList = .ok obj →
    w'.Holds l.path bytes
  corrupt : (∀ text obj, String.fromUTF8? bytes = some text →
      Json.read? text.toList ≠ some (.obj obj)) →
    w'.Holds (l.backupNow w "corrupt") bytes ∧ l.Absent w'
  incomplete : ∀ text obj missing, String.fromUTF8? bytes = some text →
    Json.read? text.toList = some (.obj obj) → classify text.toList = .error (.incomplete missing) →
    w'.Holds (l.backupNow w "incomplete") bytes ∧ ∃ (text' : String) (obj' : Keyed Json),
      w'.Holds l.path text'.toUTF8 ∧ classify text'.toList = .ok obj' ∧ Repairs obj obj'

/-! ## The second load -/

/-- Loading gives what the document holds, and all that it does besides is to report, once each, the
entries that cannot be read. -/
structure LoadsAgain (l : Ledger) (d : Document) (w : World) : Prop where
  reports : ∃ ns, List.Forall₂ Reports d.unreadableStates ns ∧
    (∀ n ∈ ns, n.code = unreadableCode) ∧
    ((l.load).run w).2 = ((l.sink.recordAll ns).run
      { w with plan := w.plan.drop 1, nextEvent := w.nextEvent + 1 }).2
  disk : Sink.IsQuiet l.sink ∨ d.unreadableStates = [] → ((l.load).run w).2.disk = w.disk
  /-- No file changes but a journal. -/
  spares : Spares (fun P => l.sink.Avoids w P) w ((l.load).run w).2
  approvals : ((l.load).run w).1.approvalStates = d.approvalStates
  unreadable : ((l.load).run w).1.unreadableStates = d.unreadableStates
  extra : ((l.load).run w).1.extra = d.extra
  sections : ∀ bytes, w.Holds l.path bytes → ((l.load).run w).1 = d

section Again

variable {d' : Document} {ns : List Notice}

/-- A load that names an event and then only reports. -/
theorem loadsAgain_of_run (hw : w.Steady) (hreports : List.Forall₂ Reports d.unreadableStates ns)
    (hcodes : ∀ n ∈ ns, n.code = unreadableCode)
    (hrun : (l.load).run w = (d', ((l.sink.recordAll ns).run
      { w with plan := w.plan.drop 1, nextEvent := w.nextEvent + 1 }).2))
    (happrovals : d'.approvalStates = d.approvalStates)
    (hunreadable : d'.unreadableStates = d.unreadableStates) (hextra : d'.extra = d.extra)
    (hsections : ∀ bytes, w.Holds l.path bytes → d' = d) : l.LoadsAgain d w := by
  let w₁ : World := { w with plan := w.plan.drop 1, nextEvent := w.nextEvent + 1 }
  have h₁ : Steps (fun P => l.sink.Avoids w P) w w₁ :=
    ⟨⟨hw.tree, fun _ h => h, fun _ _ _ => Iff.rfl, rfl, rfl, List.drop_suffix 1 w.plan⟩, rfl⟩
  have hspares : Ends w₁ (l.sink.recordAll ns) fun _ w' =>
      Spares (fun P => l.sink.Avoids w P) w₁ w' :=
    ends_recordAll_spares (h₁.steady hw) (fun _ hP => hP) ns
  -- a quiet sink changes nothing, and without unreadable entries there is nothing to record
  have hdisk : Sink.IsQuiet l.sink ∨ d.unreadableStates = [] →
      Ends w₁ (l.sink.recordAll ns) fun _ w' => w'.disk = w.disk := by
    rintro (hquiet | hnone)
    · exact ends_recordAll_quiet hquiet ns
    · rw [hnone] at hreports
      cases hreports
      exact rfl
  exact {
    reports := ⟨ns, hreports, hcodes, congrArg Prod.snd hrun⟩
    disk := fun h => by
      rw [hrun]
      exact hdisk h
    spares := by
      rw [hrun]
      exact h₁.toSpares.trans hspares
    approvals := by rw [hrun, happrovals]
    unreadable := by rw [hrun, hunreadable]
    extra := by rw [hrun, hextra]
    sections := fun bytes hbytes => by rw [hrun, hsections bytes hbytes] }

/-- What is shown is a matter of the disk. -/
theorem Shows.same (h : l.Shows w d) (hdisk : w'.disk = w.disk)
    (hdir : w'.workingDir = w.workingDir) : l.Shows w' d := by
  obtain ⟨text, obj, htext, hobj⟩ := h
  refine ⟨text, obj, ?_, hobj⟩
  rw [Ledger.text?, hdisk, hdir]
  exact htext

theorem Absent.same (h : l.Absent w) (hdisk : w'.disk = w.disk)
    (hdir : w'.workingDir = w.workingDir) : l.Absent w' := by
  refine ⟨?_, ?_⟩
  · rw [hdisk, hdir]
    exact h.names
  · rw [place, placeOf, hdisk, hdir]
    exact h.node

/-- A ledger that shows a document gives it again. -/
theorem Shows.loadsAgain (h : l.Shows w d) (hw : w.Steady) (hnext : w.Unhindered) :
    l.LoadsAgain d w := by
  obtain ⟨text, obj, htext, hobj, hd⟩ := h
  obtain ⟨f, hrun⟩ := run_load hnext htext hobj
  have hreports := ofObject_notices obj f
  rw [hd f] at hreports hrun
  exact loadsAgain_of_run hw hreports (fun _ hn => code_of_mem_ofObject hn) hrun rfl rfl rfl
    fun _ _ => rfl

theorem Absent.text? (h : l.Absent w) : l.text? w = .error .notFound := by
  have hnode : w.disk.node? (Disk.lexical w.workingDir l.path) = none := h.node
  rw [Ledger.text?, Disk.readText, h.names.read_eq, hnode]
  rfl

/-- A load that finds no ledger names an event and gives a fresh document. -/
theorem run_load_absent (hnext : w.Unhindered) (h : l.text? w = .error .notFound) :
    ∃ d, l.IsFresh d ∧
      (l.load).run w = (d, { w with plan := w.plan.drop 1, nextEvent := w.nextEvent + 1 }) := by
  have hafter : Ends w l.load fun d w' => ∃ d', l.IsFresh d' ∧
      (d, w') = (d', { w with plan := w.plan.drop 1, nextEvent := w.nextEvent + 1 }) := by
    refine (ends_readText_unhindered hnext l.path).bind ?_
    rintro _ _ ⟨rfl, rfl⟩
    rw [show w.disk.readText w.workingDir l.path = .error .notFound from h]
    exact ⟨_, ⟨_, _, rfl⟩, rfl⟩
  exact hafter

/-- Without a ledger there is a fresh document each time. -/
theorem Absent.loadsAgain (h : l.Absent w) (hfresh : l.IsFresh d) (hw : w.Steady)
    (hnext : w.Unhindered) : l.LoadsAgain d w := by
  obtain ⟨d', hfresh', hrun⟩ := run_load_absent hnext h.text?
  obtain ⟨time, event, rfl⟩ := hfresh
  obtain ⟨time', event', rfl⟩ := hfresh'
  refine loadsAgain_of_run hw .nil nofun hrun rfl rfl rfl fun bytes hbytes => ?_
  exact nomatch (World.holds_iff.mp hbytes).2.symm.trans h.node

end Again

/-! ## The main result -/

theorem recovered_of_accepted {text : String} {obj : Keyed Json}
    (hdecodes : String.fromUTF8? bytes = some text) (hobj : classify text.toList = .ok obj)
    (hholds : w'.Holds l.path bytes) : l.Recovered w bytes w' where
  accepted _ _ _ _ := hholds
  corrupt hnone := absurd (classify_eq_ok_iff.mp hobj).1 (hnone text obj hdecodes)
  incomplete text' obj' missing hdecodes' _ hlacks := by
    obtain rfl := Option.some.inj (hdecodes.symm.trans hdecodes')
    rw [hobj] at hlacks
    cases hlacks

theorem recovered_of_corrupt (hnone : ∀ text, String.fromUTF8? bytes = some text →
      ∃ reason, classify text.toList = .error (.corrupt reason))
    (hbackup : w'.Holds (l.backupNow w "corrupt") bytes) (habsent : l.Absent w') :
    l.Recovered w bytes w' where
  accepted text obj hdecodes hobj := by
    obtain ⟨reason, hreason⟩ := hnone text hdecodes
    rw [hobj] at hreason
    cases hreason
  corrupt _ := ⟨hbackup, habsent⟩
  incomplete text obj missing hdecodes hread _ := by
    obtain ⟨reason, hreason⟩ := hnone text hdecodes
    exact absurd hread (read?_ne_of_corrupt hreason obj)

theorem recovered_of_incomplete {text : String} {missing : List String}
    (hdecodes : String.fromUTF8? bytes = some text)
    (hlacks : classify text.toList = .error (.incomplete missing))
    (hbackup : w'.Holds (l.backupNow w "incomplete") bytes)
    (hanew : ∃ (text' : String) (obj' : Keyed Json), w'.Holds l.path text'.toUTF8 ∧
      classify text'.toList = .ok obj' ∧ Repairs (objectOf text.toList) obj') :
    l.Recovered w bytes w' where
  accepted text' obj hdecodes' hobj := by
    obtain rfl := Option.some.inj (hdecodes.symm.trans hdecodes')
    rw [hlacks] at hobj
    cases hobj
  corrupt hnone := absurd (read?_of_incomplete hlacks) (hnone text _ hdecodes)
  incomplete text' obj _ hdecodes' hread _ := by
    obtain rfl := Option.some.inj (hdecodes.symm.trans hdecodes')
    obtain rfl := Json.obj.inj (Option.some.inj ((read?_of_incomplete hlacks).symm.trans hread))
    exact ⟨hbackup, hanew⟩

/-- What is left is recovered, and the next load finds nothing to recover. -/
structure Restored (l : Ledger) (w : World) (bytes : ByteArray) (d : Document) (w' : World) :
    Prop where
  recovered : l.Recovered w bytes w'
  shown : l.Shows w' d ∨ l.Absent w' ∧ l.IsFresh d

theorem LoadEnds.restored {r : Document × Course} (h : LoadEnds l w bytes r w')
    (hnext : w.Unhindered) (hholds : w.Holds l.path bytes)
    (hway : l.sink.PassesBy w (l.place w)) (hnumbers : l.NumbersReadBack w)
    (hsteps : r.2.Succeeded) : l.Restored w bytes r.1 w' := by
  cases h with
  | @read text obj d w' hdecodes hobj _ hdocument hholds' =>
    refine ⟨recovered_of_accepted hdecodes hobj hholds', .inl ⟨text, obj, ?_, hobj, ?_⟩⟩
    · rw [text?_of_holds hholds', hdecodes]
    · obtain ⟨f, -, rfl⟩ := hdocument
      exact fun g => ofObject_eq hobj g f
  | missed hhindered => exact absurd hnext hhindered
  | aside hunread hends =>
    have hnone := hunread.resolve_left (not_not_intro hnext)
    cases hends with
    | moved _ hfresh hbackup habsent =>
      exact ⟨recovered_of_corrupt hnone hbackup (habsent hway), .inr ⟨habsent hway, hfresh⟩⟩
    | stayed => cases hsteps
  | @anew text missing d copied written w' hdecodes hlacks hends =>
    cases hsteps
    obtain ⟨hledger, -⟩ := hends.written rfl
    have hsound : d.Sound := hends.document.sound fun v =>
      hnumbers text v (by rw [text?_of_holds hholds, hdecodes])
    have hbody := classify_body hsound
    have hbackup : w'.Holds (l.backupNow w "incomplete") bytes :=
      Disk.toUTF8_of_fromUTF8? hdecodes ▸ hends.copy rfl
    refine ⟨recovered_of_incomplete hdecodes hlacks hbackup
      ⟨d.body, d.stored, hledger, hbody, hends.document.repairs⟩, .inl ?_⟩
    obtain ⟨hnames, hfile⟩ := World.holds_iff.mp hledger
    exact shows_of_file hsound hnames hfile

/-- A load recovers the ledger, whatever bytes are in it, if the steps that this takes succeed. The
next load, at any time, finds nothing to recover and gives the same document. -/
theorem recovers_once (hw : w.Steady) (hnext : w.Unhindered) (hholds : w.Holds l.path bytes)
    (hsink : l.Apart w) (hway : l.sink.PassesBy w (l.place w)) (hnumbers : l.NumbersReadBack w)
    (hsteps : (l.course w).Succeeded) :
    l.Recovered w bytes ((l.load).run w).2 ∧
      ∀ w₂ : World, w₂.disk = ((l.load).run w).2.disk → w₂.workingDir = w.workingDir →
        w₂.Unhindered → l.LoadsAgain ((l.load).run w).1 w₂ := by
  have hcourse : Ends w l.follow fun r _ => r.2 = l.course w := rfl
  have hrestored : Ends w l.load fun d w' => l.Restored w bytes d w' := by
    refine ends_load_iff.mpr (((ends_follow hw hsink hholds).and hcourse).imp ?_)
    rintro r w' ⟨hends, hr⟩
    exact hends.restored hnext hholds hway hnumbers (hr ▸ hsteps)
  have hspares : Spares (fun _ => False) w ((l.load).run w).2 := ends_load_spares hw hsink hholds
  obtain ⟨hrecovered, hshown⟩ : l.Restored w bytes ((l.load).run w).1 ((l.load).run w).2 :=
    hrestored
  refine ⟨hrecovered, fun w₂ hdisk hdir hnext₂ => ?_⟩
  have hdir₂ := hdir.trans hspares.workingDir.symm
  have hw₂ := (hspares.steady hw).same hdisk hdir₂
  rcases hshown with hshows | ⟨habsent, hfresh⟩
  · exact (hshows.same hdisk hdir₂).loadsAgain hw₂ hnext₂
  · exact (habsent.same hdisk hdir₂).loadsAgain hfresh hw₂ hnext₂

/-- An object with one of the mandatory sections. -/
def incompleteText : String := "\x7b\"projectContext\":\x7b\x7d\x7d"

def ledgerNamed (name : List Char) : Ledger := { quietLedger with path := "/p/".toList ++ name }

/-- A ledger of that name that lacks a section. -/
def incompleteWorld (name : List Char) : World where
  disk := ⟨[(["p"], .directory), (["p", String.ofList name], .file incompleteText.toUTF8)]⟩
  workingDir := ["p"]

theorem numbersReadBack_incomplete (hholds : w.Holds l.path incompleteText.toUTF8) :
    l.NumbersReadBack w := by
  intro text v htext hread
  rw [text?_of_holds hholds, Disk.fromUTF8?_toUTF8] at htext
  obtain rfl := Except.ok.inj htext
  have hvalue : Json.read? incompleteText.toList = some (.obj [("projectContext", .obj [])]) := by
    decide +kernel
  obtain rfl := Option.some.inj (hread.symm.trans hvalue)
  exact fun x hx => absurd hx List.not_mem_nil

/-- A ledger that lacks a section is repaired, and the next load finds it so. -/
theorem recovered_incomplete :
    let l := ledgerNamed ['l']
    let w := incompleteWorld ['l']
    l.Recovered w incompleteText.toUTF8 ((l.load).run w).2 ∧
      l.LoadsAgain ((l.load).run w).1 ((l.load).run w).2 := by
  intro l w
  have hsteady : w.Steady := ⟨Disk.isTree_of_entries (by decide +kernel), by decide⟩
  have hnext : w.Unhindered := fun _ _ hplan => by cases hplan
  have hholds : w.Holds l.path incompleteText.toUTF8 := by decide +kernel
  have hsink : l.Apart w := fun _ _ _ hpath => by cases hpath
  have hway : l.sink.PassesBy w (l.place w) := fun _ hpath => by cases hpath
  have hsteps : (l.course w).Succeeded := by decide +kernel
  have hspares : Spares (fun _ => False) w ((l.load).run w).2 :=
    ends_load_spares hsteady hsink hholds
  have hplan : ((l.load).run w).2.plan = [] := List.suffix_nil.mp hspares.plan
  have hnext₂ : ((l.load).run w).2.Unhindered := by
    intro cause plan hcause
    rw [hplan] at hcause
    cases hcause
  obtain ⟨hrecovered, hagain⟩ := recovers_once hsteady hnext hholds hsink hway
    (numbersReadBack_incomplete hholds) hsteps
  exact ⟨hrecovered, hagain _ rfl hspares.workingDir hnext₂⟩

/-! ## Journals in the way -/

/-- The ledger with its notices in a journal at that path. -/
def journaledAt (path : String) : Ledger := { sampleLedger with sink := .journal path.toList }

/-- A ledger that holds no object. -/
def corruptWorld : World where
  disk := ⟨[(["p"], .directory), (["p", "l"], .file "x".toUTF8)]⟩
  workingDir := ["p"]

/-- Although all steps succeed, a second load adds to a journal; an accepted text does not stay
where the journal is the ledger; and the ledger, once moved aside, is not absent where the journal
is below it. -/
theorem journal_unsettles :
    (let l := journaledAt "/p/j"
     sampleWorld.Holds l.path sampleText.toUTF8 ∧ (l.course sampleWorld).Succeeded ∧
       ((l.load).run ((l.load).run sampleWorld).2).2.disk ≠ ((l.load).run sampleWorld).2.disk) ∧
    (let l := journaledAt "/p/l"
     sampleWorld.Holds l.path sampleText.toUTF8 ∧ (l.course sampleWorld).Succeeded ∧
       ¬((l.load).run sampleWorld).2.Holds l.path sampleText.toUTF8) ∧
    (let l := journaledAt "/p/l/j"
     corruptWorld.Holds l.path "x".toUTF8 ∧ (l.course corruptWorld).Succeeded ∧
       ¬l.Absent ((l.load).run corruptWorld).2) := by
  refine ⟨by decide +kernel, by decide +kernel, by decide +kernel, by decide +kernel, ?_⟩
  intro habsent
  have hnode : (((journaledAt "/p/l/j").load).run corruptWorld).2.disk.node?
      ((journaledAt "/p/l/j").place (((journaledAt "/p/l/j").load).run corruptWorld).2) =
        some .directory := by decide +kernel
  have hgone := habsent.node
  rw [hnode] at hgone
  cases hgone

end EditGate.Ledger
