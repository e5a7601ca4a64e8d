import EditGate.Proofs.Ledger.Repair

/-!
# The only copy of a ledger

A ledger that is not accepted is put aside before it is replaced. If it cannot be moved aside it
stays. If it cannot be copied aside it is written anew all the same: then, and only then, its bytes
are gone (`keeps_copy_iff`). A name that is too long for the copy and not for the draft is enough
(`loses_only_copy`).
-/

namespace EditGate.Ledger

open Run World
open World (Spares Steps)

variable {l : Ledger} {w w' : World} {bytes : ByteArray}

/-- The bytes are read at the path of the ledger or where a load that starts now puts it aside. -/
def KeepsCopy (l : Ledger) (w : World) (bytes : ByteArray) (w' : World) : Prop :=
  w'.Holds l.path bytes ∨ ∃ kind ∈ backupKinds, w'.Holds (l.backupNow w kind) bytes

theorem AsideEnds.keepsCopy {r : Document × Course} (h : AsideEnds l w bytes r w') :
    l.KeepsCopy w bytes w' := by
  cases h with
  | moved _ _ hholds => exact .inr ⟨"corrupt", by decide, hholds⟩
  | stayed _ _ hholds => exact .inl hholds

theorem AsideEnds.ne_anew {r : Document × Course} (h : AsideEnds l w bytes r w')
    (copied : Except Disk.Cause Unit) (written : Except Failure Unit) :
    r.2 ≠ .anew copied written := by
  cases h with
  | moved => exact nofun
  | stayed => exact nofun

/-- A text with sections missing is not empty. -/
theorem toUTF8_ne_empty {text : String} {missing : List String}
    (h : classify text.toList = .error (.incomplete missing)) : text.toUTF8 ≠ .empty := by
  intro hempty
  obtain rfl : text = "" := String.toByteArray_inj.mp hempty
  cases h

/-- What was written is accepted, and the text is not. -/
theorem AnewEnds.not_holds {text : String} {missing : List String} {d : Document}
    {copied : Except Disk.Cause Unit} (h : l.AnewEnds w text copied (d, .ok ()) w')
    (hlacks : classify text.toList = .error (.incomplete missing)) :
    ¬w'.Holds l.path text.toUTF8 := by
  intro hledger
  obtain ⟨hbody, obj, haccepted⟩ := h.written rfl
  have hsame := String.toByteArray_inj.mp (Except.ok.inj (hbody.symm.trans hledger))
  rw [hsame, hlacks] at haccepted
  cases haccepted

/-- A ledger with sections missing is lost if it is written anew without a copy. -/
theorem AnewEnds.keepsCopy_iff {text : String} {missing : List String} {d : Document}
    {copied : Except Disk.Cause Unit} {written : Except Failure Unit}
    (h : l.AnewEnds w text copied (d, written) w')
    (hlacks : classify text.toList = .error (.incomplete missing))
    (hnew : ∀ kind ∈ backupKinds, w.disk.node? (w.placeOf (l.backupNow w kind)) = none) :
    l.KeepsCopy w text.toUTF8 w' ↔ copied = .ok () ∨ ∃ failure, written = .error failure := by
  constructor
  · rintro (hledger | ⟨kind, hkind, hbackup⟩)
    · cases written with
      | error failure => exact .inr ⟨failure, rfl⟩
      | ok u => exact absurd hledger (h.not_holds hlacks)
    · cases copied with
      | ok u => exact .inl rfl
      | error cause =>
        rcases h.uncopied cause rfl kind hkind _ hbackup with hempty | hnode
        · exact absurd hempty (toUTF8_ne_empty hlacks)
        · rw [hnew kind hkind] at hnode
          cases hnode
  · rintro (rfl | ⟨failure, rfl⟩)
    · exact .inr ⟨"incomplete", by decide, h.copy rfl⟩
    · exact .inl (h.unwritten failure rfl)

/-- Whatever the bytes in the ledger are, and whichever steps fail, they are still read at its path
or where they were put aside after it is loaded, except exactly where they could not be copied aside
and the ledger was written anew nevertheless. -/
theorem keeps_copy_iff (hw : w.Steady) (hsink : l.Apart w) (hholds : w.Holds l.path bytes)
    (hnew : ∀ kind ∈ backupKinds, w.disk.node? (w.placeOf (l.backupNow w kind)) = none) :
    l.KeepsCopy w bytes ((l.load).run w).2 ↔
      ∀ cause, l.course w ≠ .anew (.error cause) (.ok ()) := by
  have hload : Ends w l.load fun _ w' =>
      l.KeepsCopy w bytes w' ↔ ∀ cause, l.course w ≠ .anew (.error cause) (.ok ()) := by
    have hcourse : Ends w l.follow fun r _ => r.2 = l.course w := rfl
    refine ends_load_iff.mpr (((ends_follow hw hsink hholds).and hcourse).imp ?_)
    rintro r w' ⟨hends, hr⟩
    rw [← hr]
    cases hends with
    | read _ _ _ _ hholds => exact iff_of_true (.inl hholds) nofun
    | missed _ _ hholds => exact iff_of_true (.inl hholds) nofun
    | aside _ haside => exact iff_of_true haside.keepsCopy fun _ => haside.ne_anew _ _
    | @anew text missing d copied written _ hdecodes hlacks hanew =>
      obtain rfl := Disk.toUTF8_of_fromUTF8? hdecodes
      rw [hanew.keepsCopy_iff hlacks hnew]
      cases copied with
      | ok u => exact iff_of_true (.inl rfl) nofun
      | error cause =>
        cases written with
        | ok u => exact iff_of_false (by simp) fun h => h cause rfl
        | error failure => exact iff_of_true (.inr ⟨failure, rfl⟩) nofun
  exact hload

/-- Neither the copy nor the draft can be written, and the ledger stays. -/
theorem keepsCopy_hindered :
    let l := ledgerNamed ['l']
    let w := { incompleteWorld ['l'] with
      plan := [none, some .isADirectory, none, some .isADirectory] }
    l.KeepsCopy w incompleteText.toUTF8 ((l.load).run w).2 := by
  intro l w
  have hsteady : w.Steady := ⟨Disk.isTree_of_entries (by decide), by decide⟩
  have hsink : l.Apart w := fun _ _ _ hpath => by cases hpath
  have hholds : w.Holds l.path incompleteText.toUTF8 := by decide
  have hcourse : l.course w = .anew (.error .isADirectory) (.error (.io .isADirectory)) := by
    decide +kernel
  refine (keeps_copy_iff hsteady hsink hholds (by decide)).mpr ?_
  rw [hcourse]
  exact nofun

/-! ## Names too long for a copy -/

/-- A name that is too long names nothing in place of the one that a path ends in. -/
theorem not_names_of_long {disk : Disk} {wd : Place} {path : Path} {name : List Char}
    (hslash : '/' ∉ name) (hlong : Disk.nameMax < Text.utf8Length name) :
    ¬disk.Names wd (path.withFileName name) := by
  rintro ⟨dir, last, hfind, hlast⟩
  have hne : ∀ other, Text.utf8Length other ≤ 2 → name ≠ other := by
    rintro other hother rfl
    exact absurd (Nat.lt_of_lt_of_le hlong hother) (by decide)
  have hplace := Disk.lexical_of_find hfind
  rw [Disk.lexical_withFileName (hne _ (by decide)) hslash (hne _ (by decide))
    (hne _ (by decide))] at hplace
  obtain ⟨-, hsame⟩ := List.append_inj' hplace rfl
  rw [← List.singleton_inj.mp hsame, String.toList_ofList] at hlast
  omega

section LongNames

variable (hw : w.Calm) (hquiet : Sink.IsQuiet l.sink)

include hw hquiet in
/-- A copy with a name that is too long is not made. -/
theorem ends_copyAside_long
    (hlong : Disk.nameMax < Text.utf8Length (l.backupName "incomplete" w.now w.nextEvent))
    (text : String) (missing : List String) :
    Ends w (l.copyAside text missing) fun r w' =>
      (∃ cause, r = .error cause) ∧ w'.disk = w.disk ∧ Spares (fun _ => False) w w' := by
  -- a name that is too long names no place, so nothing is ever written under it
  have hnot : ∀ {w' : World} {bytes : ByteArray}, ¬w'.Holds (l.backupNow w "incomplete") bytes :=
    fun h => not_names_of_long (slash_notMem_backupName l (by decide) _ _) hlong (holds_iff.mp h).1
  have hevent := (ends_newEvent_steps hw.steady fun _ => False)
  have hbackup : Ends w (l.backupPath "incomplete") fun r w' =>
      r = l.backupNow w "incomplete" ∧ Steps (fun _ => False) w w' ∧ w'.disk = w.disk :=
    ⟨rfl, hevent⟩
  refine hbackup.bind ?_
  rintro _ w₁ ⟨rfl, h₁, hdisk₁⟩
  have hw₁ := h₁.steady hw.steady
  refine ((ends_writeText_steps (S := fun _ => False) hw₁ nofun text).and
    (ends_writeText_failed hw₁ text)).bind ?_
  rintro copied w₂ ⟨⟨h₂, hcopy⟩, hfailed⟩
  cases copied with
  | ok u => exact absurd (hcopy rfl) hnot
  | error cause =>
    have hdisk₂ := ((hfailed cause rfl).resolve_right hnot).trans hdisk₁
    have hw₂ := h₂.steady hw₁
    have hall := ends_recordAll_keeps hw₂ l.sink
    refine ((hall _).and (ends_recordAll_quiet hquiet _)).bind fun _ w₃ ⟨h₃, hdisk₃⟩ => ?_
    have hone := ends_record_keeps (h₃.steady hw₂) l.sink
    refine ((hone _).and (ends_record_quiet hquiet _)).bind fun _ w₄ ⟨h₄, hdisk₄⟩ => ?_
    refine ends_pure.mpr ⟨⟨cause, rfl⟩, hdisk₄.trans (hdisk₃.trans hdisk₂), ?_⟩
    exact (h₁.toSpares.trans h₂.toSpares).trans (h₃.trans h₄)

include hquiet in
theorem ends_fromObject_quiet (hw : w.Steady) (obj : Keyed Json) :
    Ends w (l.fromObject obj) fun _ w' => w'.disk = w.disk :=
  (ends_freshSections_steps hw fun _ => False).bind fun _ _ ⟨_, hdisk, _⟩ =>
    (ends_recordAll_quiet hquiet _).bind fun _ _ hdisk' => hdisk'.trans hdisk

include hw hquiet in
/-- Where there is room the ledger is written anew, and no other file is new. -/
theorem ends_writeAnew_ok (hroom : l.HasRoom w) {text : String}
    (hsound : ∀ d, l.Repaired (objectOf text.toList) d → d.Sound) :
    Ends w (l.writeAnew text) fun r w' => r.2 = .ok () ∧ ∀ p content,
      w'.disk.node? p = some (.file content) →
        p = l.place w ∨ w.disk.node? p = some (.file content) := by
  have hspares := ends_fromObject_spares (l := l) (S := fun _ => False) hw.steady nofun
  refine ((hspares _).and (ends_fromObject_quiet hquiet hw.steady _)).bind ?_
  rintro d w₁ ⟨⟨hdocument, h₁⟩, hdisk₁⟩
  have hw₁ := h₁.calm hw
  have hok := ends_save_ok hw₁ (hsound d hdocument) rfl (hroom.same hdisk₁ h₁.workingDir)
  have hsave : Ends w₁ (l.save d).run fun r w' => _ := hok.and (ends_save_text hw₁ d)
  refine hsave.bind ?_
  rintro _ w₂ ⟨⟨rfl, hsame⟩, hsaved⟩
  refine ⟨rfl, fun p content hfile => ?_⟩
  by_cases hledger : p = l.place w
  · exact .inl hledger
  · -- the draft is gone once the document is saved
    have hdraft : p ≠ w₁.placeOf l.draftPath := by
      rintro rfl
      exact nomatch (hsaved rfl).noDraft.symm.trans hfile
    have hledger₁ : p ≠ l.place w₁ := by
      rwa [place, h₁.placeOf]
    rw [← hdisk₁, ← hsame p hdraft hledger₁]
    exact .inr hfile

variable {text : String} {missing : List String} (hroom : l.HasRoom w)
  (hlacks : classify text.toList = .error (.incomplete missing)) (hnumbers : l.NumbersReadBack w)
  (hlong : Disk.nameMax < Text.utf8Length (l.backupName "incomplete" w.now w.nextEvent))

include hw hquiet hroom hlacks hnumbers hlong in
/-- A ledger that lacks a section, with a name that leaves room for its draft and not for a backup,
is written anew without a copy. -/
theorem ends_follow_long (htext : l.text? w = .ok text) :
    Ends w l.follow fun r w' => (∃ cause, r.2 = .anew (.error cause) (.ok ())) ∧
      ∀ p content, w'.disk.node? p = some (.file content) →
        p = l.place w ∨ w.disk.node? p = some (.file content) := by
  refine (ends_readText_unhindered hw.unhindered l.path).bind ?_
  rintro _ _ ⟨rfl, rfl⟩
  rw [show w.disk.readText w.workingDir l.path = .ok text from htext]
  simp only [hlacks]
  have hw₁ : World.Calm { w with plan := w.plan.drop 1 } :=
    ⟨hw.tree, hw.home, fun o ho => hw.unplanned o (List.mem_of_mem_drop ho)⟩
  refine (ends_copyAside_long hw₁ hquiet hlong text missing).bind ?_
  rintro _ w₂ ⟨⟨cause, rfl⟩, hdisk₂, h₂⟩
  have hsound : ∀ d, l.Repaired (objectOf text.toList) d → d.Sound := fun d hd =>
    hd.sound fun v => hnumbers text v htext
  refine (ends_writeAnew_ok (h₂.calm hw₁) hquiet (hroom.same hdisk₂ h₂.workingDir) hsound).bind ?_
  rintro ⟨d, _⟩ w₃ ⟨rfl, hfiles⟩
  have hplace : l.place w₂ = l.place w := h₂.placeOf l.path
  rw [hplace, hdisk₂] at hfiles
  exact ⟨⟨cause, rfl⟩, hfiles⟩

include hw hquiet hroom hlacks hnumbers hlong in
/-- No file holds the text of such a ledger after it is loaded, but others that held it before. -/
theorem ends_load_long (hholds : w.Holds l.path text.toUTF8) :
    Ends w l.load fun _ w' => ∀ p, w'.disk.node? p = some (.file text.toUTF8) →
      p ≠ l.place w ∧ w.disk.node? p = some (.file text.toUTF8) := by
  have htext : l.text? w = .ok text := by
    rw [text?_of_holds hholds, Disk.fromUTF8?_toUTF8]
  have hsink : l.Apart w := fun _ _ path hpath => absurd hpath (hquiet path)
  refine ends_load_iff.mpr (((ends_follow hw.steady hsink hholds).and
    (ends_follow_long hw hquiet hroom hlacks hnumbers hlong htext)).imp ?_)
  rintro r w' ⟨hends, ⟨cause, hcourse⟩, hfiles⟩ p hp
  have hledger : p ≠ l.place w := by
    rintro rfl
    cases hends with
    | read => cases hcourse
    | missed => cases hcourse
    | aside _ haside => exact haside.ne_anew _ _ hcourse
    | @anew text' missing' d copied written _ hdecodes _ hanew =>
      obtain rfl : text = text' :=
        Option.some.inj ((Disk.fromUTF8?_toUTF8 text).symm.trans hdecodes)
      obtain ⟨rfl, rfl⟩ := Course.anew.inj hcourse
      refine hanew.not_holds hlacks (holds_iff.mpr ⟨(holds_iff.mp (hanew.written rfl).1).1, ?_⟩)
      rw [hanew.spares.placeOf]
      exact hp
  exact ⟨hledger, (hfiles p _ hp).resolve_left hledger⟩

end LongNames

/-- A name with room for the draft beside it, and none for a backup. -/
def longName : List Char := List.replicate 240 'a'

def longLedger : Ledger := ledgerNamed longName

def longWorld : World := incompleteWorld longName

theorem node?_longWorld :
    longWorld.disk.node? (longLedger.place longWorld) = some (.file incompleteText.toUTF8) := by
  decide +kernel

theorem hasRoom_longLedger : longLedger.HasRoom longWorld where
  parent := by
    intro parent hparent
    have hroot : longLedger.path.parent? = some "/p".toList := by decide +kernel
    obtain rfl := Option.some.inj (hroot.symm.trans hparent)
    decide
  names := by
    refine ⟨["p"], String.ofList longName, by decide +kernel, ?_⟩
    rw [String.toList_ofList]
    decide +kernel
  free := by
    rw [node?_longWorld]
    exact nofun
  draftNames := by
    refine ⟨["p"], String.ofList longLedger.draftName, by decide +kernel, ?_⟩
    rw [String.toList_ofList]
    decide +kernel
  draftFree := by decide +kernel

theorem only_file_longWorld {p : Place} {content : ByteArray}
    (h : longWorld.disk.node? p = some (.file content)) : p = longLedger.place longWorld := by
  have hentries : ∀ e ∈ longWorld.disk.entries,
      e.2 ≠ .directory → e.1 = longLedger.place longWorld := by decide +kernel
  by_cases hroot : p = []
  · rw [hroot, Disk.node?_nil] at h
    cases h
  · refine hentries _ (Disk.mem_entries_of_node? hroot h) fun hfile => ?_
    cases hfile

/-- The ledger is the only file and is not accepted. After it is loaded no file holds its bytes. -/
theorem loses_only_copy :
    longWorld.Holds longLedger.path incompleteText.toUTF8 ∧
      (∀ obj, classify incompleteText.toList ≠ .ok obj) ∧
      ∀ p, ((longLedger.load).run longWorld).2.disk.node? p ≠
        some (.file incompleteText.toUTF8) := by
  have hcalm : longWorld.Calm :=
    ⟨Disk.isTree_of_entries (by decide), by decide, fun _ ho => absurd ho List.not_mem_nil⟩
  have hquiet : Sink.IsQuiet longLedger.sink := fun path hpath => by cases hpath
  have hholds : longWorld.Holds longLedger.path incompleteText.toUTF8 :=
    holds_iff.mpr ⟨hasRoom_longLedger.names, node?_longWorld⟩
  have hlacks : classify incompleteText.toList = .error (.incomplete [sessionSection]) := by
    decide +kernel
  have hlong : Disk.nameMax <
      Text.utf8Length (longLedger.backupName "incomplete" longWorld.now longWorld.nextEvent) := by
    decide +kernel
  have hload := ends_load_long hcalm hquiet hasRoom_longLedger hlacks
    (numbersReadBack_incomplete hholds) hlong hholds
  refine ⟨hholds, fun obj hobj => ?_, fun p hp => ?_⟩
  · rw [hlacks] at hobj
    cases hobj
  · obtain ⟨hledger, hbefore⟩ := hload p hp
    exact hledger (only_file_longWorld hbefore)

end EditGate.Ledger
