import EditGate.Proofs.Ledger.Refines
import EditGate.Proofs.Ledger.Room

/-!
# What becomes of an entry that cannot be read

An entry that cannot be read is carried along by every rewrite of the ledger, whatever is asked of
other files, and no loading, listing or taking back of approvals changes it. It is lost in one way
only: an approval is granted for its own file (`survives_iff`). The new entry then takes its place,
and nothing keeps the old one (`lost_when_granted`).

The readable entries are a map along a run (`ServesAll.onMap`), and in that map a key has a status
exactly if it had one before or an approval of it was granted (`isSome_onMapAll_iff`). The key of an
entry that cannot be read had none.
-/

namespace EditGate.Ledger

open Approval (Slot Status)
open Run World

/-! ## Keys of the map -/

variable {key : String → String} {k : String}

/-- The request grants an approval of the file of that key. -/
def Request.Grants (key : String → String) (k : String) : Request → Prop
  | set path _ approver => key path = k ∧ (Text.trimString approver).isEmpty = false
  | _ => False

instance (key : String → String) (k : String) : (r : Request) → Decidable (r.Grants key k)
  | .set path _ approver =>
    inferInstanceAs (Decidable (key path = k ∧ (Text.trimString approver).isEmpty = false))
  | .get _ => isFalse id
  | .list => isFalse id
  | .invalidate _ _ => isFalse id

/-- Where there is no status, only granting an approval makes one. -/
theorem Request.touches_none_iff {r : Request} : r.Touches key k none ↔ r.Grants key k := by
  cases r with
  | get path => exact Iff.rfl
  | list => exact Iff.rfl
  | set path slot approver => exact Iff.rfl
  | invalidate path reason => simp [Touches, Grants]

theorem isSome_get?_put (k' : String) (s : Status) (m : Keyed Status) :
    (Keyed.get? k (Keyed.put k' s m)).isSome ↔ k' = k ∨ (Keyed.get? k m).isSome := by
  rw [Keyed.get?_put]
  split
  · rename_i h
    simp [h]
  · rename_i h
    simp [h]

/-- A key has a status after a request if it had one or is granted one. -/
theorem isSome_onMap_iff (r : Request) (now : Int) (m : Keyed Status) :
    (Keyed.get? k (r.onMap key now m).2).isSome ↔
      (Keyed.get? k m).isSome ∨ r.Grants key k := by
  cases r with
  | get path => simp [Request.onMap, Request.Grants]
  | list => simp [Request.onMap, Request.Grants]
  | set path slot approver =>
    rw [Request.onMap, Request.Grants]
    cases hname : (Text.trimString approver).isEmpty with
    | true => simp
    | false => simp [isSome_get?_put, or_comm]
  | invalidate path reason =>
    rw [Request.onMap]
    cases hold : Keyed.get? (key path) m with
    | none => simp [Request.Grants]
    | some s =>
      -- the entry that is emptied was there
      have hthere : key path = k → (Keyed.get? k m).isSome := by
        rintro rfl
        rw [hold]
        rfl
      simpa [isSome_get?_put, Request.Grants] using hthere

theorem isSome_onMapAll_iff (ts : List Timed) (m : Keyed Status) :
    (Keyed.get? k (onMapAll key ts m).2).isSome ↔
      (Keyed.get? k m).isSome ∨ ∃ t ∈ ts, t.request.Grants key k := by
  induction ts generalizing m with
  | nil => simp [onMapAll]
  | cons t ts ih =>
    have hcons : (onMapAll key (t :: ts) m).2 =
        (onMapAll key ts (t.request.onMap key t.now m).2).2 := rfl
    rw [hcons, ih, isSome_onMap_iff, or_assoc]
    simp

/-! ## Entries of a ledger -/

variable {l : Ledger} {w : World} {d : Document} {obj : Keyed Json} {v : Json}

theorem exists_text_of_stored (h : l.stored? w = some obj) :
    ∃ text, l.text? w = .ok text ∧ classify text.toList = .ok obj := by
  rw [stored?] at h
  cases htext : l.text? w with
  | error cause =>
    rw [htext] at h
    cases h
  | ok text =>
    rw [htext] at h
    refine ⟨text, rfl, ?_⟩
    cases hclassify : classify text.toList with
    | error fault =>
      simp only [hclassify] at h
      cases h
    | ok obj' =>
      simp only [hclassify] at h
      rw [Option.some.inj h]

/-- A ledger whose text is accepted and reads back shows the document in it. -/
theorem keeps_of_stored (hcalm : w.Calm) (havoids : l.sink.Avoids w (l.place w))
    (hstored : l.stored? w = some obj)
    (hdoubles : ∀ x ∈ (Json.obj obj).doubles, Json.DoubleReadsBack x) :
    l.Keeps w (some (Document.ofObject obj ⟨.null, .null⟩).1) := by
  obtain ⟨text, htext, hclassify⟩ := exists_text_of_stored hstored
  exact ⟨hcalm, havoids, ⟨text, obj, htext, hclassify, fun f => ofObject_eq hclassify f _⟩,
    sound_ofObject hclassify hdoubles _⟩

/-- The entry of the key stands in the ledger as it is. -/
def HoldsEntry (l : Ledger) (w : World) (k : String) (v : Json) : Prop :=
  ∃ obj, l.stored? w = some obj ∧ Keyed.get? k (entriesOf obj) = some v

theorem asSeen_eq_inr_iff {u : Json} : asSeen u = .inr v ↔ u = v ∧ readable? v = none := by
  rw [asSeen]
  cases hu : readable? u with
  | some s =>
    simp only [reduceCtorEq, false_iff, not_and]
    rintro rfl
    simp [hu]
  | none =>
    simp only [Sum.inr.injEq, iff_self_and]
    rintro rfl
    exact hu

/-- What a ledger holds as it stands is what its document has not read. -/
theorem Shows.holdsEntry_iff (h : l.Shows w d) (hunreadable : readable? v = none) :
    l.HoldsEntry w k v ↔ d.seen? k = some (.inr v) := by
  obtain ⟨text, obj, hstored, hclassify, hd⟩ := h.stored?_eq
  rw [← hd ⟨.null, .null⟩, seen?_ofObject hclassify, Option.map_eq_some_iff]
  simp only [asSeen_eq_inr_iff, hunreadable, and_true, exists_eq_right]
  constructor
  · rintro ⟨obj', hstored', hentry⟩
    rwa [Option.some.inj (hstored.symm.trans hstored')]
  · exact fun hentry => ⟨obj, hstored, hentry⟩

theorem Document.status?_of_seen? (h : d.seen? k = some (.inr v)) : d.status? k = none := by
  rw [seen?] at h
  cases hs : d.status? k with
  | none => rfl
  | some s =>
    rw [hs] at h
    cases h

/-! ## The main result -/

/-- After requests, none of which a step of the disk failed in, an entry that cannot be read stands
in the ledger as it was, unless an approval of its file was granted, and only then. -/
theorem survives_iff (hcalm : w.Calm) (havoids : l.sink.Avoids w (l.place w))
    (hstored : l.stored? w = some obj)
    (hdoubles : ∀ x ∈ (Json.obj obj).doubles, Json.DoubleReadsBack x)
    (hentry : Keyed.get? k (entriesOf obj) = some v) (hunreadable : readable? v = none)
    (ts : List Timed) (hdisk : ∀ a ∈ ((l.serveAll ts).run w).1, a.diskFailed = false) :
    l.HoldsEntry ((l.serveAll ts).run w).2 k v ↔ ∀ t ∈ ts, ¬t.request.Grants l.key k := by
  have hkeeps := keeps_of_stored hcalm havoids hstored hdoubles
  have hseen := (hkeeps.shows_or.1.holdsEntry_iff hunreadable).mp ⟨obj, hstored, hentry⟩
  have hstatus := Document.status?_of_seen? hseen
  rcases ends_serveAll hkeeps ts with ⟨a, ha, hfailed⟩ | ⟨o', hserves⟩
  · exact absurd hfailed (by simp [hdisk a ha])
  obtain ⟨d', rfl, hleaves⟩ := hserves.leaves _ rfl
  rw [hserves.keeps.shows_or.1.holdsEntry_iff hunreadable]
  constructor
  · intro hseen' t ht hgrants
    -- the map has a status for the key from then on
    have hmap : d'.approvalStates = (onMapAll l.key ts _).2 := congrArg Prod.snd hserves.onMap
    have hsome : (d'.status? k).isSome := by
      rw [Document.status?, hmap]
      exact (isSome_onMapAll_iff ts _).mpr (.inr ⟨t, ht, hgrants⟩)
    rw [Document.status?_of_seen? hseen'] at hsome
    exact absurd hsome (by simp)
  · intro hnone
    rw [← hseen]
    refine hleaves.seen k fun t ht => ?_
    rw [hstatus, Request.touches_none_iff]
    exact hnone t ht

theorem sampleWorld_calm : sampleWorld.Calm where
  tree := Disk.isTree_of_entries (by decide)
  home := by decide
  unplanned := fun _ ho => absurd ho List.not_mem_nil

theorem sampleLedger_avoids :
    sampleLedger.sink.Avoids sampleWorld (sampleLedger.place sampleWorld) := by
  intro path hpath
  cases hpath
  decide

theorem stored?_sampleWorld : sampleLedger.stored? sampleWorld = some sampleStored := by
  decide +kernel

/-- The entry stands while nobody with a name approves the file. -/
theorem survives_sample :
    let ts : List Timed := [⟨1, .set "b" .dev " "⟩, ⟨2, .invalidate "b" "edited"⟩, ⟨3, .list⟩]
    sampleLedger.HoldsEntry ((sampleLedger.serveAll ts).run sampleWorld).2 "b" (.int 7) := by
  intro ts
  have hdisk : ∀ a ∈ ((sampleLedger.serveAll ts).run sampleWorld).1, a.diskFailed = false := by
    decide +kernel
  exact (survives_iff sampleWorld_calm sampleLedger_avoids stored?_sampleWorld (by decide +kernel)
    (by decide) (by decide) ts hdisk).mpr (by decide)

/-! ## Where it is lost -/

/-- Notices go to no file. -/
def Sink.IsQuiet (sink : Sink) : Prop := ∀ path, sink ≠ .journal path

theorem ends_record_quiet {sink : Sink} (hquiet : Sink.IsQuiet sink) (n : Notice) :
    Ends w (sink.record n) fun _ w' => w'.disk = w.disk := by
  cases sink with
  | keep => exact rfl
  | discard => exact rfl
  | journal path => exact absurd rfl (hquiet path)

theorem ends_recordAll_quiet {sink : Sink} (hquiet : Sink.IsQuiet sink) (ns : List Notice) :
    Ends w (sink.recordAll ns) fun _ w' => w'.disk = w.disk := by
  induction ns generalizing w with
  | nil => exact rfl
  | cons n ns ih =>
    exact (ends_record_quiet hquiet n).bind fun _ w' h => ih.imp fun _ _ h' => h'.trans h

theorem ends_load_quiet (hw : w.Calm) (hquiet : Sink.IsQuiet l.sink) (h : l.Shows w d) :
    Ends w l.load fun _ w' => w'.disk = w.disk := by
  obtain ⟨text, obj, htext, hobj, hd⟩ := h
  refine (ends_readText hw (l.place w) l.path).bind ?_
  rintro _ w₁ ⟨rfl, hdisk₁, h₁⟩
  rw [show w.disk.readText w.workingDir l.path = .ok text from htext]
  simp only [hobj]
  refine (ends_freshSections (h₁.calm hw) (l.place w)).bind fun f w₂ ⟨_, hdisk₂⟩ => ?_
  refine (ends_recordAll_quiet hquiet _).bind fun _ w₃ hdisk₃ => ?_
  exact hdisk₃.trans (hdisk₂.trans hdisk₁)

/-- Where there is room an approval is granted, and its ledger is the only file that changes. -/
theorem ends_approve_quiet (hw : w.Calm) (hquiet : Sink.IsQuiet l.sink) (hshows : l.Shows w d)
    (hd : d.Sound) (hroom : l.HasRoom w) (path : String) (slot : Slot) {approver : String}
    (hname : (Text.trimString approver).isEmpty = false) :
    Trial.Ends w (l.approve path slot approver) fun r w' =>
      (∃ s, r = .ok s ∧ l.Shows w' (d.record (l.key path) s)) ∧ l.place w' = l.place w ∧
        ∀ p content, w'.disk.node? p = some (.file content) →
          p = l.place w ∨ w.disk.node? p = some (.file content) := by
  have havoids : ∀ w P, l.sink.Avoids w P := fun _ _ path hpath => absurd hpath (hquiet path)
  rw [approve]
  split
  · rename_i hblank
    exact absurd (hname.symm.trans hblank) Bool.false_ne_true
  refine ((ends_load hw (havoids _ _) hshows).and (ends_load_quiet hw hquiet hshows)).bind_lift ?_
  rintro d₁ w₁ ⟨⟨hd₁, hgrown₁⟩, hdisk₁⟩
  rw [hd₁]
  have hlater₁ := later_of_grown hw hgrown₁
  refine Trial.ends_timeStamp_bind.mpr ?_
  -- only that some status is recorded matters from here on
  generalize d.granted (l.key path) slot (Text.trimString approver) (stamp w₁.now) = s
  have hsave := ends_save hlater₁.calm (l := l) (hd.record (l.key path) s) (body_setStatus hd _ s)
  have hsame := ends_save_ok hlater₁.calm (hd.record (l.key path) s) (body_setStatus hd _ s)
    (hroom.same hdisk₁ hgrown₁.workingDir)
  have hdraft := ends_save_text (l := l) hlater₁.calm (d.setStatus (l.key path) s)
  refine ((hsave.and hsame).and hdraft).bind (fun _ w₂ h₂ => ?_) fun _ _ h => by cases h.1.2.1
  obtain ⟨⟨⟨-, hlater₂, hshows₂⟩ | ⟨cause, hcause, -⟩, -, hsame₂⟩, hdraft₂⟩ := h₂
  · have hlater := hlater₁.trans hlater₂
    have hgrown₃ := ends_record hlater₂.calm (havoids w₂ (l.place w₂))
    refine ((hgrown₃ _).and (ends_record_quiet hquiet _)).bind_lift ?_
    rintro _ w₃ ⟨h₃, hdisk₃⟩
    refine Trial.ends_pure.mpr
      ⟨⟨s, rfl, hshows₂.grown h₃⟩, (place_grown h₃).trans hlater.place, fun p content hfile => ?_⟩
    rw [hdisk₃] at hfile
    by_cases hledger : p = l.place w
    · exact .inl hledger
    · -- the draft is gone after the save, so what is a file then is elsewhere
      have hne : p ≠ w₁.placeOf l.draftPath := by
        rintro rfl
        rw [(hdraft₂ rfl).noDraft] at hfile
        cases hfile
      rw [hsame₂ p hne (hlater₁.place ▸ hledger), hdisk₁] at hfile
      exact .inr hfile
  · cases hcause

theorem not_holdsEntry_record {s : Status} (h : l.Shows w (d.record k s))
    (hunreadable : readable? v = none) : ¬l.HoldsEntry w k v := by
  rw [h.holdsEntry_iff hunreadable, Document.seen?, status?_record, if_pos rfl]
  simp

/-- The ledger with an entry that cannot be read, whose notices are kept. -/
def quietLedger : Ledger := { sampleLedger with sink := .keep }

theorem hasRoom_quietLedger : quietLedger.HasRoom sampleWorld := by
  have hroot : quietLedger.path.parent? = some "/p".toList := by decide
  exact hasRoom_of_parent? hroot (by decide) ⟨["p"], "l", rfl, by decide⟩ (by decide)
    ⟨["p"], ".l.tmp", rfl, by decide⟩ (by decide)

theorem only_file_sampleWorld {p : Place} {content : ByteArray}
    (h : sampleWorld.disk.node? p = some (.file content)) : p = quietLedger.place sampleWorld := by
  have hplace : quietLedger.place sampleWorld = ["p", "l"] := by decide
  rw [hplace]
  by_cases hroot : p = []
  · subst hroot
    cases h
  · rw [Disk.node?_of_ne_nil _ hroot] at h
    by_cases hdir : p = ["p"]
    · subst hdir
      cases h
    · by_cases hledger : p = ["p", "l"]
      · exact hledger
      · rw [sampleWorld, Disk.lookup_cons_eq_if, if_neg hdir, Disk.lookup_cons_eq_if,
          if_neg hledger] at h
        cases h

/-- Granting an approval of the file replaces the entry. The request succeeds, and the ledger, which
does not hold the entry any more, is the only file there is. -/
theorem lost_when_granted :
    let r := (quietLedger.serveAll [⟨1, .set "b" .dev "kim"⟩]).run sampleWorld
    quietLedger.HoldsEntry sampleWorld "b" (.int 7) ∧ readable? (.int 7) = none ∧
      (∀ a ∈ r.1, a.diskFailed = false) ∧ ¬quietLedger.HoldsEntry r.2 "b" (.int 7) ∧
      ∀ p content, r.2.disk.node? p = some (.file content) → p = quietLedger.place r.2 := by
  have hquiet : Sink.IsQuiet quietLedger.sink := fun _ hpath => nomatch hpath
  have hstored : quietLedger.stored? sampleWorld = some sampleStored := stored?_sampleWorld
  have hentry : Keyed.get? "b" (entriesOf sampleStored) = some (.int 7) := by decide
  have hunreadable : readable? (.int 7) = none := rfl
  have hkey : quietLedger.key "b" = "b" := by decide
  have hkeeps := (keeps_of_stored sampleWorld_calm (fun _ hpath => absurd hpath (hquiet _)) hstored
    (by decide +kernel)).at_time 1
  obtain ⟨hshows, hsound⟩ := hkeeps.shows_or
  have hname : (Text.trimString "kim").isEmpty = false := by decide
  have happrove := ends_approve_quiet hkeeps.calm hquiet hshows hsound
    (hasRoom_quietLedger.same rfl rfl) "b" .dev hname
  have hserve : Ends { sampleWorld with now := 1 } (quietLedger.serve (.set "b" .dev "kim"))
      fun a w' => a.diskFailed = false ∧ ¬quietLedger.HoldsEntry w' "b" (.int 7) ∧
        ∀ p content, w'.disk.node? p = some (.file content) → p = quietLedger.place w' := by
    refine Ends.bind happrove ?_
    rintro _ w' ⟨⟨s, rfl, hshows'⟩, hplace, hfiles⟩
    rw [hkey] at hshows'
    refine ends_pure.mpr
      ⟨rfl, not_holdsEntry_record hshows' hunreadable, fun p content hfile => ?_⟩
    rw [hplace]
    exact (hfiles p content hfile).elim id only_file_sampleWorld
  have hrun : Ends sampleWorld (quietLedger.serveAll [⟨1, .set "b" .dev "kim"⟩]) fun answers w' =>
      (∀ a ∈ answers, a.diskFailed = false) ∧ ¬quietLedger.HoldsEntry w' "b" (.int 7) ∧
        ∀ p content, w'.disk.node? p = some (.file content) → p = quietLedger.place w' :=
    (ends_serveAll_cons _ _ _).mpr (hserve.bind fun a w' ⟨ha, h⟩ =>
      ⟨fun b hb => List.mem_singleton.mp hb ▸ ha, h⟩)
  exact ⟨⟨sampleStored, hstored, hentry⟩, hunreadable, hrun⟩

end EditGate.Ledger
