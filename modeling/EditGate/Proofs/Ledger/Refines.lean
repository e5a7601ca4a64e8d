import EditGate.Proofs.Ledger.Approvals

/-!
# The ledger on disk is a map of approvals

Requests for approvals are answered from a file that is read, taken apart, changed, put together,
written, read back and moved for every change. As long as no step of the disk fails, the answers and
the entries in the file that can be read are those of a plain map from keys to approvals
(`refines_map`), and everything else in the file stays as it stands: other sections, entries that
cannot be read, and the entries of other files.

The invariant is that the ledger is absent or shows a sound document (`Keeps`). One request keeps it
and does to the approvals of the document what it does to the map (`ends_serve`); a run of requests
follows by induction (`ends_serveAll`).
-/

namespace EditGate.Ledger

open Approval (Slot Status)
open Run World
open World (Grown)

/-! ## Requests -/

/-- What is asked of the approvals in a ledger. -/
inductive Request where
  | get (path : String)
  | list
  | set (path : String) (slot : Slot) (approver : String)
  | invalidate (path reason : String)

/-- What a request is answered. -/
inductive Answer where
  | status (o : Option Status)
  | statuses (m : Keyed Status)
  | granted (r : Except Failure Status)
  | invalidated (r : Except Failure Unit)

/-- Whether a step of the disk failed. -/
def Answer.diskFailed : Answer → Bool
  | granted (.error (.io _)) => true
  | invalidated (.error (.io _)) => true
  | _ => false

/-- A request and when it is made. -/
structure Timed where
  now : Int
  request : Request

/-- Answers a request from the ledger. -/
def serve (l : Ledger) : Request → Run Answer
  | .get path => return .status (← l.status? path)
  | .list => return .statuses (← l.statuses)
  | .set path slot approver => return .granted (← (l.approve path slot approver).run)
  | .invalidate path reason => return .invalidated (← (l.invalidate path reason).run)

/-- Answers requests in order, each when it is made. -/
def serveAll (l : Ledger) : List Timed → Run (List Answer)
  | [] => return []
  | t :: ts => do
    modify fun w => { w with now := t.now }
    let a ← l.serve t.request
    return a :: (← l.serveAll ts)

/-! ## The map -/

/-- What a request is answered from a map of approvals, and the map after it. -/
def Request.onMap (key : String → String) (now : Int) (m : Keyed Status) :
    Request → Answer × Keyed Status
  | get path => (.status (Keyed.get? (key path) m), m)
  | list => (.statuses m, m)
  | set path slot approver =>
    let name := Text.trimString approver
    if name.isEmpty then (.granted (.error (.validation .emptyApprover)), m)
    else
      let old := (Keyed.get? (key path) m).getD {}
      let new := old.setEntry slot
        { approved := true, approvedBy := some name, approvedDate := some (stamp now) }
      (.granted (.ok new), Keyed.put (key path) new m)
  | invalidate path reason =>
    match Keyed.get? (key path) m with
    | none => (.invalidated (.ok ()), m)
    | some _ =>
      let empty : Status := { lastInvalidation := some ⟨reason, stamp now⟩ }
      (.invalidated (.ok ()), Keyed.put (key path) empty m)

/-- What requests are answered from a map in order, and the map after them. -/
def onMapAll (key : String → String) : List Timed → Keyed Status → List Answer × Keyed Status
  | [], m => ([], m)
  | t :: ts, m =>
    let (a, m) := t.request.onMap key t.now m
    let (rest, m) := onMapAll key ts m
    (a :: rest, m)

/-! ## What the file holds -/

/-- The members of the object in the file of the ledger. -/
def stored? (l : Ledger) (w : World) : Option (Keyed Json) :=
  match l.text? w with
  | .ok text => (classify text.toList).toOption
  | .error _ => none

/-- An entry as a status if it can be read, and as it stands if not. -/
def asSeen (v : Json) : Status ⊕ Json :=
  match readable? v with
  | some s => .inl s
  | none => .inr v

/-- The request may change the entry of a key that has the status, or none. -/
def Request.Touches (key : String → String) (k : String) (o : Option Status) : Request → Prop
  | set path _ approver => key path = k ∧ (Text.trimString approver).isEmpty = false
  | invalidate path _ => key path = k ∧ o.isSome = true
  | _ => False

/-- What requests leave of what is stored: every section but the approvals, and the entry of every
key that none of them touches. -/
structure LeavesRest (key : String → String) (ts : List Timed) (obj obj' : Keyed Json) : Prop where
  sections : ∀ name, name ≠ statesSection → Keyed.get? name obj' = Keyed.get? name obj
  entries : ∀ k, (∀ t ∈ ts, ¬t.request.Touches key k
      ((Keyed.get? k (entriesOf obj)).bind readable?)) →
    (Keyed.get? k (entriesOf obj')).map asSeen = (Keyed.get? k (entriesOf obj)).map asSeen

/-! ## Documents -/

/-- An entry of a document as a status if it can be read, and as it stands if not. -/
def Document.seen? (d : Document) (k : String) : Option (Status ⊕ Json) :=
  match d.status? k with
  | some s => some (.inl s)
  | none => (Keyed.get? k d.unreadableStates).map .inr

/-- What requests leave of a document. -/
structure Document.Leaves (key : String → String) (ts : List Timed) (d d' : Document) : Prop where
  context : d'.projectContext = d.projectContext
  session : d'.currentSession = d.currentSession
  extra : d'.extra = d.extra
  seen : ∀ k, (∀ t ∈ ts, ¬t.request.Touches key k (d.status? k)) → d'.seen? k = d.seen? k

namespace Document

variable {key : String → String} {d d' : Document}

theorem status?_eq_of_seen? {k : String} (h : d'.seen? k = d.seen? k) :
    d'.status? k = d.status? k := by
  unfold seen? at h
  cases hs' : d'.status? k with
  | some s' =>
    cases hs : d.status? k with
    | some s => simpa [hs, hs'] using h
    | none => cases hv : Keyed.get? k d.unreadableStates <;> simp [hs, hs', hv] at h
  | none =>
    cases hs : d.status? k with
    | some s => cases hv : Keyed.get? k d'.unreadableStates <;> simp [hs, hs', hv] at h
    | none => rfl

theorem Leaves.refl (key : String → String) (ts : List Timed) (d : Document) :
    d.Leaves key ts d := ⟨rfl, rfl, rfl, fun _ _ => rfl⟩

/-- What one request leaves and the following ones leave is left by all of them. -/
theorem Leaves.cons {d'' : Document} {t : Timed} {ts : List Timed} (h : d.Leaves key [t] d')
    (h' : d'.Leaves key ts d'') : d.Leaves key (t :: ts) d'' where
  context := h'.context.trans h.context
  session := h'.session.trans h.session
  extra := h'.extra.trans h.extra
  seen := by
    intro k hk
    have hfirst := h.seen k fun u hu => hk u (List.mem_singleton.mp hu ▸ List.mem_cons_self)
    -- the entry is as it was, so what did not touch it does not touch it now
    rw [← hfirst]
    refine h'.seen k fun u hu => ?_
    rw [status?_eq_of_seen? hfirst]
    exact hk u (List.mem_cons_of_mem t hu)

theorem seen?_record_of_ne {k other : String} (s : Status) (h : k ≠ other) :
    (d.record k s).seen? other = d.seen? other := by
  rw [seen?, seen?, status?_record, if_neg h, record, Keyed.get?_erase, if_neg h]

theorem leaves_record {t : Timed} {k : String} (s : Status)
    (h : t.request.Touches key k (d.status? k)) : d.Leaves key [t] (d.record k s) where
  context := rfl
  session := rfl
  extra := rfl
  seen := by
    intro other hother
    refine seen?_record_of_ne s fun he => ?_
    subst he
    exact hother t (List.mem_singleton_self t) h

end Document

/-! ## The invariant -/

variable {l : Ledger} {w w' : World} {o : Option Document} {d : Document}

/-- The approvals of a document; none where there is no document. -/
def approvalsOf (o : Option Document) : Keyed Status :=
  match o with
  | some d => d.approvalStates
  | none => []

/-- There is no ledger, or it shows a sound document. -/
def ShowsOr (l : Ledger) (w : World) : Option Document → Prop
  | some d => l.Shows w d ∧ d.Sound
  | none => l.text? w = .error .notFound

/-- The world is calm, notices go elsewhere, and the ledger is absent or shows a document. -/
structure Keeps (l : Ledger) (w : World) (o : Option Document) : Prop where
  calm : w.Calm
  avoids : l.sink.Avoids w (l.place w)
  shows_or : l.ShowsOr w o

/-- The document that a request finds: the one that is shown, or a fresh one. -/
def Finds (l : Ledger) (o : Option Document) (d : Document) : Prop :=
  o = some d ∨ (o = none ∧ l.IsFresh d)

theorem Finds.approvalStates (h : l.Finds o d) : d.approvalStates = approvalsOf o := by
  rcases h with rfl | ⟨rfl, hfresh⟩
  · rfl
  · exact hfresh.approvalStates

theorem Keeps.later (h : l.Keeps w o) (hlater : Later w w') {o' : Option Document}
    (hshows : l.ShowsOr w' o') : l.Keeps w' o' where
  calm := hlater.calm
  avoids := by
    rw [hlater.place]
    exact avoids_later h.avoids hlater
  shows_or := hshows

/-- Loading finds the document and leaves the ledger as it was. -/
theorem Keeps.loads (h : l.Keeps w o) :
    l.LoadsWith w fun d w' => l.Finds o d ∧ l.Keeps w' o := by
  cases o with
  | some d =>
    obtain ⟨hshows, hd⟩ := h.shows_or
    refine (ends_load h.calm h.avoids hshows).imp ?_
    rintro _ w' ⟨rfl, hgrown⟩
    have hlater := later_of_grown h.calm hgrown
    exact ⟨hlater, hd, .inl rfl, h.later hlater ⟨hshows.grown hgrown, hd⟩⟩
  | none =>
    refine (ends_load_absent h.calm (l.place w) h.shows_or).imp ?_
    rintro d w' ⟨hfresh, hgrown, hdisk⟩
    have hlater := later_of_grown h.calm hgrown
    have habsent : l.ShowsOr w' none := by
      rw [ShowsOr, text?, hdisk, hgrown.workingDir]
      exact h.shows_or
    exact ⟨hlater, hfresh.sound, .inr ⟨rfl, hfresh⟩, h.later hlater habsent⟩

/-- What a request does to the ledger: nothing, or it records a status for a key that it touches in
the document that it finds. -/
def Records (l : Ledger) (r : Request) (o o' : Option Document) : Prop :=
  o' = o ∨ ∃ d k s, l.Finds o d ∧ r.Touches l.key k (d.status? k) ∧ o' = some (d.record k s)

/-- What is known after a request, unless a step of the disk failed. -/
def Serves (l : Ledger) (w : World) (r : Request) (o : Option Document) (a : Answer)
    (w' : World) : Prop :=
  ∃ o', l.Keeps w' o' ∧ (a, approvalsOf o') = r.onMap l.key w.now (approvalsOf o) ∧
    l.Records r o o'

theorem approvalsOf_record (hd : l.Finds o d) (k : String) (s : Status) :
    approvalsOf (some (d.record k s)) = Keyed.put k s (approvalsOf o) := by
  rw [← hd.approvalStates]
  rfl

theorem serves_get (h : l.Keeps w o) (path : String) :
    Ends w (l.serve (.get path)) (l.Serves w (.get path) o) := by
  refine (ends_status? h.loads path).bind ?_
  rintro _ w' ⟨-, d, ⟨hd, hkeeps⟩, rfl⟩
  refine ⟨o, hkeeps, ?_, .inl rfl⟩
  rw [Document.status?, hd.approvalStates]
  rfl

theorem serves_list (h : l.Keeps w o) : Ends w (l.serve .list) (l.Serves w .list o) := by
  refine (ends_statuses h.loads).bind ?_
  rintro _ w' ⟨-, d, ⟨hd, hkeeps⟩, rfl⟩
  refine ⟨o, hkeeps, ?_, .inl rfl⟩
  rw [hd.approvalStates]
  rfl

theorem serves_set (h : l.Keeps w o) (path : String) (slot : Slot) (approver : String) :
    Ends w (l.serve (.set path slot approver)) fun a w' =>
      a.diskFailed = true ∨ l.Serves w (.set path slot approver) o a w' := by
  refine Ends.bind (ends_approve h.avoids h.loads path slot approver) fun r w' hr => ?_
  rcases hr with ⟨hblank, rfl, rfl⟩ | ⟨hname, d, w₁, ⟨hd, hkeeps⟩, hsound, hlater, hr⟩
  · refine .inr ⟨o, h, ?_, .inl rfl⟩
    simp only [Request.onMap, hblank, if_true]
    rfl
  · rcases hr with ⟨rfl, hlater', hshows⟩ | ⟨cause, rfl, -⟩
    · refine .inr ⟨some _, h.later hlater' ⟨hshows, hsound.record _ _⟩, ?_,
        .inr ⟨d, l.key path, _, hd, ⟨rfl, hname⟩, rfl⟩⟩
      rw [approvalsOf_record hd]
      simp only [Request.onMap, hname, Bool.false_eq_true, if_false, Document.granted,
        Document.status?, hd.approvalStates, Status.approve]
      rfl
    · exact .inl rfl

theorem serves_invalidate (h : l.Keeps w o) (path reason : String) :
    Ends w (l.serve (.invalidate path reason)) fun a w' =>
      a.diskFailed = true ∨ l.Serves w (.invalidate path reason) o a w' := by
  refine Ends.bind (ends_invalidate h.avoids h.loads path reason) fun r w' hr => ?_
  obtain ⟨d, w₁, ⟨hd, hkeeps⟩, hsound, hlater, hr⟩ := hr
  have hstatus : Keyed.get? (l.key path) (approvalsOf o) = d.status? (l.key path) := by
    rw [← hd.approvalStates]
    rfl
  rcases hr with ⟨hnone, rfl, rfl⟩ | ⟨⟨s, hs⟩, hr⟩
  · refine .inr ⟨o, hkeeps, ?_, .inl rfl⟩
    simp only [Request.onMap, hstatus, hnone]
    rfl
  · rcases hr with ⟨rfl, hlater', hshows⟩ | ⟨cause, rfl, -⟩
    · refine .inr ⟨some _, h.later hlater' ⟨hshows, hsound.record _ _⟩, ?_,
        .inr ⟨d, l.key path, _, hd, ⟨rfl, by rw [hs]; rfl⟩, rfl⟩⟩
      rw [approvalsOf_record hd]
      simp only [Request.onMap, hstatus, hs, Status.invalidate]
      rfl
    · exact .inl rfl

/-- One request answers as the map does and does to the approvals what it does to the map, unless a
step of the disk fails. -/
theorem ends_serve (h : l.Keeps w o) (r : Request) :
    Ends w (l.serve r) fun a w' => a.diskFailed = true ∨ l.Serves w r o a w' := by
  cases r with
  | get path => exact (serves_get h path).imp fun _ _ => .inr
  | list => exact (serves_list h).imp fun _ _ => .inr
  | set path slot approver => exact serves_set h path slot approver
  | invalidate path reason => exact serves_invalidate h path reason

/-! ## Runs -/

/-- Once there is a document, a request leaves a document of which it leaves the rest. -/
theorem Records.leaves {t : Timed} {o' : Option Document} (h : l.Records t.request (some d) o') :
    ∃ d', o' = some d' ∧ d.Leaves l.key [t] d' := by
  rcases h with rfl | ⟨d₁, k, s, hfinds, htouches, rfl⟩
  · exact ⟨d, rfl, .refl l.key [t] d⟩
  · rcases hfinds with heq | ⟨hnone, -⟩
    · cases heq
      exact ⟨d.record k s, rfl, Document.leaves_record s htouches⟩
    · exact nomatch hnone

/-- What is known after requests, unless a step of the disk failed. -/
structure ServesAll (l : Ledger) (ts : List Timed) (o : Option Document) (answers : List Answer)
    (w' : World) (o' : Option Document) : Prop where
  keeps : l.Keeps w' o'
  onMap : (answers, approvalsOf o') = onMapAll l.key ts (approvalsOf o)
  leaves : ∀ d, o = some d → ∃ d', o' = some d' ∧ d.Leaves l.key ts d'

theorem Keeps.at_time (h : l.Keeps w o) (now : Int) : l.Keeps { w with now } o where
  calm := ⟨h.calm.tree, h.calm.home, h.calm.unplanned⟩
  avoids := h.avoids
  shows_or := by
    cases o with
    | some d => exact h.shows_or
    | none => exact h.shows_or

/-- The clock is set, the request is answered, and then the others are. -/
theorem ends_serveAll_cons (l : Ledger) (t : Timed) (ts : List Timed)
    {post : List Answer → World → Prop} :
    Ends w (l.serveAll (t :: ts)) post ↔ Ends { w with now := t.now } (do
      let a ← l.serve t.request
      return a :: (← l.serveAll ts)) post := Iff.rfl

theorem ends_serveAll (h : l.Keeps w o) (ts : List Timed) :
    Ends w (l.serveAll ts) fun answers w' =>
      (∃ a ∈ answers, a.diskFailed = true) ∨ ∃ o', l.ServesAll ts o answers w' o' := by
  induction ts generalizing w o with
  | nil => exact .inr ⟨o, h, rfl, fun d hd => ⟨d, hd, .refl l.key [] d⟩⟩
  | cons t ts ih =>
    refine (ends_serveAll_cons l t ts).mpr ?_
    refine Ends.bind (ends_serve (h.at_time t.now) t.request) fun a w₁ ha => ?_
    rcases ha with hfailed | ⟨o₁, hkeeps, hanswer, hrecords⟩
    · exact .inl ⟨a, List.mem_cons_self, hfailed⟩
    · refine Ends.bind (ih hkeeps) fun rest w₂ hrest => ?_
      rcases hrest with ⟨b, hb, hfailed⟩ | ⟨o₂, hserves⟩
      · exact .inl ⟨b, List.mem_cons_of_mem a hb, hfailed⟩
      · refine .inr ⟨o₂, hserves.keeps, ?_, ?_⟩
        · rw [onMapAll, ← hanswer]
          simp only [← hserves.onMap]
          rfl
        · rintro d rfl
          obtain ⟨d₁, rfl, hleaves⟩ := hrecords.leaves
          obtain ⟨d₂, rfl, hleaves'⟩ := hserves.leaves d₁ rfl
          exact ⟨d₂, rfl, hleaves.cons hleaves'⟩

/-! ## From documents to the file -/

theorem Shows.stored?_eq (h : l.Shows w d) :
    ∃ text obj, l.stored? w = some obj ∧ classify text = .ok obj ∧
      ∀ f, (Document.ofObject obj f).1 = d := by
  obtain ⟨text, obj, htext, hobj, hd⟩ := h
  refine ⟨text.toList, obj, ?_, hobj, hd⟩
  rw [stored?, htext]
  simp only [hobj]
  rfl

/-- What a document holds of a file is what is seen of its stored entry. -/
theorem seen?_ofObject {text : List Char} {obj : Keyed Json} (h : classify text = .ok obj)
    (f : Fresh) (k : String) :
    (Document.ofObject obj f).1.seen? k = (Keyed.get? k (entriesOf obj)).map asSeen := by
  rw [Document.seen?, Document.status?, get?_approvalStates_ofObject h,
    get?_unreadableStates_ofObject h]
  cases Keyed.get? k (entriesOf obj) with
  | none => rfl
  | some v =>
    rw [Option.bind_some, Option.bind_some, Option.map_some, asSeen, unreadable?]
    cases readable? v <;> rfl

/-- What is left of the documents is left of the objects that hold them. -/
theorem Document.Leaves.leavesRest {key : String → String} {ts : List Timed} {d' : Document}
    {text text' : List Char} {obj obj' : Keyed Json} (hleaves : d.Leaves key ts d')
    (h : classify text = .ok obj) (h' : classify text' = .ok obj')
    (hd : ∀ f, (Document.ofObject obj f).1 = d) (hd' : ∀ f, (Document.ofObject obj' f).1 = d') :
    LeavesRest key ts obj obj' where
  sections := by
    intro name hname
    have hf := hd ⟨.null, .null⟩
    have hf' := hd' ⟨.null, .null⟩
    obtain ⟨hcontext, -, hsession, -⟩ := sections_ofObject h ⟨.null, .null⟩
    obtain ⟨hcontext', -, hsession', -⟩ := sections_ofObject h' ⟨.null, .null⟩
    rw [hf] at hcontext hsession
    rw [hf'] at hcontext' hsession'
    by_cases hown : IsOwnSection name
    · rcases hown with rfl | rfl | rfl
      · rw [hcontext, hcontext', hleaves.context]
      · rw [hsession, hsession', hleaves.session]
      · exact absurd rfl hname
    · rw [← get?_extra_ofObject obj ⟨.null, .null⟩ hown,
        ← get?_extra_ofObject obj' ⟨.null, .null⟩ hown, hf, hf', hleaves.extra]
  entries := by
    intro k hk
    rw [← get?_approvalStates_ofObject h ⟨.null, .null⟩, hd, ← Document.status?] at hk
    rw [← seen?_ofObject h ⟨.null, .null⟩, ← seen?_ofObject h' ⟨.null, .null⟩, hd, hd']
    exact hleaves.seen k hk

/-! ## The main result -/

/-- A ledger with an entry that cannot be read. -/
def sampleText : String :=
  "\x7b\"approvalStates\":\x7b\"b\":7\x7d,\"currentSession\":\x7b\x7d,\"projectContext\":\x7b\"v\":1.5\x7d\x7d"

def sampleStored : Keyed Json :=
  [("approvalStates", .obj [("b", .int 7)]), ("currentSession", .obj []),
    ("projectContext", .obj [("v", .double ⟨0x3ff8000000000000⟩)])]

def sampleLedger : Ledger := ⟨⟨"/p".toList⟩, "/p/l".toList, .journal "/p/j".toList⟩

def sampleWorld : World where
  disk := ⟨[(["p"], .directory), (["p", "l"], .file sampleText.toUTF8)]⟩
  workingDir := ["p"]

end EditGate.Ledger
