import EditGate.Cli.Run
import EditGate.Proofs.Json.OneLine
import EditGate.Proofs.Text.Trim
import EditGate.Proofs.Text.Utf8
import EditGate.Proofs.World

/-!
# A session is the fold of its messages

The lines of the input that are not blank are its messages (`messages`), and each of them is
answered in the state that the one before left (`answer`, `after`). Serving the bytes of a text is
nothing but that: it ends well, in the state after the last message, with one reply a message, each
written on a line of its own (`serve_folds`). So an input may be cut behind any newline and served
in two sessions.

A line is served by `serveLines_cons`; the run over all lines follows by induction
(`serveLines_utf8`).
-/

namespace EditGate.Rpc

open Text

/-! ## Messages -/

/-- The lines of a text without the blanks around them; a line of blanks is none. -/
def messages (text : List Char) : List (List Char) :=
  ((splitOn '\n' text).map trim).filter (· ≠ [])

theorem messages_newline (a b : List Char) : messages (a ++ '\n' :: b) = messages a ++ messages b := by
  rw [messages, splitOn_append, List.map_append, List.filter_append, messages, messages]

theorem messages_nil : messages [] = [] := rfl

/-- What follows the last newline does not count if it is empty. -/
theorem messages_eq {text : List Char} {ls : List (List Char)}
    (h : splitOn '\n' text = ls ∨ splitOn '\n' text = ls ++ [[]]) :
    messages text = (ls.map trim).filter (· ≠ []) := by
  rcases h with h | h
  · rw [messages, h]
  · have hblank : ([[]].map trim).filter (· ≠ []) = ([] : List (List Char)) := rfl
    rw [messages, h, List.map_append, List.filter_append, hblank, List.append_nil]

/-! ## Answers -/

/-- A gate in a world. -/
abbrev State := Gate × World

/-- The reply to a message, and the state after it. What is no request changes nothing. -/
def answer (s : State) (message : List Char) : Reply × State :=
  match Request.read? message with
  | some r =>
    let a := (handle s.1 r).run s.2
    (a.1.1, a.1.2, a.2)
  | none => (.toUnreadable (stamp s.2.now), s)

/-- The state after some messages. -/
def after (s : State) (ms : List (List Char)) : State := ms.foldl (fun s m => (answer s m).2) s

/-- The replies to messages in order. -/
def replies (s : State) : List (List Char) → List Reply
  | [] => []
  | m :: ms => (answer s m).1 :: replies (answer s m).2 ms

@[simp] theorem after_nil (s : State) : after s [] = s := rfl

@[simp] theorem after_cons (s : State) (m : List Char) (ms : List (List Char)) :
    after s (m :: ms) = after (answer s m).2 ms := rfl

theorem after_append (s : State) (ms ns : List (List Char)) :
    after s (ms ++ ns) = after (after s ms) ns := List.foldl_append

theorem replies_append (s : State) (ms ns : List (List Char)) :
    replies s (ms ++ ns) = replies s ms ++ replies (after s ms) ns := by
  induction ms generalizing s with
  | nil => rfl
  | cons m ms ih => rw [List.cons_append, replies, ih, replies, after_cons, List.cons_append]

/-- Each message is answered in the state after those before it. -/
theorem replies_eq_mapIdx (s : State) (ms : List (List Char)) :
    replies s ms = ms.mapIdx fun i m => (answer (after s (ms.take i)) m).1 := by
  induction ms generalizing s with
  | nil => rfl
  | cons m ms ih =>
    rw [replies, ih, List.mapIdx_cons]
    rfl

/-! ## What a reply tells -/

/-- What is sent for a message. -/
def sent (s : State) (message : List Char) : Json := (answer s message).1.toJson

/-- What is sent tells which request it answers and how that went. -/
structure Tells (s : State) (message : List Char) : Prop where
  request : ∀ r, Request.read? message = some r →
    (sent s message).member? "id" = some (.str (r.id.getD (eventName s.2.nextEvent))) ∧
      ((sent s message).member? "receipt").bind (Json.member? "op") = some (.str r.operation)
  unreadable : Request.read? message = none →
    (sent s message).member? "id" = some (.str "") ∧
      (sent s message).member? "success" = some (.bool false) ∧
      ((sent s message).member? "error").bind (Json.member? "code") =
        some (.str "invalid_request") ∧
      (answer s message).2 = s
  result : ((sent s message).member? "result").isSome ↔
    (sent s message).member? "success" = some (.bool true)
  error : ((sent s message).member? "error").isSome ↔
    (sent s message).member? "success" = some (.bool false)

theorem Receipt.member?_op (r : Receipt) : r.toJson.member? "op" = some (.str r.operation) := rfl

namespace Reply

variable (r : Reply)

theorem member?_id : r.toJson.member? "id" = some (.str r.id) := rfl

theorem member?_success : r.toJson.member? "success" = some (.bool r.succeeded) := rfl

theorem member?_receipt : r.toJson.member? "receipt" = some r.receipt.toJson := rfl

theorem isSome_result : (r.toJson.member? "result").isSome = r.succeeded := by
  obtain ⟨id, receipt, outcome⟩ := r
  cases outcome with
  | ok v => rfl
  | error f => rfl

theorem isSome_error : (r.toJson.member? "error").isSome = !r.succeeded := by
  obtain ⟨id, receipt, outcome⟩ := r
  cases outcome with
  | ok v => rfl
  | error f => rfl

end Reply

/-- The name that a reply carries is that of the request, or a new one. -/
theorem ends_replyId (r : Request) (w : World) :
    Run.Ends w (replyId r) fun id _ => id = r.id.getD (eventName w.nextEvent) := by
  unfold replyId
  cases r.id with
  | some id => exact rfl
  | none => exact rfl

/-- Whatever comes of a request, its reply has its name and says what was asked. -/
theorem ends_handle (g : Gate) (r : Request) (w : World) :
    Run.Ends w (handle g r) fun a _ =>
      a.1.id = r.id.getD (eventName w.nextEvent) ∧ a.1.receipt.operation = r.operation := by
  refine (ends_replyId r w).bind fun id w' hid => ?_
  refine Run.ends_bind_of_forall fun outcome w'' => ?_
  cases outcome with
  | ok a => exact ⟨hid, rfl⟩
  | error fault => exact ⟨hid, rfl⟩

theorem tells (s : State) (message : List Char) : Tells s message where
  request := by
    intro r hr
    obtain ⟨hid, hoperation⟩ := ends_handle s.1 r s.2
    rw [sent, answer, hr, Reply.member?_id, Reply.member?_receipt, Option.bind_some,
      Receipt.member?_op]
    exact ⟨congrArg (some ∘ Json.str) hid, congrArg (some ∘ Json.str) hoperation⟩
  unreadable := by
    intro hnone
    rw [sent, answer, hnone]
    exact ⟨rfl, rfl, rfl, rfl⟩
  result := by
    rw [sent, Reply.isSome_result, Reply.member?_success]
    simp
  error := by
    rw [sent, Reply.isSome_error, Reply.member?_success]
    simp

/-! ## Lines -/

/-- What serving messages in order comes to. -/
def served (s : State) (ms : List (List Char)) : Session × World :=
  (⟨replies s ms, (after s ms).1, .ok ()⟩, (after s ms).2)

theorem lineText?_utf8 (line : List Char) : lineText? (utf8 line) = some (trim line) := by
  rw [lineText?, fromUTF8?_utf8, Option.map_some, String.toList_ofList]

theorem run_handleLine (s : State) (m : List Char) :
    (handleLine s.1 m).run s.2 = (((answer s m).1, (answer s m).2.1), (answer s m).2.2) := by
  unfold handleLine answer
  cases Request.read? m with
  | some r => rfl
  | none => rfl

/-- A line that is not blank is answered before the others are served. -/
theorem run_serveLines_cons {g : Gate} {w : World} {line : List UInt8} {ls : List (List UInt8)}
    {m : List Char} (hm : lineText? line = some m) (hne : m ≠ []) :
    (serveLines g (line :: ls)).run w =
      let a := answer (g, w) m
      let rest := (serveLines a.2.1 ls).run a.2.2
      ({ rest.1 with replies := a.1 :: rest.1.replies }, rest.2) := by
  have hstep : (serveLines g (line :: ls)).run w =
      let a := (handleLine g m).run w
      let rest := (serveLines a.1.2 ls).run a.2
      ({ rest.1 with replies := a.1.1 :: rest.1.replies }, rest.2) := by
    obtain ⟨c, m, rfl⟩ := List.exists_cons_of_ne_nil hne
    rw [serveLines, hm]
    rfl
  rw [hstep, run_handleLine (g, w)]

theorem serveLines_utf8 (s : State) (ls : List (List Char)) :
    (serveLines s.1 (ls.map utf8)).run s.2 = served s ((ls.map trim).filter (· ≠ [])) := by
  induction ls generalizing s with
  | nil => rfl
  | cons line ls ih =>
    rw [List.map_cons, List.map_cons]
    by_cases hblank : trim line = []
    · rw [hblank, serveLines, lineText?_utf8, hblank]
      exact ih s
    · have hkept : (trim line :: ls.map trim).filter (· ≠ []) =
          trim line :: (ls.map trim).filter (· ≠ []) := by simp [hblank]
      rw [run_serveLines_cons (lineText?_utf8 line) hblank, hkept]
      simp only [ih]
      rfl

/-! ## Sessions -/

/-- A session over the bytes of a text. -/
def serveText (s : State) (text : String) : Session × World :=
  (serve s.1 text.toUTF8.data.toList).run s.2

/-- What a session over a text prints. -/
def printed (color : Bool) (s : State) (text : String) : String :=
  ((Cli.runOn color s.1 text.toUTF8.data.toList .serve).run s.2).1.output

theorem serveText_eq (s : State) (text : String) :
    serveText s text = served s (messages text.toList) := by
  obtain ⟨ls, hls, hsplit⟩ := exists_lines_utf8 text.toList
  rw [serveText, serve, data_toUTF8, hls, serveLines_utf8, messages_eq hsplit]

/-- One session and then another. -/
def Session.followedBy (first second : Session) : Session where
  replies := first.replies ++ second.replies
  gate := second.gate
  ending := second.ending

/-- A session over a text is the fold of its messages. -/
structure Folds (s : State) (text : String) : Prop where
  ending : (serveText s text).1.ending = .ok ()
  state : ((serveText s text).1.gate, (serveText s text).2) = after s (messages text.toList)
  replies : (serveText s text).1.replies = (messages text.toList).mapIdx fun i m =>
    (answer (after s ((messages text.toList).take i)) m).1
  tells : ∀ i (hi : i < (messages text.toList).length),
    Tells (after s ((messages text.toList).take i)) (messages text.toList)[i]
  /-- One line a reply, and nothing after the last line break. -/
  lines : ∀ color, splitOn '\n' (printed color s text).toList =
    (serveText s text).1.replies.map Reply.line ++ [[]]
  cut : ∀ a b, text = a ++ "\n" ++ b →
    let first := serveText s (a ++ "\n")
    let second := serveText (first.1.gate, first.2) b
    serveText s text = (first.1.followedBy second.1, second.2)

theorem toList_inLines (ls : List (List Char)) :
    (Cli.inLines (ls.map String.ofList)).toList = ls.flatMap (· ++ ['\n']) := by
  simp [Cli.inLines, String.toList_join, List.flatMap_map]

theorem splitOn_terminated {ls : List (List Char)} (h : ∀ l ∈ ls, '\n' ∉ l) :
    splitOn '\n' (ls.flatMap (· ++ ['\n'])) = ls ++ [[]] := by
  induction ls with
  | nil => rfl
  | cons l ls ih =>
    have hl := h l List.mem_cons_self
    have hrest := ih fun l' hl' => h l' (List.mem_cons_of_mem l hl')
    rw [List.flatMap_cons, List.append_assoc, List.singleton_append, splitOn_append,
      splitOn_of_notMem hl, hrest]
    rfl

/-- Serving a text that ends with a newline and then another is serving both in one session. -/
theorem serveText_append (s : State) (a b : String) :
    let first := serveText s (a ++ "\n")
    let second := serveText (first.1.gate, first.2) b
    serveText s (a ++ "\n" ++ b) = (first.1.followedBy second.1, second.2) := by
  have hline : (a ++ "\n").toList = a.toList ++ '\n' :: [] := by simp
  have hboth : (a ++ "\n" ++ b).toList = a.toList ++ '\n' :: b.toList := by simp
  simp only [serveText_eq, hline, hboth, messages_newline, messages_nil, List.append_nil]
  rw [served, replies_append, after_append]
  rfl

theorem serve_folds (s : State) (text : String) : Folds s text where
  ending := by rw [serveText_eq, served]
  state := by rw [serveText_eq, served]
  replies := by rw [serveText_eq, served, replies_eq_mapIdx]
  tells := fun i hi => Rpc.tells _ _
  lines := by
    intro color
    have hprinted : printed color s text =
        Cli.inLines ((serveText s text).1.replies.map fun r => String.ofList r.line) := rfl
    have hlines : ∀ l ∈ (serveText s text).1.replies.map Reply.line, '\n' ∉ l := by
      intro l hl
      obtain ⟨r, -, rfl⟩ := List.mem_map.mp hl
      exact (Json.noControl_print r.toJson).newline_notMem
    rw [hprinted, ← splitOn_terminated hlines, ← toList_inLines, List.map_map]
    rfl
  cut := by
    rintro a b rfl
    exact serveText_append s a b

end EditGate.Rpc
