import EditGate.Proofs.Gate.Fixed
import EditGate.Proofs.Rpc.Fault
import EditGate.Proofs.Rpc.Session

/-!
# Lines that are no text

A session reads a line as a text before it reads the text as a request. A text that is no request
has a reply like any other message (`run_serveLines_text`), but a line that is no text ends the
session there: what came before it is answered, and neither it nor what follows is
(`run_serveLines_noText`). So a bad line is passed over exactly if it is a text (`passesOver_iff`).
-/

namespace EditGate.Rpc

open Text

/-! ## Cutting bytes at a line feed -/

/-- Nothing is open behind the last newline. -/
def Terminated (text : String) : Prop := text = "" ∨ ∃ text', text = text' ++ "\n"

theorem lines_append_lineFeed (bs cs : List UInt8) :
    lines (bs ++ 0x0a :: cs) = lines (bs ++ [0x0a]) ++ lines cs := by
  induction bs with
  | nil => rw [List.nil_append, lines_lineFeed, List.nil_append, lines_lineFeed]; rfl
  | cons b bs ih =>
    rw [List.cons_append, List.cons_append, lines, lines]
    split
    · rw [ih, List.cons_append]
    · -- there is a first line to extend, as there is a line feed
      rw [ih]
      cases hbs : lines (bs ++ [0x0a]) with
      | nil =>
        cases bs with
        | nil => cases hbs
        | cons c bs =>
          rw [List.cons_append, lines] at hbs
          split at hbs
          · cases hbs
          · split at hbs <;> cases hbs
      | cons first rest => rfl

theorem lines_line {line : List UInt8} (h : 0x0a ∉ line) (cs : List UInt8) :
    lines (line ++ 0x0a :: cs) = line :: lines cs := by
  by_cases hline : line = []
  · rw [hline, List.nil_append, lines_lineFeed]
  · rw [lines_append h hline, lines_lineFeed]
    simp

/-- The bytes of a terminated text are cut from what follows them. -/
theorem Terminated.lines_append {text : String} (h : Terminated text) (cs : List UInt8) :
    lines (text.toUTF8.data.toList ++ cs) = lines text.toUTF8.data.toList ++ lines cs := by
  rcases h with rfl | ⟨text', rfl⟩
  · rfl
  · have hbytes : (text' ++ "\n").toUTF8.data.toList = utf8 text'.toList ++ [0x0a] := by
      rw [data_toUTF8, String.toList_append, utf8, List.flatMap_append]
      rfl
    rw [hbytes, List.append_assoc, List.singleton_append, lines_append_lineFeed]

/-! ## Runs over lines -/

/-- Texts are answered before the lines that follow them are served. -/
theorem run_serveLines_append (s : State) (ls : List (List Char)) (rest : List (List UInt8)) :
    (serveLines s.1 (ls.map utf8 ++ rest)).run s.2 =
      let first := served s ((ls.map trim).filter (· ≠ []))
      let second := (serveLines first.1.gate rest).run first.2
      (first.1.followedBy second.1, second.2) := by
  induction ls generalizing s with
  | nil => rfl
  | cons line ls ih =>
    rw [List.map_cons, List.map_cons, List.cons_append]
    by_cases hblank : trim line = []
    · rw [hblank, serveLines, lineText?_utf8, hblank]
      exact ih s
    · have hkept : (trim line :: ls.map trim).filter (· ≠ []) =
          trim line :: (ls.map trim).filter (· ≠ []) := by simp [hblank]
      rw [run_serveLines_cons (lineText?_utf8 line) hblank, hkept]
      simp only [ih]
      rfl

theorem run_serveLines_noText {line : List UInt8} (h : lineText? line = none) (g : Gate)
    (ls : List (List UInt8)) (w : World) :
    (serveLines g (line :: ls)).run w = (⟨[], g, .error (.io .notText)⟩, w) := by
  rw [serveLines, h]
  rfl

/-! ## Sessions with a bad line -/

/-- A session over some bytes. -/
def serveBytes (s : State) (bytes : List UInt8) : Session × World := (serve s.1 bytes).run s.2

/-- A line between two texts, in bytes. -/
def withLine (a : String) (line : List UInt8) (b : String) : List UInt8 :=
  a.toUTF8.data.toList ++ (line ++ 0x0a :: b.toUTF8.data.toList)

variable {a b : String} {line : List UInt8}

/-- The text before a line is served, and then the line with what follows. -/
theorem serveBytes_withLine (s : State) (ha : Terminated a) (hline : 0x0a ∉ line) (b : String) :
    serveBytes s (withLine a line b) =
      let first := serveText s a
      let second := (serveLines first.1.gate (line :: lines b.toUTF8.data.toList)).run first.2
      (first.1.followedBy second.1, second.2) := by
  obtain ⟨ls, hls, hsplit⟩ := exists_lines_utf8 a.toList
  rw [serveBytes, serve, withLine, ha.lines_append, lines_line hline, serveText_eq,
    messages_eq hsplit, data_toUTF8, hls, run_serveLines_append]

theorem ending_serveText (s : State) (text : String) : (serveText s text).1.ending = .ok () := by
  rw [serveText_eq]
  rfl

/-- A line that is a text is answered like a message of the text before it. -/
theorem serveBytes_withLine_text (s : State) (ha : Terminated a) (hline : 0x0a ∉ line)
    {m : List Char} (hm : lineText? line = some m) (hne : m ≠ []) (b : String) :
    serveBytes s (withLine a line b) =
      let first := serveText s a
      let a := answer (first.1.gate, first.2) m
      let second := serveText a.2 b
      (⟨first.1.replies ++ a.1 :: second.1.replies, second.1.gate, second.1.ending⟩, second.2) := by
  rw [serveBytes_withLine s ha hline]
  simp only [run_serveLines_cons hm hne]
  rfl

/-- What comes before a line that is no text is answered, and nothing else is. -/
theorem serveBytes_withLine_noText (s : State) (ha : Terminated a) (hline : 0x0a ∉ line)
    (b : String) (hnone : lineText? line = none) :
    serveBytes s (withLine a line b) =
      let first := serveText s a
      (⟨first.1.replies, first.1.gate, .error (.io .notText)⟩, first.2) := by
  rw [serveBytes_withLine s ha hline]
  simp only [run_serveLines_noText hnone, Session.followedBy, List.append_nil]

/-! ## Faults of requests -/

/-- No request is answered as if its line were none. -/
theorem ends_handle_ne_unreadable (g : Gate) (r : Request) (w : World) :
    Run.Ends w (handle g r) fun a _ => ∀ f, a.1.outcome = .error f → f ≠ .unreadable := by
  have hattempt : ∀ w, Run.Ends w (attempt g r) fun outcome _ =>
      ∀ f, outcome = .error f → f ≠ .unreadable := by
    intro w
    unfold attempt
    cases hop : r.operation? with
    | error fault =>
      rintro f hf
      cases hf
      exact (isOfRequest_of_operation? hop).ne_unreadable
    | ok operation =>
      refine Run.ends_bind_of_forall fun outcome w' => ?_
      cases outcome with
      | ok a => exact fun f hf => nomatch hf
      | error failure =>
        rintro f hf
        cases hf
        exact nofun
  refine Run.ends_bind_of_forall fun id w₁ => (hattempt w₁).bind fun outcome w₂ houtcome => ?_
  cases outcome with
  | ok a => exact fun f hf => nomatch hf
  | error fault =>
    rintro f hf
    cases hf
    exact houtcome _ rfl

/-! ## The main result -/

/-- The line has one reply, that it is no request, and the session goes on behind it as if it were
not there. -/
def PassesOver (s : State) (a : String) (line : List UInt8) (b : String) : Prop :=
  let first := serveText s a
  let second := serveText (first.1.gate, first.2) b
  ∃ reply : Reply, (∃ f, reply.outcome = .error f ∧ f.code = Fault.unreadable.code) ∧
    serveBytes s (withLine a line b) =
      (⟨first.1.replies ++ reply :: second.1.replies, second.1.gate, .ok ()⟩, second.2)

theorem not_passesOver_of_noText (s : State) (ha : Terminated a) (hline : 0x0a ∉ line)
    (hnone : lineText? line = none) (b : String) : ¬PassesOver s a line b := by
  rintro ⟨reply, -, hpasses⟩
  have hend := congrArg (fun x => x.1.ending)
    ((serveBytes_withLine_noText s ha hline b hnone).symm.trans hpasses)
  exact nomatch hend

theorem passesOver_of_text (s : State) (ha : Terminated a) (hline : 0x0a ∉ line) {m : List Char}
    (hm : lineText? line = some m) (hne : m ≠ []) (b : String) :
    PassesOver s a line b ↔ Request.read? m = none := by
  have hserve := serveBytes_withLine_text s ha hline hm hne b
  constructor
  · rintro ⟨reply, ⟨f, houtcome, hcode⟩, hpasses⟩
    cases hread : Request.read? m with
    | none => rfl
    | some r =>
      -- the reply in the place of the line answers the request in it
      have hreplies := congrArg (fun x => x.1.replies) (hserve.symm.trans hpasses)
      have hreply := (List.cons.inj (List.append_cancel_left hreplies)).1
      rw [answer, hread] at hreply
      have hne := ends_handle_ne_unreadable (serveText s a).1.gate r (serveText s a).2
      exact absurd (Fault.code_eq_unreadable_iff.mp hcode) (hne f (hreply ▸ houtcome))
  · intro hread
    have hanswer : answer ((serveText s a).1.gate, (serveText s a).2) m =
        (.toUnreadable (stamp (serveText s a).2.now), (serveText s a).1.gate, (serveText s a).2) := by
      rw [answer, hread]
    refine ⟨.toUnreadable (stamp (serveText s a).2.now), ⟨.unreadable, rfl, rfl⟩, ?_⟩
    rw [hserve]
    simp only [hanswer, ending_serveText]

/-- A bad line is passed over exactly if it is a text that is no request. One that is no text ends
the session with what came before it. -/
theorem passesOver_iff (s : State) (ha : Terminated a) (hline : 0x0a ∉ line)
    (hblank : lineText? line ≠ some []) (b : String) :
    (PassesOver s a line b ↔ ∃ m, lineText? line = some m ∧ Request.read? m = none) ∧
      (lineText? line = none → serveBytes s (withLine a line b) =
        let first := serveText s a
        (⟨first.1.replies, first.1.gate, .error (.io .notText)⟩, first.2)) := by
  refine ⟨?_, serveBytes_withLine_noText s ha hline b⟩
  cases hm : lineText? line with
  | none =>
    simp only [reduceCtorEq, false_and, exists_false, iff_false]
    exact not_passesOver_of_noText s ha hline hm b
  | some m =>
    have hne : m ≠ [] := fun he => hblank (he ▸ hm)
    rw [passesOver_of_text s ha hline hm hne b]
    simp

/-- A line that is a text but no request is passed over. -/
theorem passesOver_emptyObject :
    Terminated "[]\n" ∧ PassesOver (Gate.sampleGate, Gate.sampleWorld) "[]\n" [0x7b, 0x7d] "[]" := by
  have hterminated : Terminated "[]\n" := .inr ⟨"[]", rfl⟩
  have htext : lineText? [0x7b, 0x7d] = some ['\x7b', '\x7d'] := by decide +kernel
  have hline : 0x0a ∉ ([0x7b, 0x7d] : List UInt8) := by decide
  have hblank : lineText? [0x7b, 0x7d] ≠ some [] := by
    rw [htext]
    decide
  have hmain := passesOver_iff (Gate.sampleGate, Gate.sampleWorld) hterminated hline hblank "[]"
  exact ⟨hterminated, hmain.1.mpr ⟨_, htext, by decide +kernel⟩⟩

/-- A line with a byte that no text has is not passed over. -/
theorem not_passesOver_strayByte :
    ¬PassesOver (Gate.sampleGate, Gate.sampleWorld) "" [0xff] "[]" :=
  not_passesOver_of_noText _ (.inl rfl) (by decide) (by decide +kernel) _

end EditGate.Rpc
