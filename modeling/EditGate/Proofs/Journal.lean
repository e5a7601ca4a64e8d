import EditGate.Notice
import EditGate.Proofs.Approval.Form
import EditGate.Proofs.Json.OneLine
import EditGate.Proofs.Json.ReadBack
import EditGate.Proofs.Text.Cut

/-!
# The lines of a journal

A journal has a line for each diagnostic. Whatever characters a diagnostic carries, its line is one
line, and reads back to it (`Diagnostic.ofLine?_print`); so the lines of a journal are read back to
the diagnostics that were appended, in order (`Diagnostic.readLines_lines`).
-/

namespace EditGate

/-! ## Flat objects -/

namespace Json

/-- A string or nothing. -/
def IsFlat : Json → Prop
  | .null => True
  | .str _ => True
  | _ => False

theorem readsAs_flat {v : Json} (h : v.IsFlat) (fuel room : Nat) (rest : List Char) :
    ReadsAs (fuel + 1) room v.print rest v := by
  cases v with
  | null => exact readsAs_word (readTree_null fuel rest) (by rw [Tree.toJson?])
  | str s => exact readsAs_str s fuel room rest
  | _ => exact h.elim

theorem printMembers_cons (k : String) (v : Json) (n : String × Json) (ns : List (String × Json)) :
    printMembers ((k, v) :: n :: ns) = printString k ++ ':' :: print v ++ ',' :: printMembers (n :: ns) := by
  rw [printMembers]
  exact List.cons_ne_nil n ns

theorem skipSpace_printMembers (m : String × Json) (ms : List (String × Json)) (s : List Char) :
    ∃ t, skipSpace (printMembers (m :: ms) ++ s) = '"' :: t := by
  obtain ⟨k, v⟩ := m
  cases ms with
  | nil => exact ⟨_, skipSpace_cons (by decide) _⟩
  | cons n ns => exact ⟨_, skipSpace_cons (by decide) _⟩

theorem length_le_printMembers (ms : List (String × Json)) :
    ms.length ≤ (printMembers ms).length := by
  induction ms with
  | nil => exact Nat.zero_le _
  | cons m ms ih =>
    obtain ⟨k, v⟩ := m
    cases ms with
    | nil =>
      simp only [printMembers, List.length_append, List.length_cons, List.length_nil]
      omega
    | cons n ns =>
      rw [printMembers_cons]
      simp only [List.length_append, List.length_cons] at ih ⊢
      omega

/-- Members of an object are read as they are printed, if their values are flat. -/
theorem readMembers_flat {room : Nat} (fuel : Nat) (m : String × Json) (ms : List (String × Json))
    (rest : List Char) (h : ∀ n ∈ m :: ms, n.2.IsFlat) (hfuel : (m :: ms).length < fuel) :
    ∃ ts, readMembers fuel (printMembers (m :: ms) ++ '\x7d' :: rest) = some (ts, rest) ∧
      membersToJson? room ts = some (m :: ms) := by
  induction ms generalizing m fuel with
  | nil =>
    obtain ⟨k, v⟩ := m
    obtain ⟨fuel, rfl⟩ : ∃ j, fuel = j + 2 := ⟨fuel - 2, by simp at hfuel; omega⟩
    obtain ⟨t, r, hread, hskip, hvalue⟩ :=
      readsAs_flat (h (k, v) List.mem_cons_self) fuel room ('\x7d' :: rest)
    refine ⟨[(k.toList.map pieceOf, t)], ?_, by simp [membersToJson?, hvalue, string?_pieces]⟩
    rw [printMembers, printString]
    simp only [List.append_assoc, List.cons_append, List.nil_append]
    exact readMembers_brace (skipSpace_cons (by decide) _) (readPieces_printed k.toList _) hread
      (hskip.trans (skipSpace_cons (by decide) _))
  | cons n ns ih =>
    obtain ⟨k, v⟩ := m
    obtain ⟨fuel, rfl⟩ : ∃ j, fuel = j + 2 := ⟨fuel - 2, by simp at hfuel; omega⟩
    obtain ⟨ts, hrest, hvalues⟩ := ih (fuel + 1) n (fun x hx => h x (List.mem_cons_of_mem _ hx))
      (by simp at hfuel ⊢; omega)
    obtain ⟨t, r, hread, hskip, hvalue⟩ := readsAs_flat (h (k, v) List.mem_cons_self) fuel room
      (',' :: (printMembers (n :: ns) ++ '\x7d' :: rest))
    refine ⟨(k.toList.map pieceOf, t) :: ts, ?_, by
      simp [membersToJson?, hvalue, hvalues, string?_pieces]⟩
    rw [printMembers_cons, printString]
    simp only [List.append_assoc, List.cons_append, List.nil_append]
    rw [readMembers_comma (skipSpace_cons (by decide) _) (readPieces_printed k.toList _) hread
      (hskip.trans (skipSpace_cons (by decide) _)), hrest]
    rfl

/-- An object of strings is read back from its line, with its members sorted. -/
theorem read?_print_flat (m : String × Json) (ms : List (String × Json))
    (h : ∀ n ∈ m :: ms, n.2.IsFlat) :
    read? (Json.obj (m :: ms)).print = some (.obj (Keyed.ofList (m :: ms))) := by
  have hprint : (Json.obj (m :: ms)).print =
      '\x7b' :: (printMembers (m :: ms) ++ '\x7d' :: []) := by
    rw [print]
    rfl
  have hlength : (m :: ms).length ≤ (printMembers (m :: ms)).length := length_le_printMembers _
  obtain ⟨ts, hread, hvalue⟩ := @readMembers_flat (maxDepth - 1)
    (2 * (Json.obj (m :: ms)).print.length + 1) m ms [] h (by rw [hprint]; simp at hlength ⊢; omega)
  refine read?_eq_some_iff.mpr ⟨.object ts, [], ?_, rfl, ?_⟩
  · obtain ⟨t, hskip⟩ := skipSpace_printMembers m ms ('\x7d' :: [])
    have hopen : ∀ t', skipSpace (printMembers (m :: ms) ++ '\x7d' :: []) ≠ '\x7d' :: t' :=
      fun t' ht => absurd (List.cons.inj (hskip.symm.trans ht)).1 (by decide)
    rw [hprint] at hread ⊢
    rw [readTree_object _ hopen, readMembers_congr (skipSpace_idem _), hread]
    rfl
  · rw [Tree.toJson?, if_neg (by decide), hvalue, Option.map_some]

end Json

/-! ## Diagnostics -/

namespace Diagnostic

open RecordFit (field)

def severities : List (String × Severity) :=
  [Severity.info, .warn, .error].map fun s => (s.word, s)

def fit : RecordFit Diagnostic where
  name := "Diagnostic"
  strict := false
  fields := [field "ts" Fit.string, field "event_id" Fit.string,
    field "severity" (Fit.choice severities), field "code" Fit.string,
    field "subject" (Fit.optional Fit.string), field "message" Fit.string]
  build g := do
    return {
      time := ← g.required "ts" Fit.string
      event := ← g.required "event_id" Fit.string
      notice := {
        severity := ← g.required "severity" (Fit.choice severities)
        code := ← g.required "code" Fit.string
        subject := ← g.orAbsent "subject" Fit.string
        message := ← g.required "message" Fit.string } }

/-- The diagnostic that a line writes. -/
def ofLine? (line : List Char) : Option Diagnostic :=
  (Json.read? line).bind fun v => (fit.read v).toOption

/-- The line of a diagnostic. -/
def line (d : Diagnostic) : List Char := d.toJson.print

/-- The text that some diagnostics make in a journal: each has a line, with the line feed after
it. -/
def lines (ds : List Diagnostic) : String := String.ofList (ds.flatMap fun d => d.line ++ ['\n'])

theorem ofLine?_line (d : Diagnostic) : ofLine? d.line = some d := by
  obtain ⟨time, event, severity, code, subject, message⟩ := d
  have hflat : ∀ m ∈ [("ts", Json.str time), ("event_id", .str event),
      ("severity", .str severity.word), ("code", .str code),
      ("subject", .ofOption .str subject), ("message", .str message)], m.2.IsFlat := by
    cases subject <;> simp [Json.ofOption, Json.IsFlat]
  have hread := Json.read?_print_flat _ _ hflat
  rw [ofLine?, line, toJson, hread, Option.bind_some]
  -- an object that is read has its members in the order of their keys
  have hsorted : Keyed.ofList [("ts", Json.str time), ("event_id", .str event),
      ("severity", .str severity.word), ("code", .str code),
      ("subject", .ofOption .str subject), ("message", .str message)] =
        [("code", .str code), ("event_id", .str event), ("message", .str message),
          ("severity", .str severity.word), ("subject", .ofOption .str subject),
          ("ts", .str time)] := by
    simp only [Keyed.ofList, Keyed.put, List.foldl, String.reduceLT, String.reduceEq, if_true, if_false]
  have hseverity : Fit.choice severities (.str severity.word) = .ok severity := by
    cases severity <;> rfl
  have hsubject : Fit.optional Fit.string (.ofOption .str subject) = .ok subject := by
    cases subject <;> rfl
  rw [hsorted, RecordFit.read_obj]
  · rfl
  · simp [fit, RecordFit.visit, RecordFit.field, List.lookup_cons, Fit.string, hseverity, hsubject,
      Except.map, bind, Except.bind]
  · simp [fit, GivenFields.required, GivenFields.orAbsent, Keyed.get?, Fit.string, hseverity,
      hsubject, bind, Except.bind, pure, Except.pure]

theorem newline_notMem_line (d : Diagnostic) : '\n' ∉ d.line :=
  (Json.noControl_print d.toJson).newline_notMem

theorem lines_append (ds es : List Diagnostic) : lines (ds ++ es) = lines ds ++ lines es := by
  rw [lines, List.flatMap_append, String.ofList_append, lines, lines]

theorem lines_singleton (d : Diagnostic) :
    lines [d] = String.ofList (d.toJson.print ++ ['\n']) := by
  rw [lines, List.flatMap_singleton, line]

/-- The diagnostics that the lines of a journal write, one for each line feed. -/
def readLines (text : List Char) : List (Option Diagnostic) :=
  (Text.splitOn '\n' text).dropLast.map ofLine?

/-- A journal is read back to the diagnostics that were appended, in order. -/
theorem readLines_lines (ds : List Diagnostic) : readLines (lines ds).toList = ds.map some := by
  rw [lines, String.toList_ofList]
  induction ds with
  | nil => rfl
  | cons d ds ih =>
    have hne := Text.splitOn_ne_nil '\n' (ds.flatMap fun d => d.line ++ ['\n'])
    rw [readLines] at ih ⊢
    rw [List.flatMap_cons, List.append_assoc, List.singleton_append, Text.splitOn_append,
      Text.splitOn_of_notMem d.newline_notMem_line, List.singleton_append,
      List.dropLast_cons_of_ne_nil hne, List.map_cons, ih, ofLine?_line, List.map_cons]

end Diagnostic

end EditGate
