import EditGate.Proofs.Json.Numbers
import EditGate.Proofs.Json.Strings
import EditGate.Proofs.Keyed

/-!
# Printed values read back

The printer in lines is undone by the reader (`read?_pretty`) on every value that a text can hold
at all: its integers are words, its objects are in order, its containers are not nested too deep,
and its doubles read back (`ReadsBack`). Every value that was read from a text is of this kind but
for its doubles (`storable_of_read?`).
-/

namespace EditGate.Json

open Decimal (Double Numeral)

variable {s rest : List Char}

/-! ## Blanks -/

theorem skipSpace_cons {c : Char} (h : isSpace c = false) (s : List Char) :
    skipSpace (c :: s) = c :: s := by
  rw [skipSpace, List.dropWhile_cons_of_neg (by simp [h])]

theorem skipSpace_space {c : Char} (h : isSpace c = true) (s : List Char) :
    skipSpace (c :: s) = skipSpace s := by
  rw [skipSpace, List.dropWhile_cons_of_pos h]
  rfl

theorem skipSpace_append (h : skipSpace s = []) (t : List Char) :
    skipSpace (s ++ t) = skipSpace t := by
  induction s with
  | nil => rfl
  | cons c s ih =>
    by_cases hc : isSpace c = true
    · rw [skipSpace_space hc] at h
      rw [List.cons_append, skipSpace_space hc, ih h]
    · rw [skipSpace_cons (by simpa using hc)] at h
      exact absurd h (List.cons_ne_nil _ _)

theorem skipSpace_replicate (n : Nat) : skipSpace (List.replicate n ' ') = [] := by
  induction n with
  | zero => rfl
  | succ n ih => rw [List.replicate_succ, skipSpace_space (by decide), ih]

theorem skipSpace_breakLine (level : Nat) (s : List Char) :
    skipSpace (breakLine level ++ s) = skipSpace s := by
  refine skipSpace_append ?_ s
  rw [breakLine, skipSpace_space (by decide), skipSpace_replicate]

theorem skipSpace_idem (s : List Char) : skipSpace (skipSpace s) = skipSpace s := by
  induction s with
  | nil => rfl
  | cons c s ih =>
    by_cases hc : isSpace c = true
    · rw [skipSpace_space hc, ih]
    · rw [skipSpace_cons (by simpa using hc), skipSpace_cons (by simpa using hc)]

/-! ## One step of the reader -/

theorem readTree_breakLine (fuel level : Nat) (s : List Char) :
    readTree fuel (breakLine level ++ s) = readTree fuel s :=
  readTree_congr (skipSpace_breakLine level s) fuel

theorem isSpace_of_isDigit {c : Char} (hc : c.isDigit = true) : isSpace c = false := by
  rw [isSpace]
  by_cases h : c = ' ' ∨ c = '\t' ∨ c = '\n' ∨ c = '\r'
  · rcases h with rfl | rfl | rfl | rfl <;> exact absurd hc (by decide)
  · simp_all

theorem StartsWithDigit.skipSpace (h : StartsWithDigit s) : skipSpace s = s := by
  obtain ⟨c, t, rfl, hc⟩ := h
  exact skipSpace_cons (isSpace_of_isDigit hc) t

theorem readTree_digit (h : StartsWithDigit s) (fuel : Nat) :
    readTree (fuel + 1) s = (readNumeral false s).map fun r => (.number r.1, r.2) := by
  rw [readTree, h.skipSpace]
  obtain ⟨c, t, rfl, hc⟩ := h
  split
  · rename_i heq
    exact absurd heq (List.cons_ne_nil _ _)
  · rename_i heq
    exact absurd ((List.cons.inj heq).1 ▸ hc) (by decide)
  · rename_i heq
    exact absurd ((List.cons.inj heq).1 ▸ hc) (by decide)
  · rename_i heq
    exact absurd ((List.cons.inj heq).1 ▸ hc) (by decide)
  · rename_i heq
    exact absurd ((List.cons.inj heq).1 ▸ hc) (by decide)
  · rename_i heq
    obtain ⟨rfl, rfl⟩ := List.cons.inj heq
    rw [if_pos hc]
    cases readNumeral false (c :: t) <;> rfl

theorem readTree_minus (fuel : Nat) (s : List Char) :
    readTree (fuel + 1) ('-' :: s) = (readNumeral true s).map fun r => (.number r.1, r.2) := by
  rw [readTree, skipSpace_cons (by decide)]
  simp only
  cases readNumeral true s <;> rfl

theorem readTree_quote (fuel : Nat) (s : List Char) :
    readTree (fuel + 1) ('"' :: s) = (readPieces s).map fun r => (.string r.1, r.2) := by
  rw [readTree, skipSpace_cons (by decide)]
  simp only
  cases readPieces s <;> rfl

theorem readTree_array (fuel : Nat) (h : ∀ t, skipSpace s ≠ ']' :: t) :
    readTree (fuel + 1) ('[' :: s) =
      (readItems fuel (skipSpace s)).map fun r => (.array r.1, r.2) := by
  rw [readTree, skipSpace_cons (by decide)]
  simp only
  cases readItems fuel (skipSpace s) <;> rfl

theorem readTree_object (fuel : Nat) (h : ∀ t, skipSpace s ≠ '\x7d' :: t) :
    readTree (fuel + 1) ('\x7b' :: s) =
      (readMembers fuel (skipSpace s)).map fun r => (.object r.1, r.2) := by
  rw [readTree, skipSpace_cons (by decide)]
  simp only
  cases readMembers fuel (skipSpace s) <;> rfl

theorem readItems_comma {fuel : Nat} {item : Tree} {r next : List Char}
    (h : readTree fuel s = some (item, r)) (hr : skipSpace r = ',' :: next) :
    readItems (fuel + 1) s = (readItems fuel next).map fun x => (item :: x.1, x.2) := by
  rw [readItems, h]
  simp only [Option.bind_eq_bind, Option.bind_some, hr]
  cases readItems fuel next <;> rfl

theorem readItems_bracket {fuel : Nat} {item : Tree} {r next : List Char}
    (h : readTree fuel s = some (item, r)) (hr : skipSpace r = ']' :: next) :
    readItems (fuel + 1) s = some ([item], next) := by
  rw [readItems, h]
  simp only [Option.bind_eq_bind, Option.bind_some, hr, Option.pure_def]

section Members

variable {fuel : Nat} {name : List Piece} {t value r next : List Char} {item : Tree}

theorem readMembers_comma (hs : skipSpace s = '"' :: t)
    (ht : readPieces t = some (name, ':' :: value)) (h : readTree fuel value = some (item, r))
    (hr : skipSpace r = ',' :: next) :
    readMembers (fuel + 1) s =
      (readMembers fuel next).map fun x => ((name, item) :: x.1, x.2) := by
  have hcolon : skipSpace (':' :: value) = ':' :: value := skipSpace_cons (by decide) value
  rw [readMembers, hs]
  simp only [ht, Option.bind_eq_bind, Option.bind_some, hcolon, h, hr]
  cases readMembers fuel next <;> rfl

theorem readMembers_brace (hs : skipSpace s = '"' :: t)
    (ht : readPieces t = some (name, ':' :: value)) (h : readTree fuel value = some (item, r))
    (hr : skipSpace r = '\x7d' :: next) :
    readMembers (fuel + 1) s = some ([(name, item)], next) := by
  have hcolon : skipSpace (':' :: value) = ':' :: value := skipSpace_cons (by decide) value
  rw [readMembers, hs]
  simp only [ht, Option.bind_eq_bind, Option.bind_some, hcolon, h, hr, Option.pure_def]

end Members

/-! ## Values that can be read back -/

/-- The double is read back from its printed form. -/
def DoubleReadsBack (d : Double) : Prop := read? (printDouble d) = some (.double d)

instance (d : Double) : Decidable (DoubleReadsBack d) :=
  inferInstanceAs (Decidable (read? (printDouble d) = some (.double d)))

mutual

/-- A text can hold the value with `room` more containers nested, and its doubles are as said. -/
def Storable (ok : Double → Prop) : Nat → Json → Prop
  | _, null => True
  | _, bool _ => True
  | _, int n => IsWord n
  | _, double d => ok d
  | _, str _ => True
  | room, arr items => 0 < room ∧ ItemsStorable ok (room - 1) items
  | room, obj members => 0 < room ∧ Keyed.Sorted members ∧ MembersStorable ok (room - 1) members

def ItemsStorable (ok : Double → Prop) : Nat → List Json → Prop
  | _, [] => True
  | room, v :: vs => Storable ok room v ∧ ItemsStorable ok room vs

def MembersStorable (ok : Double → Prop) : Nat → List (String × Json) → Prop
  | _, [] => True
  | room, (_, v) :: ms => Storable ok room v ∧ MembersStorable ok room ms

end

/-- A text can hold the value, and its doubles read back. -/
abbrev ReadsBack (room : Nat) (v : Json) : Prop := Storable DoubleReadsBack room v

/-- A value starts with nothing that is skipped or that closes a container. -/
def StartsValue (s : List Char) : Prop :=
  ∃ c t, s = c :: t ∧ isSpace c = false ∧ c ≠ ']'

theorem StartsWithDigit.startsValue (h : StartsWithDigit s) : StartsValue s := by
  obtain ⟨c, t, rfl, hc⟩ := h
  refine ⟨c, t, rfl, isSpace_of_isDigit hc, fun hb => ?_⟩
  rw [hb] at hc
  exact absurd hc (by decide)

theorem startsValue_printIndented (level : Nat) (v : Json) :
    StartsValue (printIndented level v) := by
  cases v with
  | null => exact ⟨'n', _, rfl, by decide, by decide⟩
  | bool b =>
    cases b with
    | true => exact ⟨'t', _, rfl, by decide, by decide⟩
    | false => exact ⟨'f', _, rfl, by decide, by decide⟩
  | int n =>
    rw [printIndented]
    rcases printInt_eq n with ⟨h, -⟩ | ⟨h, -⟩
    · rw [h]
      exact (startsWithDigit_digits _).startsValue
    · rw [h]
      exact ⟨'-', _, rfl, by decide, by decide⟩
  | double d =>
    rw [printIndented]
    obtain ⟨s, hs, h | h⟩ := printDouble_eq d
    · rw [h]
      exact hs.startsValue
    · rw [h]
      exact ⟨'-', _, rfl, by decide, by decide⟩
  | str s => exact ⟨'"', _, rfl, by decide, by decide⟩
  | arr items =>
    rw [printIndented]
    split
    · exact ⟨'[', _, rfl, by decide, by decide⟩
    · exact ⟨'[', _, rfl, by decide, by decide⟩
  | obj members =>
    rw [printIndented]
    split
    · exact ⟨'\x7b', _, rfl, by decide, by decide⟩
    · exact ⟨'\x7b', _, rfl, by decide, by decide⟩

theorem length_printIndented_pos (level : Nat) (v : Json) : 0 < (printIndented level v).length := by
  obtain ⟨c, t, h, -, -⟩ := startsValue_printIndented level v
  rw [h]
  exact Nat.succ_pos _

/-! ## Reading a printed value -/

/-- A text is read as a value up to blanks, whatever follows. -/
def ReadsAs (fuel room : Nat) (s rest : List Char) (v : Json) : Prop :=
  ∃ t r, readTree fuel (s ++ rest) = some (t, r) ∧ skipSpace r = skipSpace rest ∧
    t.toJson? room = some v

theorem readsAs_int {n : Int} (h : IsWord n) (hr : Ends rest) (fuel room : Nat) :
    ReadsAs (fuel + 1) room (printInt n) rest (.int n) := by
  have hint := toInt?_integerNumeral h
  refine ⟨.number (integerNumeral (decide (n < 0)) n.natAbs), rest, ?_, rfl, ?_⟩
  · rcases printInt_eq n with ⟨hp, hn⟩ | ⟨hp, hn⟩
    · rw [hp, readTree_digit ((startsWithDigit_digits _).append rest), readNumeral_digits hr,
        decide_eq_false hn]
      rfl
    · rw [hp, List.cons_append, readTree_minus, readNumeral_digits hr, decide_eq_true hn]
      rfl
  · rw [Tree.toJson?, number?, hint]

/-- What reading a whole text comes to, as reading its tree and its value. -/
theorem read?_eq_some_iff {v : Json} :
    read? s = some v ↔ ∃ t r, readTree (2 * s.length + 2) s = some (t, r) ∧ skipSpace r = [] ∧
      t.toJson? maxDepth = some v := by
  rw [read?, Tree.read?]
  cases readTree (2 * s.length + 2) s with
  | none => simp
  | some x =>
    obtain ⟨t, r⟩ := x
    by_cases hr : skipSpace r = []
    · simp only [Option.bind_eq_bind, Option.bind_some, hr, List.isEmpty_nil, if_true,
        Option.some.injEq, Prod.mk.injEq]
      constructor
      · exact fun hv => ⟨t, r, ⟨rfl, rfl⟩, hr, hv⟩
      · rintro ⟨t, r, ⟨rfl, rfl⟩, -, hv⟩
        exact hv
    · simp [hr]

/-- A double that is read back by itself is read back in a value. -/
theorem readsAs_double {d : Double} (h : read? (printDouble d) = some (.double d))
    (hr : Ends rest) (fuel room : Nat) :
    ReadsAs (fuel + 1) room (printDouble d) rest (.double d) := by
  obtain ⟨t, r, htree, hspace, hvalue⟩ := read?_eq_some_iff.mp h
  obtain ⟨s, hs, hp⟩ := printDouble_eq d
  have hread : ∃ negative, readTree (2 * (printDouble d).length + 2) (printDouble d) =
        (readNumeral negative s).map (fun x => (.number x.1, x.2)) ∧
      readTree (fuel + 1) (printDouble d ++ rest) =
        (readNumeral negative (s ++ rest)).map fun x => (.number x.1, x.2) := by
    rcases hp with hp | hp
    · rw [hp]
      exact ⟨false, readTree_digit hs _, readTree_digit (hs.append rest) _⟩
    · rw [hp]
      exact ⟨true, readTree_minus _ s, readTree_minus _ (s ++ rest)⟩
  obtain ⟨negative, halone, hcontext⟩ := hread
  rw [halone, Option.map_eq_some_iff] at htree
  obtain ⟨⟨n, u⟩, hn, hpair⟩ := htree
  obtain ⟨rfl, rfl⟩ := Prod.mk.inj hpair
  refine ⟨.number n, u ++ rest, ?_, skipSpace_append hspace rest, ?_⟩
  · rw [hcontext, readNumeral_append hr, hn]
    rfl
  · rw [Tree.toJson?] at hvalue ⊢
    exact hvalue

theorem readsAs_str (x : String) (fuel room : Nat) (rest : List Char) :
    ReadsAs (fuel + 1) room (printString x) rest (.str x) := by
  refine ⟨.string (x.toList.map pieceOf), rest, ?_, rfl, ?_⟩
  · rw [printString, List.cons_append, List.cons_append, List.append_assoc, readTree_quote]
    rw [List.singleton_append, readPieces_printed]
    rfl
  · rw [Tree.toJson?, string?_pieces, Option.map_some]

theorem readsAs_word {word : List Char} {t : Tree} {v : Json} {fuel room : Nat}
    (h : readTree (fuel + 1) (word ++ rest) = some (t, rest)) (hv : t.toJson? room = some v) :
    ReadsAs (fuel + 1) room word rest v := ⟨t, rest, h, rfl, hv⟩

theorem readTree_null (fuel : Nat) (rest : List Char) :
    readTree (fuel + 1) ("null".toList ++ rest) = some (.null, rest) := rfl

theorem readTree_bool (b : Bool) (fuel : Nat) (rest : List Char) :
    readTree (fuel + 1) (printBool b ++ rest) = some (.bool b, rest) := by
  cases b <;> rfl

/-- The break before a closing bracket or brace ends a value. -/
theorem ends_breakLine (level : Nat) (s : List Char) : Ends (breakLine level ++ s) :=
  ends_cons (.inr (.inl rfl))

theorem printItemsIndented_cons (level : Nat) (v w : Json) (ws : List Json) :
    printItemsIndented level (v :: w :: ws) =
      breakLine level ++ printIndented level v ++ ',' :: printItemsIndented level (w :: ws) := by
  rw [printItemsIndented]
  exact List.cons_ne_nil w ws

theorem printMembersIndented_cons (level : Nat) (k : String) (v : Json) (n : String × Json)
    (ns : List (String × Json)) :
    printMembersIndented level ((k, v) :: n :: ns) =
      breakLine level ++ printString k ++ ':' :: ' ' :: printIndented level v ++
        ',' :: printMembersIndented level (n :: ns) := by
  rw [printMembersIndented]
  exact List.cons_ne_nil n ns

theorem printItemsIndented_eq (level : Nat) (v : Json) (vs : List Json) :
    ∃ t, printItemsIndented level (v :: vs) = breakLine level ++ (printIndented level v ++ t) := by
  cases vs with
  | nil => exact ⟨[], by rw [printItemsIndented, List.append_nil]⟩
  | cons w ws =>
    exact ⟨',' :: printItemsIndented level (w :: ws), by
      rw [printItemsIndented_cons, List.append_assoc]⟩

/-- What is read of items starts with the first of them. -/
theorem skipSpace_printItemsIndented (level : Nat) (v : Json) (vs : List Json) (s : List Char) :
    ∃ c t, skipSpace (printItemsIndented level (v :: vs) ++ s) = c :: t ∧ c ≠ ']' := by
  obtain ⟨u, hu⟩ := printItemsIndented_eq level v vs
  obtain ⟨c, t, hct, hspace, hc⟩ := startsValue_printIndented level v
  rw [hu, List.append_assoc, skipSpace_breakLine, hct]
  exact ⟨c, _, skipSpace_cons hspace _, hc⟩

theorem skipSpace_printMembersIndented (level : Nat) (m : String × Json)
    (ms : List (String × Json)) (s : List Char) :
    ∃ t, skipSpace (printMembersIndented level (m :: ms) ++ s) = '"' :: t := by
  obtain ⟨k, v⟩ := m
  cases ms with
  | nil =>
    rw [printMembersIndented, printString]
    simp only [List.append_assoc, List.cons_append, skipSpace_breakLine]
    exact ⟨_, skipSpace_cons (by decide) _⟩
  | cons n ns =>
    rw [printMembersIndented_cons, printString]
    simp only [List.append_assoc, List.cons_append, skipSpace_breakLine]
    exact ⟨_, skipSpace_cons (by decide) _⟩

/-- An array is read back if its items are read up to its bracket. -/
theorem readsAs_arr {fuel room level : Nat} {v : Json} {vs : List Json} {ts : List Tree}
    (hroom : 0 < room)
    (hread : readItems fuel (printItemsIndented (level + 1) (v :: vs) ++
      (breakLine level ++ ']' :: rest)) = some (ts, rest))
    (hvalue : itemsToJson? (room - 1) ts = some (v :: vs)) :
    ReadsAs (fuel + 1) room (printIndented level (.arr (v :: vs))) rest (.arr (v :: vs)) := by
  have hprint : printIndented level (.arr (v :: vs)) ++ rest =
      '[' :: (printItemsIndented (level + 1) (v :: vs) ++ (breakLine level ++ ']' :: rest)) := by
    rw [printIndented, if_neg (by simp)]
    simp only [List.cons_append, List.append_assoc, List.nil_append]
  obtain ⟨c, t, hskip, hc⟩ := skipSpace_printItemsIndented (level + 1) v vs
    (breakLine level ++ ']' :: rest)
  refine ⟨.array ts, rest, ?_, rfl, ?_⟩
  · rw [hprint, readTree_array fuel fun t ht => hc (List.cons.inj (hskip.symm.trans ht)).1,
      readItems_congr (skipSpace_idem _), hread]
    rfl
  · rw [Tree.toJson?, if_neg (Nat.ne_of_gt hroom), hvalue]
    rfl

/-- An object in order is read back if its members are read up to its brace. -/
theorem readsAs_obj {fuel room level : Nat} {m : String × Json} {ms : List (String × Json)}
    {ts : List (List Piece × Tree)} (hroom : 0 < room) (hsorted : Keyed.Sorted (m :: ms))
    (hread : readMembers fuel (printMembersIndented (level + 1) (m :: ms) ++
      (breakLine level ++ '\x7d' :: rest)) = some (ts, rest))
    (hvalue : membersToJson? (room - 1) ts = some (m :: ms)) :
    ReadsAs (fuel + 1) room (printIndented level (.obj (m :: ms))) rest (.obj (m :: ms)) := by
  have hprint : printIndented level (.obj (m :: ms)) ++ rest = '\x7b' ::
      (printMembersIndented (level + 1) (m :: ms) ++ (breakLine level ++ '\x7d' :: rest)) := by
    rw [printIndented, if_neg (by simp)]
    simp only [List.cons_append, List.append_assoc, List.nil_append]
  obtain ⟨t, hskip⟩ := skipSpace_printMembersIndented (level + 1) m ms
    (breakLine level ++ '\x7d' :: rest)
  refine ⟨.object ts, rest, ?_, rfl, ?_⟩
  · rw [hprint, readTree_object fuel fun t ht => by
      exact absurd (List.cons.inj (hskip.symm.trans ht)).1 (by decide),
      readMembers_congr (skipSpace_idem _), hread]
    rfl
  · rw [Tree.toJson?, if_neg (Nat.ne_of_gt hroom), hvalue, Option.map_some,
      Keyed.ofList_eq_self hsorted]

-- The fuel covers what is printed: each step of the reader takes at least one character.
mutual

theorem readsAs_printIndented {room : Nat} (fuel level : Nat) (v : Json) (rest : List Char)
    (h : Storable DoubleReadsBack room v) (hfuel : (printIndented level v).length ≤ fuel)
    (hr : Ends rest) : ReadsAs fuel room (printIndented level v) rest v := by
  obtain ⟨fuel, rfl⟩ : ∃ k, fuel = k + 1 :=
    ⟨fuel - 1, by have := length_printIndented_pos level v; omega⟩
  match v with
  | null =>
    rw [printIndented]
    exact readsAs_word (readTree_null fuel rest) (by rw [Tree.toJson?])
  | bool b =>
    rw [printIndented]
    exact readsAs_word (readTree_bool b fuel rest) (by rw [Tree.toJson?])
  | int n =>
    rw [printIndented]
    rw [Storable] at h
    exact readsAs_int h hr fuel room
  | double d =>
    rw [printIndented]
    rw [Storable] at h
    exact readsAs_double h hr fuel room
  | str x =>
    rw [printIndented]
    exact readsAs_str x fuel room rest
  | arr [] =>
    rw [Storable] at h
    exact ⟨.array [], rest, rfl, rfl, by simp [Tree.toJson?, itemsToJson?, Nat.ne_of_gt h.1]⟩
  | arr (w :: ws) =>
    rw [Storable] at h
    obtain ⟨hroom, hitems⟩ := h
    rw [printIndented, if_neg (by simp)] at hfuel
    rw [List.length_append, List.length_append, List.length_cons, List.length_singleton] at hfuel
    obtain ⟨ts, hread, hvalue⟩ :=
      readItems_printed fuel (level + 1) level w ws rest hitems (by omega)
    exact readsAs_arr hroom hread hvalue
  | obj [] =>
    rw [Storable] at h
    exact ⟨.object [], rest, rfl, rfl, by
      simp [Tree.toJson?, membersToJson?, Nat.ne_of_gt h.1, Keyed.ofList]⟩
  | obj (m :: ms) =>
    rw [Storable] at h
    obtain ⟨hroom, hsorted, hmembers⟩ := h
    rw [printIndented, if_neg (by simp)] at hfuel
    rw [List.length_append, List.length_append, List.length_cons, List.length_singleton] at hfuel
    obtain ⟨ts, hread, hvalue⟩ :=
      readMembers_printed fuel (level + 1) level m ms rest hmembers (by omega)
    exact readsAs_obj hroom hsorted hread hvalue

theorem readItems_printed {room : Nat} (fuel level last : Nat) (v : Json) (vs : List Json)
    (rest : List Char) (h : ItemsStorable DoubleReadsBack room (v :: vs))
    (hfuel : (printItemsIndented level (v :: vs)).length < fuel) :
    ∃ ts, readItems fuel (printItemsIndented level (v :: vs) ++ (breakLine last ++ ']' :: rest)) =
        some (ts, rest) ∧ itemsToJson? room ts = some (v :: vs) := by
  rw [ItemsStorable] at h
  obtain ⟨hv, hvs⟩ := h
  obtain ⟨fuel, rfl⟩ : ∃ k, fuel = k + 1 := ⟨fuel - 1, by omega⟩
  match vs with
  | [] =>
    rw [printItemsIndented, List.length_append] at hfuel
    obtain ⟨t, r, hread, hskip, hvalue⟩ := readsAs_printIndented fuel level v
      (breakLine last ++ ']' :: rest) hv (by omega) (ends_breakLine last _)
    refine ⟨[t], ?_, ?_⟩
    · rw [printItemsIndented, List.append_assoc]
      refine readItems_bracket ((readTree_breakLine fuel level _).trans hread) ?_
      rw [hskip, skipSpace_breakLine, skipSpace_cons (by decide)]
    · simp [itemsToJson?, hvalue]
  | w :: ws =>
    rw [printItemsIndented_cons, List.length_append, List.length_append,
      List.length_cons] at hfuel
    obtain ⟨ts, hrest, hvalues⟩ := readItems_printed fuel level last w ws rest hvs (by omega)
    obtain ⟨t, r, hread, hskip, hvalue⟩ := readsAs_printIndented fuel level v
      (',' :: (printItemsIndented level (w :: ws) ++ (breakLine last ++ ']' :: rest))) hv
      (by omega) (ends_cons (.inl rfl))
    refine ⟨t :: ts, ?_, ?_⟩
    · rw [printItemsIndented_cons, List.append_assoc, List.append_assoc,
        List.cons_append, readItems_comma ((readTree_breakLine fuel level _).trans hread)
          (hskip.trans (skipSpace_cons (by decide) _)), hrest]
      rfl
    · simp [itemsToJson?, hvalue, hvalues]

theorem readMembers_printed {room : Nat} (fuel level last : Nat) (m : String × Json)
    (ms : List (String × Json)) (rest : List Char)
    (h : MembersStorable DoubleReadsBack room (m :: ms))
    (hfuel : (printMembersIndented level (m :: ms)).length < fuel) :
    ∃ ts, readMembers fuel (printMembersIndented level (m :: ms) ++
          (breakLine last ++ '\x7d' :: rest)) = some (ts, rest) ∧
      membersToJson? room ts = some (m :: ms) := by
  obtain ⟨k, v⟩ := m
  rw [MembersStorable] at h
  obtain ⟨hv, hms⟩ := h
  obtain ⟨fuel, rfl⟩ : ∃ j, fuel = j + 1 := ⟨fuel - 1, by omega⟩
  match ms with
  | [] =>
    simp only [printMembersIndented, List.length_append, List.length_cons] at hfuel
    obtain ⟨t, r, hread, hskip, hvalue⟩ := readsAs_printIndented fuel level v
      (breakLine last ++ '\x7d' :: rest) hv (by omega) (ends_breakLine last _)
    refine ⟨[(k.toList.map pieceOf, t)], ?_, ?_⟩
    · rw [printMembersIndented, printString]
      simp only [List.append_assoc, List.cons_append, List.nil_append]
      refine readMembers_brace ((skipSpace_breakLine level _).trans (skipSpace_cons (by decide) _))
        (readPieces_printed k.toList _)
        ((readTree_congr (skipSpace_space (by decide) _) fuel).trans hread) ?_
      rw [hskip, skipSpace_breakLine, skipSpace_cons (by decide)]
    · simp [membersToJson?, hvalue, string?_pieces]
  | n :: ns =>
    rw [printMembersIndented_cons] at hfuel
    simp only [List.length_append, List.length_cons] at hfuel
    -- the comma after the first value ends it, and the other members are read by induction
    obtain ⟨ts, hrest, hvalues⟩ := readMembers_printed fuel level last n ns rest hms (by omega)
    obtain ⟨t, r, hread, hskip, hvalue⟩ := readsAs_printIndented fuel level v
      (',' :: (printMembersIndented level (n :: ns) ++ (breakLine last ++ '\x7d' :: rest))) hv
      (by omega) (ends_cons (.inl rfl))
    refine ⟨(k.toList.map pieceOf, t) :: ts, ?_, ?_⟩
    · rw [printMembersIndented_cons, printString]
      simp only [List.append_assoc, List.cons_append, List.nil_append]
      rw [readMembers_comma
        ((skipSpace_breakLine level _).trans (skipSpace_cons (by decide) _))
        (readPieces_printed k.toList _)
        ((readTree_congr (skipSpace_space (by decide) _) fuel).trans hread)
        (hskip.trans (skipSpace_cons (by decide) _)), hrest]
      rfl
    · simp [membersToJson?, hvalue, hvalues, string?_pieces]

end

/-- A value that a text can hold is read back from its printed lines. -/
theorem read?_pretty {v : Json} (h : ReadsBack maxDepth v) : read? v.pretty = some v := by
  obtain ⟨t, r, hread, hskip, hvalue⟩ :=
    readsAs_printIndented (2 * v.pretty.length + 2) 0 v [] h (by rw [pretty]; omega) ends_nil
  rw [List.append_nil] at hread
  exact read?_eq_some_iff.mpr ⟨t, r, hread, hskip, hvalue⟩

/-! ## Values that were read -/

mutual

/-- The doubles of a value. -/
def doubles : Json → List Double
  | double d => [d]
  | arr items => itemsDoubles items
  | obj members => membersDoubles members
  | _ => []

def itemsDoubles : List Json → List Double
  | [] => []
  | v :: vs => doubles v ++ itemsDoubles vs

def membersDoubles : List (String × Json) → List Double
  | [] => []
  | (_, v) :: ms => doubles v ++ membersDoubles ms

end

variable {ok : Double → Prop} {room : Nat}

theorem mem_membersDoubles {d : Double} {m : String × Json} {ms : List (String × Json)}
    (hm : m ∈ ms) (hd : d ∈ m.2.doubles) : d ∈ membersDoubles ms := by
  induction ms with
  | nil => exact absurd hm List.not_mem_nil
  | cons n ns ih =>
    obtain ⟨k, v⟩ := n
    rw [membersDoubles, List.mem_append]
    rcases List.mem_cons.mp hm with rfl | hn
    · exact .inl hd
    · exact .inr (ih hn)

theorem membersStorable_iff {ms : List (String × Json)} :
    MembersStorable ok room ms ↔ ∀ m ∈ ms, Storable ok room m.2 := by
  induction ms with
  | nil => simp [MembersStorable]
  | cons n ns ih =>
    obtain ⟨k, v⟩ := n
    rw [MembersStorable, ih, List.forall_mem_cons]

theorem storable_obj_iff {ms : List (String × Json)} :
    Storable ok room (.obj ms) ↔
      0 < room ∧ Keyed.Sorted ms ∧ ∀ m ∈ ms, Storable ok (room - 1) m.2 := by
  rw [Storable, membersStorable_iff]

theorem isWord_of_toInt? {n : Numeral} {i : Int} (h : n.toInt? = some i) : IsWord i := by
  rw [Numeral.toInt?] at h
  by_cases hinteger : (!n.isInteger) = true
  · rw [if_pos hinteger] at h
    exact absurd h (by simp)
  rw [if_neg hinteger] at h
  by_cases hnegative : n.negative = true
  · rw [if_pos hnegative] at h
    by_cases hvalue : (0 < Numeral.natural n.whole &&
        Numeral.natural n.whole ≤ 0x8000000000000000) = true
    · rw [if_pos hvalue, Option.some.injEq] at h
      rw [Bool.and_eq_true, decide_eq_true_eq, decide_eq_true_eq] at hvalue
      exact ⟨by omega, by omega⟩
    · rw [if_neg hvalue] at h
      exact absurd h (by simp)
  · rw [if_neg hnegative] at h
    by_cases hvalue : Numeral.natural n.whole ≤ Numeral.wordMax
    · rw [if_pos hvalue, Option.some.injEq] at h
      rw [Numeral.wordMax] at hvalue
      exact ⟨by omega, by omega⟩
    · rw [if_neg hvalue] at h
      exact absurd h (by simp)

theorem storable_of_number? {n : Numeral} {v : Json} (h : number? n = some v)
    (hd : ∀ d ∈ v.doubles, ok d) : Storable ok room v := by
  rw [number?] at h
  split at h
  · rename_i i hi
    rw [Option.some.injEq] at h
    subst h
    exact isWord_of_toInt? hi
  · rw [Option.map_eq_some_iff] at h
    obtain ⟨d, -, rfl⟩ := h
    exact hd d (List.mem_singleton_self d)

mutual

theorem storable_of_toJson? {room : Nat} (t : Tree) (v : Json) (h : t.toJson? room = some v)
    (hd : ∀ d ∈ v.doubles, ok d) : Storable ok room v := by
  match t with
  | .null =>
    rw [Tree.toJson?, Option.some.injEq] at h
    subst h
    trivial
  | .bool b =>
    rw [Tree.toJson?, Option.some.injEq] at h
    subst h
    trivial
  | .number n =>
    rw [Tree.toJson?] at h
    exact storable_of_number? h hd
  | .string pieces =>
    rw [Tree.toJson?, Option.map_eq_some_iff] at h
    obtain ⟨x, -, rfl⟩ := h
    trivial
  | .array items =>
    rw [Tree.toJson?] at h
    split at h
    · exact absurd h (by simp)
    · rename_i hroom
      obtain ⟨vs, hvs, rfl⟩ := Option.map_eq_some_iff.mp h
      exact ⟨Nat.pos_of_ne_zero hroom, itemsStorable_of_itemsToJson? items vs hvs hd⟩
  | .object members =>
    rw [Tree.toJson?] at h
    split at h
    · exact absurd h (by simp)
    · rename_i hroom
      obtain ⟨ms, hms, rfl⟩ := Option.map_eq_some_iff.mp h
      -- of the members that were read, only those that are still there have to read back
      refine storable_obj_iff.mpr ⟨Nat.pos_of_ne_zero hroom, Keyed.sorted_ofList ms, ?_⟩
      intro m hm
      exact storable_of_membersToJson? members ms hms m (Keyed.mem_ofList hm)
        fun d hdm => hd d (mem_membersDoubles hm hdm)

theorem itemsStorable_of_itemsToJson? {room : Nat} (ts : List Tree) (vs : List Json)
    (h : itemsToJson? room ts = some vs) (hd : ∀ d ∈ itemsDoubles vs, ok d) :
    ItemsStorable ok room vs := by
  match ts with
  | [] =>
    rw [itemsToJson?, Option.some.injEq] at h
    subst h
    trivial
  | t :: ts =>
    simp only [itemsToJson?, Option.bind_eq_bind, Option.pure_def, Option.bind_eq_some_iff,
      Option.some.injEq] at h
    obtain ⟨w, hw, ws, hws, rfl⟩ := h
    rw [itemsDoubles] at hd
    exact ⟨storable_of_toJson? t w hw fun d hdw => hd d (List.mem_append_left _ hdw),
      itemsStorable_of_itemsToJson? ts ws hws fun d hdw => hd d (List.mem_append_right _ hdw)⟩

theorem storable_of_membersToJson? {room : Nat} (ts : List (List Piece × Tree))
    (ms : List (String × Json)) (h : membersToJson? room ts = some ms) :
    ∀ m ∈ ms, (∀ d ∈ m.2.doubles, ok d) → Storable ok room m.2 := by
  match ts with
  | [] =>
    rw [membersToJson?, Option.some.injEq] at h
    subst h
    exact fun m hm => absurd hm List.not_mem_nil
  | (name, t) :: ts =>
    simp only [membersToJson?, Option.bind_eq_bind, Option.pure_def, Option.bind_eq_some_iff,
      Option.some.injEq] at h
    obtain ⟨k, -, w, hw, ws, hws, rfl⟩ := h
    intro m hm hd
    rcases List.mem_cons.mp hm with rfl | hrest
    · exact storable_of_toJson? t w hw hd
    · exact storable_of_membersToJson? ts ws hws m hrest hd

end

/-- A value that was read from a text can be stored in one. -/
theorem storable_of_read? {v : Json} (h : read? s = some v)
    (hd : ∀ d ∈ v.doubles, ok d) : Storable ok maxDepth v := by
  obtain ⟨t, r, -, -, hvalue⟩ := read?_eq_some_iff.mp h
  exact storable_of_toJson? t v hvalue hd

end EditGate.Json
