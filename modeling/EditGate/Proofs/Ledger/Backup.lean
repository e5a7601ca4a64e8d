import EditGate.Proofs.Disk.Way
import EditGate.Proofs.Json.Numbers
import EditGate.Proofs.Ledger.Store

/-!
# Where a ledger is put aside

A text of the ledger that is put aside gets a name that is longer than that of the ledger and of its
draft, and says why it was put aside. So the backups are elsewhere than the ledger and its draft
(`placeOf_backupFor_ne`, `placeOf_backupFor_ne_draft`), and than each other.
-/

namespace EditGate

/-- Two names in place of the one that a path ends in lead to two places. -/
theorem Disk.lexical_withFileName_inj {wd : Place} {path : Path} {name other : List Char}
    (hslash : '/' ∉ name) (hlong : 2 < name.length) (hslash' : '/' ∉ other)
    (hlong' : 2 < other.length)
    (h : lexical wd (path.withFileName name) = lexical wd (path.withFileName other)) :
    name = other := by
  -- names longer than the dots are the last piece of their paths
  have hlast : ∀ {x : List Char}, '/' ∉ x → 2 < x.length →
      (lexical wd (path.withFileName x)).getLast? = some (String.ofList x) := by
    intro x hx hlen
    have hne : ∀ y : List Char, y.length ≤ 2 → x ≠ y := by
      rintro y hy rfl
      omega
    rw [lexical_withFileName (hne _ (by decide)) hx (hne _ (by decide)) (hne _ (by decide)),
      List.getLast?_concat]
  have hsame := congrArg List.getLast? h
  rw [hlast hslash hlong, hlast hslash' hlong', Option.some.injEq] at hsame
  exact String.ofList_injective hsame

namespace Ledger

variable {l : Ledger} {w : World} {kind : String}

/-- The name under which a text of the ledger is put aside. -/
def backupName (l : Ledger) (kind : String) (now : Int) (event : Nat) : List Char :=
  l.path.fileName?.getD "project-memory.json".toList ++ '.' :: kind.toList ++
    '.' :: (stamp now).toList ++ '-' :: (eventName event).toList

def backupFor (l : Ledger) (kind : String) (now : Int) (event : Nat) : Path :=
  l.path.withFileName (l.backupName kind now event)

/-- Why texts are put aside. -/
def backupKinds : List String := ["corrupt", "incomplete"]

theorem slash_notMem_fileName?_getD {path : Path} {name : List Char} (hname : '/' ∉ name) :
    '/' ∉ path.fileName?.getD name := by
  cases hfile : path.fileName? with
  | none => exact hname
  | some piece =>
    obtain ⟨-, hslash, -⟩ := @Disk.lexical_of_fileName? [] path piece hfile
    exact hslash

theorem toList_stamp (now : Int) : (stamp now).toList = Json.digits now.toNat ++ ['Z'] := by
  have hdigits : (toString now.toNat).toList = Json.digits now.toNat := by
    rw [Nat.toString_eq_repr, Nat.repr, String.toList_ofList, Json.digits]
  rw [stamp, String.toList_append, hdigits]
  rfl

theorem slash_notMem_stamp (now : Int) : '/' ∉ (stamp now).toList := by
  rw [toList_stamp]
  refine fun hmem => (List.mem_append.mp hmem).elim (fun hmem => ?_) (by decide)
  exact absurd (Json.isDigit_of_mem_digits hmem) (by decide)

theorem slash_notMem_eventName (n : Nat) : '/' ∉ (eventName n).toList := by
  have hgo : ∀ width n acc, '/' ∉ acc → '/' ∉ eventName.go width n acc := by
    intro width
    induction width with
    | zero => exact fun _ _ hacc => hacc
    | succ width ih =>
      refine fun n acc hacc => ih _ _ fun hmem => (List.mem_cons.mp hmem).elim ?_ hacc
      have hdigits : ∀ k < 32, '/' ≠ eventDigits.getD k '0' := by decide
      exact hdigits _ (Nat.mod_lt n (by decide))
  rw [eventName, String.toList_ofList]
  exact hgo _ _ _ List.not_mem_nil

/-- The name under which a document is written before it takes the place of the ledger. -/
def draftName (l : Ledger) : List Char := '.' :: l.path.fileName?.getD [] ++ ".tmp".toList

theorem draftPath_eq (l : Ledger) : l.draftPath = l.path.withFileName l.draftName := rfl

theorem slash_notMem_draftName (l : Ledger) : '/' ∉ l.draftName := by
  have hname := @slash_notMem_fileName?_getD l.path [] List.not_mem_nil
  simp [draftName, hname]

theorem slash_notMem_backupName (l : Ledger) {kind : String} (hkind : kind ∈ backupKinds)
    (now : Int) (event : Nat) : '/' ∉ l.backupName kind now event := by
  have hname := @slash_notMem_fileName?_getD l.path "project-memory.json".toList (by decide)
  rw [backupName]
  generalize l.path.fileName?.getD "project-memory.json".toList = name at hname ⊢
  have hkind' : '/' ∉ kind.toList := by
    rcases List.mem_pair.mp hkind with rfl | rfl
    · decide
    · decide
  simp [hname, hkind', slash_notMem_stamp, slash_notMem_eventName]

/-! ## Different places -/

/-- The name of a backup is longer than that of the ledger. -/
theorem length_backupName (l : Ledger) (kind : String) (now : Int) (event : Nat) :
    (l.path.fileName?.getD []).length + kind.length + 2 < (l.backupName kind now event).length := by
  have hname : (l.path.fileName?.getD []).length ≤
      (l.path.fileName?.getD "project-memory.json".toList).length := by
    cases l.path.fileName? with
    | none => exact Nat.zero_le _
    | some name => exact Nat.le_refl _
  have hstamp : 0 < (stamp now).toList.length := by
    rw [stamp, String.toList_append, List.length_append]
    exact Nat.add_pos_right _ (by decide)
  simp only [backupName, List.length_append, List.length_cons, String.length_toList] at hstamp ⊢
  omega

/-- The backups are elsewhere than the ledger. -/
theorem placeOf_backupFor_ne (hkind : kind ∈ backupKinds) (now : Int) (event : Nat) :
    w.placeOf (l.backupFor kind now event) ≠ l.place w := by
  have hlong := length_backupName l kind now event
  exact Disk.lexical_withFileName_ne (slash_notMem_backupName l hkind now event) (by omega)

theorem placeOf_backupFor_ne_draft (hkind : kind ∈ backupKinds) (now : Int) (event : Nat) :
    w.placeOf (l.backupFor kind now event) ≠ w.placeOf l.draftPath := by
  have hlong := length_backupName l kind now event
  have hdraft : l.draftName.length = (l.path.fileName?.getD []).length + 5 := by
    simp [draftName]
  have hlength : 7 ≤ kind.length := by
    rcases List.mem_pair.mp hkind with rfl | rfl
    · decide
    · decide
  intro h
  rw [draftPath_eq] at h
  have hsame := Disk.lexical_withFileName_inj (slash_notMem_backupName l hkind now event)
    (by omega) (slash_notMem_draftName l) (by omega) h
  rw [hsame] at hlong
  omega

/-- A ledger that is moved aside and one that is copied aside get different names. -/
theorem placeOf_backupFor_ne_backupFor (now : Int) (event : Nat) :
    w.placeOf (l.backupFor "corrupt" now event) ≠
      w.placeOf (l.backupFor "incomplete" now event) := by
  intro h
  have hlong := length_backupName l "corrupt" now event
  have hlong' := length_backupName l "incomplete" now event
  have hsame := Disk.lexical_withFileName_inj
    (slash_notMem_backupName l (by decide) now event) (by omega)
    (slash_notMem_backupName l (by decide) now event) (by omega) h
  have hlength := congrArg List.length hsame
  simp only [backupName, List.length_append, List.length_cons, String.length_toList] at hlength
  have hcorrupt : "corrupt".length = 7 := by decide
  have hincomplete : "incomplete".length = 10 := by decide
  omega

end Ledger

end EditGate
