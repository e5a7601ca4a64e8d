import EditGate.Proofs.Gate.Fixed
import EditGate.Proofs.Path.Key

/-!
# Spellings of one file

The ledger knows a file by its key. A path that climbs above the root of the project keeps its `..`
in its key, even if it comes back into the project by the name of the root, so one file can have
several keys (`keys_differ`). It has one for each distance that paths to it climb, and one for the
absolute paths to it that do not begin with the root. All paths to a file from one such vantage are
the same to the gate: whether it approves, asks or takes back, it comes to the same entry
(`same_entry_of_same_vantage`).
-/

namespace EditGate

namespace Ledger

variable {l : Ledger} {p q : String}

theorem status?_congr (h : l.key p = l.key q) : l.status? p = l.status? q := by
  rw [status?, h, status?]

theorem approve_congr (h : l.key p = l.key q) (slot : Approval.Slot) (approver : String) :
    l.approve p slot approver = l.approve q slot approver := by
  rw [approve, h, approve]

theorem invalidate_congr (h : l.key p = l.key q) (reason : String) :
    l.invalidate p reason = l.invalidate q reason := by
  rw [invalidate, h, invalidate]

end Ledger

namespace Gate

/-- How far a path climbs above the root of the project; none if it is absolute and does not begin
with the root. -/
def vantage (g : Gate) (path : String) : Option Nat := Path.vantage g.project.root path.toList

theorem judge_congr_key {g : Gate} {p q : String} (h : g.key p = g.key q)
    (metadata : Option Metadata) : g.judge p metadata = g.judge q metadata := by
  have hstatus : g.ledger.status? p = g.ledger.status? q := Ledger.status?_congr h
  rw [judge, hstatus, h, judge]

/-- Two paths to one file have one key if they climb equally far above the root, and likewise if
neither starts from there; then every question about them is the same and every change is to the
same entry. Paths that start from the root have one key only if they climb equally far. -/
theorem same_entry_of_same_vantage (g : Gate) (p q : String)
    (hroot : g.project.root.isAbsolute) (hp : '\\' ∉ p.toList) (hq : '\\' ∉ q.toList)
    (hplace : Disk.lexical [] (g.locate p) = Disk.lexical [] (g.locate q)) :
    (g.vantage p = g.vantage q →
      g.key p = g.key q ∧ g.status? p = g.status? q ∧
      (∀ slot approver, g.approve p slot approver = g.approve q slot approver) ∧
      (∀ reason, g.invalidate p reason = g.invalidate q reason) ∧
      ∀ metadata, g.judge p metadata = g.judge q metadata) ∧
    (g.vantage p ≠ none → g.vantage q ≠ none →
      (g.key p = g.key q ↔ g.vantage p = g.vantage q)) := by
  have hkey (h : g.vantage p = g.vantage q) : g.key p = g.key q :=
    congrArg String.ofList (Path.key_eq_of_vantage_eq hroot hp hq hplace h)
  refine ⟨fun h => ?_, fun hp' hq' => ⟨fun h => ?_, hkey⟩⟩
  · -- the ledger and the rules know the file by its key alone
    have hledger : g.ledger.key p = g.ledger.key q := hkey h
    exact ⟨hkey h, Ledger.status?_congr hledger, Ledger.approve_congr hledger,
      Ledger.invalidate_congr hledger, judge_congr_key (hkey h)⟩
  · obtain ⟨n, hn⟩ := Option.ne_none_iff_exists'.mp hp'
    obtain ⟨m, hm⟩ := Option.ne_none_iff_exists'.mp hq'
    obtain ⟨way, hway, rfl⟩ := Option.map_eq_some_iff.mp hn
    obtain ⟨way', hway', rfl⟩ := Option.map_eq_some_iff.mp hm
    have hclimb := Path.climb_eq_of_key_eq hroot hp hq hway hway' (String.ofList_injective h)
    rw [hn, hm, hclimb]

/-- A detour below the root makes no difference, and neither does the root written out. A way out
of the project and back into it does. -/
theorem same_entry_sample :
    (sampleGate.key "x/../a" = sampleGate.key "/p//./a" ∧
      sampleGate.status? "x/../a" = sampleGate.status? "/p//./a") ∧
    sampleGate.key "../b" = sampleGate.key "x/../../c/../b" ∧
    sampleGate.key "a" ≠ sampleGate.key "../p/a" := by
  have hinside := (same_entry_of_same_vantage sampleGate "x/../a" "/p//./a" rfl (by decide)
    (by decide) (by decide)).1 (by decide)
  have houtside := (same_entry_of_same_vantage sampleGate "../b" "x/../../c/../b" rfl (by decide)
    (by decide) (by decide)).1 (by decide)
  have hback := (same_entry_of_same_vantage sampleGate "a" "../p/a" rfl (by decide)
    (by decide) (by decide)).2 (by decide) (by decide)
  exact ⟨⟨hinside.1, hinside.2.1⟩, houtside.1, mt hback.mp (by decide)⟩

/-- One file does not have one key: a path out of the project and back into it keeps the way that
it takes. -/
theorem keys_differ :
    ¬∀ root p q : Path, root.isAbsolute →
      (∀ piece ∈ Text.splitOn '/' root, piece ≠ Path.dot ∧ piece ≠ Path.dotDot) →
      '\\' ∉ p → '\\' ∉ q →
      Disk.lexical [] (Project.locate ⟨root⟩ p) = Disk.lexical [] (Project.locate ⟨root⟩ q) →
      Path.key root p = Path.key root q := by
  intro h
  have hkeys := h "/p".toList "a".toList "../p/a".toList rfl (by decide) (by decide) (by decide)
    (by decide)
  exact absurd hkeys (by decide)

end Gate

end EditGate
