import EditGate.Proofs.Ledger.Approvals

/-!
# Approvals come from grants

A ledger is tended if there is no file in its place, or one that shows a sound document in which
only granted slots are approved (`Tended`). Loading keeps it tended, and so does every step beside
it. Granting an approval adds one slot to those that are granted, and taking approvals back takes
all slots of one key away (`Tended.approve`, `Tended.invalidate`); a failure adds and takes nothing.
-/

namespace EditGate.Ledger

open Approval (Slot Status)
open Run World
open World (Grown)

variable {l : Ledger} {w w' : World} {d : Document} {granted granted' : String → Slot → Prop}

/-! ## Documents -/

/-- Only granted slots are approved in the document. -/
def Document.ApprovesOnly (d : Document) (granted : String → Slot → Prop) : Prop :=
  ∀ k s slot, d.status? k = some s → s.isApproved slot = true → granted k slot

theorem IsFresh.approvesOnly (h : l.IsFresh d) : d.ApprovesOnly granted := by
  intro k s slot hs
  rw [h.status?_eq_none] at hs
  cases hs

/-- Filling a slot approves no other one. -/
theorem isApproved_granted {k time : String} {slot slot' : Slot} {who : String}
    (h : (d.granted k slot who time).isApproved slot' = true) :
    slot' = slot ∨ ∃ s, d.status? k = some s ∧ s.isApproved slot' = true := by
  rw [Status.isApproved, Document.granted, Status.approve, Status.entry_setEntry] at h
  by_cases hslot : slot = slot'
  · exact .inl hslot.symm
  · rw [if_neg hslot] at h
    cases hs : d.status? k with
    | none =>
      rw [hs] at h
      cases slot' <;> exact nomatch h
    | some s =>
      rw [hs] at h
      exact .inr ⟨s, rfl, h⟩

theorem Document.ApprovesOnly.record_granted (h : d.ApprovesOnly granted) (k : String)
    (slot : Slot) (who time : String) :
    (d.record k (d.granted k slot who time)).ApprovesOnly fun k' slot' =>
      (k' = k ∧ slot' = slot) ∨ granted k' slot' := by
  intro k' s slot' hs happroved
  rw [status?_record] at hs
  by_cases hk : k = k'
  · subst hk
    rw [if_pos rfl] at hs
    obtain rfl := Option.some.inj hs
    rcases isApproved_granted happroved with hslot | ⟨s, hs, hold⟩
    · exact .inl ⟨rfl, hslot⟩
    · exact .inr (h k s slot' hs hold)
  · rw [if_neg hk] at hs
    exact .inr (h k' s slot' hs happroved)

theorem Document.ApprovesOnly.record_invalidate (h : d.ApprovesOnly granted)
    (k reason time : String) :
    (d.record k (.invalidate reason time)).ApprovesOnly fun k' slot =>
      k' ≠ k ∧ granted k' slot := by
  intro k' s slot hs happroved
  rw [status?_record] at hs
  by_cases hk : k = k'
  · rw [if_pos hk] at hs
    obtain rfl := Option.some.inj hs
    cases slot <;> exact nomatch happroved
  · rw [if_neg hk] at hs
    exact ⟨Ne.symm hk, h k' s slot hs happroved⟩

/-- Nothing of a key is approved in a document that has no status for it. -/
theorem Document.ApprovesOnly.of_none (h : d.ApprovesOnly granted) {k : String}
    (hk : d.status? k = none) : d.ApprovesOnly fun k' slot => k' ≠ k ∧ granted k' slot := by
  intro k' s slot hs happroved
  refine ⟨?_, h k' s slot hs happroved⟩
  rintro rfl
  exact nomatch hk.symm.trans hs

/-! ## The invariant -/

/-- The world is calm, notices go elsewhere, the working directory is not below the ledger, and a
file in the place of the ledger shows a sound document that approves granted slots only. -/
structure Tended (l : Ledger) (w : World) (granted : String → Slot → Prop) : Prop where
  calm : w.Calm
  avoids : l.sink.Avoids w (l.place w)
  outside : ¬l.place w <+: w.workingDir
  shows : ∀ content, w.disk.node? (l.place w) = some (.file content) →
    ∃ d, l.Shows w d ∧ d.Sound ∧ d.ApprovesOnly granted

theorem Tended.mono (h : l.Tended w granted) (himp : ∀ k slot, granted k slot → granted' k slot) :
    l.Tended w granted' := by
  refine ⟨h.calm, h.avoids, h.outside, fun content hfile => ?_⟩
  obtain ⟨d, hshows, hd, honly⟩ := h.shows content hfile
  exact ⟨d, hshows, hd, fun k s slot hs happroved => himp k slot (honly k s slot hs happroved)⟩

/-- What a later world needs to be tended is known of its file alone. -/
theorem Tended.later (h : l.Tended w granted) (hlater : Later w w')
    (hshows : ∀ content, w'.disk.node? (l.place w') = some (.file content) →
      ∃ d, l.Shows w' d ∧ d.Sound ∧ d.ApprovesOnly granted') : l.Tended w' granted' where
  calm := hlater.calm
  avoids := by
    rw [hlater.place]
    exact avoids_later h.avoids hlater
  outside := by
    rw [hlater.place, hlater.workingDir]
    exact h.outside
  shows := hshows

/-- Steps beside the ledger keep it tended. -/
theorem Tended.grown (h : l.Tended w granted) (hgrown : Grown (l.place w) w w') :
    l.Tended w' granted := by
  refine h.later (later_of_grown h.calm hgrown) fun content hfile => ?_
  rw [place_grown hgrown] at hfile
  obtain ⟨d, hshows, hd, honly⟩ := h.shows content ((hgrown.disk.file content).mp hfile)
  exact ⟨d, hshows.grown hgrown, hd, honly⟩

/-! ## Operations -/

/-- What is loaded approves granted slots only, and is what a file in the place of the ledger
shows. -/
def Loaded (l : Ledger) (granted : String → Slot → Prop) (d : Document) (w : World) : Prop :=
  d.ApprovesOnly granted ∧
    ∀ content, w.disk.node? (l.place w) = some (.file content) → l.Shows w d

theorem Tended.loads (h : l.Tended w granted) : l.LoadsWith w (l.Loaded granted) := by
  by_cases hfile : l.HasNoFile w
  · refine (ends_load_hasNoFile h.calm h.avoids hfile h.outside).imp ?_
    rintro d w' ⟨hfresh, hlater, hnone⟩
    exact ⟨hlater, hfresh.sound, hfresh.approvesOnly, fun content hfile =>
      absurd hfile (hnone content)⟩
  · obtain ⟨content, hcontent⟩ := Classical.not_forall.mp hfile
    obtain ⟨d, hshows, hd, honly⟩ := h.shows content (Classical.not_not.mp hcontent)
    refine (ends_load h.calm h.avoids hshows).imp ?_
    rintro _ w' ⟨rfl, hgrown⟩
    exact ⟨later_of_grown h.calm hgrown, hd, honly, fun _ _ => hshows.grown hgrown⟩

/-- A ledger that was loaded is tended with what the loaded document approves. -/
theorem Tended.of_loaded (h : l.Tended w granted) (hlater : Later w w') (hd : d.Sound)
    (hloaded : l.Loaded granted d w') (honly : d.ApprovesOnly granted') : l.Tended w' granted' :=
  h.later hlater fun content hfile => ⟨d, hloaded.2 content hfile, hd, honly⟩

theorem Tended.status? (h : l.Tended w granted) (path : String) :
    Ends w (l.status? path) fun o w' => l.Tended w' granted ∧
      ∀ slot, Approval.isApproved o slot = true → granted (l.key path) slot := by
  refine h.loads.bind ?_
  rintro d w' ⟨hlater, hd, hloaded⟩
  refine ⟨h.of_loaded hlater hd hloaded hloaded.1, fun slot happroved => ?_⟩
  cases hs : d.status? (l.key path) with
  | none =>
    rw [hs] at happroved
    exact nomatch happroved
  | some s =>
    rw [hs] at happroved
    exact hloaded.1 (l.key path) s slot hs happroved

/-- A granted slot is added to those that are granted, if granting succeeds. -/
theorem Tended.approve (h : l.Tended w granted) (path : String) (slot : Slot)
    (approver : String) :
    Trial.Ends w (l.approve path slot approver) fun r w' => l.Tended w' fun k slot' =>
      (r.isOk = true ∧ k = l.key path ∧ slot' = slot) ∨ granted k slot' := by
  refine (ends_approve h.avoids h.loads path slot approver).imp fun r w' hr => ?_
  rcases hr with ⟨-, rfl, rfl⟩ | ⟨-, d, w₁, hloaded, hd, hlater, hr⟩
  · exact h.mono fun _ _ => .inr
  · have h₁ := h.of_loaded hlater hd hloaded hloaded.1
    rcases hr with ⟨rfl, hlater', hshows⟩ | ⟨cause, rfl, hgrown⟩
    · refine h.later hlater' fun _ _ => ⟨_, hshows, hd.record _ _, ?_⟩
      intro k s slot' hs happroved
      have hk := hloaded.1.record_granted (l.key path) slot (Text.trimString approver)
        (stamp w.now) k s slot' hs happroved
      exact hk.imp (fun h => ⟨rfl, h⟩) id
    · exact (h₁.grown hgrown).mono fun _ _ => .inr

/-- All slots of a key are taken from those that are granted, if taking them back succeeds. -/
theorem Tended.invalidate (h : l.Tended w granted) (path reason : String) :
    Trial.Ends w (l.invalidate path reason) fun r w' => Later w w' ∧ l.Tended w' fun k slot =>
      (r.isOk = true → k ≠ l.key path) ∧ granted k slot := by
  refine (ends_invalidate h.avoids h.loads path reason).imp fun r w' hr => ?_
  obtain ⟨d, w₁, hloaded, hd, hlater, hr⟩ := hr
  have h₁ := h.of_loaded hlater hd hloaded hloaded.1
  rcases hr with ⟨hnone, rfl, rfl⟩ | ⟨-, ⟨rfl, hlater', hshows⟩ | ⟨cause, rfl, hgrown⟩⟩
  · refine ⟨hlater, (h.of_loaded hlater hd hloaded (hloaded.1.of_none hnone)).mono ?_⟩
    exact fun k slot hk => ⟨fun _ => hk.1, hk.2⟩
  · refine ⟨hlater', h.later hlater' fun _ _ => ⟨_, hshows, hd.record _ _, ?_⟩⟩
    intro k s slot hs happroved
    have hk := hloaded.1.record_invalidate (l.key path) reason (stamp w.now) k s slot hs happroved
    exact ⟨fun _ => hk.1, hk.2⟩
  · refine ⟨hlater.trans (later_of_grown hlater.calm hgrown), (h₁.grown hgrown).mono ?_⟩
    exact fun k slot hk => ⟨nofun, hk⟩

end EditGate.Ledger
