import EditGate.Rpc.Request

/-!
# Faults

What a request asks for is found from its name and parameters alone. If that fails the fault is one
of the request (`isOfRequest_of_operation?`): its parameters do not fit, or no operation has its
name.
-/

namespace EditGate.Rpc

namespace Fault

theorem code_eq_unreadable_iff {f : Fault} : f.code = unreadable.code ↔ f = .unreadable := by
  cases f with
  | failed failure => cases failure <;> simp [code, Failure.code]
  | _ => simp [code]

/-- The fault lies in what the request says. -/
def IsOfRequest : Fault → Prop
  | params _ | slot _ | operation .. => True
  | unreadable | failed _ => False

/-- The codes of the faults that lie in a message: it is no request, or asks for what there is not,
or what it asks for is refused. -/
def rejectionCodes : List String :=
  ["invalid_request", "invalid_params", "unknown_op", "validation_error"]

theorem IsOfRequest.code_mem {f : Fault} (h : f.IsOfRequest) : f.code ∈ rejectionCodes := by
  cases f with
  | params m => simp [code, rejectionCodes]
  | slot name => simp [code, rejectionCodes]
  | operation name known => simp [code, rejectionCodes]
  | unreadable => exact h.elim
  | failed failure => exact h.elim

theorem code_failed_mem_iff {e : Failure} :
    (failed e).code ∈ rejectionCodes ↔ ∃ refusal, e = .validation refusal := by
  cases e <;> simp [code, Failure.code, rejectionCodes]

theorem IsOfRequest.ne_unreadable {f : Fault} (h : f.IsOfRequest) : f ≠ .unreadable := by
  rintro rfl
  exact h

end Fault

/-- What reads parameters finds fault with the request only. -/
def Blames (ofParams : Json → Except Fault Operation) : Prop :=
  ∀ v f, ofParams v = .error f → f.IsOfRequest

theorem blames_withParams {α : Type} {fit : Fit α} {f : α → Except Fault Operation}
    (h : ∀ a fault, f a = .error fault → fault.IsOfRequest) : Blames (withParams fit f) := by
  intro v fault hfault
  rw [withParams] at hfault
  split at hfault
  · exact h _ fault hfault
  · cases hfault
    exact trivial

theorem blames_withParams_ok {α : Type} (fit : Fit α) (f : α → Operation) :
    Blames (withParams fit fun a => .ok (f a)) :=
  blames_withParams fun _ _ => nofun

theorem blames_operations : ∀ o ∈ operations, Blames o.2 := by
  simp only [operations, withPath, withId, withReason, List.forall_mem_cons,
    blames_withParams_ok, true_and]
  refine ⟨blames_withParams fun ps fault h => ?_, fun _ _ => nofun, fun _ => nofun⟩
  split at h
  · cases h
  · cases h
    exact trivial

theorem isOfRequest_of_operation? {r : Request} {f : Fault} (h : r.operation? = .error f) :
    f.IsOfRequest := by
  rw [Request.operation?] at h
  split at h
  · rename_i ofParams hlookup
    obtain ⟨before, after, hmem, -⟩ := List.lookup_eq_some_iff.mp hlookup
    exact blames_operations (r.operation, ofParams) (by rw [hmem]; simp) _ _ h
  · cases h
    exact trivial

end EditGate.Rpc
