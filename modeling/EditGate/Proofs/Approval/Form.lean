import EditGate.Approval.Form

/-!
# Written approvals read back

A stored status has its members in order. Reading it gives the status that was written
(`Status.ofJson_canonical`), whichever of its names, dates and invalidation are absent.
-/

namespace EditGate

/-! ## Records -/

namespace RecordFit

variable {α : Type} {r : RecordFit α} {members : List (String × Json)}

/-- An object is read as what its fields build, if every member fits. -/
theorem read_obj {a : α} (hvisit : r.visit members = .ok ())
    (hbuild : r.build ⟨(Keyed.get? · members), false, .missingField⟩ = .ok a) :
    r.read (.obj members) = .ok a := by
  rw [read, hvisit]
  exact hbuild

end RecordFit

namespace Approval

/-! ## Entries -/

theorem Entry.canonical_toJson (e : Entry) : e.toJson.canonical = e.toJson := by
  obtain ⟨approved, who, date⟩ := e
  cases who <;> cases date <;>
    simp only [toJson, optionalMember, Json.canonical, Json.canonicalMembers, Keyed.ofList, Keyed.put,
      List.foldl, List.cons_append, List.nil_append, String.reduceLT, String.reduceEq, if_false]

theorem Entry.read_toJson (e : Entry) : Entry.fit.read e.toJson = .ok e := by
  obtain ⟨approved, who, date⟩ := e
  refine RecordFit.read_obj ?_ ?_
  · cases who <;> cases date <;>
      simp [optionalMember, fit, RecordFit.visit, RecordFit.field, List.lookup_cons,
        Fit.boolean, Fit.string, Fit.optional, Except.map, bind, Except.bind]
  · cases who <;> cases date <;>
      simp [optionalMember, fit, GivenFields.withDefault, Keyed.get?, Fit.boolean, Fit.string,
        Fit.optional, Except.map, bind, Except.bind, pure, Except.pure]

/-! ## Invalidations -/

theorem Invalidation.canonical_toJson (i : Invalidation) :
    i.toJson.canonical = .obj [("at", .str i.time), ("reason", .str i.reason)] := by
  simp only [toJson, Json.canonical, Json.canonicalMembers, Keyed.ofList, Keyed.put, List.foldl,
    String.reduceLT, if_true]

theorem Invalidation.read_canonical (i : Invalidation) :
    Invalidation.fit.read i.toJson.canonical = .ok i := by
  rw [canonical_toJson]
  refine RecordFit.read_obj ?_ ?_
  · simp [fit, RecordFit.visit, RecordFit.field, List.lookup_cons, Fit.string, Except.map, bind,
      Except.bind]
  · simp [fit, GivenFields.required, Keyed.get?, Fit.string, bind, Except.bind, pure, Except.pure]

theorem Invalidation.optional_read_canonical (i : Invalidation) :
    Fit.optional Invalidation.fit.read i.toJson.canonical = .ok (some i) := by
  have hread := read_canonical i
  rw [canonical_toJson] at hread ⊢
  rw [Fit.optional, hread]
  · rfl
  · exact fun h => nomatch h

/-! ## The approvals of a file -/

theorem Status.canonical_toJson (s : Status) :
    s.toJson.canonical = .obj ([("codeReview", s.codeReview.toJson), ("dev", s.dev.toJson)] ++
      optionalMember "lastInvalidation" (fun i => i.toJson.canonical) s.lastInvalidation ++
      [("qa", s.qa.toJson)]) := by
  obtain ⟨dev, codeReview, qa, last⟩ := s
  cases last <;>
    simp only [toJson, optionalMember, Json.canonical, Json.canonicalMembers, Keyed.ofList, Keyed.put,
      Entry.canonical_toJson, List.foldl, List.cons_append, List.nil_append, String.reduceLT,
      String.reduceEq, if_true, if_false]

theorem Status.build_eq {g : GivenFields} {s : Status}
    (hdev : g.withDefault "dev" {} Entry.fit.read = .ok s.dev)
    (hcodeReview : g.withDefault "codeReview" {} Entry.fit.read = .ok s.codeReview)
    (hqa : g.withDefault "qa" {} Entry.fit.read = .ok s.qa)
    (hlast : g.withDefault "lastInvalidation" none (Fit.optional Invalidation.fit.read) =
      .ok s.lastInvalidation) : Status.fit.build g = .ok s := by
  simp only [fit, hdev, hcodeReview, hqa, hlast]
  rfl

/-- A status is read back from its stored form. -/
theorem Status.ofJson_canonical (s : Status) : Status.ofJson s.toJson.canonical = .ok s := by
  rw [canonical_toJson]
  refine RecordFit.read_obj ?_ (Status.build_eq ?_ ?_ ?_ ?_)
  · cases s.lastInvalidation <;>
      simp [optionalMember, fit, RecordFit.visit, RecordFit.field, List.lookup_cons, Entry.read_toJson,
        Invalidation.optional_read_canonical, Except.map, bind, Except.bind]
  · simp [GivenFields.withDefault, Keyed.get?, Entry.read_toJson]
  · simp [GivenFields.withDefault, Keyed.get?, Entry.read_toJson]
  · cases s.lastInvalidation <;>
      simp [optionalMember, GivenFields.withDefault, Keyed.get?, Entry.read_toJson]
  · cases s.lastInvalidation <;>
      simp [optionalMember, GivenFields.withDefault, Keyed.get?,
        Invalidation.optional_read_canonical]

end Approval

end EditGate
