import EditGate.Proofs.Journal
import EditGate.Proofs.Spared

/-!
# Notices that are received

A sink that keeps notices receives those that are recorded in order; a journal, whose steps may
fail, perhaps not all of them (`ends_recordAll_received`).
-/

namespace EditGate

open Run
open World (Spares Steps)

variable {w w' w'' : World} {S : Place → Prop} {path : Path} {sink : Sink}

/-- A journal has got lines behind what it held, which say some of the notices in order. -/
def Journaled (path : Path) (w w' : World) (ns : List Notice) : Prop :=
  ∃ told : List Diagnostic, (told.map Diagnostic.notice).Sublist ns ∧
    w'.disk.bytesAt (w.placeOf path) =
      w.disk.bytesAt (w.placeOf path) ++ (Diagnostic.lines told).toUTF8

/-- What a sink has got of notices: all of them if it keeps them; a journal perhaps not all. -/
structure Sink.Received (sink : Sink) (w w' : World) (ns : List Notice) : Prop where
  kept : w'.kept.map Diagnostic.notice =
    w.kept.map Diagnostic.notice ++ if sink = .keep then ns else []
  journal : ∀ path, sink = .journal path → Journaled path w w' ns

/-- A journal that is left as it is has got nothing. -/
theorem journaled_of_same (ns : List Notice)
    (h : w'.disk.bytesAt (w.placeOf path) = w.disk.bytesAt (w.placeOf path)) :
    Journaled path w w' ns := by
  refine ⟨[], List.nil_sublist ns, ?_⟩
  rw [h, Diagnostic.lines, List.flatMap_nil]
  exact ByteArray.append_empty.symm

theorem Journaled.append {ns ns' : List Notice} (h : Journaled path w w' ns)
    (hdir : w'.workingDir = w.workingDir) (h' : Journaled path w' w'' ns') :
    Journaled path w w'' (ns ++ ns') := by
  obtain ⟨told, hsub, hbytes⟩ := h
  obtain ⟨told', hsub', hbytes'⟩ := h'
  refine ⟨told ++ told', ?_, ?_⟩
  · rw [List.map_append]
    exact hsub.append hsub'
  · have hplace : w'.placeOf path = w.placeOf path := by rw [World.placeOf, hdir, World.placeOf]
    rw [hplace] at hbytes'
    rw [hbytes', hbytes, Diagnostic.lines_append, ByteArray.append_assoc,
      String.toUTF8_eq_toByteArray, String.toUTF8_eq_toByteArray, String.toUTF8_eq_toByteArray,
      String.toByteArray_append]

/-- Steps that spare the journal give the sink nothing. -/
theorem World.Steps.received (h : Steps S w w')
    (hjournal : ∀ path, sink = .journal path → S (w.placeOf path)) : sink.Received w w' [] where
  kept := by rw [h.kept, ite_self, List.append_nil]
  journal path hpath := journaled_of_same [] (h.bytesAt (hjournal path hpath))

theorem Sink.Received.append {ns ns' : List Notice} (h : sink.Received w w' ns)
    (hdir : w'.workingDir = w.workingDir) (h' : sink.Received w' w'' ns') :
    sink.Received w w'' (ns ++ ns') where
  kept := by
    rw [h'.kept, h.kept, List.append_assoc]
    split
    · rfl
    · rfl
  journal path hpath := (h.journal path hpath).append hdir (h'.journal path hpath)

theorem ends_appendText_journaled (hw : w.Steady) (d : Diagnostic) :
    Ends w (appendText path (String.ofList (d.toJson.print ++ ['\n']))) fun _ w' =>
      w'.kept = w.kept ∧ Journaled path w w' [d.notice] := by
  refine ends_change_planned (fun _ _ _ => ⟨rfl, ?_⟩) (fun disk h => ⟨rfl, ?_⟩)
    fun _ _ => ⟨rfl, ?_⟩
  · exact journaled_of_same _ rfl
  · obtain ⟨-, hopen, rfl⟩ := Disk.append_eq_ok hw.tree hw.home h
    refine ⟨[d], List.Sublist.refl _, ?_⟩
    rw [Diagnostic.lines_singleton, World.placeOf, Disk.bytesAt,
      Disk.node?_put_self hopen.ne_nil]
  · exact journaled_of_same _ rfl

theorem ends_appendToJournal_journaled (hw : w.Steady) (d : Diagnostic) :
    Ends w (appendToJournal path d) fun _ w' =>
      w'.kept = w.kept ∧ Journaled path w w' [d.notice] := by
  refine (ends_makeParents_steps hw (fun _ => True) path).bind fun r w₁ h₁ => ?_
  have hbytes₁ := h₁.bytesAt (P := w.placeOf path) trivial
  cases r with
  | error cause => exact ⟨h₁.kept, journaled_of_same _ hbytes₁⟩
  | ok u =>
    refine (ends_appendText_journaled (h₁.steady hw) d).bind fun _ w₂ ⟨hkept, h₂⟩ => ?_
    exact ⟨hkept.trans h₁.kept, (journaled_of_same [] hbytes₁).append h₁.workingDir h₂⟩

/-- A notice is kept, or goes to the journal if that can be written. -/
theorem ends_record_received (hw : w.Steady) (n : Notice) :
    Ends w (sink.record n) fun _ w' => sink.Received w w' [n] := by
  refine ends_timeStamp_bind.mpr ?_
  refine (ends_newEvent_steps hw fun _ => True).bind fun event w₁ ⟨h₁, hdisk₁⟩ => ?_
  cases sink with
  | keep =>
    refine ⟨?_, nofun⟩
    rw [if_pos rfl, ← h₁.kept]
    exact List.map_append
  | discard =>
    refine ⟨?_, nofun⟩
    rw [if_neg nofun, List.append_nil, ← h₁.kept]
    rfl
  | journal path =>
    refine (ends_appendToJournal_journaled (h₁.steady hw) _).imp fun _ w₂ ⟨hkept, h₂⟩ => ⟨?_, ?_⟩
    · rw [if_neg nofun, List.append_nil, hkept, h₁.kept]
    · rintro _ ⟨⟩
      refine (journaled_of_same [] ?_).append h₁.workingDir h₂
      rw [hdisk₁]

theorem ends_recordAll_received (hw : w.Steady) (ns : List Notice) :
    Ends w (sink.recordAll ns) fun _ w' => sink.Received w w' ns := by
  induction ns generalizing w with
  | nil => exact (World.Steps.refl (fun _ => True) hw).received fun _ _ => trivial
  | cons n ns ih =>
    have hrecord := (ends_record_keeps hw sink n).and (ends_record_received hw n)
    refine hrecord.bind fun _ w₁ ⟨h₁, hone⟩ => ?_
    exact (ih (h₁.steady hw)).imp fun _ _ hrest => hone.append h₁.workingDir hrest

end EditGate
