import Interleave.Proofs.Assoc
import Interleave.Proofs.Doubles
import Interleave.Remote.Client
import Mathlib.Algebra.Ring.Int.Defs
import Mathlib.Data.List.Basic

/-! What a message holds is read back from it, as long as its integers are at most `2 ^ 53` in absolute value and its
kinds have names. -/

namespace Interleave

theorem Kind.parse_name {k : Kind} (h : k ∈ Kind.known) : Kind.parse k.name = .ok k := by
  have hall : ∀ k ∈ Kind.known, (Kind.parse k.name).toOption = some k := by decide +kernel
  specialize hall k h
  cases hparse : Kind.parse k.name with
  | error name => simp [hparse, Except.toOption] at hall
  | ok k' => simpa [hparse, Except.toOption] using hall

theorem ViolationKind.code_ofCode (n : Int) : (ofCode n).code = n := by
  unfold ofCode
  split <;> rfl

theorem ViolationKind.exists_code {k : ViolationKind} (h : ∀ n, k ≠ .unknown n) :
    ∃ n : Int, k = ofCode n ∧ n.natAbs ≤ 2 ^ 53 := by
  cases k with
  | unknown n => exact absurd rfl (h n)
  | assertion => exact ⟨0, rfl, by decide⟩
  | deadlock => exact ⟨1, rfl, by decide⟩
  | crash => exact ⟨2, rfl, by decide⟩
  | invariant => exact ⟨3, rfl, by decide⟩

structure Actor.Exact (a : Actor) : Prop where
  id : a.id.natAbs ≤ 2 ^ 53
  outcomes : a.outcomes.natAbs ≤ 2 ^ 53

/-- The integers of a result are held exactly by a message, the kind of its transition has a name, and the kind of its
violation is that of a code. -/
structure StepResult.Exact (r : StepResult) : Prop where
  actor : r.transition.actor.natAbs ≤ 2 ^ 53
  kind : r.transition.kind ∈ Kind.known
  outcome : r.transition.outcome.natAbs ≤ 2 ^ 53
  enabled : ∀ a ∈ r.enabled, a.Exact
  disabled : ∀ id ∈ r.disabled, id.natAbs ≤ 2 ^ 53
  finished : ∀ id ∈ r.finished, id.natAbs ≤ 2 ^ 53
  violation : ∀ v ∈ r.violation, ∃ code : Int, v.kind = .ofCode code ∧ code.natAbs ≤ 2 ^ 53

namespace Remote

theorem intOf_int {n : Int} (h : n.natAbs ≤ 2 ^ 53) : intOf (some (.int n)) = n := Double.toWord_ofInt h

theorem decodeActor_encodeActor {a : Actor} (h : a.Exact) : decodeActor (encodeActor a) = a := by
  obtain ⟨id, enabled, outcomes⟩ := a
  simp [decodeActor, encodeActor, Datum.ofFields, Datum.field?, Assoc.ofList, intOf_int h.id, intOf_int h.outcomes,
    boolOf]

theorem decodeActors_encodeActors {actors : List Actor} (h : ∀ a ∈ actors, a.Exact) :
    decodeActors (some (encodeActors actors)) = actors := by
  simp only [decodeActors, encodeActors, listOf, List.map_map]
  exact (List.map_congr_left fun a ha => decodeActor_encodeActor (h a ha)).trans (List.map_id actors)

theorem decodeIds_encodeIds {ids : List ActorId} (h : ∀ id ∈ ids, id.natAbs ≤ 2 ^ 53) :
    decodeIds (some (encodeIds ids)) = ids := by
  simp only [decodeIds, encodeIds, listOf, List.map_map]
  exact (List.map_congr_left fun id hid => intOf_int (h id hid)).trans (List.map_id ids)

theorem decodeStep_encodeStep (a : ActorId) (outcome : Int) :
    decodeStep (encodeStep a outcome) = .ok (intOf (some (.int a)), intOf (some (.int outcome))) := by
  simp [decodeStep, encodeStep, Assoc.ofList]

theorem insert_ne_nil (name : String) (d : Datum) (m : Message) : Assoc.insert name d m ≠ [] := by
  cases m with
  | nil => rintro ⟨⟩
  | cons e rest =>
    unfold Assoc.insert
    split_ifs <;> rintro ⟨⟩

theorem decodeTransition_encodeTransition {t : Transition} (hactor : t.actor.natAbs ≤ 2 ^ 53)
    (hkind : t.kind ∈ Kind.known) (houtcome : t.outcome.natAbs ≤ 2 ^ 53) :
    ∃ fields, encodeTransition t = .record fields ∧ fields ≠ [] ∧ decodeTransition fields = .ok t := by
  refine ⟨_, rfl, insert_ne_nil _ _ _, ?_⟩
  obtain ⟨actor, kind, resource, outcome, args, guarded⟩ := t
  simp [decodeTransition, Assoc.ofList, textOf, boolOf, Kind.parse_name hkind, intOf_int hactor, intOf_int houtcome]

theorem decodeViolation_encodeViolation {v : Violation}
    (h : ∃ code : Int, v.kind = .ofCode code ∧ code.natAbs ≤ 2 ^ 53) :
    ∃ fields, encodeViolation v = .record fields ∧ decodeViolation fields = v := by
  refine ⟨_, rfl, ?_⟩
  obtain ⟨kind, message⟩ := v
  obtain ⟨code, rfl, hcode⟩ := h
  simp [decodeViolation, Assoc.ofList, textOf, ViolationKind.code_ofCode, intOf_int hcode]

theorem decodeResult_encodeResult {r : StepResult} (h : r.Exact) : decodeResult (encodeResult r) = .ok r := by
  obtain ⟨fields, htransition, hne, hdecode⟩ := decodeTransition_encodeTransition h.actor h.kind h.outcome
  have henabled := decodeActors_encodeActors h.enabled
  have hdisabled := decodeIds_encodeIds h.disabled
  have hfinished := decodeIds_encodeIds h.finished
  have hempty : fields.isEmpty = false := by simpa using hne
  obtain ⟨t, enabled, disabled, finished, violation⟩ := r
  dsimp only at htransition hdecode henabled hdisabled hfinished
  cases violation with
  | none =>
    simp [decodeResult, encodeResult, Assoc.ofList, htransition, recordOf?, hempty, hdecode, henabled, hdisabled,
      hfinished, bind, Except.bind, pure, Except.pure]
  | some v =>
    obtain ⟨inner, hviolation, hinner⟩ := decodeViolation_encodeViolation (h.violation v rfl)
    simp [decodeResult, encodeResult, Assoc.ofList, htransition, hviolation, recordOf?, hempty, hdecode, hinner,
      henabled, hdisabled, hfinished, bind, Except.bind, pure, Except.pure]

theorem readSnapshot_ofList {count : Int} (h : count.natAbs ≤ 2 ^ 53) (content : Message) :
    Connection.readSnapshot (Assoc.ofList [("actor_count", .int count), ("content", .record content)]) =
      .ok ⟨content, count⟩ := by
  simp [Connection.readSnapshot, Assoc.ofList, recordOf?, intOf_int h]

/-- What is sent is what is received: the result of a step, the list of actors and the request for a step. -/
theorem messages_read_back :
    (∀ r : StepResult, r.Exact → decodeResult (encodeResult r) = .ok r) ∧
    (∀ actors : List Actor, (∀ a ∈ actors, a.Exact) → decodeActors (some (encodeActors actors)) = actors) ∧
    ∀ (a : ActorId) (outcome : Int), a.natAbs ≤ 2 ^ 53 → outcome.natAbs ≤ 2 ^ 53 →
      decodeStep (encodeStep a outcome) = .ok (a, outcome) := by
  refine ⟨fun r => decodeResult_encodeResult, fun actors => decodeActors_encodeActors, fun a outcome ha houtcome => ?_⟩
  rw [decodeStep_encodeStep, intOf_int ha, intOf_int houtcome]

def farResult : StepResult where
  transition := ⟨-2 ^ 53, .assert, "a \"b\"", 2 ^ 53, "", true⟩
  enabled := [⟨2 ^ 53, true, -2 ^ 53⟩, ⟨1, true, 0⟩]
  disabled := [3, -2 ^ 53]
  finished := []
  violation := some ⟨.ofCode (2 ^ 53), "far"⟩

theorem messages_read_back_farResult :
    decodeResult (encodeResult farResult) = .ok farResult ∧
      decodeActors (some (encodeActors farResult.enabled)) = farResult.enabled ∧
      decodeStep (encodeStep (-2 ^ 53) (2 ^ 53)) = .ok (-2 ^ 53, 2 ^ 53) := by
  obtain ⟨hresult, hactors, hstep⟩ := messages_read_back
  have henabled : ∀ a ∈ farResult.enabled, a.Exact := by
    simp only [farResult, List.forall_mem_cons, List.not_mem_nil, IsEmpty.forall_iff, implies_true, and_true]
    exact ⟨⟨by decide, by decide⟩, ⟨by decide, by decide⟩⟩
  refine ⟨hresult farResult ?_, hactors _ henabled, hstep _ _ (by decide) (by decide)⟩
  refine ⟨by decide, by decide, by decide, henabled, by decide, by decide, ?_⟩
  rintro v ⟨⟩
  exact ⟨2 ^ 53, rfl, by decide⟩

-- The next integer is rounded.
example : intOf (some (.int (2 ^ 53 + 1))) = 2 ^ 53 := by decide +kernel

end Remote

end Interleave
