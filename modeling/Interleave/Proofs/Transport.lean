import Interleave.Command.Serve
import Interleave.Proofs.Carrying
import Interleave.Proofs.Messages
import Interleave.Proofs.ModelSnapshots
import Interleave.Proofs.Operations

/-! Checking a model through its service is checking the model: a client of the service answers every call as the model
does, with snapshots known by their content. The main result is about all runs with all options. -/

namespace Interleave.Model

open Script Remote

variable {σ φ : Type} {m : Model σ φ} {x x' : Machine σ}

/-- Messages hold the integers of a model exactly, and the kinds of its steps have names. -/
structure Exact (m : Model σ φ) : Prop where
  actors : m.actors.length < 2 ^ 53
  known : ∀ a ∈ m.actors, ∀ step ∈ a.steps, step.kind ∈ Kind.known
  choices : ∀ a ∈ m.actors, ∀ step ∈ a.steps, step.choices.natAbs < 2 ^ 53

theorem lt_of_pending {i : Nat} {step : StepDecl φ} (h : m.pending x i = some step) : i < m.actors.length := by
  obtain ⟨a, p, ha, -⟩ := pending_eq_some h
  exact (List.getElem?_eq_some_iff.mp ha).1

namespace Exact

variable (hm : m.Exact)

include hm

theorem idAt {i : Nat} (hi : i < m.actors.length) : (Model.idAt i).natAbs < 2 ^ 53 := by
  have hactors := hm.actors
  unfold Model.idAt
  omega

theorem pending {i : Nat} {step : StepDecl φ} (h : m.pending x i = some step) :
    step.kind ∈ Kind.known ∧ step.choices.natAbs < 2 ^ 53 := by
  obtain ⟨a, p, ha, -, hstep⟩ := pending_eq_some h
  have hmem := List.mem_of_getElem? ha
  have hmem' := List.mem_of_getElem? hstep
  exact ⟨hm.known a hmem step hmem', hm.choices a hmem step hmem'⟩

theorem actorAt? {i : Nat} {a : Actor} (h : m.actorAt? x i = some a) : a.Exact := by
  obtain ⟨step, hpending, rfl⟩ := Option.map_eq_some_iff.mp h
  exact ⟨(hm.idAt (lt_of_pending hpending)).le, (hm.pending hpending).2.le⟩

theorem aliveActors : ∀ a ∈ m.aliveActors x, a.Exact := by
  intro a ha
  obtain ⟨i, -, hi⟩ := List.mem_filterMap.mp ha
  exact hm.actorAt? hi

theorem length_aliveActors : (((m.aliveActors x).length : Nat) : Int).natAbs < 2 ^ 53 := by
  have hlength : (m.aliveActors x).length ≤ m.indices.length := List.length_filterMap_le _ _
  have hactors := hm.actors
  rw [indices, List.length_range] at hlength
  omega

theorem result {before : List Bool} {mover : Nat} {t : Transition} {v : Option Violation}
    (hactor : t.actor.natAbs < 2 ^ 53) (hkind : t.kind ∈ Kind.known) (houtcome : t.outcome.natAbs < 2 ^ 53)
    (hv : ∀ w ∈ v, ∀ n, w.kind ≠ .unknown n) :
    (m.result before x mover t v).Exact := by
  have hchange : ∀ c ∈ m.indices.map (m.changeAt before x mover), c = .none ∨ (∃ a : Actor, c = .enabled a ∧ a.Exact) ∨
      ∃ id : ActorId, (c = .disabled id ∨ c = .finished id) ∧ id.natAbs ≤ 2 ^ 53 := by
    intro c hc
    obtain ⟨i, hi, rfl⟩ := List.mem_map.mp hc
    have hid := (hm.idAt (List.mem_range.mp hi)).le
    unfold changeAt
    split
    · split_ifs
      · exact .inr (.inr ⟨_, .inr rfl, hid⟩)
      · exact .inl rfl
    · rename_i actor hactorAt
      split_ifs
      · exact .inl rfl
      · exact .inr (.inl ⟨actor, rfl, hm.actorAt? hactorAt⟩)
      · exact .inr (.inr ⟨_, .inl rfl, hid⟩)
  refine ⟨hactor.le, hkind, houtcome.le, ?_, ?_, ?_, fun w hw => ViolationKind.exists_code (hv w hw)⟩
  all_goals
    intro a ha
    obtain ⟨c, hc, hsome⟩ := List.mem_filterMap.mp ha
    rcases hchange c hc with rfl | ⟨b, rfl, hb⟩ | ⟨id, rfl | rfl, hid⟩ <;> simp_all

end Exact

theorem brokenInvariant_kind {host : Host σ φ} {invariants : List (InvariantDecl φ)} {s : σ} {v : Violation}
    (h : (brokenInvariant host invariants s).1 = some v) : v.kind = .invariant := by
  induction invariants generalizing s with
  | nil => cases h
  | cons inv rest ih =>
    unfold brokenInvariant at h
    split at h
    · cases h
      rfl
    · cases h
      rfl
    · exact ih h

theorem runStep_transition (m : Model σ φ) (x : Machine σ) (i : Nat) (step : StepDecl φ) (t : Transition) :
    (m.runStep x i step t).1.actor = t.actor ∧ (m.runStep x i step t).1.kind = t.kind ∧
      (m.runStep x i step t).1.outcome = t.outcome ∧ ∀ v ∈ (m.runStep x i step t).2.1, v.kind = .assertion := by
  unfold runStep
  dsimp only
  split
  · simp
  · split
    · simp
    · split_ifs <;> simp

namespace Exact

variable (hm : m.Exact)

include hm

theorem takeStep {i : Nat} {step : StepDecl φ} {t : Transition} (hactor : t.actor.natAbs < 2 ^ 53)
    (hkind : t.kind ∈ Kind.known) (houtcome : t.outcome.natAbs < 2 ^ 53) : (m.takeStep x i step t).1.Exact := by
  obtain ⟨hactor', hkind', houtcome', hassertion⟩ := m.runStep_transition x i step t
  unfold Model.takeStep
  generalize m.runStep x i step t = ran at hactor' hkind' houtcome' hassertion
  obtain ⟨t', violation, y⟩ := ran
  dsimp only at hactor' hkind' houtcome' hassertion ⊢
  refine hm.result (hactor' ▸ hactor) (hkind' ▸ hkind) (houtcome' ▸ houtcome) fun v hv n => ?_
  split at hv
  · cases hv
    rintro ⟨⟩
  · cases violation with
    | some w =>
      cases hv
      rw [hassertion v rfl]
      rintro ⟨⟩
    | none =>
      have hbroken : (brokenInvariant m.host m.invariants y.script).1 = some v := hv
      rw [brokenInvariant_kind hbroken]
      rintro ⟨⟩

theorem execute {a : ActorId} {outcome : Int} {r : StepResult} (hactor : a.natAbs < 2 ^ 53)
    (houtcome : outcome.natAbs < 2 ^ 53) (h : m.execute a outcome x = (.ok r, x')) : r.Exact := by
  unfold Model.execute at h
  dsimp only at h
  split at h
  · cases h
  · rename_i step hstep
    split_ifs at hstep
    split_ifs at h
    · cases h
    · rw [← show _ = r from Except.ok.inj (congrArg Prod.fst h)]
      exact hm.takeStep (t := step.transition a outcome) hactor (hm.pending hstep).1 houtcome

theorem execute_far {a : ActorId} {outcome : Int} (h : 2 ^ 53 ≤ a.natAbs ∨ 2 ^ 53 ≤ outcome.natAbs) :
    ∃ e, m.execute a outcome x = (.error e, x) := by
  unfold Model.execute
  dsimp only
  split
  · exact ⟨_, rfl⟩
  · rename_i step hstep
    split_ifs at hstep with hpossible
    have hpositive : (1 : Int) ≤ a := hpossible.1
    have hlt : ((a : Int) - 1).toNat < m.actors.length := lt_of_pending hstep
    have hactors := hm.actors
    have hchoices := (hm.pending hstep).2
    rw [if_pos (by omega)]
    exact ⟨_, rfl⟩

end Exact

def Captured.known (k : Captured) : Remote.Captured := ⟨k.content, k.actors⟩

theorem Captured.keeps_known : Snapshot.Keeps Captured.known where
  actorCount _ := rfl
  heapBytes _ := rfl
  same k l := by
    simp only [Snapshot.same, Captured.known, Nat.cast_inj]
    rfl

section Service

variable (hm : m.Exact) (x : Machine σ)

include hm

theorem Exact.initialActors_alike :
    AnswersAlike id (m.initialActors x) ((Command.Serve.serviceOf m).connection.initialActors x) := by
  simp only [Connection.initialActors, Connection.ask, Server.connection, Server.handle, Server.initialActors,
    Command.Serve.serviceOf, driver, Model.initialActors]
  generalize m.checkInvariants x = checked
  obtain ⟨_ | v, y⟩ := checked
  · have hdecoded := decodeActors_encodeActors (hm.aliveActors (x := y))
    simp only [Assoc.get?_cons, if_true, hdecoded]
    exact .ok _ y
  · exact .error _ _ y

theorem Exact.execute_alike (a : ActorId) (outcome : Int) :
    AnswersAlike id (m.execute a outcome x) ((Command.Serve.serviceOf m).connection.execute a outcome x) := by
  simp only [Connection.execute, Connection.ask, Server.connection, Server.handle, Server.execute,
    Command.Serve.serviceOf, driver, decodeStep_encodeStep]
  by_cases hfar : 2 ^ 53 ≤ Int.natAbs a ∨ 2 ^ 53 ≤ outcome.natAbs
  · obtain ⟨e, he⟩ := hm.execute_far (x := x) hfar
    obtain ⟨e', he'⟩ := hm.execute_far (x := x) (hfar.imp Double.toWord_ofInt_far Double.toWord_ofInt_far)
    rw [he, show m.execute (intOf (some (.int a))) (intOf (some (.int outcome))) x = (.error e', x) from he']
    exact .error _ _ x
  · rw [not_or, not_le, not_le] at hfar
    rw [intOf_int hfar.1.le, intOf_int hfar.2.le]
    cases hrun : m.execute a outcome x with
    | mk answer y =>
      cases answer with
      | error e => exact .error _ _ y
      | ok r =>
        simp only [decodeResult_encodeResult (hm.execute hfar.1 hfar.2 hrun)]
        exact .ok r y

theorem Exact.snapshot_alike :
    AnswersAlike (Option.map Captured.known) (m.snapshot x) ((Command.Serve.serviceOf m).connection.snapshot x) := by
  simp only [Connection.snapshot, Connection.ask, Server.connection, Server.handle, Server.snapshot,
    Command.Serve.serviceOf, driver, Model.snapshot]
  cases m.host.capture x.script with
  | error cause => exact .error _ _ x
  | ok state =>
    simp only [encodeSnapshot, Snapshot.actorCount, readSnapshot_ofList hm.length_aliveActors.le]
    exact .ok _ x

omit hm in
theorem restore_alike (k : Captured) :
    AnswersAlike id (m.restore (.own k) x) ((Command.Serve.serviceOf m).connection.restore (.own k.known) x) := by
  simp only [Connection.restore, Connection.ask, Server.connection, Server.handle, Server.restore,
    Command.Serve.serviceOf, driver, decodeSnapshot, Captured.known, Assoc.get?_cons, if_true, recordOf?]
  cases hread : m.readPositions k.content with
  | error e =>
    have hrefused : m.restore (.own k) x = (.error e, x) := by simp only [Model.restore, hread]
    rw [hrefused]
    exact .error _ _ x
  | ok positions =>
    -- Only the content of a snapshot is restored, so the count of its actors does not matter.
    have hcontent : ∀ n, m.restore (.own ⟨k.content, n⟩) x = m.restore (.own k) x := fun _ => rfl
    simp only [bind, Except.bind, pure, Except.pure, hcontent]
    generalize m.restore (.own k) x = restored
    obtain ⟨e | _, y⟩ := restored
    · exact .error _ _ y
    · exact .ok _ y

end Service

theorem Exact.carries (hm : m.Exact) :
    m.driver.Carries Captured.known (Command.Serve.serviceOf m).connection.driver where
  initialActors := hm.initialActors_alike
  execute a outcome x := hm.execute_alike x a outcome
  snapshot := hm.snapshot_alike
  restore k x := restore_alike x k
  interrupted _ := rfl

def relay : Source := .text ("state = \x7b last = \"none\" \x7d\n" ++
  "local function first(s) s.last = \"a\" end\n" ++
  "local function second(s) if s.last == \"a\" then s.last = \"b\" end end\n" ++
  "actor(\"a\", \x7b step\x7b kind = \"write\", resource = \"last\", choices = 2, run = first \x7d \x7d)\n" ++
  "actor(\"b\", \x7b step\x7b kind = \"write\", resource = \"last\", run = second \x7d \x7d)\n" ++
  "invariant(\"order\", function(s) return s.last ~= \"b\" end)").toUTF8

theorem driver_givesSnapshots (m : Model σ φ) : m.driver.GivesSnapshots := by
  intro x hnone
  dsimp only [driver, snapshot] at hnone
  cases hcapture : m.host.capture x.script <;> rw [hcapture] at hnone <;> cases hnone

/-- Checking a model through its service is checking the model, whatever its functions do. From every machine and under
all options, the run of a client takes as many turns as the run of the model, and both return the same: an error if and
only if the other does, the same result and the same recorded graph. -/
theorem service_search_agrees (hm : m.Exact) (o : Options) (fuel : Nat) (x : Machine σ) :
    (Explorer.run (Command.Serve.serviceOf m).connection.driver fuel (.ofPlan ⟨.depthFirst, o⟩ x)).map
        Ending.conclusion =
      (Explorer.run m.driver fuel (.ofPlan ⟨.depthFirst, o⟩ x)).map Ending.conclusion ∧
    ∀ ending ∈ Explorer.run m.driver fuel (.ofPlan ⟨.depthFirst, o⟩ x), ∃ error result e,
      ending = .returned error (some result) e :=
  ⟨hm.carries.explore Captured.keeps_known o fuel x, fun _ => Explorer.run_returned m.driver_givesSnapshots⟩

theorem exact_of_load {name : String} {source : Source} {m : Model Store Value} {x₀ : Machine Store}
    (hload : load name source = .ok (m, x₀)) (hactors : m.actors.length < 2 ^ 53)
    (hchoices : ∀ a ∈ m.actors, ∀ step ∈ a.steps, step.choices < 2 ^ 53) : m.Exact := by
  obtain ⟨s, hs, hstart⟩ := load_eq_ok hload
  obtain ⟨hdeclared, -⟩ := start_eq_ok interpreter_lawful hs hstart
  have hsound : ∀ a ∈ m.actors, ∀ step ∈ a.steps, step.Sound := fun a ha =>
    hs.declared a (Array.mem_toList_iff.mp (hdeclared ▸ ha))
  refine ⟨hactors, fun a ha step hstep => (hsound a ha step hstep).known, fun a ha step hstep => ?_⟩
  have hpositive := (hsound a ha step hstep).choices
  have hsmall := hchoices a ha step hstep
  omega

theorem service_search_agrees_relay : ∃ (m : Model Store Value) (x₀ : Machine Store) (r : Result) (g : Option Graph),
    load "relay" relay = .ok (m, x₀) ∧ m.Exact ∧
      (Explorer.run (Command.Serve.serviceOf m).connection.driver 20
        (.ofPlan ⟨.depthFirst, { Options.default with maxVisited := 8, graph := true }⟩ x₀)).map Ending.conclusion =
          some (some (false, some r, g)) ∧
      r.outcome = .violation ∧ r.trace.length = 2 ∧ g.isSome = true := by
  let o : Options := { Options.default with maxVisited := 8, graph := true }
  let check : Model Store Value → Machine Store → Bool := fun m x₀ =>
    decide (m.actors.length < 2 ^ 53) &&
      (m.actors.all fun a => a.steps.all fun step => decide (step.choices < 2 ^ 53)) &&
      ((Explorer.run m.driver 20 (.ofPlan ⟨.depthFirst, o⟩ x₀)).map Ending.conclusion).any fun returned =>
        returned.any fun r => !r.1 &&
          (r.2.1.any fun result => decide (result.outcome = .violation) && decide (result.trace.length = 2)) &&
          r.2.2.isSome
  obtain ⟨m, x₀, hload, hcheck⟩ : ∃ m x₀, load "relay" relay = .ok (m, x₀) ∧ check m x₀ = true :=
    exists_load (by decide +kernel)
  simp only [check, Bool.and_eq_true, List.all_eq_true, decide_eq_true_eq, Option.any_eq_true] at hcheck
  obtain ⟨⟨hactors, hchoices⟩, returned, hrun, ⟨aborted, result, g⟩, rfl, ⟨haborted, r, hresult, houtcome, htrace⟩,
    hgraph⟩ := hcheck
  dsimp only at haborted hresult hgraph
  rw [Bool.not_eq_true'] at haborted
  subst haborted hresult
  have hm := exact_of_load hload hactors hchoices
  exact ⟨m, x₀, r, g, hload, hm, (service_search_agrees hm o 20 x₀).1.trans hrun, houtcome, htrace, hgraph⟩

end Interleave.Model
