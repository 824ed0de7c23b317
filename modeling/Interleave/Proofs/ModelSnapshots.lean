import Interleave.Model.Start
import Interleave.Proofs.ScriptInterpreter
import Interleave.Proofs.StateInstall

/-! Snapshots of script models. Whatever happens to a model after a snapshot, restoring it brings back the positions of
the actors, a state of the same structure, and the enabled flags that guards find in that state. -/

namespace Interleave.Model

section Guards

variable {σ φ : Type}

def IsRun (m : Model σ φ) (f : φ) : Prop := ∃ a ∈ m.actors, ∃ step ∈ a.steps, step.run = some f

def IsGuard (m : Model σ φ) (f : φ) : Prop := ∃ a ∈ m.actors, ∃ step ∈ a.steps, step.guard = some f

def IsTest (m : Model σ φ) (f : φ) : Prop := m.IsGuard f ∨ ∃ inv ∈ m.invariants, inv.test = f

inductive Found (host : Host σ φ) (D : σ → Prop) : List (ActorDecl φ) → List Nat → List Bool → Prop
  | nil : Found host D [] [] []
  | finished {a : ActorDecl φ} {as : List (ActorDecl φ)} {p : Nat} {ps : List Nat} {es : List Bool}
      (hstep : a.steps[p]? = none) (h : Found host D as ps es) : Found host D (a :: as) (p :: ps) (false :: es)
  | unguarded {a : ActorDecl φ} {as : List (ActorDecl φ)} {p : Nat} {ps : List Nat} {es : List Bool}
      {step : StepDecl φ} (hstep : a.steps[p]? = some step) (hguard : step.guard = none)
      (h : Found host D as ps es) : Found host D (a :: as) (p :: ps) (true :: es)
  | guarded {a : ActorDecl φ} {as : List (ActorDecl φ)} {p : Nat} {ps : List Nat} {e : Bool} {es : List Bool}
      {step : StepDecl φ} {g : φ} {s : σ} (hstep : a.steps[p]? = some step) (hguard : step.guard = some g)
      (hs : D s) (htest : (host.test g s).1 = .ok e) (h : Found host D as ps es) :
      Found host D (a :: as) (p :: ps) (e :: es)

variable {host : Host σ φ} {D D' : σ → Prop} {as : List (ActorDecl φ)} {ps : List Nat} {es : List Bool} {s : σ}

theorem Found.imp (h : Found host D as ps es) (himp : ∀ s, D s → D' s) : Found host D' as ps es := by
  induction h with
  | nil => exact .nil
  | finished hstep _ ih => exact .finished hstep ih
  | unguarded hstep hguard _ ih => exact .unguarded hstep hguard ih
  | guarded hstep hguard hs htest _ ih => exact .guarded hstep hguard (himp _ hs) htest ih

def GuardsKeep (host : Host σ φ) (D : σ → Prop) (as : List (ActorDecl φ)) : Prop :=
  ∀ a ∈ as, ∀ step ∈ a.steps, ∀ g, step.guard = some g → ∀ s, D s → D (host.test g s).2

theorem testGuards_found (hkeep : GuardsKeep host D as) (hps : ps.length = as.length) (hes : es.length = as.length)
    (hs : D s) : D (testGuards host as ps es s).2.2 ∧ (testGuards host as ps es s).2.1.length = as.length ∧
      ((testGuards host as ps es s).1 = none → Found host D as ps (testGuards host as ps es s).2.1) := by
  induction as generalizing ps es s with
  | nil =>
    obtain rfl := List.length_eq_zero_iff.mp hps
    obtain rfl := List.length_eq_zero_iff.mp hes
    exact ⟨hs, rfl, fun _ => .nil⟩
  | cons a as ih =>
    obtain ⟨p, ps, rfl⟩ := List.exists_cons_of_length_eq_add_one hps
    obtain ⟨e, es, rfl⟩ := List.exists_cons_of_length_eq_add_one hes
    obtain ⟨hfirst, hrest⟩ := List.forall_mem_cons.mp hkeep
    have hps' : ps.length = as.length := Nat.succ.inj hps
    have hes' : es.length = as.length := Nat.succ.inj hes
    unfold testGuards
    split
    · obtain ⟨hD, hlength, hfound⟩ := ih hrest hps' hes' hs
      exact ⟨hD, congrArg (· + 1) hlength, fun hnone => .finished ‹_› (hfound hnone)⟩
    · rename_i step hstep
      split
      · obtain ⟨hD, hlength, hfound⟩ := ih hrest hps' hes' hs
        exact ⟨hD, congrArg (· + 1) hlength, fun hnone => .unguarded hstep ‹_› (hfound hnone)⟩
      · rename_i g hguard
        have hD := hfirst step (List.mem_of_getElem? hstep) g hguard s hs
        split <;> rename_i htest <;> rw [htest] at hD
        · exact ⟨hD, hes, by rintro ⟨⟩⟩
        · obtain ⟨hD, hlength, hfound⟩ := ih hrest hps' hes' hD
          exact ⟨hD, congrArg (· + 1) hlength, fun hnone => .guarded hstep hguard hs (by rw [htest]) (hfound hnone)⟩

theorem testGuards_of_found (h : Found host D as ps es) (hkeep : GuardsKeep host D' as)
    (hagree : ∀ a ∈ as, ∀ step ∈ a.steps, ∀ g, step.guard = some g → ∀ s s' e, D s → D' s' →
      (host.test g s).1 = .ok e → (host.test g s').1 = .ok e)
    {es' : List Bool} (hes : es'.length = as.length) (hs : D' s) :
    (testGuards host as ps es' s).1 = none ∧ (testGuards host as ps es' s).2.1 = es := by
  induction h generalizing es' s with
  | nil =>
    obtain rfl := List.length_eq_zero_iff.mp hes
    exact ⟨rfl, rfl⟩
  | finished hstep _ ih =>
    obtain ⟨e', es', rfl⟩ := List.exists_cons_of_length_eq_add_one hes
    obtain ⟨hnone, hflags⟩ := ih (List.forall_mem_cons.mp hkeep).2 (List.forall_mem_cons.mp hagree).2
      (Nat.succ.inj hes) hs
    simp only [testGuards, hstep]
    exact ⟨hnone, congrArg _ hflags⟩
  | unguarded hstep hguard _ ih =>
    obtain ⟨e', es', rfl⟩ := List.exists_cons_of_length_eq_add_one hes
    obtain ⟨hnone, hflags⟩ := ih (List.forall_mem_cons.mp hkeep).2 (List.forall_mem_cons.mp hagree).2
      (Nat.succ.inj hes) hs
    simp only [testGuards, hstep, hguard]
    exact ⟨hnone, congrArg _ hflags⟩
  | @guarded a as p ps e es step g s₁ hstep hguard hs₁ htest _ ih =>
    obtain ⟨e', es', rfl⟩ := List.exists_cons_of_length_eq_add_one hes
    have hmem := List.mem_of_getElem? hstep
    have hanswer := (List.forall_mem_cons.mp hagree).1 step hmem g hguard s₁ s e hs₁ hs htest
    have hD := (List.forall_mem_cons.mp hkeep).1 step hmem g hguard s hs
    cases hresult : host.test g s with
    | mk answer s₂ =>
      rw [hresult] at hanswer hD
      obtain ⟨hnone, hflags⟩ := ih (List.forall_mem_cons.mp hkeep).2 (List.forall_mem_cons.mp hagree).2
        (Nat.succ.inj hes) hD
      have hok : answer = .ok e := hanswer
      simp only [testGuards, hstep, hguard, hresult, hok]
      exact ⟨hnone, congrArg _ hflags⟩

theorem brokenInvariant_keeps {invariants : List (InvariantDecl φ)}
    (hkeep : ∀ inv ∈ invariants, ∀ s, D s → D (host.test inv.test s).2) (hs : D s) :
    D (brokenInvariant host invariants s).2 := by
  induction invariants generalizing s with
  | nil => exact hs
  | cons inv rest ih =>
    obtain ⟨hfirst, hrest⟩ := List.forall_mem_cons.mp hkeep
    have hD := hfirst s hs
    unfold brokenInvariant
    split <;> rename_i htest <;> rw [htest] at hD
    · exact hD
    · exact hD
    · exact ih hrest hD

end Guards

section Positions

variable {σ φ : Type} {m : Model σ φ} {ps qs : List Nat}

def Placed (actors : List (ActorDecl φ)) (positions : List Nat) : Prop :=
  List.Forall₂ (fun a p => p ≤ a.steps.length) actors positions

theorem readPosition_int {a : ActorDecl φ} {p : Nat} (hp : p ≤ a.steps.length) (hsteps : a.steps.length < 2 ^ 53)
    (i : Nat) : readPosition i a (.int p) = .ok p := by
  have hword : (Double.ofInt p).toWord = p := Double.toWord_ofInt (by omega)
  simp only [readPosition, Datum.int, hword]
  rw [if_pos (by omega)]
  rfl

theorem readPositionsFrom_int {as : List (ActorDecl φ)} (h : Placed as ps) (hsteps : ∀ a ∈ as, a.steps.length < 2 ^ 53)
    (i : Nat) : readPositionsFrom i as (ps.map fun (p : Nat) => .int p) = .ok ps := by
  induction h generalizing i with
  | nil => rfl
  | @cons a p as ps hp _ ih =>
    obtain ⟨ha, has⟩ := List.forall_mem_cons.mp hsteps
    simp only [List.map_cons, readPositionsFrom, readPosition_int hp ha, ih has (i + 1)]
    rfl

theorem readPositions_content (h : Placed m.actors ps) (hsteps : ∀ a ∈ m.actors, a.steps.length < 2 ^ 53) (d : Datum) :
    m.readPositions (content ps d) = .ok ps := by
  have hpcs : Assoc.get? "pcs" (content ps d) = some (.list (ps.map fun (p : Nat) => .int p)) := rfl
  simp only [readPositions, hpcs]
  rw [if_pos (by simp [List.Forall₂.length_eq h])]
  exact readPositionsFrom_int h hsteps 0

@[simp] theorem get?_state_content (ps : List Nat) (d : Datum) : Assoc.get? "state" (content ps d) = some d := rfl

theorem content_injective {d d' : Datum} (h : Placed m.actors ps) (h' : Placed m.actors qs)
    (hsteps : ∀ a ∈ m.actors, a.steps.length < 2 ^ 53) (heq : content ps d = content qs d') : ps = qs ∧ d = d' := by
  constructor
  · have hread := readPositions_content h hsteps d
    rw [heq, readPositions_content h' hsteps] at hread
    exact (Except.ok.inj hread).symm
  · have hstate := get?_state_content ps d
    rw [heq, get?_state_content] at hstate
    exact (Option.some.inj hstate).symm

theorem length_aliveActors_congr {x y : Machine σ} (h : x.positions = y.positions) :
    (m.aliveActors x).length = (m.aliveActors y).length := by
  have hpending : m.pending x = m.pending y := by
    funext i
    simp only [pending, h]
  simp only [aliveActors, List.length_filterMap_eq_countP, actorAt?, Option.isSome_map, hpending]

end Positions

section Scripts

variable {σ ρ κ φ : Type} {L : Interpreter σ ρ κ φ} {H : Interpreter.Heap σ ρ} {m : Model σ φ} {s₀ : σ}

/-- The states that calls of the functions of a model and installations of captured states lead to. -/
inductive Visits (m : Model σ φ) (s₀ : σ) : σ → Prop
  | start : Visits m s₀ s₀
  | run {s : σ} {f : φ} (h : Visits m s₀ s) (hf : m.IsRun f) (outcome : Int) :
      Visits m s₀ (m.host.run f outcome s).2
  | test {s : σ} {f : φ} (h : Visits m s₀ s) (hf : m.IsTest f) : Visits m s₀ (m.host.test f s).2
  | install {s s' : σ} {d : Datum} (h : Visits m s₀ s) (h' : Visits m s₀ s') (hd : m.host.capture s' = .ok d) :
      Visits m s₀ (m.host.install d s)

structure RunsOn (L : Interpreter σ ρ κ φ) (H : Interpreter.Heap σ ρ) (m : Model σ φ) (s₀ : σ) : Prop where
  host : m.host = L.host
  valid : H.valid s₀

theorem host_capture_iff {s : σ} {d : Datum} : L.host.capture s = .ok d ↔ L.captureState s = .ok (d, true) := by
  simp only [Interpreter.host]
  split <;> simp_all

theorem Visits.valid (hL : L.Lawful H) (hm : RunsOn L H m s₀) {s : σ} (h : m.Visits s₀ s) : H.valid s := by
  induction h with
  | start => exact hm.valid
  | @run s f _ _ outcome ih =>
    have hcall := hL.call ih f [outcome]
    rw [hm.host]
    simp only [Interpreter.host]
    split <;> simp_all
  | @test s f _ _ ih =>
    have hcall := hL.call ih f []
    rw [hm.host]
    simp only [Interpreter.host]
    split <;> simp_all
  | install _ _ _ ih _ =>
    rw [hm.host]
    exact hL.valid_installState ih _

theorem pending_eq_some {x : Machine σ} {i : Nat} {step : StepDecl φ}
    (h : m.pending x i = some step) :
    ∃ a p, m.actors[i]? = some a ∧ x.positions[i]? = some p ∧ a.steps[p]? = some step := by
  obtain ⟨a, ha, h⟩ := Option.bind_eq_some_iff.mp h
  obtain ⟨p, hp, hstep⟩ := Option.bind_eq_some_iff.mp h
  exact ⟨a, p, ha, hp, hstep⟩

theorem placed_modify {as : List (ActorDecl φ)} {ps : List Nat} (h : Placed as ps) {i : Nat}
    {a : ActorDecl φ} {p : Nat} (ha : as[i]? = some a) (hp : ps[i]? = some p) (hlt : p < a.steps.length) :
    Placed as (ps.modify i (· + 1)) := by
  obtain ⟨hi, rfl⟩ := List.getElem?_eq_some_iff.mp ha
  obtain ⟨hi', rfl⟩ := List.getElem?_eq_some_iff.mp hp
  rw [Placed, List.forall₂_iff_get] at h ⊢
  obtain ⟨hlength, hle⟩ := h
  refine ⟨by simpa using hlength, fun j hj hj' => ?_⟩
  rw [List.length_modify] at hj'
  have hj'' := hle j hj hj'
  simp only [List.get_eq_getElem, List.getElem_modify] at hj'' ⊢
  split_ifs with heq
  · subst heq
    omega
  · exact hj''

/-- What holds of every machine that calls of the driver lead to. -/
structure Fits (m : Model σ φ) (s₀ : σ) (x : Machine σ) : Prop where
  visited : m.Visits s₀ x.script
  placed : Placed m.actors x.positions
  enabled : x.enabled.length = m.actors.length

theorem refresh_eq (m : Model σ φ) (x : Machine σ) : m.refresh x =
    ((testGuards m.host m.actors x.positions x.enabled x.script).1,
      { x with
        script := (testGuards m.host m.actors x.positions x.enabled x.script).2.2
        enabled := (testGuards m.host m.actors x.positions x.enabled x.script).2.1 }) := rfl

theorem checkInvariants_eq (m : Model σ φ) (x : Machine σ) : m.checkInvariants x =
    ((brokenInvariant m.host m.invariants x.script).1,
      { x with script := (brokenInvariant m.host m.invariants x.script).2 }) := rfl

theorem guardsKeep_of_tests {D : σ → Prop}
    (h : ∀ f, m.IsTest f → ∀ s, D s → D (m.host.test f s).2) : GuardsKeep m.host D m.actors :=
  fun a ha step hstep g hguard => h g (.inl ⟨a, ha, step, hstep, hguard⟩)

theorem Visits.tests (f : φ) (hf : m.IsTest f) (s : σ) (h : m.Visits s₀ s) : m.Visits s₀ (m.host.test f s).2 :=
  h.test hf

namespace Fits

variable {x : Machine σ}

theorem refresh (h : m.Fits s₀ x) : m.Fits s₀ (m.refresh x).2 := by
  obtain ⟨hvisited, hlength, -⟩ := testGuards_found (guardsKeep_of_tests Visits.tests)
    (List.Forall₂.length_eq h.placed).symm h.enabled h.visited
  rw [refresh_eq]
  exact ⟨hvisited, h.placed, hlength⟩

theorem checkInvariants (h : m.Fits s₀ x) : m.Fits s₀ (m.checkInvariants x).2 := by
  rw [checkInvariants_eq]
  refine ⟨brokenInvariant_keeps (fun inv hinv s hs => ?_) h.visited, h.placed, h.enabled⟩
  exact hs.test (.inr ⟨inv, hinv, rfl⟩)

theorem log (h : m.Fits s₀ x) (level : Logging.Level) (message : String) (fields : List (String × String)) :
    m.Fits s₀ (m.log x level message fields) := ⟨h.visited, h.placed, h.enabled⟩

theorem initialActors (h : m.Fits s₀ x) : m.Fits s₀ (m.initialActors x).2 := by
  have hchecked := h.checkInvariants
  unfold Model.initialActors
  split <;> rename_i hcheck <;> rw [hcheck] at hchecked <;> exact hchecked

theorem runStep (h : m.Fits s₀ x) {i : Nat} {step : StepDecl φ} (hpending : m.pending x i = some step)
    (t : Transition) : m.Fits s₀ (m.runStep x i step t).2.2 := by
  obtain ⟨a, p, ha, hp, hstep⟩ := pending_eq_some hpending
  have hplaced := placed_modify h.placed ha hp (List.getElem?_eq_some_iff.mp hstep).1
  unfold Model.runStep
  dsimp only
  split
  · exact ⟨h.visited, hplaced, h.enabled⟩
  · rename_i f hf
    have hvisited := h.visited.run ⟨a, List.mem_of_getElem? ha, step, List.mem_of_getElem? hstep, hf⟩ t.outcome
    split <;> rename_i hrun <;> rw [hrun] at hvisited <;> exact ⟨hvisited, hplaced, h.enabled⟩

theorem takeStep (h : m.Fits s₀ x) {i : Nat} {step : StepDecl φ} (hpending : m.pending x i = some step)
    (t : Transition) : m.Fits s₀ (m.takeStep x i step t).2 := by
  have hrun := h.runStep hpending t
  refine Fits.log (Fits.refresh ?_) _ _ _
  split
  · exact hrun
  · exact hrun.checkInvariants

theorem execute (h : m.Fits s₀ x) (a : ActorId) (outcome : Int) : m.Fits s₀ (m.execute a outcome x).2 := by
  unfold Model.execute
  dsimp only
  split
  · exact h
  · rename_i step hstep
    split_ifs at hstep ⊢
    · exact h
    · exact h.takeStep hstep _

end Fits

theorem snapshot_eq_ok {x x' : Machine σ} {k : Captured}
    (h : m.snapshot x = (.ok (some k), x')) : x' = x ∧ ∃ d, m.host.capture x.script = .ok d ∧
      k = ⟨content x.positions d, (m.aliveActors x).length⟩ := by
  unfold Model.snapshot at h
  split at h
  · cases h
  · cases h
    exact ⟨rfl, _, ‹_›, rfl⟩

theorem snapshot_of_capture {x : Machine σ} {d : Datum}
    (h : m.host.capture x.script = .ok d) :
    m.snapshot x = (.ok (some ⟨content x.positions d, (m.aliveActors x).length⟩), x) := by
  simp only [Model.snapshot, h]

def installed (m : Model σ φ) (ps : List Nat) (d : Datum) (y : Machine σ) : Machine σ :=
  { y with script := m.host.install d y.script, positions := ps }

structure Restored (m : Model σ φ) (r : Except Failure Unit × Machine σ) (x : Machine σ) : Prop where
  ok : r.1 = .ok () ↔ (m.refresh x).1 = none
  script : r.2.script = (m.refresh x).2.script
  positions : r.2.positions = x.positions
  enabled : r.2.enabled = (m.refresh x).2.enabled

theorem restore_restored {k : Captured} {ps : List Nat} {d : Datum}
    (hps : m.readPositions k.content = .ok ps) (hd : Assoc.get? "state" k.content = some d) (y : Machine σ) :
    Restored m (m.restore (.own k) y) (m.installed ps d y) := by
  have hrefresh : m.refresh { y with script := m.host.install d y.script, positions := ps } =
      m.refresh (m.installed ps d y) := rfl
  simp only [Model.restore, hps, hd, Option.getD_some, hrefresh]
  have hpositions : (m.refresh (m.installed ps d y)).2.positions = ps := rfl
  split <;> rename_i heq <;> rw [heq] at hpositions
  · exact ⟨by simp [heq], by rw [heq], hpositions, by rw [heq]⟩
  · exact ⟨by simp [heq], by rw [heq]; rfl, hpositions, by rw [heq]; rfl⟩

/-- Guards and invariants do not modify the state. -/
def TestsLook (L : Interpreter σ ρ κ φ) (m : Model σ φ) (s₀ : σ) : Prop :=
  ∀ f, m.IsTest f → ∀ s, m.Visits s₀ s → L.Unmodified s (m.host.test f s).2

/-- A guard that answers gives the same answer in every state of the same structure. -/
def GuardsReadState (L : Interpreter σ ρ κ φ) (m : Model σ φ) (s₀ : σ) : Prop :=
  ∀ g, m.IsGuard g → ∀ s s', m.Visits s₀ s → m.Visits s₀ s' → L.Alike s s' (L.state s) (L.state s') →
    ∀ e, (m.host.test g s).1 = .ok e → (m.host.test g s').1 = .ok e

/-- A guard that looks at a variable outside the state, which a step of another actor sets. -/
def latch : Script.Source := .text ("state = \x7b door = \x7b 1 \x7d \x7d\nlocal open = false\n" ++
  "actor(\"a\", \x7b step\x7b kind = \"write\", resource = \"door\", run = function() open = true end \x7d \x7d)\n" ++
  "actor(\"b\", \x7b step\x7b kind = \"read\", resource = \"door\", guard = function() return open end \x7d \x7d)").toUTF8

-- Such a guard finds another answer after the restoration, in the same state.
example : (match load "latch" latch with
    | .error _ => none
    | .ok (m, x) =>
      match m.snapshot x with
      | (.ok (some k), _) => some (x.enabled, (m.restore (.own k) (m.execute 1 0 x).2).2.enabled)
      | _ => none) = some ([true, false], [true, true]) := by decide +kernel

def Settled (L : Interpreter σ ρ κ φ) (m : Model σ φ) (s₀ : σ) (x : Machine σ) : Prop :=
  Found m.host (fun s => m.Visits s₀ s ∧ L.Unmodified s x.script) m.actors x.positions x.enabled

section Restoring

variable (hL : L.Lawful H) (hm : RunsOn L H m s₀) (hlook : TestsLook L m s₀)
  (hsteps : ∀ a ∈ m.actors, a.steps.length < 2 ^ 53)
  {x y : Machine σ} {k : Captured} {d : Datum}

include hlook in
theorem settled_refresh (hx : m.Fits s₀ x) (h : (m.refresh x).1 = none) : Settled L m s₀ (m.refresh x).2 := by
  have hkeep : ∀ f, m.IsTest f → ∀ s, m.Visits s₀ s ∧ L.Unmodified x.script s →
      m.Visits s₀ (m.host.test f s).2 ∧ L.Unmodified x.script (m.host.test f s).2 :=
    fun f hf s hs => ⟨hs.1.test hf, hs.2.trans (hlook f hf s hs.1)⟩
  obtain ⟨⟨-, hunmodified⟩, -, hfound⟩ := testGuards_found (guardsKeep_of_tests hkeep)
    (List.Forall₂.length_eq hx.placed).symm hx.enabled ⟨hx.visited, .refl _⟩
  exact (hfound h).imp fun s hs => ⟨hs.1, hs.2.symm.trans hunmodified⟩

include hlook in
theorem Settled.checkInvariants (h : Settled L m s₀ x) (hx : m.Fits s₀ x) : Settled L m s₀ (m.checkInvariants x).2 := by
  have hkept : m.Visits s₀ (m.checkInvariants x).2.script ∧ L.Unmodified x.script (m.checkInvariants x).2.script := by
    refine brokenInvariant_keeps (D := fun s => m.Visits s₀ s ∧ L.Unmodified x.script s) (fun inv hinv s hs => ?_)
      ⟨hx.visited, .refl _⟩
    have htest : m.IsTest inv.test := .inr ⟨inv, hinv, rfl⟩
    exact ⟨hs.1.test htest, hs.2.trans (hlook _ htest s hs.1)⟩
  exact h.imp fun s hs => ⟨hs.1, hs.2.trans hkept.2⟩

include hsteps in
theorem restore_content (hx : m.Fits s₀ x) (hcontent : k.content = content x.positions d) (y : Machine σ) :
    Restored m (m.restore (.own k) y) (m.installed x.positions d y) :=
  restore_restored (hcontent ▸ readPositions_content hx.placed hsteps d) (hcontent ▸ get?_state_content _ d) y

theorem Fits.installed (hx : m.Fits s₀ x) (hy : m.Fits s₀ y) (hcapture : m.host.capture x.script = .ok d) :
    m.Fits s₀ (m.installed x.positions d y) :=
  ⟨hy.visited.install hx.visited hcapture, hx.placed, hy.enabled⟩

include hsteps in
theorem Fits.restore (hx : m.Fits s₀ x) (hy : m.Fits s₀ y) (hcapture : m.host.capture x.script = .ok d)
    (hcontent : k.content = content x.positions d) : m.Fits s₀ (m.restore (.own k) y).2 := by
  have hrestored := restore_content hsteps hx hcontent y
  obtain ⟨hvisited, -, henabled⟩ := (hx.installed hy hcapture).refresh
  exact ⟨hrestored.script ▸ hvisited, hrestored.positions ▸ hx.placed, hrestored.enabled ▸ henabled⟩

include hL hm hlook in
theorem shown_installed (hx : m.Fits s₀ x) (hy : m.Fits s₀ y) (hcapture : m.host.capture x.script = .ok d)
    (hshown : L.Shown x.script d) :
    L.Shown (m.installed x.positions d y).script d ∧ L.Shown (m.refresh (m.installed x.positions d y)).2.script d := by
  have hinstalled : L.Shown (m.installed x.positions d y).script d := by
    rw [Model.installed, hm.host]
    exact hL.shown_installState (hx.visited.valid hL hm) (hy.visited.valid hL hm) hshown
  have hkeep : ∀ f, m.IsTest f → ∀ s, m.Visits s₀ s ∧ L.Shown s d →
      m.Visits s₀ (m.host.test f s).2 ∧ L.Shown (m.host.test f s).2 d :=
    fun f hf s hs => ⟨hs.1.test hf, (hlook f hf s hs.1).shown hs.2⟩
  have hfits := hx.installed hy hcapture
  obtain ⟨⟨-, hguarded⟩, -, -⟩ := testGuards_found (guardsKeep_of_tests hkeep)
    (List.Forall₂.length_eq hfits.placed).symm hfits.enabled ⟨hfits.visited, hinstalled⟩
  exact ⟨hinstalled, hguarded⟩

include hL hm hlook in
theorem refresh_installed (hguards : GuardsReadState L m s₀) (hx : m.Fits s₀ x) (hsettled : Settled L m s₀ x)
    (hy : m.Fits s₀ y) (hcapture : m.host.capture x.script = .ok d) (hshown : L.Shown x.script d) :
    (m.refresh (m.installed x.positions d y)).1 = none ∧
      (m.refresh (m.installed x.positions d y)).2.enabled = x.enabled := by
  have hkeep : ∀ f, m.IsTest f → ∀ s, m.Visits s₀ s ∧ L.Shown s d →
      m.Visits s₀ (m.host.test f s).2 ∧ L.Shown (m.host.test f s).2 d :=
    fun f hf s hs => ⟨hs.1.test hf, (hlook f hf s hs.1).shown hs.2⟩
  have hfits := hx.installed hy hcapture
  have hinstalled := (shown_installed hL hm hlook hx hy hcapture hshown).1
  refine testGuards_of_found hsettled (guardsKeep_of_tests hkeep) ?_ hfits.enabled ⟨hfits.visited, hinstalled⟩
  rintro a ha step hstep g hguard s s' e ⟨hs, hunmodified⟩ ⟨hs', hshown'⟩ htest
  have hshown'' : L.Shown s d := hunmodified.symm.shown hshown
  exact hguards g ⟨a, ha, step, hstep, hguard⟩ s s' hs hs' (hshown''.alike hshown') e htest

end Restoring

theorem start_eq_ok (hL : L.Lawful H) {name : String} {declared : Declarations φ} {s : σ} (hs : H.valid s)
    {x₀ : Machine σ} (h : L.start name declared s = .ok (m, x₀)) : m.actors = declared.actors.toList ∧
      ∃ s₀, L.ensureState s = .ok s₀ ∧ RunsOn L H m s₀ ∧ ∃ x, m.Fits s₀ x ∧ (m.refresh x).1 = none ∧
        x₀.script = (m.refresh x).2.script ∧ x₀.positions = x.positions ∧ x₀.enabled = (m.refresh x).2.enabled := by
  unfold Interpreter.start at h
  dsimp only at h
  split_ifs at h
  split at h
  · cases h
  · rename_i script hensure
    have hvalid : H.valid script := by
      unfold Interpreter.ensureState at hensure
      split at hensure
      · cases hensure
        exact hs
      · cases hensure
        exact hL.valid_installState hs _
      · cases hensure
    split at h
    · cases h
    · rename_i x hrefresh
      cases h
      refine ⟨rfl, script, hensure, ⟨rfl, hvalid⟩, _, ⟨.start, ?_, ?_⟩, congrArg Prod.fst hrefresh, ?_, ?_, ?_⟩
      · rw [Placed, List.forall₂_map_right_iff, List.forall₂_same]
        exact fun a _ => Nat.zero_le _
      · simp
      · exact congrArg (·.2.script) hrefresh.symm
      · exact congrArg (·.2.positions) hrefresh.symm
      · exact congrArg (·.2.enabled) hrefresh.symm

/-- The machines that calls of the driver lead to, whatever they answer. Snapshots change nothing. -/
inductive Called (m : Model σ φ) (x₀ : Machine σ) : Machine σ → Prop
  | start : Called m x₀ x₀
  | initialActors {x : Machine σ} (h : Called m x₀ x) : Called m x₀ (m.initialActors x).2
  | execute {x : Machine σ} (h : Called m x₀ x) (a : ActorId) (outcome : Int) :
      Called m x₀ (m.execute a outcome x).2
  | restore {x y : Machine σ} {k : Captured} (hx : Called m x₀ x) (hk : m.snapshot x = (.ok (some k), x))
      (hy : Called m x₀ y) : Called m x₀ (m.restore (.own k) y).2

inductive Reached (m : Model σ φ) (x₀ : Machine σ) : Machine σ → Prop
  | start : Reached m x₀ x₀
  | initialActors {x x' : Machine σ} {actors : List Actor} (h : Reached m x₀ x)
      (hok : m.initialActors x = (.ok actors, x')) : Reached m x₀ x'
  | execute {x x' : Machine σ} {a : ActorId} {outcome : Int} {r : StepResult} (h : Reached m x₀ x)
      (hok : m.execute a outcome x = (.ok r, x')) (hviolation : r.violation = none) : Reached m x₀ x'
  | restore {x y y' : Machine σ} {k : Captured} (hx : Reached m x₀ x) (hk : m.snapshot x = (.ok (some k), x))
      (hy : Called m x₀ y) (hok : m.restore (.own k) y = (.ok (), y')) : Reached m x₀ y'

section Runs

variable (hL : L.Lawful H) (hm : RunsOn L H m s₀) (hlook : TestsLook L m s₀)
  (hsteps : ∀ a ∈ m.actors, a.steps.length < 2 ^ 53)
  {x₀ x : Machine σ}

include hsteps in
theorem Called.fits (hx₀ : m.Fits s₀ x₀) (h : m.Called x₀ x) : m.Fits s₀ x := by
  induction h with
  | start => exact hx₀
  | initialActors _ ih => exact ih.initialActors
  | execute _ a outcome ih => exact ih.execute a outcome
  | restore _ hk _ ihx ihy =>
    obtain ⟨-, d, hcapture, rfl⟩ := snapshot_eq_ok hk
    exact Fits.restore hsteps ihx ihy hcapture rfl

theorem Reached.called (h : m.Reached x₀ x) : m.Called x₀ x := by
  induction h with
  | start => exact .start
  | @initialActors x x' actors _ hok ih =>
    have hcalled := ih.initialActors
    rwa [hok] at hcalled
  | @execute x x' a outcome r _ hok _ ih =>
    have hcalled := ih.execute a outcome
    rwa [hok] at hcalled
  | restore _ hk hy hok ih =>
    have hcalled := ih.restore hk hy
    rwa [hok] at hcalled

include hlook in
theorem settled_takeStep (hx : m.Fits s₀ x) {i : Nat} {step : StepDecl φ} (hpending : m.pending x i = some step)
    {t : Transition} (h : (m.takeStep x i step t).1.violation = none) : Settled L m s₀ (m.takeStep x i step t).2 := by
  have hrun := hx.runStep hpending t
  unfold takeStep at h ⊢
  dsimp only [Model.result] at h
  split at h
  · cases h
  · refine settled_refresh hlook ?_ ‹_›
    split
    · exact hrun
    · exact hrun.checkInvariants

include hlook hsteps in
theorem Reached.settled (hx₀ : m.Fits s₀ x₀) (hsettled : Settled L m s₀ x₀) (h : m.Reached x₀ x) : Settled L m s₀ x := by
  induction h with
  | start => exact hsettled
  | @initialActors x x' actors hx hok ih =>
    have hchecked := ih.checkInvariants hlook (hx.called.fits hsteps hx₀)
    unfold Model.initialActors at hok
    split at hok <;> rename_i hcheck <;> rw [hcheck] at hchecked <;> cases hok
    exact hchecked
  | @execute x x' a outcome r hx hok hviolation ih =>
    unfold Model.execute at hok
    dsimp only at hok
    split at hok
    · cases hok
    · rename_i step hstep
      split_ifs at hstep hok
      · cases hok
      · cases hok
        exact settled_takeStep hlook (hx.called.fits hsteps hx₀) hstep hviolation
  | @restore x y y' k hx hk hy hok _ =>
    obtain ⟨-, d, hcapture, hcaptured⟩ := snapshot_eq_ok hk
    have hfits := hx.called.fits hsteps hx₀
    have hrestored := restore_content hsteps hfits (congrArg Captured.content hcaptured) y
    have hsettled := settled_refresh hlook (hfits.installed (hy.fits hsteps hx₀) hcapture)
      (hrestored.ok.mp (by rw [hok]))
    obtain ⟨-, hscript, hpositions, henabled⟩ := hrestored
    rw [hok] at hscript hpositions henabled
    rw [Settled, hscript, hpositions, henabled]
    exact hsettled

end Runs

end Scripts

section Loaded

open Script

theorem eq_ok_of_isOk {ε : Type} {r : Except ε Unit} (h : r.isOk = true) : r = .ok () := by
  cases r <;> first | rfl | cases h

theorem exists_ok_of_toOption {ε α : Type} {r : Except ε α} {P : α → Bool} (h : r.toOption.any P = true) :
    ∃ a, r = .ok a ∧ P a = true := by
  cases r with
  | error => cases h
  | ok a => exact ⟨a, rfl, h⟩

def follow {σ ρ κ φ : Type} (L : Interpreter σ ρ κ φ) (s : σ) :
    Interpreter.Value ρ → List (Interpreter.Key κ) → Interpreter.Value ρ
  | v, [] => v
  | .table r, key :: keys => follow L s (L.get r key s) keys
  | _, _ :: _ => .nil

theorem alike_follow {σ ρ κ φ : Type} {L : Interpreter σ ρ κ φ} {s s' : σ} {v w : Interpreter.Value ρ}
    (h : L.Alike s s' v w) (keys : List (Interpreter.Key κ)) :
    L.Alike s s' (follow L s v keys) (follow L s' w keys) := by
  induction keys generalizing v w with
  | nil => exact h
  | cons key keys ih =>
    cases h with
    | plain hv => cases v <;> first | exact absurd rfl (hv _) | exact .plain (by simp [follow])
    | table h => exact ih (h key)

theorem test_assert (s : Store) : (interpreter.host.test (.builtin .assert) s).2 = s ∧
    ∀ e, (interpreter.host.test (.builtin .assert) s).1 = .ok e ↔ (interpreter.state s).truthy = true ∧ e = true := by
  obtain ⟨fuel, hfuel⟩ : ∃ fuel, bound = fuel + 1 := ⟨999999999999999999, rfl⟩
  have hcall : s.call (.builtin .assert) [s.state] =
      (if s.state.truthy then .ok [s.state] else .error (.error "assertion failed!".toUTF8), s) := by
    rw [Store.call, hfuel]
    simp only [Eval.apply, Builtin.run, Library.assertion, Library.arg, Library.arg?, Library.stringArgD, Library.given]
    cases htruthy : s.state.truthy <;> simp [htruthy] <;> rfl
  simp only [Interpreter.host, interpreter, List.map_nil, hcall, Value.truthy_outside]
  cases htruthy : s.state.truthy <;> simp [htruthy, Value.truthy_outside, eq_comm]

theorem truthy_of_alike {σ ρ κ φ : Type} {L : Interpreter σ ρ κ φ} {s s' : σ} {v w : Interpreter.Value ρ}
    (h : L.Alike s s' v w) : v.truthy = w.truthy := by
  cases h <;> rfl

theorem regular_of_rows {s : Store}
    (h : ∀ t ∈ s.tables, t.keys.length = t.length → t.fields = [] ∧ t.items.size ≤ t.length)
    (v : Interpreter.Value Nat) : interpreter.Regular s v := by
  rintro r - ⟨-, hcount⟩ key hget
  have hrow : (s.tables.getD r .empty).fields = [] ∧
      (s.tables.getD r .empty).items.size ≤ (s.tables.getD r .empty).length := by
    have hcount : (s.tables.getD r .empty).keys.length = (s.tables.getD r .empty).length := hcount
    rw [Array.getD_eq_getD_getElem?] at hcount ⊢
    cases hr : s.tables[r]? with
    | none => exact ⟨rfl, Nat.zero_le _⟩
    | some t =>
      rw [hr] at hcount
      exact h t (Array.mem_of_getElem? hr) hcount
  have hvalue : (s.tables.getD r .empty).getKey key ≠ .nil := mt Value.outside_eq_nil.mpr hget
  obtain ⟨w, rfl⟩ := Table.exists_key_of_getKey hvalue
  rw [Table.getKey_key] at hvalue
  cases hslot : (s.tables.getD r .empty).slot? w with
  | some i =>
    obtain ⟨rfl, hposition, hi⟩ := Table.slot?_eq_some_iff.mp hslot
    exact ⟨i + 1, Value.key_eq_position_iff.mpr ⟨rfl, hposition⟩, by omega, hi.trans_le hrow.2⟩
  | none =>
    rw [Table.get_of_free hslot, hrow.1] at hvalue
    exact absurd rfl hvalue

def ledger : Source := .text ("state = \x7b log = \x7b 1, \x7b 2 \x7d, 3 \x7d \x7d\n" ++
  "local function fill(s) s.log = \x7b \x7b seen = \x7b 4, true \x7d \x7d, 5 \x7d end\n" ++
  "local function clear(s) s.log = \x7b\x7d end\n" ++
  "actor(\"a\", \x7b step\x7b kind = \"write\", resource = \"log\", run = fill, guard = assert \x7d \x7d)\n" ++
  "actor(\"b\", \x7b step\x7b kind = \"write\", resource = \"log\", run = clear, guard = assert \x7d \x7d)\n" ++
  "invariant(\"kept\", assert)").toUTF8

def holed : Source := .text ("state = \x7b t = \x7b 1, nil, 3, x = \"z\" \x7d \x7d\n" ++
  "actor(\"a\", \x7b step\x7b kind = \"read\", resource = \"t\" \x7d \x7d)").toUTF8

end Loaded

/-- Snapshots lose nothing, whatever interpreter runs the script and whichever borders its lengths are. A snapshot of a
machine reached without violation can be restored after any calls: the positions are the same again, the state has the
same structure, and the next snapshot is the same. If guards read the state alone, the restoration succeeds and gives
the same flags. And equal snapshots mean equal positions and states of the same structure. All of this is for states in
which every table that is taken for a list is a sequence. -/
theorem snapshots_lose_nothing {σ ρ κ φ : Type} {L : Interpreter σ ρ κ φ} {H : Interpreter.Heap σ ρ} (hL : L.Lawful H)
    {name : String} {declared : Declarations φ} {s s₀ : σ} (hs : H.valid s) {m : Model σ φ} {x₀ : Machine σ}
    (hstart : L.start name declared s = .ok (m, x₀)) (hs₀ : L.ensureState s = .ok s₀)
    (hsteps : ∀ a ∈ m.actors, a.steps.length < 2 ^ 53) (hlook : TestsLook L m s₀) {x : Machine σ} {k : Captured}
    (hx : m.Reached x₀ x) (hk : m.snapshot x = (.ok (some k), x)) (hregular : L.Regular x.script (L.state x.script)) :
    (∀ y z : Machine σ, ∀ answer, m.Called x₀ y → m.restore (.own k) y = (answer, z) →
      z.positions = x.positions ∧ L.Alike x.script z.script (L.state x.script) (L.state z.script) ∧
      m.snapshot z = (.ok (some k), z) ∧ (GuardsReadState L m s₀ → answer = .ok () ∧ z.enabled = x.enabled)) ∧
    (∀ (x' : Machine σ) (k' : Captured), m.Reached x₀ x' → m.snapshot x' = (.ok (some k'), x') →
      L.Regular x'.script (L.state x'.script) → Snapshot.same k k' = true →
      x'.positions = x.positions ∧ L.Alike x.script x'.script (L.state x.script) (L.state x'.script)) := by
  obtain ⟨-, _, hensured, hm, first, hfirst, hok, hscript, hpositions, henabled⟩ := start_eq_ok hL hs hstart
  cases hs₀.symm.trans hensured
  have hx₀ : m.Fits s₀ x₀ := by
    obtain ⟨hvisited, hplaced, hlength⟩ := hfirst.refresh
    exact ⟨hscript ▸ hvisited, hpositions ▸ hplaced, henabled ▸ hlength⟩
  have hsettled₀ : Settled L m s₀ x₀ := by
    rw [Settled, hscript, hpositions, henabled]
    exact settled_refresh hlook hfirst hok
  have hfits := hx.called.fits hsteps hx₀
  obtain ⟨-, d, hcapture, hcaptured⟩ := snapshot_eq_ok hk
  have hcontent := congrArg Captured.content hcaptured
  have hshown : ∀ {x : Machine σ} {d : Datum}, m.Fits s₀ x → L.Regular x.script (L.state x.script) →
      m.host.capture x.script = .ok d → L.Shown x.script d := by
    intro x d hfits hregular hcapture
    rw [hm.host, host_capture_iff] at hcapture
    exact (hL.captureState_iff (hfits.visited.valid hL hm) hregular).mp hcapture
  -- What was captured shows the state, here and wherever it is installed.
  have hd := hshown hfits hregular hcapture
  refine ⟨fun y z answer hy hrestore => ?_, fun x' k' hx' hk' hregular' hsame => ?_⟩
  · have hyfits := hy.fits hsteps hx₀
    obtain ⟨hanswer, hzscript, hzpositions, hzenabled⟩ := restore_content hsteps hfits hcontent y
    have hz := (shown_installed hL hm hlook hfits hyfits hcapture hd).2
    have hzfits := Fits.restore hsteps hfits hyfits hcapture hcontent
    rw [← hzscript] at hz
    rw [hrestore] at hanswer hzscript hzpositions hzenabled hz hzfits
    refine ⟨hzpositions, hd.alike hz, ?_, fun hguards => ?_⟩
    · have hzcapture : m.host.capture z.script = .ok d := by
        rw [hm.host, host_capture_iff]
        exact hL.capture_of_shows (hzfits.visited.valid hL hm) hz
      have hpositions : z.positions = x.positions := hzpositions
      rw [snapshot_of_capture hzcapture, hpositions, length_aliveActors_congr hpositions, ← hcaptured]
    · obtain ⟨hnone, hflags⟩ := refresh_installed hL hm hlook hguards hfits
        (hx.settled hlook hsteps hx₀ hsettled₀) hyfits hcapture hd
      exact ⟨hanswer.mpr hnone, hzenabled.trans hflags⟩
  · have hfits' := hx'.called.fits hsteps hx₀
    obtain ⟨-, d', hcapture', hcaptured'⟩ := snapshot_eq_ok hk'
    have hsame' : k.content = k'.content := by
      simp only [Snapshot.same, Bool.and_eq_true, decide_eq_true_eq] at hsame
      exact hsame.2
    -- Equal contents tell the same positions and show both states.
    rw [hcaptured, hcaptured'] at hsame'
    obtain ⟨hpositions', rfl⟩ := content_injective hfits.placed hfits'.placed hsteps hsame'
    exact ⟨hpositions'.symm, hd.alike (hshown hfits' hregular' hcapture')⟩

section Loaded

open Script

theorem snapshots_lose_nothing_ledger :
    ∃ (m : Model Store Value) (s s₀ : Store) (x₀ x y z : Machine Store) (k : Captured),
      load "ledger" ledger = .ok (m, x₀) ∧ s.Sound ∧ interpreter.start "ledger" s.declarations s = .ok (m, x₀) ∧
      interpreter.ensureState s = .ok s₀ ∧ TestsLook interpreter m s₀ ∧ GuardsReadState interpreter m s₀ ∧
      m.Reached x₀ x ∧ m.snapshot x = (.ok (some k), x) ∧ y = (m.execute 2 0 x).2 ∧ y.positions ≠ x.positions ∧
      m.restore (.own k) y = (.ok (), z) ∧ z.positions = x.positions ∧ z.enabled = x.enabled ∧
      interpreter.Alike x.script z.script (interpreter.state x.script) (interpreter.state z.script) ∧
      m.snapshot z = (.ok (some k), z) := by
  let check : Model Store Value → Machine Store → Bool := fun m x₀ =>
    (m.invariants.all fun inv => decide (inv.test = .builtin .assert)) &&
      (m.actors.all fun a => decide (a.steps.length < 2 ^ 53) &&
        a.steps.all fun step => decide (step.guard = some (.builtin .assert))) &&
      (m.execute 1 0 x₀).1.toOption.any fun r =>
        let x := (m.execute 1 0 x₀).2
        r.violation.isNone &&
          decide (∀ t ∈ x.script.tables, t.keys.length = t.length → t.fields = [] ∧ t.items.size ≤ t.length) &&
          decide ((m.execute 2 0 x).2.positions ≠ x.positions) && (m.host.capture x.script).toOption.any fun _ => true
  obtain ⟨m, x₀, hload, hcheck⟩ : ∃ m x₀, load "ledger" ledger = .ok (m, x₀) ∧ check m x₀ = true :=
    exists_load (by decide +kernel)
  obtain ⟨s, hs, hstart⟩ := load_eq_ok hload
  obtain ⟨-, s₀, hs₀, hm, -⟩ := start_eq_ok interpreter_lawful hs hstart
  simp only [check, Bool.and_eq_true, List.all_eq_true, decide_eq_true_eq] at hcheck
  obtain ⟨⟨hinvariants, hactors⟩, hexecuted⟩ := hcheck
  obtain ⟨r, hr, hexecuted⟩ := exists_ok_of_toOption hexecuted
  simp only [Bool.and_eq_true, decide_eq_true_eq, Option.isNone_iff_eq_none] at hexecuted
  obtain ⟨⟨⟨hviolation, hrows⟩, hmoved⟩, hcaptured⟩ := hexecuted
  obtain ⟨d, hcapture, -⟩ := exists_ok_of_toOption hcaptured
  have htest : ∀ f, m.IsTest f → f = .builtin .assert := by
    rintro f (⟨a, ha, step, hstep, hguard⟩ | ⟨inv, hinv, rfl⟩)
    · exact Option.some.inj (hguard.symm.trans ((hactors a ha).2 step hstep))
    · exact hinvariants inv hinv
  have hlook : TestsLook interpreter m s₀ := by
    intro f hf s _
    rw [htest f hf, hm.host, (test_assert s).1]
    exact .refl s
  have hguards : GuardsReadState interpreter m s₀ := by
    intro g hg s s' _ _ halike e he
    rw [htest g (.inl hg), hm.host] at he ⊢
    rw [(test_assert s).2] at he
    rwa [(test_assert s').2, ← truthy_of_alike halike]
  have hreached : m.Reached x₀ (m.execute 1 0 x₀).2 := .execute .start (Prod.ext hr rfl) hviolation
  have hsnapshot := snapshot_of_capture hcapture
  obtain ⟨hrestores, -⟩ := snapshots_lose_nothing interpreter_lawful hs hstart hs₀ (fun a ha => (hactors a ha).1) hlook
    hreached hsnapshot (regular_of_rows hrows _)
  obtain ⟨hpositions, halike, hagain, hanswer⟩ := hrestores _ _ _ (hreached.called.execute 2 0) rfl
  obtain ⟨hok, henabled⟩ := hanswer hguards
  exact ⟨m, s, s₀, x₀, _, _, _, _, hload, hs, hstart, hs₀, hlook, hguards, hreached, hsnapshot, rfl, hmoved,
    Prod.ext hok rfl, hpositions, henabled, halike, hagain⟩

/-- A table with two values at three positions and another key has as many keys as its length says. It is captured as a
list, and the other key is lost. -/
theorem hole_loses_key : ∃ (m : Model Store Value) (x z : Machine Store) (k : Captured),
    load "holed" holed = .ok (m, x) ∧ (∀ f, ¬ m.IsTest f) ∧ m.snapshot x = (.ok (some k), x) ∧
      m.restore (.own k) x = (.ok (), z) ∧
      ¬ interpreter.Alike x.script z.script (interpreter.state x.script) (interpreter.state z.script) := by
  let keys : List (Interpreter.Key Value) := [.text "t", .text "x"]
  let check : Model Store Value → Machine Store → Bool := fun m x =>
    m.invariants.isEmpty && (m.actors.all fun a => a.steps.all (·.guard.isNone)) &&
      (m.host.capture x.script).toOption.any fun d =>
        let r := m.restore (.own ⟨content x.positions d, (m.aliveActors x).length⟩) x
        r.1.isOk && decide (follow interpreter x.script (interpreter.state x.script) keys = .text "z") &&
          decide (follow interpreter r.2.script (interpreter.state r.2.script) keys = .nil)
  obtain ⟨m, x, hload, hcheck⟩ : ∃ m x, load "holed" holed = .ok (m, x) ∧ check m x = true :=
    exists_load (by decide +kernel)
  simp only [check, Bool.and_eq_true, List.isEmpty_iff, List.all_eq_true, Option.isNone_iff_eq_none] at hcheck
  obtain ⟨⟨hinvariants, hguards⟩, hrestored⟩ := hcheck
  obtain ⟨d, hcapture, hrestored⟩ := exists_ok_of_toOption hrestored
  simp only [Bool.and_eq_true, decide_eq_true_eq] at hrestored
  obtain ⟨⟨hok, hbefore⟩, hafter⟩ := hrestored
  refine ⟨m, x, _, _, hload, ?_, snapshot_of_capture hcapture, Prod.ext ?_ rfl, fun halike => ?_⟩
  · rintro f (⟨a, ha, step, hstep, hguard⟩ | ⟨inv, hinv, -⟩)
    · simp [hguards a ha step hstep] at hguard
    · simp [hinvariants] at hinv
  · exact eq_ok_of_isOk hok
  · have hlost := alike_follow halike keys
    rw [hbefore, hafter] at hlost
    cases hlost

end Loaded

end Interleave.Model
