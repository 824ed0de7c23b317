import Interleave.Program
import Interleave.Proofs.Marks

/-! Executions of the program behind a driver, and what makes a driver deterministic.

An execution is run on the driver itself, from its initial state, without snapshots: every step must be
offered by the state that results from the reports so far. -/

namespace Interleave

variable {σ κ π : Type}

/-- Where an execution has led. -/
structure Node (σ : Type) where
  state : State
  machine : σ
  trace : List Transition
  violation : Option Violation

namespace Node

def initial (actors : List Actor) (m : σ) : Node σ :=
  { state := State.new 0 actors, machine := m, trace := [], violation := none }

/-- The execution ends in a step that reports a violation, or in a deadlock. -/
def Failing (n : Node σ) : Prop := n.violation.isSome = true ∨ n.state.isDeadlock = true

theorem violation_eq_none {n : Node σ} (h : ¬ n.Failing) : n.violation = none := by
  by_contra hsome
  exact h (.inl (Option.isSome_iff_ne_none.mpr hsome))

end Node

namespace Driver

def advance? (drv : Driver σ κ) (n : Node σ) (x : Step) : Option (Node σ) :=
  if n.state.offers x then
    match drv.execute x.actor x.outcome n.machine with
    | (.ok r, m) =>
      some { state := n.state.after r, machine := m, trace := n.trace ++ [r.transition]
             violation := r.violation }
    | (.error _, _) => none
  else none

def root? (drv : Driver σ κ) (m : σ) : Option (Node σ) :=
  match drv.initialActors m with
  | (.ok actors, m) => some (.initial actors m)
  | (.error _, _) => none

def walk? (drv : Driver σ κ) : Node σ → List Step → Option (Node σ)
  | n, [] => some n
  | n, x :: path => (drv.advance? n x).bind fun n' => drv.walk? n' path

def execution? (drv : Driver σ κ) (m : σ) (path : List Step) : Option (Node σ) :=
  (drv.root? m).bind fun root => drv.walk? root path

variable {drv : Driver σ κ}

@[simp] theorem walk?_nil (n : Node σ) : drv.walk? n [] = some n := rfl

theorem walk?_cons (n : Node σ) (x : Step) (path : List Step) :
    drv.walk? n (x :: path) = (drv.advance? n x).bind fun n' => drv.walk? n' path := rfl

theorem walk?_append (n : Node σ) (xs ys : List Step) :
    drv.walk? n (xs ++ ys) = (drv.walk? n xs).bind fun n' => drv.walk? n' ys := by
  induction xs generalizing n with
  | nil => rfl
  | cons x xs ih => simp only [List.cons_append, walk?_cons, Option.bind_assoc, ih]

theorem walk?_snoc (n : Node σ) (xs : List Step) (x : Step) :
    drv.walk? n (xs ++ [x]) = (drv.walk? n xs).bind fun n' => drv.advance? n' x := by
  simp [walk?_append, walk?_cons]

theorem walk?_cons_eq_some {n n' : Node σ} {x : Step} {path : List Step} :
    drv.walk? n (x :: path) = some n' ↔
      ∃ n₁, drv.advance? n x = some n₁ ∧ drv.walk? n₁ path = some n' := by
  simp only [walk?_cons, Option.bind_eq_some_iff]

theorem advance?_eq_some {n n' : Node σ} {x : Step} (h : drv.advance? n x = some n') :
    n.state.offers x = true ∧ ∃ r, drv.execute x.actor x.outcome n.machine = (.ok r, n'.machine) ∧
      n'.state = n.state.after r ∧ n'.trace = n.trace ++ [r.transition] ∧
      n'.violation = r.violation := by
  unfold advance? at h
  split_ifs at h with hoff
  split at h
  · rename_i r m hexec
    cases h
    exact ⟨hoff, r, hexec, rfl, rfl, rfl⟩
  · cases h

theorem root?_eq_some {m : σ} {root : Node σ} (h : drv.root? m = some root) :
    ∃ actors, drv.initialActors m = (.ok actors, root.machine) ∧ root.state = State.new 0 actors ∧
      root.trace = [] ∧ root.violation = none := by
  unfold root? at h
  split at h
  · rename_i actors m' hinit
    cases h
    exact ⟨actors, hinit, rfl, rfl, rfl⟩
  · cases h

theorem execution?_of_root? {m : σ} {root : Node σ} (hroot : drv.root? m = some root) (path : List Step) :
    drv.execution? m path = drv.walk? root path := by
  rw [execution?, hroot, Option.bind_some]

theorem root?_fresh {m : σ} {root : Node σ} (h : drv.root? m = some root) : root.state.Fresh := by
  obtain ⟨actors, -, hstate, -, -⟩ := root?_eq_some h
  exact hstate ▸ State.new_fresh 0 actors

theorem advance?_fresh {n n' : Node σ} {x : Step} (hn : n.state.Fresh)
    (h : drv.advance? n x = some n') : n'.state.Fresh := by
  obtain ⟨-, r, -, hstate, -, -⟩ := advance?_eq_some h
  exact hstate ▸ hn.after r

theorem walk?_fresh {n n' : Node σ} {path : List Step} (hn : n.state.Fresh)
    (h : drv.walk? n path = some n') : n'.state.Fresh := by
  induction path generalizing n with
  | nil => cases h; exact hn
  | cons x path ih =>
    obtain ⟨n₁, hadv, hwalk⟩ := walk?_cons_eq_some.mp h
    exact ih (advance?_fresh hn hadv) hwalk

def Agree {α : Type} (view : σ → π) (x y : Except Failure α × σ) : Prop :=
  x.1 = y.1 ∧ view x.2 = view y.2

/-- What a call answers and where it leaves the program depends only on the state of the program, which is
seen through `view`; a snapshot does not move the program, restoring it brings the program back, and reported
transitions echo the actor and the outcome asked for. -/
structure Deterministic (drv : Driver σ κ) (view : σ → π) : Prop where
  initialActors : ∀ {m m'}, view m = view m' → Agree view (drv.initialActors m) (drv.initialActors m')
  execute : ∀ {m m'} (a : ActorId) (outcome : Int), view m = view m' →
    Agree view (drv.execute a outcome m) (drv.execute a outcome m')
  snapshot : ∀ {m m'}, view m = view m' → Agree view (drv.snapshot m) (drv.snapshot m')
  restore : ∀ {m m'} (k : κ), view m = view m' → Agree view (drv.restore k m) (drv.restore k m')
  snapshot_view : ∀ m, view (drv.snapshot m).2 = view m
  restore_view : ∀ {m m' k}, (drv.snapshot m).1 = .ok (some k) → (drv.restore k m').1 = .ok () →
    view (drv.restore k m').2 = view m
  echo : ∀ {a outcome m r}, (drv.execute a outcome m).1 = .ok r → r.transition.step = ⟨a, outcome⟩

theorem Deterministic.advance? {view : σ → π} (hdet : drv.Deterministic view) {n : Node σ} {x : Step}
    {m m' : σ} {r : StepResult} (hview : view m = view n.machine) (hoff : n.state.offers x = true)
    (hexec : drv.execute x.actor x.outcome m = (.ok r, m')) :
    ∃ n', drv.advance? n x = some n' ∧ n'.state = n.state.after r ∧ view m' = view n'.machine ∧
      n'.trace = n.trace ++ [r.transition] ∧ n'.violation = r.violation := by
  obtain ⟨hanswer, hview'⟩ := hdet.execute x.actor x.outcome hview
  rw [hexec] at hanswer hview'
  have hrun : drv.execute x.actor x.outcome n.machine =
      (.ok r, (drv.execute x.actor x.outcome n.machine).2) := Prod.ext hanswer.symm rfl
  exact ⟨_, by rw [Driver.advance?, if_pos hoff, hrun], rfl, hview', rfl, rfl⟩

theorem deterministic_id (snapshot_eq : ∀ m, (drv.snapshot m).2 = m)
    (restore_eq : ∀ {m m' k}, (drv.snapshot m).1 = .ok (some k) → (drv.restore k m').2 = m)
    (echo : ∀ {a outcome m r}, (drv.execute a outcome m).1 = .ok r → r.transition.step = ⟨a, outcome⟩) :
    drv.Deterministic id where
  initialActors := by rintro m m' ⟨⟩; exact ⟨rfl, rfl⟩
  execute := by rintro m m' a outcome ⟨⟩; exact ⟨rfl, rfl⟩
  snapshot := by rintro m m' ⟨⟩; exact ⟨rfl, rfl⟩
  restore := by rintro m m' k ⟨⟩; exact ⟨rfl, rfl⟩
  snapshot_view := snapshot_eq
  restore_view := fun hk _ => restore_eq hk
  echo := echo

end Driver

theorem Program.driver_deterministic (p : Program) : p.driver.Deterministic id := by
  refine Driver.deterministic_id (fun _ => rfl) ?_ ?_
  · rintro m m' k ⟨⟩
    rfl
  · intro a outcome m r h
    simp only [Program.driver, Program.execute] at h
    split at h
    · cases h
    · split at h
      · cases h
      · split_ifs at h
        cases h
        rfl

end Interleave
