import Interleave.Driver

/-! Drivers that record the calls they get and fail on request. -/

namespace Interleave

/-- Which calls go wrong. Calls are counted from one by kind; zero stands for none of them. -/
structure FaultPlan where
  initialError : String
  executeError : Nat
  wrongActor : Nat
  violation : Nat
  snapshotError : Nat
  restoreError : Nat
  cancelAfter : Nat
  cancelBefore : Bool
  noSnapshot : Bool
deriving DecidableEq, Repr, Inhabited

def FaultPlan.none : FaultPlan := ⟨"", 0, 0, 0, 0, 0, 0, false, false⟩

structure Recorded (σ : Type) where
  machine : σ
  executed : Array Step
  snapshots : Nat
  restores : Nat
  cancelled : Bool

namespace Recorded

variable {σ κ α : Type}

def new (plan : FaultPlan) (m : σ) : Recorded σ :=
  { machine := m, executed := #[], snapshots := 0, restores := 0, cancelled := plan.cancelBefore }

/-- Runs an action of the inner machine. Under cancellation the action is replaced by the failure with which
the inner driver answers such calls, if it looks at cancellation at all. -/
def inner (onCancel : Option Failure) (action : Action σ α) : Action (Recorded σ) α := fun m =>
  match m.cancelled, onCancel with
  | true, some e => (.error e, m)
  | _, _ =>
    let (answer, machine) := action m.machine
    (answer, { m with machine })

def distort (plan : FaultPlan) (n : Nat) (r : StepResult) : StepResult :=
  let r := if n = plan.wrongActor then
      { r with transition := { r.transition with actor := r.transition.actor + 1 } }
    else r
  if n = plan.violation then { r with violation := some ⟨.crash, "injected"⟩ } else r

def execute (plan : FaultPlan) (onCancel : Option Failure) (drv : Driver σ κ) (a : ActorId)
    (outcome : Int) : Action (Recorded σ) StepResult := fun m =>
  let m := { m with executed := m.executed.push ⟨a, outcome⟩ }
  let n := m.executed.size
  if n = plan.executeError then (.error (.reported "execute failed"), m)
  else
    let (answer, m) := inner onCancel (drv.execute a outcome) m
    (answer.map (distort plan n), { m with cancelled := m.cancelled || n = plan.cancelAfter })

def snapshot (plan : FaultPlan) (onCancel : Option Failure) (drv : Driver σ κ) :
    Action (Recorded σ) (Option κ) := fun m =>
  let m := { m with snapshots := m.snapshots + 1 }
  if m.snapshots = plan.snapshotError then (.error (.reported "snapshot failed"), m)
  else
    let (answer, m) := inner onCancel drv.snapshot m
    (answer.map fun k => if plan.noSnapshot then none else k, m)

def restore (plan : FaultPlan) (onCancel : Option Failure) (drv : Driver σ κ) (k : κ) :
    Action (Recorded σ) Unit := fun m =>
  let m := { m with restores := m.restores + 1 }
  if m.restores = plan.restoreError then (.error (.reported "restore failed"), m)
  else inner onCancel (drv.restore k) m

def driver (plan : FaultPlan) (onCancel : Call → Option Failure) (drv : Driver σ κ) :
    Driver (Recorded σ) κ where
  initialActors m :=
    if plan.initialError ≠ "" then (.error (.reported plan.initialError), m)
    else inner (onCancel .initialActors) drv.initialActors m
  execute a := execute plan (onCancel (.execute a)) drv a
  snapshot := snapshot plan (onCancel .snapshot) drv
  restore := restore plan (onCancel .restore) drv
  interrupted m := if m.cancelled then some .cancelled else none

def ignoresCancellation : Call → Option Failure := fun _ => none

end Recorded

end Interleave
