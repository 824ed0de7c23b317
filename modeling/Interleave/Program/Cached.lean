import Interleave.Program

/-! Running a program with the enabled flags kept beside the configuration. They are looked up when an actor is to move
and brought up to date after every move and every restoration. -/

namespace Interleave.Program

variable (p : Program)

def flags (c : Configuration) : List Bool := p.indices.map (p.isEnabled c)

structure Cached where
  configuration : Configuration
  enabled : List Bool
  fresh : enabled = p.flags configuration

namespace Cached

variable {p}

def look (p : Program) (c : Configuration) : p.Cached := ⟨c, p.flags c, rfl⟩

def isEnabled (m : p.Cached) (i : Nat) : Bool := m.enabled.getD i false

def actorAt? (m : p.Cached) (i : Nat) : Option Actor :=
  (p.pending m.configuration i).map fun step => ⟨idAt i, m.isEnabled i, step.choices⟩

def changeAt (before : List Bool) (after : p.Cached) (mover i : Nat) : Change :=
  match after.actorAt? i with
  | none => if i = mover then .finished (idAt i) else .none
  | some actor =>
    if i ≠ mover ∧ before.getD i false = actor.enabled then .none
    else if actor.enabled then .enabled actor
    else .disabled (idAt i)

def result (before : List Bool) (after : p.Cached) (mover : Nat) (t : Transition) (v : Option Violation) : StepResult :=
  let changes := p.indices.map (after.changeAt before mover)
  { transition := t
    enabled := changes.filterMap fun | .enabled a => some a | _ => none
    disabled := changes.filterMap fun | .disabled a => some a | _ => none
    finished := changes.filterMap fun | .finished a => some a | _ => none
    violation := v }

def execute (a : ActorId) (outcome : Int) : Action p.Cached StepResult := fun m =>
  match p.index? a with
  | none => (.error (notEnabled a), m)
  | some i =>
    match p.pending m.configuration i with
    | none => (.error (notEnabled a), m)
    | some step =>
      if !m.isEnabled i then (.error (notEnabled a), m)
      else
        let (after, violation) := afterStep m.configuration i step outcome
        let m' := look p after
        (.ok (m'.result m.enabled i (step.transition a outcome) violation), m')

def restore (snapshot : Offered Captured) : Action p.Cached Unit := fun m =>
  match snapshot with
  | .own s => (.ok (), look p s.configuration)
  | .foreign t => (.error (.reported s!"drivertest: foreign snapshot {t}"), m)

end Cached

def cached : Driver p.Cached Captured where
  initialActors m := (.ok (p.indices.filterMap m.actorAt?), m)
  execute := Cached.execute
  snapshot m := (.ok (some (p.capture m.configuration)), m)
  restore k := Cached.restore (.own k)
  interrupted _ := none

end Interleave.Program
