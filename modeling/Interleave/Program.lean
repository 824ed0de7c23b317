import Interleave.Assoc
import Interleave.Driver
import Interleave.Word

/-! Programs given as data: actors that run lists of steps over shared integer variables. The actors have
the ids `1, 2, …` in order. -/

namespace Interleave

/-- The shared variables by ascending name. A variable that was never set reads as zero. -/
structure Vars where
  entries : List (String × Int)
deriving DecidableEq, Repr, Inhabited

namespace Vars

def empty : Vars := ⟨[]⟩

def ofList (entries : List (String × Int)) : Vars := ⟨Assoc.ofList entries⟩

def get (v : Vars) (name : String) : Int := (Assoc.get? name v.entries).getD 0

def set (v : Vars) (name : String) (value : Int) : Vars := ⟨Assoc.insert name value v.entries⟩

end Vars

namespace Program

structure Step where
  kind : Kind
  resource : String
  args : String
  /-- The number of outcomes; values below one count as one. -/
  choices : Int
  guard : Option (Vars → Bool)
  run : Option (Vars → Int → Vars × Option Violation)
  /-- The actor stays on this step after taking it. -/
  loop : Bool

namespace Step

def plain (kind : Kind) (resource : String) : Step :=
  { kind, resource, args := "", choices := 0, guard := none, run := none, loop := false }

def effect (s : Step) (f : Vars → Int → Vars) : Step :=
  { s with run := some fun v outcome => (f v outcome, none) }

def write (resource : String) (value : Int) : Step :=
  { plain .write resource with args := s!"{resource}={value}" }.effect
    fun v _ => v.set resource value

def incr (resource : String) : Step :=
  { plain .write resource with args := s!"{resource}++" }.effect
    fun v _ => v.set resource (wrap (v.get resource + 1))

def read (resource : String) : Step := plain .read resource

def lock (resource : String) : Step :=
  { plain .lock resource with guard := some fun v => v.get resource = 0 }.effect
    fun v _ => v.set resource 1

def unlock (resource : String) : Step := (plain .unlock resource).effect fun v _ => v.set resource 0

def fail (message : String) : Step :=
  { plain .assert "" with run := some fun v _ => (v, some ⟨.assertion, message⟩) }

def expect (resource : String) (expected : Int) : Step :=
  { plain .assert resource with run := some fun v _ =>
      let value := v.get resource
      (v, if value = expected then none
          else some ⟨.assertion, s!"{resource} is {value}, expected {expected}"⟩) }

def choose (resource : String) (n : Int) : Step :=
  { plain .random resource with choices := n }.effect fun v outcome => v.set resource outcome

def spin : Step := { plain .internal "" with loop := true }

def when (s : Step) (guard : Vars → Bool) : Step := { s with guard := some guard }

end Step

structure Configuration where
  positions : List Nat
  vars : Vars
deriving DecidableEq, Repr, Inhabited

inductive Change where
  | none
  | enabled (actor : Actor)
  | disabled (id : ActorId)
  | finished (id : ActorId)

end Program

structure Program where
  vars : Vars
  actors : List (List Program.Step)
  /-- Replaces the text compared by snapshots. -/
  key : Option (List Nat → Vars → String)

namespace Program

def initial (p : Program) : Configuration :=
  { positions := p.actors.map fun _ => 0, vars := p.vars }

variable (p : Program)

def pending (c : Configuration) (i : Nat) : Option Step := do
  let steps ← p.actors[i]?
  let position ← c.positions[i]?
  steps[position]?

def isAlive (c : Configuration) (i : Nat) : Bool := (p.pending c i).isSome

def isEnabled (c : Configuration) (i : Nat) : Bool :=
  match p.pending c i with
  | none => false
  | some step => step.guard.all (· c.vars)

def indices : List Nat := List.range p.actors.length

def idAt (i : Nat) : ActorId := i + 1

def actorAt? (c : Configuration) (i : Nat) : Option Actor :=
  (p.pending c i).map fun step => ⟨idAt i, p.isEnabled c i, step.choices⟩

def aliveActors (c : Configuration) : List Actor := p.indices.filterMap (p.actorAt? c)

def index? (a : ActorId) : Option Nat :=
  if 1 ≤ a ∧ a ≤ p.actors.length then some (a - 1).toNat else none

def changeAt (before after : Configuration) (mover i : Nat) : Change :=
  match p.actorAt? after i with
  | none => if i = mover then .finished (idAt i) else .none
  | some actor =>
    if i ≠ mover ∧ p.isEnabled before i = actor.enabled then .none
    else if actor.enabled then .enabled actor
    else .disabled (idAt i)

def result (before after : Configuration) (mover : Nat) (t : Transition) (v : Option Violation) :
    StepResult :=
  let changes := p.indices.map (p.changeAt before after mover)
  { transition := t
    enabled := changes.filterMap fun | .enabled a => some a | _ => none
    disabled := changes.filterMap fun | .disabled a => some a | _ => none
    finished := changes.filterMap fun | .finished a => some a | _ => none
    violation := v }

def Step.transition (s : Step) (a : ActorId) (outcome : Int) : Transition :=
  { actor := a, kind := s.kind, resource := s.resource, outcome, args := s.args
    guarded := s.guard.isSome }

def afterStep (c : Configuration) (i : Nat) (step : Step) (outcome : Int) :
    Configuration × Option Violation :=
  let (vars, violation) := match step.run with
    | some run => run c.vars outcome
    | none => (c.vars, none)
  let positions := if step.loop then c.positions else c.positions.modify i (· + 1)
  ({ positions, vars }, violation)

def notEnabled (a : ActorId) : Failure := .reported s!"drivertest: actor {a} is not enabled"

def execute (a : ActorId) (outcome : Int) : Action Configuration StepResult := fun c =>
  match p.index? a with
  | none => (.error (notEnabled a), c)
  | some i =>
    match p.pending c i with
    | none => (.error (notEnabled a), c)
    | some step =>
      if !p.isEnabled c i then (.error (notEnabled a), c)
      else
        let (after, violation) := afterStep c i step outcome
        (.ok (p.result c after i (step.transition a outcome) violation), after)

/-- The text that tells two configurations apart. -/
def defaultKey (positions : List Nat) (vars : Vars) : String :=
  let places := " ".intercalate (positions.map fun n => s!"{n}")
  s!"pcs=[{places}]" ++ String.join (vars.entries.map fun (name, value) => s!" {name}={value}")

structure Captured where
  key : String
  actors : Nat
  configuration : Configuration
deriving DecidableEq, Repr, Inhabited

instance : Snapshot Captured where
  actorCount s := s.actors
  heapBytes s := s.key.utf8ByteSize
  same s t := s.actors = t.actors && s.key = t.key

def capture (c : Configuration) : Captured :=
  { key := (p.key.getD defaultKey) c.positions c.vars
    actors := (p.aliveActors c).length
    configuration := c }

def restore (snapshot : Offered Captured) : Action Configuration Unit := fun c =>
  match snapshot with
  | .own s => (.ok (), s.configuration)
  | .foreign t => (.error (.reported s!"drivertest: foreign snapshot {t}"), c)

def driver : Driver Configuration Captured where
  initialActors c := (.ok (p.aliveActors c), c)
  execute := p.execute
  snapshot c := (.ok (some (p.capture c)), c)
  restore k := restore (.own k)
  interrupted _ := none

end Program

end Interleave
