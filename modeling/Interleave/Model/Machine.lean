import Interleave.Datum
import Interleave.Driver
import Interleave.Logging.Entry
import Interleave.Model.Declaration

/-! A model: declared actors and invariants over the state of a script. The script is known only through its
host, which calls functions, captures the state and installs it again; all of these are state machines, so
a function may change anything. The actors have the ids `1, 2, …` in order. -/

namespace Interleave

namespace Model

structure Host (σ φ : Type) where
  run : φ → Int → σ → Except String String × σ
  test : φ → σ → Except String Bool × σ
  capture : σ → Except String Datum
  install : Datum → σ → σ

/-- A script state with the position of every actor, and what the last look at the guards found. -/
structure Machine (σ : Type) where
  script : σ
  positions : List Nat
  enabled : List Bool
  journal : Array Logging.Entry

structure GuardError where
  actor : String
  step : Nat
  cause : String
deriving DecidableEq, Repr

def GuardError.message (e : GuardError) : String := s!"guard of {e.actor} step {e.step}: {e.cause}"

end Model

structure Model (σ φ : Type) where
  name : String
  actors : List (Model.ActorDecl φ)
  invariants : List (Model.InvariantDecl φ)
  host : Model.Host σ φ

namespace Model

variable {σ φ : Type} (m : Model σ φ)

/-- Looks at the guards of the pending steps in order and stops at the first that raises an error. -/
def testGuards (host : Host σ φ) :
    List (ActorDecl φ) → List Nat → List Bool → σ → Option GuardError × List Bool × σ
  | a :: as, p :: ps, e :: es, s =>
    match a.steps[p]? with
    | none =>
      let (error, rest, s) := testGuards host as ps es s
      (error, false :: rest, s)
    | some step =>
      match step.guard with
      | none =>
        let (error, rest, s) := testGuards host as ps es s
        (error, true :: rest, s)
      | some guard =>
        match host.test guard s with
        | (.error cause, s) => (some ⟨a.name, p + 1, cause⟩, e :: es, s)
        | (.ok holds, s) =>
          let (error, rest, s) := testGuards host as ps es s
          (error, holds :: rest, s)
  | _, _, es, s => (none, es, s)

def refresh (x : Machine σ) : Option GuardError × Machine σ :=
  let ⟨script, positions, enabled, journal⟩ := x
  let (error, enabled, script) := testGuards m.host m.actors positions enabled script
  (error, ⟨script, positions, enabled, journal⟩)

/-- The first invariant that does not hold; one that raises an error does not hold. -/
def brokenInvariant (host : Host σ φ) : List (InvariantDecl φ) → σ → Option Violation × σ
  | [], s => (none, s)
  | inv :: rest, s =>
    match host.test inv.test s with
    | (.error cause, s) => (some ⟨.invariant, s!"{inv.name}: {cause}"⟩, s)
    | (.ok false, s) => (some ⟨.invariant, inv.name⟩, s)
    | (.ok true, s) => brokenInvariant host rest s

def checkInvariants (x : Machine σ) : Option Violation × Machine σ :=
  let ⟨script, positions, enabled, journal⟩ := x
  let (violation, script) := brokenInvariant m.host m.invariants script
  (violation, ⟨script, positions, enabled, journal⟩)

def log (x : Machine σ) (level : Logging.Level) (message : String) (fields : List (String × String)) :
    Machine σ :=
  let ⟨script, positions, enabled, journal⟩ := x
  ⟨script, positions, enabled, journal.push ⟨level, message, fields ++ [("model", m.name)]⟩⟩

def pending (x : Machine σ) (i : Nat) : Option (StepDecl φ) := do
  let a ← m.actors[i]?
  let p ← x.positions[i]?
  a.steps[p]?

def indices : List Nat := List.range m.actors.length

def idAt (i : Nat) : ActorId := i + 1

def actorName (a : ActorId) : String :=
  if 1 ≤ a then ((m.actors[(a - 1).toNat]?).map ActorDecl.name).getD "" else ""

def isEnabled (x : Machine σ) (i : Nat) : Bool := x.enabled.getD i false

def actorAt? (x : Machine σ) (i : Nat) : Option Actor :=
  (m.pending x i).map fun step => ⟨idAt i, isEnabled x i, step.choices⟩

def aliveActors (x : Machine σ) : List Actor := m.indices.filterMap (m.actorAt? x)

def initialActors : Action (Machine σ) (List Actor) := fun x =>
  match m.checkInvariants x with
  | (some v, x) => (.error (.reported s!"luamodel: initial state of {m.name}: {v.render}"), x)
  | (none, x) => (.ok (m.aliveActors x), x)

inductive Change where
  | none
  | enabled (actor : Actor)
  | disabled (id : ActorId)
  | finished (id : ActorId)

def changeAt (before : List Bool) (after : Machine σ) (mover i : Nat) : Change :=
  match m.actorAt? after i with
  | none => if i = mover then .finished (idAt i) else .none
  | some actor =>
    if i ≠ mover ∧ before.getD i false = actor.enabled then .none
    else if actor.enabled then .enabled actor
    else .disabled (idAt i)

def result (before : List Bool) (after : Machine σ) (mover : Nat) (t : Transition) (v : Option Violation) :
    StepResult :=
  let changes := m.indices.map (m.changeAt before after mover)
  { transition := t
    enabled := changes.filterMap fun | .enabled a => some a | _ => none
    disabled := changes.filterMap fun | .disabled a => some a | _ => none
    finished := changes.filterMap fun | .finished a => some a | _ => none
    violation := v }

def StepDecl.transition (s : StepDecl φ) (a : ActorId) (outcome : Int) : Transition :=
  { actor := a, kind := s.kind, resource := s.resource, outcome, args := s.label
    guarded := s.guard.isSome }

/-- Runs the effect of a step and moves the actor on. An error of the effect is an assertion failure, and a
text it returns replaces the label. -/
def runStep (x : Machine σ) (i : Nat) (step : StepDecl φ) (t : Transition) :
    Transition × Option Violation × Machine σ :=
  let ⟨script, positions, enabled, journal⟩ := x
  let positions := positions.modify i (· + 1)
  match step.run with
  | none => (t, none, ⟨script, positions, enabled, journal⟩)
  | some f =>
    match m.host.run f t.outcome script with
    | (.error cause, script) => (t, some ⟨.assertion, cause⟩, ⟨script, positions, enabled, journal⟩)
    | (.ok args, script) =>
      (if args = "" then t else { t with args }, none, ⟨script, positions, enabled, journal⟩)

/-- Takes a step: its effect, then the invariants unless the effect failed, then the guards. -/
def takeStep (x : Machine σ) (i : Nat) (step : StepDecl φ) (t : Transition) : StepResult × Machine σ :=
  let before := x.enabled
  let (t, violation, x) := m.runStep x i step t
  let (violation, x) := match violation with
    | some v => (some v, x)
    | none => m.checkInvariants x
  let (guardError, x) := m.refresh x
  let violation := match guardError with
    | some e => some ⟨.crash, e.message⟩
    | none => violation
  (m.result before x i t violation,
    m.log x .trace "Step executed" [("actor", s!"{t.actor}"), ("transition", t.render)])

def execute (a : ActorId) (outcome : Int) : Action (Machine σ) StepResult := fun x =>
  let i := (a - 1).toNat
  match if 1 ≤ a ∧ isEnabled x i then m.pending x i else none with
  | none => (.error (.reported s!"luamodel: actor {a} is not enabled"), x)
  | some step =>
    if outcome < 0 ∨ step.choices ≤ outcome then
      (.error (.reported s!"luamodel: actor {a} has {step.choices} choices, got {outcome}"), x)
    else
      let (r, x) := m.takeStep x i step (step.transition a outcome)
      (.ok r, x)

structure Captured where
  content : Message
  actors : Nat
deriving DecidableEq

instance : Snapshot Captured where
  actorCount s := s.actors
  heapBytes s := s.content.size
  same s t := s.actors = t.actors && s.content = t.content

def content (positions : List Nat) (state : Datum) : Message :=
  [("pcs", .list (positions.map fun (p : Nat) => .int p)), ("state", state)]

def snapshot : Action (Machine σ) (Option Captured) := fun x =>
  match m.host.capture x.script with
  | .error cause => (.error (.reported cause), x)
  | .ok state => (.ok (some ⟨content x.positions state, (m.aliveActors x).length⟩), x)

def readPosition (i : Nat) (a : ActorDecl φ) (d : Datum) : Except Failure Nat :=
  let p : Int := match d with
    | .number x => x.toWord
    | _ => 0
  if 0 ≤ p ∧ p ≤ a.steps.length then .ok p.toNat
  else .error (.reported s!"luamodel: actor {i + 1} has no step {p}")

def readPositionsFrom (i : Nat) : List (ActorDecl φ) → List Datum → Except Failure (List Nat)
  | a :: as, d :: ds => do
    let p ← readPosition i a d
    return p :: (← readPositionsFrom (i + 1) as ds)
  | _, _ => .ok []

def readPositions (content : Message) : Except Failure (List Nat) :=
  let missing := Failure.reported
    s!"luamodel: snapshot does not hold the position of {m.actors.length} actors"
  match Assoc.get? "pcs" content with
  | some (.list items) =>
    if items.length = m.actors.length then readPositionsFrom 0 m.actors items else .error missing
  | _ => .error missing

def restore (snapshot : Offered Captured) : Action (Machine σ) Unit := fun x =>
  match snapshot with
  | .foreign t => (.error (.reported s!"luamodel: can not restore a snapshot of type {t}"), x)
  | .own s =>
    match m.readPositions s.content with
    | .error e => (.error e, x)
    | .ok positions =>
      let ⟨script, _, enabled, journal⟩ := x
      let script := m.host.install ((Assoc.get? "state" s.content).getD .null) script
      match m.refresh ⟨script, positions, enabled, journal⟩ with
      | (some e, x) => (.error (.within "luamodel: restore" (.reported e.message)), x)
      | (none, x) => (.ok (), m.log x .trace "Snapshot restored" [("bytes", s!"{s.content.size}")])

def encodeSnapshot (snapshot : Offered Captured) : Except Failure Message :=
  match snapshot with
  | .own s => .ok s.content
  | .foreign t => .error (.reported s!"luamodel: can not encode a snapshot of type {t}")

def decodeSnapshot (content : Message) : Except Failure Captured := do
  let positions ← m.readPositions content
  let alive := (m.actors.zip positions).filter fun (a, p) => p < a.steps.length
  return ⟨content, alive.length⟩

def driver : Driver (Machine σ) Captured where
  initialActors := m.initialActors
  execute := m.execute
  snapshot := m.snapshot
  restore k := m.restore (.own k)
  interrupted _ := none

end Model

end Interleave
