import Interleave.Datum
import Interleave.Driver

/-! The messages between a driver and its client. Integers travel as numbers, kinds as names; what a message
lacks reads as zero, false, empty or absent. -/

namespace Interleave.Remote

def numberOf : Option Datum → Double
  | some (.number x) => x
  | _ => Double.zero

def intOf (d : Option Datum) : Int := (numberOf d).toWord

def boolOf : Option Datum → Bool
  | some (.bool b) => b
  | _ => false

def textOf : Option Datum → String
  | some (.text s) => s
  | _ => ""

def listOf : Option Datum → List Datum
  | some (.list items) => items
  | _ => []

def recordOf? : Option Datum → Option Message
  | some (.record fields) => some fields
  | _ => none

def encodeActor (a : Actor) : Datum :=
  .ofFields [("id", .int a.id), ("enabled", .bool a.enabled), ("max_consider", .int a.outcomes)]

def encodeActors (actors : List Actor) : Datum := .list (actors.map encodeActor)

def decodeActor (d : Datum) : Actor :=
  ⟨intOf (d.field? "id"), boolOf (d.field? "enabled"), intOf (d.field? "max_consider")⟩

def decodeActors (d : Option Datum) : List Actor := (listOf d).map decodeActor

def encodeIds (ids : List ActorId) : Datum := .list (ids.map .int)

def decodeIds (d : Option Datum) : List ActorId := (listOf d).map fun x => intOf (some x)

def encodeStep (actor : ActorId) (outcome : Int) : Message :=
  Assoc.ofList [("actor", .int actor), ("times", .int outcome)]

def decodeStep (m : Message) : Except Failure (ActorId × Int) :=
  match Assoc.get? "actor" m with
  | none => .error (.reported "remote: execute request without actor")
  | some a => .ok (intOf (some a), intOf (Assoc.get? "times" m))

def encodeTransition (t : Transition) : Datum :=
  .ofFields [("actor", .int t.actor), ("kind", .text t.kind.name), ("resource", .text t.resource),
    ("times", .int t.outcome), ("args", .text t.args), ("guarded", .bool t.guarded)]

def encodeViolation (v : Violation) : Datum :=
  .ofFields [("kind", .int v.kind.code), ("message", .text v.message)]

def encodeResult (r : StepResult) : Message :=
  Assoc.ofList ([("transition", encodeTransition r.transition), ("newly_enabled", encodeActors r.enabled),
    ("newly_disabled", encodeIds r.disabled), ("finished", encodeIds r.finished)] ++
    (r.violation.map fun v => ("violation", encodeViolation v)).toList)

def decodeTransition (t : Message) : Except Failure Transition :=
  match Kind.parse (textOf (Assoc.get? "kind" t)) with
  | .error name => .error (.within "remote" (.reported (Kind.unknownMessage name)))
  | .ok kind =>
    .ok { actor := intOf (Assoc.get? "actor" t), kind
          resource := textOf (Assoc.get? "resource" t)
          outcome := intOf (Assoc.get? "times" t)
          args := textOf (Assoc.get? "args" t)
          guarded := boolOf (Assoc.get? "guarded" t) }

def decodeViolation (v : Message) : Violation :=
  ⟨.ofCode (intOf (Assoc.get? "kind" v)), textOf (Assoc.get? "message" v)⟩

/-- A transition without any field counts as absent. -/
def decodeResult (m : Message) : Except Failure StepResult := do
  let fields := (recordOf? (Assoc.get? "transition" m)).getD []
  if fields.isEmpty then .error (.reported "remote: execute result without transition")
  let transition ← decodeTransition fields
  return { transition
           enabled := decodeActors (Assoc.get? "newly_enabled" m)
           disabled := decodeIds (Assoc.get? "newly_disabled" m)
           finished := decodeIds (Assoc.get? "finished" m)
           violation := (recordOf? (Assoc.get? "violation" m)).map decodeViolation }

inductive Method where
  | initialActors | execute | snapshot | restore
deriving DecidableEq, Repr

namespace Method

def name : Method → String
  | initialActors => "InitialActors"
  | execute => "Execute"
  | snapshot => "Snapshot"
  | restore => "Restore"

def path (m : Method) : String := s!"/mcheck.remote.Driver/{m.name}"

def sendsMessage : Method → Bool
  | execute | restore => true
  | initialActors | snapshot => false

end Method

end Interleave.Remote
