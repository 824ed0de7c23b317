import Interleave.Remote.Wire

/-! A driver that sits behind a connection. -/

namespace Interleave.Remote

/-- Carries a call to the other side and its answer back. -/
structure Connection (ρ : Type) where
  invoke : Method → Message → Action ρ Message

structure Captured where
  content : Message
  actors : Int
deriving DecidableEq

instance : Snapshot Captured where
  actorCount s := s.actors
  heapBytes s := s.content.size
  same s t := s.actors = t.actors && s.content = t.content

namespace Connection

variable {ρ : Type} (c : Connection ρ)

def ask {α : Type} (method : Method) (request : Message) (doing : String)
    (read : Message → Except Failure α) : Action ρ α := fun x =>
  match c.invoke method request x with
  | (.error e, x) => (.error (.within doing e), x)
  | (.ok reply, x) => (read reply, x)

def initialActors : Action ρ (List Actor) :=
  c.ask .initialActors [] "remote: initial actors" fun m => .ok (decodeActors (Assoc.get? "actors" m))

def execute (a : ActorId) (outcome : Int) : Action ρ StepResult :=
  c.ask .execute (encodeStep a outcome) s!"remote: execute actor {a}" decodeResult

def readSnapshot (m : Message) : Except Failure Captured :=
  match recordOf? (Assoc.get? "content" m) with
  | none => .error (.reported "remote: snapshot without content")
  | some content => .ok ⟨content, intOf (Assoc.get? "actor_count" m)⟩

def snapshot : Action ρ (Option Captured) :=
  c.ask .snapshot [] "remote: snapshot" fun m => (readSnapshot m).map some

def restore (snapshot : Offered Captured) : Action ρ Unit :=
  match snapshot with
  | .own s => c.ask .restore [("content", .record s.content)] "remote: restore" fun _ => .ok ()
  | .foreign t => fun x => (.error (.reported s!"remote: can not restore a snapshot of type {t}"), x)

def driver : Driver ρ Captured where
  initialActors := c.initialActors
  execute := c.execute
  snapshot := c.snapshot
  restore k := c.restore (.own k)
  interrupted _ := none

end Connection

def unreachable {ρ : Type} (address : String) : Connection ρ where
  invoke _ _ x :=
    (.error (.status .unavailable ("connection error: desc = \"transport: Error while dialing: " ++
      s!"dial tcp {address}: connect: connection refused\"")), x)

def doing : Call → String
  | .initialActors => "remote: initial actors"
  | .execute a => s!"remote: execute actor {a}"
  | .snapshot => "remote: snapshot"
  | .restore => "remote: restore"

/-- How a client answers a call once the run is cancelled: the connection refuses it. -/
def refusesCalls (call : Call) : Option Failure :=
  some (.within (doing call) (.status .canceled "context canceled"))

end Interleave.Remote
