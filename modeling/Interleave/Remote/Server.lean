import Interleave.Remote.Client

/-! Serving a driver: each call is read, run and answered, and failures become statuses. -/

namespace Interleave.Remote

structure Codec (κ : Type) where
  encode : Offered κ → Except Failure Message
  decode : Message → Except Failure κ

def statusOf (e : Failure) : Failure :=
  match e.root with
  | .interrupted .cancelled => .status .canceled e.message
  | .interrupted .deadlineExceeded => .status .deadlineExceeded e.message
  | _ => .status .internal e.message

def invalid (e : Failure) : Failure := .status .invalidArgument e.message

structure Server (σ κ : Type) where
  driver : Driver σ κ
  codec : Codec κ

namespace Server

variable {σ κ : Type} [Snapshot κ] (s : Server σ κ)

def initialActors : Action σ Message := fun x =>
  match s.driver.initialActors x with
  | (.error e, x) => (.error (statusOf e), x)
  | (.ok actors, x) => (.ok [("actors", encodeActors actors)], x)

def execute (request : Message) : Action σ Message := fun x =>
  match decodeStep request with
  | .error e => (.error (invalid e), x)
  | .ok (a, outcome) =>
    match s.driver.execute a outcome x with
    | (.error e, x) => (.error (statusOf e), x)
    | (.ok r, x) => (.ok (encodeResult r), x)

def snapshot : Action σ Message := fun x =>
  match s.driver.snapshot x with
  | (.error e, x) => (.error (statusOf e), x)
  | (.ok k, x) =>
    let (offered, actors) := match k with
      | some k => (Offered.own k, Snapshot.actorCount k)
      | none => (.foreign "<nil>", 0)
    match s.codec.encode offered with
    | .error e => (.error (statusOf e), x)
    | .ok content => (.ok (Assoc.ofList [("actor_count", .int actors), ("content", .record content)]), x)

def restore (request : Message) : Action σ Message := fun x =>
  match recordOf? (Assoc.get? "content" request) with
  | none => (.error (invalid (.reported "remote: restore request without content")), x)
  | some content =>
    match s.codec.decode content with
    | .error e => (.error (invalid e), x)
    | .ok k =>
      match s.driver.restore k x with
      | (.error e, x) => (.error (statusOf e), x)
      | (.ok (), x) => (.ok [], x)

def handle (method : Method) (request : Message) : Action σ Message :=
  match method with
  | .initialActors => s.initialActors
  | .execute => s.execute request
  | .snapshot => s.snapshot
  | .restore => s.restore request

def connection : Connection σ where
  invoke := s.handle

end Server

end Interleave.Remote
