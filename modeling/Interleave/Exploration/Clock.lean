import Interleave.Assoc
import Interleave.Transition.Dependency

/-! Vector clocks over the stack of a search. The clock of a transition gives, for every actor, the position
of the latest transition of that actor that happened before it. -/

namespace Interleave

abbrev Clock := List (ActorId × Nat)

namespace Clock

def advance (c : Clock) (a : ActorId) (position : Nat) : Clock :=
  match Assoc.get? a c with
  | some current => if current < position then Assoc.insert a position c else c
  | none => Assoc.insert a position c

def join (c other : Clock) : Clock :=
  other.foldl (fun c (a, position) => c.advance a position) c

def covers (c : Clock) (a : ActorId) (position : Nat) : Bool :=
  match Assoc.get? a c with
  | some current => position ≤ current
  | none => false

end Clock

end Interleave
