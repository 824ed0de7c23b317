import Interleave.Transition

/-! Dependency: two transitions whose order may matter. It is what partial order reduction may not reorder. -/

namespace Interleave

namespace Kind

def observes (k : Kind) : Bool := k = read || k = assert

end Kind

namespace Transition

def isLocal (t : Transition) : Bool :=
  t.kind = .internal || (t.kind = .random && t.resource = "")

def writes (t : Transition) : Bool := !t.isLocal && !t.kind.observes

/-- Steps of one actor depend on each other; a guarded step depends on every writing step; a shared step
without a resource could touch anything; steps on one resource depend unless both only observe it. -/
def dependent (a b : Transition) : Bool :=
  a.actor = b.actor ||
  (a.guarded && b.writes || b.guarded && a.writes) ||
  (!a.isLocal && !b.isLocal &&
    (a.resource = "" || b.resource = "" ||
      (a.resource = b.resource && !(a.kind.observes && b.kind.observes))))

end Transition

end Interleave
