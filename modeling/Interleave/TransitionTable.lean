import Interleave.Driver

/-! Programs given as a table: nodes with their snapshots, and edges by node, actor and outcome. -/

namespace Interleave

structure Described where
  actors : Int
  heap : Int
  content : String
deriving DecidableEq, Repr, Inhabited

instance : Snapshot Described where
  actorCount s := s.actors
  heapBytes s := s.heap
  same s t := s.content = t.content

structure TransitionTable where
  start : String
  actors : List Actor
  nodes : List (String × Described)
  edges : List (String × (String × StepResult))

namespace TransitionTable

structure Mark where
  node : String
  described : Described

instance : Snapshot Mark where
  actorCount s := s.described.actors
  heapBytes s := s.described.heap
  same s t := Snapshot.same s.described t.described

def edgeName (node : String) (a : ActorId) (outcome : Int) : String := s!"{node}/{a}/{outcome}"

def execute (t : TransitionTable) (a : ActorId) (outcome : Int) : Action String StepResult :=
  fun node =>
    match t.edges.lookup (edgeName node a outcome) with
    | some (target, r) => (.ok r, target)
    | none => (.error (.reported s!"no edge {edgeName node a outcome}"), node)

def driver (t : TransitionTable) : Driver String Mark where
  initialActors node := (.ok t.actors, node)
  execute := t.execute
  snapshot node := (.ok (some ⟨node, (t.nodes.lookup node).getD default⟩), node)
  restore k := fun _ => (.ok (), k.node)
  interrupted _ := none

end TransitionTable

end Interleave
