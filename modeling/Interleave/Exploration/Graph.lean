import Interleave.Driver
import Interleave.Tree.Dot
import Interleave.Tree.Newick

/-! The explored states as a tree. -/

namespace Interleave

structure GraphNode where
  num : Int
  via : Option Transition
  /-- The visited state the node was found equal to; `-1` if the node was explored. -/
  equalTo : Int
  violation : Option Violation
  truncated : Bool
deriving DecidableEq, Repr, Inhabited

namespace GraphNode

def explored (num : Int) (via : Option Transition) : GraphNode :=
  { num, via, equalTo := -1, violation := none, truncated := false }

def render (n : GraphNode) : String :=
  match n.violation with
  | some v => s!"{n.num} ({v.render})"
  | none =>
    if 0 ≤ n.equalTo then s!"{n.num} (= {n.equalTo})"
    else if n.truncated then s!"{n.num} (max depth)"
    else s!"{n.num}"

def attributes (n : GraphNode) : String :=
  if n.violation.isSome then "color=red, style=filled"
  else if 0 ≤ n.equalTo then "style=dashed"
  else if n.truncated then "shape=doublecircle"
  else ""

def style : Tree.DotStyle GraphNode :=
  .ofTexts render attributes fun n => (n.via.map Transition.render).getD ""

end GraphNode

abbrev Graph := Tree GraphNode

namespace Graph

def dot (g : Graph) : String := Tree.dot "exploration" GraphNode.style false g

def newick (g : Graph) : String := Tree.newick GraphNode.render g

def outline (g : Graph) : String := Tree.outline GraphNode.render 0 g

end Graph

end Interleave
