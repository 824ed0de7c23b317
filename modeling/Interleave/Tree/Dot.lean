import Interleave.Text.Quoted
import Interleave.Tree

/-! Graphviz format: one line per node in depth first order, then one line per edge. -/

namespace Interleave.Tree

variable {α : Type}

structure Placed (α : Type) where
  id : Nat
  parent : Option Nat
  payload : α

mutual

def place (parent : Option Nat) (id : Nat) : Tree α → List (Placed α)
  | node a cs => ⟨id, parent, a⟩ :: placeAll id (id + 1) cs

def placeAll (parent : Nat) (id : Nat) : List (Tree α) → List (Placed α)
  | [] => []
  | t :: ts => place (some parent) id t ++ placeAll parent (id + t.size) ts

end

structure DotStyle (α : Type) where
  label : α → ByteArray
  attributes : α → ByteArray
  edge : α → ByteArray

def DotStyle.ofTexts (label attributes edge : α → String) : DotStyle α :=
  { label := fun a => (label a).toUTF8
    attributes := fun a => (attributes a).toUTF8
    edge := fun a => (edge a).toUTF8 }

def dotNode (style : DotStyle α) (p : Placed α) : ByteArray :=
  let extra := style.attributes p.payload
  let extra := if extra.isEmpty then extra else ", ".toUTF8 ++ extra
  s!"  n{p.id} [label={Text.quoteBytes (style.label p.payload)}".toUTF8 ++ extra ++ "];\n".toUTF8

def dotEdge (style : DotStyle α) (p : Placed α) : ByteArray :=
  match p.parent with
  | some parent =>
    s!"  n{parent} -> n{p.id} [label={Text.quoteBytes (style.edge p.payload)}];\n".toUTF8
  | none => .empty

/-- Draws a tree. With `hanging` the root is drawn as a node below itself, which is how a subtree of a
larger tree is drawn. -/
def dotBytes (name : ByteArray) (style : DotStyle α) (hanging : Bool) (t : Tree α) : ByteArray :=
  let placed := place (if hanging then some 0 else none) 0 t
  s!"digraph {Text.quoteBytes name} \x7b\n  node [shape=circle];\n".toUTF8 ++
    Text.concat (placed.map (dotNode style)) ++ "\n".toUTF8 ++
    Text.concat (placed.map (dotEdge style)) ++ "\x7d\n".toUTF8

def dot (name : String) (style : DotStyle α) (hanging : Bool) (t : Tree α) : String :=
  Text.ofBytes (dotBytes name.toUTF8 style hanging t)

end Interleave.Tree
