/-! Rooted trees with ordered children. A node is addressed by the child positions on the way to it, which
stay valid because children are only ever added at the end. -/

namespace Interleave

inductive Tree (α : Type) where
  | node (payload : α) (children : List (Tree α))
deriving Inhabited, Repr

namespace Tree

variable {α β : Type}

abbrev Path := List Nat

def leaf (a : α) : Tree α := node a []

def payload : Tree α → α
  | node a _ => a

def children : Tree α → List (Tree α)
  | node _ cs => cs

def isLeaf (t : Tree α) : Bool := t.children.isEmpty

mutual

def size : Tree α → Nat
  | node _ cs => 1 + sizeAll cs

def sizeAll : List (Tree α) → Nat
  | [] => 0
  | t :: ts => t.size + sizeAll ts

end

def get? : Tree α → Path → Option (Tree α)
  | t, [] => some t
  | node _ cs, i :: path => cs[i]?.bind (get? · path)

/-- Changes the subtree at a path; a path that leads nowhere changes nothing. -/
def modifyAt (f : Tree α → Tree α) : Path → Tree α → Tree α
  | [], t => f t
  | i :: path, node a cs => node a (cs.modify i (modifyAt f path))

def update (path : Path) (f : α → α) : Tree α → Tree α :=
  modifyAt (fun | node a cs => node (f a) cs) path

def nextChild (t : Tree α) (path : Path) : Path :=
  path ++ [((t.get? path).map (·.children.length)).getD 0]

def addChild (path : Path) (a : α) : Tree α → Tree α :=
  modifyAt (fun | node b cs => node b (cs ++ [leaf a])) path

def trail : Tree α → Path → List α
  | node a _, [] => [a]
  | node a cs, i :: path => a :: ((cs[i]?.map (trail · path)).getD [])

mutual

def leaves (path : Path) : Tree α → List Path
  | node _ [] => [path]
  | node _ (c :: cs) => leavesAll path 0 (c :: cs)

def leavesAll (path : Path) (i : Nat) : List (Tree α) → List Path
  | [] => []
  | t :: ts => leaves (path ++ [i]) t ++ leavesAll path (i + 1) ts

end

mutual

def find? (p : α → Bool) (path : Path) : Tree α → Option Path
  | node a cs => if p a then some path else findAll? p path 0 cs

def findAll? (p : α → Bool) (path : Path) (i : Nat) : List (Tree α) → Option Path
  | [] => none
  | t :: ts => (find? p (path ++ [i]) t).or (findAll? p path (i + 1) ts)

end

mutual

def preorder : Tree α → List α
  | node a cs => a :: preorderAll cs

def preorderAll : List (Tree α) → List α
  | [] => []
  | t :: ts => preorder t ++ preorderAll ts

end

mutual

def outline (label : α → String) (depth : Nat) : Tree α → String
  | node a cs =>
    String.ofList (List.replicate depth '-') ++ label a ++ "\n" ++ outlineAll label (depth + 1) cs

def outlineAll (label : α → String) (depth : Nat) : List (Tree α) → String
  | [] => ""
  | t :: ts => outline label depth t ++ outlineAll label depth ts

end

end Tree

end Interleave
