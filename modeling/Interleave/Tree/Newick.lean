import Interleave.Text.Quoted
import Interleave.Tree

/-! Newick format: the children of a node in parentheses, then its quoted label. -/

namespace Interleave.Tree

variable {α : Type}

mutual

def newickNode (label : α → ByteArray) : Tree α → String
  | node a [] => Text.quoteBytes (label a)
  | node a (c :: cs) => "(" ++ newickChildren label (c :: cs) ++ ")" ++ Text.quoteBytes (label a)

def newickChildren (label : α → ByteArray) : List (Tree α) → String
  | [] => ""
  | [t] => newickNode label t
  | t :: t' :: ts => newickNode label t ++ "," ++ newickChildren label (t' :: ts)

end

/-- A tree with byte strings for labels, which need not be texts. -/
def newickBytes (label : α → ByteArray) (t : Tree α) : String := newickNode label t ++ ";"

def newick (label : α → String) : Tree α → String := newickBytes fun a => (label a).toUTF8

end Interleave.Tree
