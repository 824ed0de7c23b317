import Interleave.Text.Quoted

/-! Options of an exploration and the rules for combining them. -/

namespace Interleave

inductive Reduction where
  | none
  | dpor
deriving DecidableEq, Repr, Inhabited

namespace Reduction

def ofCode? (code : Int) : Option Reduction :=
  match code with
  | 0 => some none
  | 1 => some dpor
  | _ => Option.none

def code : Reduction → Int
  | none => 0
  | dpor => 1

def name : Reduction → String
  | none => "none"
  | dpor => "dpor"

def codeName (code : Int) : String := ((ofCode? code).map name).getD "unknown"

def ofName? (name : String) : Option Reduction :=
  match name with
  | "none" | "" => some none
  | "dpor" => some dpor
  | _ => Option.none

def unknownName (name : String) : String := s!"explorer: unknown reduction {Text.quote name}"

end Reduction

inductive Strategy where
  | depthFirst
  | unfolding
deriving DecidableEq, Repr, Inhabited

namespace Strategy

def ofCode? (code : Int) : Option Strategy :=
  match code with
  | 0 => some depthFirst
  | 1 => some unfolding
  | _ => none

def code : Strategy → Int
  | depthFirst => 0
  | unfolding => 1

def name : Strategy → String
  | depthFirst => "dfs"
  | unfolding => "udpor"

def codeName (code : Int) : String := ((ofCode? code).map name).getD "unknown"

def ofName? (name : String) : Option Strategy :=
  match name with
  | "dfs" | "" => some depthFirst
  | "udpor" => some unfolding
  | _ => none

def unknownName (name : String) : String := s!"explorer: unknown strategy {Text.quote name}"

end Strategy

/-- One request about an exploration. Later requests override earlier ones. -/
inductive Setting where
  | maxDepth (depth : Int)
  | reduction (code : Int)
  | visitedStates (count : Int)
  /-- Takes a snapshot of every `interval`-th state; zero keeps the initial one only. -/
  | checkpoint (interval : Int)
  | recordGraph
  | neutral
  | unrecognized (typeName : String)
deriving DecidableEq, Repr

structure Options where
  maxDepth : Int
  reduction : Reduction
  maxVisited : Nat
  checkpoint : Nat
  graph : Bool
deriving DecidableEq, Repr

inductive OptionError where
  | unknownReduction (code : Int)
  | negativeVisited (count : Int)
  | negativeCheckpoint (interval : Int)
  | unrecognized (typeName : String)
  | conflict
deriving DecidableEq, Repr

def OptionError.conflictText : String := "explorer: configuration conflict"

def OptionError.message : OptionError → String
  | unknownReduction n => s!"explorer: unknown reduction {n}"
  | negativeVisited n => s!"explorer: negative number of visited states {n}"
  | negativeCheckpoint n => s!"explorer: negative checkpoint interval {n}"
  | unrecognized t => s!"explorer: unknown option {t}"
  | conflict => s!"DPOR can not be combined with the visited state reduction: {conflictText}"

namespace Options

def default : Options :=
  { maxDepth := 1000, reduction := .none, maxVisited := 0, checkpoint := 0, graph := false }

def apply (o : Options) : Setting → Except OptionError Options
  | .maxDepth depth => .ok { o with maxDepth := depth }
  | .reduction code =>
    match Reduction.ofCode? code with
    | some reduction => .ok { o with reduction }
    | none => .error (.unknownReduction code)
  | .visitedStates count =>
    if count < 0 then .error (.negativeVisited count) else .ok { o with maxVisited := count.toNat }
  | .checkpoint interval =>
    if interval < 0 then .error (.negativeCheckpoint interval)
    else .ok { o with checkpoint := interval.toNat }
  | .recordGraph => .ok { o with graph := true }
  | .neutral => .ok o
  | .unrecognized t => .error (.unrecognized t)

def ofSettings (settings : List Setting) : Except OptionError Options := do
  let o ← settings.foldlM apply default
  if o.reduction = .dpor ∧ 0 < o.maxVisited then .error .conflict else .ok o

/-- Whether a state at this depth may still be left. -/
def withinDepth (o : Options) (depth : Nat) : Bool := o.maxDepth < 1 || depth < o.maxDepth

end Options

end Interleave
