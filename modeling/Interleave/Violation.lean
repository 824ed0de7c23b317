/-! Safety violations observed in a checked program. -/

namespace Interleave

inductive ViolationKind where
  | assertion | deadlock | crash | invariant
  | unknown (code : Int)
deriving DecidableEq, Repr, Inhabited

namespace ViolationKind

def ofCode (code : Int) : ViolationKind :=
  match code with
  | 0 => assertion
  | 1 => deadlock
  | 2 => crash
  | 3 => invariant
  | n => unknown n

def code : ViolationKind → Int
  | assertion => 0
  | deadlock => 1
  | crash => 2
  | invariant => 3
  | unknown n => n

def name : ViolationKind → String
  | assertion => "assertion failure"
  | deadlock => "deadlock"
  | crash => "crash"
  | invariant => "invariant violated"
  | unknown n => s!"ViolationKind({n})"

end ViolationKind

structure Violation where
  kind : ViolationKind
  message : String
deriving DecidableEq, Repr, Inhabited

def Violation.render (v : Violation) : String :=
  if v.message = "" then v.kind.name else s!"{v.kind.name}: {v.message}"

end Interleave
