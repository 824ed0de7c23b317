import Interleave.Double

/-! The structure of a Lua chunk. Expressions that can fail carry the line reported by the failure. -/

namespace Interleave.Script

inductive BinaryOp where
  | add | sub | mul | div | mod | pow | concat | eq | ne | lt | le | gt | ge
deriving DecidableEq, Repr

inductive UnaryOp where
  | negate | not | length
deriving DecidableEq, Repr

mutual

inductive Expr where
  | nil
  | bool (value : Bool)
  | number (value : Double)
  | string (value : ByteArray)
  | vararg
  | function (f : Function)
  | name (n : String)
  | index (object key : Expr) (line : Nat)
  | call (callee : Expr) (args : List Expr) (line : Nat)
  | method (object : Expr) (name : String) (nameLine : Nat) (args : List Expr) (line : Nat)
  | table (items : List Item)
  | binary (op : BinaryOp) (left right : Expr) (line : Nat)
  | unary (op : UnaryOp) (operand : Expr) (line : Nat)
  | and (left right : Expr)
  | or (left right : Expr)
  /-- Parentheses cut a list of results to the first. -/
  | parens (inner : Expr)

inductive Item where
  | positional (value : Expr)
  | keyed (key value : Expr) (line : Nat)

inductive Function where
  | mk (params : List String) (variadic : Bool) (body : List Stat)

inductive Stat where
  | assign (targets values : List Expr) (line : Nat)
  | declare (names : List String) (values : List Expr)
  | declareFunction (name : String) (f : Function)
  | call (e : Expr)
  | block (body : List Stat)
  | loop (test : Expr) (body : List Stat)
  | repeatUntil (body : List Stat) (test : Expr)
  | branch (test : Expr) (yes no : List Stat)
  | count (name : String) (start limit : Expr) (step : Option Expr) (body : List Stat) (line : Nat)
  | each (names : List String) (values : List Expr) (body : List Stat) (line : Nat)
  | ret (values : List Expr)
  | leave
  | jump (target : String)
  | label (name : String)

end

namespace Function

def params : Function → List String
  | mk params _ _ => params

def variadic : Function → Bool
  | mk _ variadic _ => variadic

def body : Function → List Stat
  | mk _ _ body => body

end Function

instance : Inhabited Function := ⟨.mk [] true []⟩

def labelsOf (body : List Stat) : List String :=
  body.filterMap fun | .label name => some name | _ => none

mutual

/-- Every exit leaves a loop and every jump has a label in a block around it. -/
def Stat.isClosed (inLoop : Bool) (labels : List String) : Stat → Bool
  | .leave => inLoop
  | .jump target => labels.contains target
  | .block body => bodyIsClosed inLoop (labels ++ labelsOf body) body && (labelsOf body).Nodup
  | .loop _ body | .repeatUntil body _ | .count _ _ _ _ body _ | .each _ _ body _ =>
    bodyIsClosed true (labels ++ labelsOf body) body && (labelsOf body).Nodup
  | .branch _ yes no =>
    bodyIsClosed inLoop (labels ++ labelsOf yes) yes && (labelsOf yes).Nodup
      && bodyIsClosed inLoop (labels ++ labelsOf no) no && (labelsOf no).Nodup
  | _ => true

def bodyIsClosed (inLoop : Bool) (labels : List String) : List Stat → Bool
  | [] => true
  | s :: rest => s.isClosed inLoop labels && bodyIsClosed inLoop labels rest

end

def Function.isClosed (f : Function) : Bool :=
  bodyIsClosed false (labelsOf f.body) f.body && (labelsOf f.body).Nodup

end Interleave.Script
