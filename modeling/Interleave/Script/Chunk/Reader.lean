import Interleave.Script.Chunk
import Interleave.Script.Token

/-! Reading a chunk from its tokens by recursive descent. Every function takes fuel, which bounds the depth of
the descent; a chunk of `n` tokens needs no more than a multiple of `n`. -/

namespace Interleave.Script

namespace Reader

structure Cursor where
  rest : List Token
  last : Nat
  variadic : Bool

abbrev Reading := StateT Cursor Option

def fail {α : Type} : Reading α := fun _ => none

def peek : Reading Lexeme := fun c => some ((c.rest.head?.map Token.lexeme).getD .stop, c)

def line : Reading Nat := fun c => some ((c.rest.head?.map Token.line).getD c.last, c)

def last : Reading Nat := fun c => some (c.last, c)

def advance : Reading Unit := fun c =>
  match c.rest with
  | [] => some ((), c)
  | t :: rest => some ((), { c with rest, last := t.line })

def accept (text : String) : Reading Bool := do
  if (← peek) = .mark text then
    advance
    pure true
  else pure false

def expect (text : String) : Reading Unit := do
  if (← accept text) then pure () else fail

def name : Reading String := do
  match ← peek with
  | .name n => advance; pure n
  | _ => fail

def names : Nat → Reading (List String)
  | 0 => fail
  | fuel + 1 => do
    let n ← name
    if (← accept ",") then return n :: (← names fuel) else return [n]

def params : Nat → Reading (List String × Bool)
  | 0 => fail
  | fuel + 1 => do
    if (← accept "...") then
      expect ")"
      return ([], true)
    let n ← name
    if (← accept ",") then
      let (rest, variadic) ← params fuel
      return (n :: rest, variadic)
    else
      expect ")"
      return ([n], false)

inductive Joint where
  | strict (op : BinaryOp)
  | and
  | or

/-- A binary operator with the strength by which it holds its left and its right operand. -/
def joint? : Lexeme → Option (Joint × Nat × Nat)
  | .mark "or" => some (.or, 1, 1)
  | .mark "and" => some (.and, 2, 2)
  | .mark "<" => some (.strict .lt, 3, 3)
  | .mark ">" => some (.strict .gt, 3, 3)
  | .mark "<=" => some (.strict .le, 3, 3)
  | .mark ">=" => some (.strict .ge, 3, 3)
  | .mark "~=" => some (.strict .ne, 3, 3)
  | .mark "==" => some (.strict .eq, 3, 3)
  | .mark ".." => some (.strict .concat, 5, 4)
  | .mark "+" => some (.strict .add, 6, 6)
  | .mark "-" => some (.strict .sub, 6, 6)
  | .mark "*" => some (.strict .mul, 7, 7)
  | .mark "/" => some (.strict .div, 7, 7)
  | .mark "%" => some (.strict .mod, 7, 7)
  | .mark "^" => some (.strict .pow, 10, 9)
  | _ => none

def unary? : Lexeme → Option UnaryOp
  | .mark "not" => some .not
  | .mark "-" => some .negate
  | .mark "#" => some .length
  | _ => none

/-- Comparisons report the line of their last token, a row of concatenations the line of its last operator,
other operators their own line. -/
def join (j : Joint) (left right : Expr) (opLine lastLine : Nat) : Expr :=
  match j with
  | .and => .and left right
  | .or => .or left right
  | .strict op =>
    match op, right with
    | .concat, .binary .concat _ _ inner => .binary .concat left right inner
    | .lt, _ | .le, _ | .gt, _ | .ge, _ | .eq, _ | .ne, _ => .binary op left right lastLine
    | _, _ => .binary op left right opLine

def isTarget : Expr → Bool
  | .name _ | .index .. => true
  | _ => false

def isCall : Expr → Bool
  | .call .. | .method .. => true
  | _ => false

def endsBlock : Lexeme → Bool
  | .stop | .mark "end" | .mark "else" | .mark "elseif" | .mark "until" => true
  | _ => false

def textKey (n : String) : Expr := .string n.toUTF8

mutual

/-- An expression whose operators all hold stronger than `limit`. -/
def expr (fuel : Nat) (limit : Nat) : Reading Expr :=
  match fuel with
  | 0 => fail
  | fuel + 1 => do
    let opLine ← line
    match unary? (← peek) with
    | some op =>
      advance
      let operand ← expr fuel 8
      operators fuel limit (.unary op operand opLine)
    | none =>
      let first ← simple fuel
      operators fuel limit first

def operators (fuel : Nat) (limit : Nat) (left : Expr) : Reading Expr :=
  match fuel with
  | 0 => fail
  | fuel + 1 => do
    match joint? (← peek) with
    | none => return left
    | some (j, leftHold, rightHold) =>
      if leftHold ≤ limit then return left
      let opLine ← line
      advance
      let right ← expr fuel rightHold
      operators fuel limit (join j left right opLine (← last))

def exprs (fuel : Nat) : Reading (List Expr) :=
  match fuel with
  | 0 => fail
  | fuel + 1 => do
    let e ← expr fuel 0
    if (← accept ",") then return e :: (← exprs fuel) else return [e]

def simple (fuel : Nat) : Reading Expr :=
  match fuel with
  | 0 => fail
  | fuel + 1 => do
    match ← peek with
    | .number x => advance; return .number x
    | .string s => advance; return .string s
    | .mark "nil" => advance; return .nil
    | .mark "true" => advance; return .bool true
    | .mark "false" => advance; return .bool false
    | .mark "..." =>
      if (← get).variadic then
        advance
        return .vararg
      else fail
    | .mark "\x7b" => advance; return .table (← items fuel)
    | .mark "function" => advance; return .function (← function fuel [])
    | _ => suffixed fuel

def function (fuel : Nat) (first : List String) : Reading Function :=
  match fuel with
  | 0 => fail
  | fuel + 1 => do
    expect "("
    let (ps, variadic) ← if (← accept ")") then pure ([], false) else params fuel
    let outer := (← get).variadic
    modify fun c => { c with variadic }
    let body ← block fuel
    expect "end"
    modify fun c => { c with variadic := outer }
    let f := Function.mk (first ++ ps) variadic body
    if f.isClosed then return f else fail

def items (fuel : Nat) : Reading (List Item) :=
  match fuel with
  | 0 => fail
  | fuel + 1 => do
    if (← accept "\x7d") then return []
    let item ← item fuel
    if (← accept ",") then return item :: (← items fuel)
    if (← accept ";") then return item :: (← items fuel)
    expect "\x7d"
    return [item]

def item (fuel : Nat) : Reading Item :=
  match fuel with
  | 0 => fail
  | fuel + 1 => do
    match ← peek with
    | .mark "[" =>
      advance
      let key ← expr fuel 0
      expect "]"
      expect "="
      let value ← expr fuel 0
      return .keyed key value (← last)
    | .name n =>
      if ((← get).rest.drop 1).head?.any (·.lexeme = .mark "=") then
        advance
        advance
        let value ← expr fuel 0
        return .keyed (textKey n) value (← last)
      else return .positional (← expr fuel 0)
    | _ => return .positional (← expr fuel 0)

def suffixed (fuel : Nat) : Reading Expr :=
  match fuel with
  | 0 => fail
  | fuel + 1 => do
    let start ← line
    match ← peek with
    | .name n =>
      advance
      suffixes fuel start (.name n)
    | .mark "(" =>
      advance
      let inner ← expr fuel 0
      expect ")"
      suffixes fuel start (.parens inner)
    | _ => fail

def suffixes (fuel : Nat) (start : Nat) (e : Expr) : Reading Expr :=
  match fuel with
  | 0 => fail
  | fuel + 1 => do
    match ← peek with
    | .mark "." =>
      advance
      let n ← name
      suffixes fuel start (.index e (textKey n) (← last))
    | .mark "[" =>
      advance
      let key ← expr fuel 0
      expect "]"
      suffixes fuel start (.index e key (← last))
    | .mark ":" =>
      advance
      let n ← name
      let nameLine ← last
      let args ← args fuel
      suffixes fuel start (.method e n nameLine args start)
    | .mark "(" | .mark "\x7b" | .string _ =>
      let args ← args fuel
      suffixes fuel start (.call e args start)
    | _ => return e

def args (fuel : Nat) : Reading (List Expr) :=
  match fuel with
  | 0 => fail
  | fuel + 1 => do
    match ← peek with
    | .string s => advance; return [.string s]
    | .mark "\x7b" => advance; return [.table (← items fuel)]
    | .mark "(" =>
      advance
      if (← accept ")") then return []
      let es ← exprs fuel
      expect ")"
      return es
    | _ => fail

def block (fuel : Nat) : Reading (List Stat) :=
  match fuel with
  | 0 => fail
  | fuel + 1 => do
    if endsBlock (← peek) then return []
    if (← accept "return") then
      let values ← if endsBlock (← peek) || (← peek) = .mark ";" then pure [] else exprs fuel
      let _ ← accept ";"
      if endsBlock (← peek) then return [.ret values] else fail
    if (← accept ";") then block fuel
    else
      let s ← statement fuel
      return s :: (← block fuel)

def statement (fuel : Nat) : Reading Stat :=
  match fuel with
  | 0 => fail
  | fuel + 1 => do
    let start ← line
    match ← peek with
    | .mark "if" => advance; branch fuel
    | .mark "while" =>
      advance
      let test ← expr fuel 0
      expect "do"
      let body ← block fuel
      expect "end"
      return .loop test body
    | .mark "do" =>
      advance
      let body ← block fuel
      expect "end"
      return .block body
    | .mark "for" => advance; forLoop fuel start
    | .mark "repeat" =>
      advance
      let body ← block fuel
      expect "until"
      return .repeatUntil body (← expr fuel 0)
    | .mark "function" =>
      advance
      let n ← name
      functionStatement fuel start (.name n)
    | .mark "local" =>
      advance
      if (← accept "function") then
        let n ← name
        return .declareFunction n (← function fuel [])
      let ns ← names fuel
      let values ← if (← accept "=") then exprs fuel else pure []
      return .declare ns values
    | .mark "::" =>
      advance
      let n ← name
      expect "::"
      return .label n
    | .mark "break" => advance; return .leave
    | .mark "goto" => advance; return .jump (← name)
    | _ =>
      let e ← suffixed fuel
      match ← peek with
      | .mark "=" | .mark "," =>
        let targets ← moreTargets fuel [e]
        expect "="
        let values ← exprs fuel
        if targets.all isTarget then return .assign targets values (← last) else fail
      | _ => if isCall e then return .call e else fail

def moreTargets (fuel : Nat) (targets : List Expr) : Reading (List Expr) :=
  match fuel with
  | 0 => fail
  | fuel + 1 => do
    if (← accept ",") then
      let e ← suffixed fuel
      moreTargets fuel (targets ++ [e])
    else return targets

def branch (fuel : Nat) : Reading Stat :=
  match fuel with
  | 0 => fail
  | fuel + 1 => do
    let test ← expr fuel 0
    expect "then"
    let yes ← block fuel
    if (← accept "elseif") then return .branch test yes [← branch fuel]
    let no ← if (← accept "else") then block fuel else pure []
    expect "end"
    return .branch test yes no

def forLoop (fuel : Nat) (start : Nat) : Reading Stat :=
  match fuel with
  | 0 => fail
  | fuel + 1 => do
    let ns ← names fuel
    match ns, ← peek with
    | [n], .mark "=" =>
      advance
      let from_ ← expr fuel 0
      expect ","
      let limit ← expr fuel 0
      let step ← if (← accept ",") then some <$> expr fuel 0 else pure none
      expect "do"
      let prepared ← last
      let body ← block fuel
      expect "end"
      return .count n from_ limit step body prepared
    | _, _ =>
      expect "in"
      let values ← exprs fuel
      expect "do"
      let body ← block fuel
      expect "end"
      return .each ns values body start

def functionStatement (fuel : Nat) (start : Nat) (target : Expr) : Reading Stat :=
  match fuel with
  | 0 => fail
  | fuel + 1 => do
    if (← accept ".") then
      let n ← name
      functionStatement fuel start (.index target (textKey n) (← last))
    else if (← accept ":") then
      let n ← name
      let field := Expr.index target (textKey n) (← last)
      return .assign [field] [.function (← function fuel ["self"])] start
    else return .assign [target] [.function (← function fuel [])] start

end

end Reader

/-- The chunk as a function that takes any number of arguments; none if the tokens do not form a chunk. -/
def readChunk? (tokens : List Token) : Option Function := do
  let fuel := 16 * tokens.length + 16
  let (body, cursor) ← (Reader.block fuel).run ⟨tokens, 1, true⟩
  let f := Function.mk [] true body
  if cursor.rest.head?.all (·.lexeme = .stop) && f.isClosed then some f else none

end Interleave.Script
