import Interleave.Script.Format
import Interleave.Script.Store

/-! The functions a script finds defined. They call back into the script only through `Calls`. -/

namespace Interleave.Script

/-- How a built-in function reaches the rest of the script. -/
structure Calls where
  call : Value → List Value → Run (List Value)
  index : Value → Value → Run Value

namespace Library

structure Site where
  sites : Sites
  args : List Value

variable (c : Calls) (site : Site)

def arg? (i : Nat) : Option Value := site.args[i - 1]?

def arg (i : Nat) : Value := (arg? site i).getD .nil

def given (i : Nat) : Bool := arg site i ≠ .nil

def wrongType {α : Type} (i : Int) (expected : String) (v : Option Value) : Run α :=
  let actual := (v.map Value.typeName).getD "no value"
  argumentFault site.sites i s!"{expected} expected, got {actual}"

def stringArg (i : Nat) : Run ByteArray :=
  match (arg site i).toBytes? with
  | some s => pure s
  | none => wrongType site i "string" (arg? site i)

def stringArgD (i : Nat) (default : ByteArray) : Run ByteArray :=
  if given site i then stringArg site i else pure default

def numberArg (i : Nat) : Run Double :=
  match (arg site i).toNumber? with
  | some x => pure x
  | none => wrongType site i "number" (arg? site i)

def integerArg (i : Nat) : Run Int :=
  match (arg site i).toInteger? with
  | some n => pure n
  | none => wrongType site i "number" (arg? site i)

def integerArgD (i : Nat) (default : Int) : Run Int :=
  if given site i then integerArg site i else pure default

def tableArg (i : Nat) : Run Nat :=
  match arg site i with
  | .table id => pure id
  | _ => wrongType site i "table" (arg? site i)

def functionArg (i : Nat) : Run Value :=
  let v := arg site i
  if v.isFunction then pure v else wrongType site i "function" (arg? site i)

def anyArg (i : Nat) : Run Value :=
  match arg? site i with
  | some v => pure v
  | none => argumentFault site.sites i "value expected"

def require (condition : Bool) (i : Nat) (message : String) : Run Unit :=
  if condition then pure () else argumentFault site.sites i message

def faultText {α : Type} (message : String) : Run α := fault site.sites message.toUTF8

def display : Value → String
  | .nil => "nil"
  | .bool b => if b then "true" else "false"
  | .number x => x.text
  | .string s => Text.ofBytes s
  | .table id => s!"table: {id}"
  | .closure id => s!"function: {id}"
  | .builtin _ => "function: builtin"

def displayBytes : Value → ByteArray
  | .string s => s
  | v => (display v).toUTF8

def raiseValue {α : Type} : Run α := do
  let level ← integerArgD site 2 1
  match (arg site 1).toBytes? with
  | some message =>
    if 0 < level then raise ((← positionAt site.sites level) ++ message) else raise message
  | none => wrongType site (-1) "string" (some (arg site 1))

def assertion : Run (List Value) := do
  if (arg site 1).truthy then return site.args
  fault site.sites (← stringArgD site 2 "assertion failed!".toUTF8)

def protectedCall : Run (List Value) := do
  let f ← anyArg site 1
  fun s => match c.call f (site.args.drop 1) s with
    | .ok results s => .ok (.bool true :: results) s
    | .error (.error message) s => .ok [.bool false, .string message] s
    | .error .exhausted s => .error .exhausted s

def digitsValue? (base : Nat) (cs : List Char) : Option Int := do
  let (negative, digits) := match cs with
    | '-' :: r => (true, r)
    | '+' :: r => (false, r)
    | r => (false, r)
  if digits.isEmpty then none
  let values ← digits.mapM fun d =>
    if d.isDigit then some (d.toNat - '0'.toNat)
    else if 'a' ≤ d ∧ d ≤ 'z' then some (d.toNat - 'a'.toNat + 10)
    else if 'A' ≤ d ∧ d ≤ 'Z' then some (d.toNat - 'A'.toNat + 10)
    else none
  if values.any (base ≤ ·) then none
  let n : Int := (values.foldl (fun n d => base * n + d) 0 : Nat)
  let n := if negative then -n else n
  if -Double.wordLimit ≤ n ∧ n < Double.wordLimit then some n else none

def toNumber : Run Value := do
  if given site 2 then
    let s ← stringArg site 1
    let base ← integerArg site 2
    require site (2 ≤ base && base ≤ 36) 2 "base out of range"
    match digitsValue? base.toNat (Text.trimChars (Text.charsOfBytes s)) with
    | some n => return .int n
    | none => return .nil
  else match (arg site 1).toNumber? with
    | some x => return .number x
    | none =>
      let _ ← anyArg site 1
      return .nil

def selectArgs : Run (List Value) := do
  let n : Int := site.args.length
  match arg site 1 with
  | .string s =>
    if s.data.toList.head? = some 35 then return [.int (n - 1)]
  | _ => pure ()
  let i ← integerArg site 1
  let i := if i < 0 then n + i else if n < i then n else i
  require site (1 ≤ i) 1 "index out of range"
  return site.args.drop i.toNat

def setMetatable : Run Value := do
  let id ← tableArg site 1
  match arg? site 2 with
  | some .nil => changeTable id fun t => { t with metatable := none }
  | some (.table m) => changeTable id fun t => { t with metatable := some m }
  | _ => argumentFault site.sites 2 "nil or table expected"
  return .table id

def getMetatable : Run Value := do
  match ← anyArg site 1 with
  | .table id =>
    match (← readTable id).metatable with
    | some m => return .table m
    | none => return .nil
  | _ => return .nil

def nextItem : Run (List Value) := do
  let t ← readTable (← tableArg site 1)
  let i := (← integerArg site 2) + 1
  match t.getInt i with
  | .nil => return [.nil]
  | v => return [.int i, v]

def nextEntry : Run (List Value) := do
  let t ← readTable (← tableArg site 1)
  match t.after? (arg site 2) with
  | some (some (k, v)) => return [k, v]
  | some none => return [.nil]
  | none => faultText site "invalid key to 'next'"

def rawLength : Run Value := do
  match arg site 1 with
  | .table id => return .int (← readTable id).length
  | .string s => return .int s.size
  | _ => argumentFault site.sites 1 "table or string expected"

def fold (f : Double → Double → Double) : Run Value := do
  let first ← numberArg site 1
  let rest ← (List.range (site.args.length - 1)).mapM fun i => numberArg site (i + 2)
  return .number (rest.foldl f first)

def greater (x y : Double) : Double :=
  if x.isNaN || y.isNaN then Double.nan
  else if x.rank = 0 && y.rank = 0 then if x.isNegative then y else x
  else if x.lt y then y else x

def lesser (x y : Double) : Double :=
  if x.isNaN || y.isNaN then Double.nan
  else if x.rank = 0 && y.rank = 0 then if x.isNegative then x else y
  else if y.lt x then y else x

def position (i : Int) (length : Nat) : Int :=
  if 0 ≤ i then i
  else if (length : Int) < -i then 0
  else length + i + 1

def slice (s : ByteArray) (first last : Int) : ByteArray :=
  let first := max (position first s.size) 1
  let last := min (position last s.size) s.size
  if last < first then ByteArray.empty else s.extract (first.toNat - 1) last.toNat

def repeated (s separator : ByteArray) (n : Nat) : ByteArray :=
  match n with
  | 0 => ByteArray.empty
  | n + 1 => n.fold (fun _ _ acc => acc ++ separator ++ s) s

def repeatString : Run Value := do
  let s ← stringArg site 1
  let n ← integerArg site 2
  let separator ← stringArgD site 3 ByteArray.empty
  if n ≤ 0 then return .string ByteArray.empty
  if 2147483647 / n ≤ s.size + separator.size then faultText site "resulting string too large"
  return .string (repeated s separator n.toNat)

def mapChars (f : Char → Char) (s : ByteArray) : ByteArray :=
  (String.ofList ((Text.charsOfBytes s).map f)).toUTF8

def quoteBytes : List UInt8 → List UInt8
  | [] => [34]
  | b :: rest =>
    let tail := quoteBytes rest
    if b = 34 || b = 92 || b = 10 then 92 :: b :: tail
    else if 32 ≤ b && b ≠ 127 then b :: tail
    else
      let digits := (Nat.toDigits 10 b.toNat).map fun d => d.toNat.toUInt8
      let wide := rest.head?.any fun d => 48 ≤ d && d ≤ 57
      92 :: (if wide then List.replicate (3 - digits.length) 48 ++ digits else digits) ++ tail

def isWord (x : Double) : Bool := x.toInt?.any fun n => -Double.wordLimit ≤ n && n < Double.wordLimit

def formatOne (d : Directive) (i : Nat) : Run ByteArray := do
  let utf8 (cs : List Char) := (String.ofList cs).toUTF8
  match d.conversion with
  | 'c' => return utf8 (d.pad [Char.ofNat (← integerArg site i).toNat])
  | 'd' | 'i' =>
    let x ← numberArg site i
    require site (isWord x) i "number has no integer representation"
    let n := x.toWord
    return utf8 (d.integer (n < 0) (Nat.toDigits 10 n.natAbs) [])
  | 'u' | 'o' | 'x' | 'X' =>
    let x ← numberArg site i
    let n := (x.toInt?).getD (-1)
    require site (0 ≤ n && n < 2 * Double.wordLimit) i "not a non-negative number in proper range"
    let n := n.toNat
    let (base, mark) := match d.conversion with
      | 'o' => (8, "0")
      | 'x' => (16, "0x")
      | 'X' => (16, "0X")
      | _ => (10, "")
    let digits := Nat.toDigits base n
    let digits := if d.conversion == 'X' then digits.map Char.toUpper else digits
    return utf8 (d.integer false digits (if d.alternate then mark.toList else []))
  | 'e' | 'E' | 'f' | 'g' | 'G' => return utf8 (d.float (← numberArg site i))
  | 'q' => return ⟨(34 :: quoteBytes (← stringArg site i).data.toList).toArray⟩
  | 's' =>
    let s := displayBytes (arg site i)
    if d.width = 0 && d.precision.isNone then return s
    else if d.precision.isNone && 100 ≤ s.size then return s
    else return utf8 (d.text (Text.charsOfBytes s))
  | option => faultText site s!"invalid option '%{option}' to 'format'"

/-- Replaces each directive by the next argument. Characters stand for bytes here. -/
def formatFrom : Nat → List Char → Nat → ByteArray → Run ByteArray
  | 0, _, _, acc => pure acc
  | fuel + 1, cs, i, acc => do
    match cs with
    | [] => return acc
    | '%' :: '%' :: rest => formatFrom fuel rest i (acc.push 37)
    | '%' :: rest =>
      if site.args.length < i then argumentFault site.sites i "no value"
      match Directive.read rest with
      | .error .repeatedFlags => faultText site "invalid format (repeated flags)"
      | .error .tooLong => faultText site "invalid format (width or precision too long)"
      | .error .unfinished => faultText site "invalid option '%' to 'format'"
      | .ok (d, rest) =>
        let piece ← formatOne site d i
        formatFrom fuel rest (i + 1) (acc ++ piece)
    | b :: rest => formatFrom fuel rest i (acc.push b.toNat.toUInt8)

def format : Run Value := do
  let pattern ← stringArg site 1
  let cs := pattern.data.toList.map fun b => Char.ofNat b.toNat
  return .string (← formatFrom site (cs.length + 1) cs 2 ByteArray.empty)

def bytesAt : Run (List Value) := do
  let s ← stringArg site 1
  let first ← integerArgD site 2 1
  let last ← integerArgD site 3 (position first s.size)
  return (slice s first last).data.toList.map fun b => .int b.toNat

def charsOf : Run Value := do
  let codes ← (List.range site.args.length).mapM fun i => do
    let n ← integerArg site (i + 1)
    require site (0 ≤ n && n ≤ 255) (i + 1) "value out of range"
    return n.toNat.toUInt8
  return .string ⟨codes.toArray⟩

def shiftUp (t : Table) (first : Int) : Nat → Table
  | 0 => t
  | n + 1 => shiftUp (t.setInt (first + n + 1) (t.getInt (first + n))) first n

def shiftDown (t : Table) (first : Int) : Nat → Table
  | 0 => t
  | n + 1 => shiftDown (t.setInt first (t.getInt (first + 1))) (first + 1) n

def insertItem : Run Unit := do
  let id ← tableArg site 1
  let free : Int := (← readTable id).length + 1
  match site.args.length with
  | 2 => changeTable id fun t => t.setInt free (arg site 2)
  | 3 =>
    let i ← integerArg site 2
    require site (1 ≤ i && i ≤ free) 2 "position out of bounds"
    changeTable id fun t => (shiftUp t i (free - i).toNat).setInt i (arg site 3)
  | _ => faultText site "wrong number of arguments to 'insert'"

def removeItem : Run Value := do
  let id ← tableArg site 1
  let size : Int := (← readTable id).length
  let i ← integerArgD site 2 size
  if i ≠ size then require site (1 ≤ i && i ≤ size + 1) 2 "position out of bounds"
  let removed := (← readTable id).getInt i
  changeTable id fun t => (shiftDown t i (size - i).toNat).setInt (max i size) .nil
  return removed

def unpack : Run (List Value) := do
  let id ← tableArg site 1
  let t ← readTable id
  let first ← integerArgD site 2 1
  let last ← integerArgD site 3 t.length
  if 1000000 ≤ last - first then faultText site "too many results to unpack"
  return (List.range (last - first + 1).toNat).map fun (i : Nat) => t.getInt (first + i)

def concat : Run Value := do
  let t ← readTable (← tableArg site 1)
  let separator ← stringArgD site 2 ByteArray.empty
  let first ← integerArgD site 3 1
  let last ← integerArgD site 4 t.length
  let parts ← (List.range (last - first + 1).toNat).mapM fun (i : Nat) => do
    let v := t.getInt (first + i)
    match v.toBytes? with
    | some s => return s
    | none => faultText site s!"invalid value ({v.typeName}) at index {first + i} in table for 'concat'"
  match parts with
  | [] => return .string ByteArray.empty
  | p :: ps => return .string (ps.foldl (fun acc s => acc ++ separator ++ s) p)

def insertDescending (less : Value → Value → Run Bool) (v : Value) : List Value → Run (List Value)
  | [] => return [v]
  | w :: ws => do
    if (← less v w) then return w :: (← insertDescending less v ws) else return v :: w :: ws

def sort : Run Unit := do
  let id ← tableArg site 1
  let t ← readTable id
  let less : Value → Value → Run Bool ←
    if given site 2 then do
      let f ← functionArg site 2
      pure fun v w => do return ((← c.call f [v, w]).headD .nil).truthy
    else pure fun v w => do
      match lessThan? v w with
      | some b => return b
      | none => raise (unordered v w).toUTF8
  let items := (List.range t.length).map fun (i : Nat) => t.getInt (i + 1)
  let descending ← items.foldlM (fun acc v => insertDescending less v acc) []
  let sorted := descending.reverse
  changeTable id fun t => (sorted.zipIdx 1).foldl (fun t (v, i) => t.setInt i v) t
  match sorted, descending with
  | least :: _, greatest :: _ =>
    if (← less greatest least) then faultText site "invalid order function for sorting"
  | _, _ => pure ()

def textField (step : Value) (name : String) : Run String := do
  match ← c.index step (.text name) with
  | .nil => return ""
  | v =>
    match v.toBytes? with
    | some s => return Text.ofBytes s
    | none => faultText site s!"{name} must be a string"

def functionField (step : Value) (name place : String) : Run (Option Value) := do
  match ← c.index step (.text name) with
  | .nil => return none
  | v => if v.isFunction then return some v else faultText site s!"{place}: {name} must be a function"

def readStep (place : String) (step : Value) : Run (Model.StepDecl Value) := do
  let kindName ← textField c site step "kind"
  let kind ← match Kind.parse kindName with
    | .ok kind => pure kind
    | .error _ => faultText site s!"{place}: unknown kind {kindName}"
  let resource ← textField c site step "resource"
  let label ← textField c site step "label"
  let choices ← match ← c.index step (.text "choices") with
    | .nil => pure 1
    | v =>
      match v.toInteger? with
      | some n => if 1 ≤ n then pure n else faultText site s!"{place}: choices must be a positive integer"
      | none => faultText site s!"{place}: choices must be a positive integer"
  let run ← functionField c site step "run" place
  let guard ← functionField c site step "guard" place
  return { kind, resource, label, choices, run, guard }

def declareActor : Run Unit := do
  let name := Text.ofBytes (← stringArg site 1)
  let t ← readTable (← tableArg site 2)
  if t.length = 0 then faultText site s!"actor {name} has no steps"
  let steps ← (List.range t.length).mapM fun (i : Nat) => do
    let place := s!"actor {name}: step {i + 1}"
    match t.getInt (i + 1) with
    | .table id => readStep c site place (.table id)
    | _ => faultText site s!"{place} is not a table"
  modify fun s =>
    { s with declarations :=
      { s.declarations with actors := s.declarations.actors.push { name, steps } } }

def declareInvariant : Run Unit := do
  let name := Text.ofBytes (← stringArg site 1)
  let test ← functionArg site 2
  modify fun s =>
    { s with declarations :=
      { s.declarations with invariants := s.declarations.invariants.push { name, test } } }

end Library

open Library in
def Builtin.run (b : Builtin) (c : Calls) (sites : Sites) (args : List Value) : Run (List Value) :=
  let site : Site := ⟨sites, args⟩
  match b with
  | .assert => assertion site
  | .error => raiseValue site
  | .getmetatable => do return [← getMetatable site]
  | .ipairs => do return [.builtin .ipairsNext, .table (← tableArg site 1), .int 0]
  | .ipairsNext => nextItem site
  | .next => nextEntry site
  | .pairs => do return [.builtin .next, .table (← tableArg site 1), .nil]
  | .pcall => protectedCall c site
  | .print => return []
  | .rawequal => do return [.bool ((← anyArg site 1).rawEquals (← anyArg site 2))]
  | .rawget => do return [(← readTable (← tableArg site 1)).get (← anyArg site 2)]
  | .rawlen => do return [← rawLength site]
  | .rawset => do
    let id ← tableArg site 1
    let k ← anyArg site 2
    let v ← anyArg site 3
    changeTable id fun t => t.set k v
    return [.table id]
  | .select => selectArgs site
  | .setmetatable => do return [← setMetatable site]
  | .tonumber => do return [← toNumber site]
  | .tostring => do return [.string (displayBytes (← anyArg site 1))]
  | .type => do return [.text (← anyArg site 1).typeName]
  | .mathAbs => do return [.number (← numberArg site 1).abs]
  | .mathCeil => do return [.number (← numberArg site 1).ceil]
  | .mathFloor => do return [.number (← numberArg site 1).floor]
  | .mathMax => do return [← fold site greater]
  | .mathMin => do return [← fold site lesser]
  | .mathSqrt => do return [.number (← numberArg site 1).sqrt]
  | .stringByte => bytesAt site
  | .stringChar => do return [← charsOf site]
  | .stringFormat => do return [← format site]
  | .stringLen => do return [.int (← stringArg site 1).size]
  | .stringLower => do return [.string (mapChars Text.lowerChar (← stringArg site 1))]
  | .stringRep => do return [← repeatString site]
  | .stringReverse => do return [.string ⟨(← stringArg site 1).data.reverse⟩]
  | .stringSub => do
    let s ← stringArg site 1
    let first ← integerArg site 2
    return [.string (slice s first (← integerArgD site 3 (-1)))]
  | .stringUpper => do return [.string (mapChars Text.upperChar (← stringArg site 1))]
  | .tableConcat => do return [← concat site]
  | .tableInsert => do
    insertItem site
    return []
  | .tablePack => do
    let t := (Table.mk args.toArray [] none).set (.text "n") (.int args.length)
    return [.table (← newTable t)]
  | .tableRemove => do return [← removeItem site]
  | .tableSort => do
    sort c site
    return []
  | .tableUnpack => unpack site
  | .actor => do
    declareActor c site
    return []
  | .step => do return [.table (← tableArg site 1)]
  | .invariant => do
    declareInvariant site
    return []

def Library.globals : List (String × Builtin) :=
  [("assert", .assert), ("error", .error), ("getmetatable", .getmetatable), ("ipairs", .ipairs),
    ("next", .next), ("pairs", .pairs), ("pcall", .pcall), ("print", .print), ("rawequal", .rawequal),
    ("rawget", .rawget), ("rawlen", .rawlen), ("rawset", .rawset), ("select", .select),
    ("setmetatable", .setmetatable), ("tonumber", .tonumber), ("tostring", .tostring), ("type", .type),
    ("actor", .actor), ("step", .step), ("invariant", .invariant)]

def Library.modules : List (String × List (String × Builtin)) :=
  [("math", [("abs", .mathAbs), ("ceil", .mathCeil), ("floor", .mathFloor), ("max", .mathMax),
      ("min", .mathMin), ("sqrt", .mathSqrt)]),
    ("string", [("byte", .stringByte), ("char", .stringChar), ("format", .stringFormat),
      ("len", .stringLen), ("lower", .stringLower), ("rep", .stringRep), ("reverse", .stringReverse),
      ("sub", .stringSub), ("upper", .stringUpper)]),
    ("table", [("concat", .tableConcat), ("insert", .tableInsert), ("pack", .tablePack),
      ("remove", .tableRemove), ("sort", .tableSort), ("unpack", .tableUnpack)])]

end Interleave.Script
