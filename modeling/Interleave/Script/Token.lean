import Interleave.Double
import Interleave.Text.Bytes

/-! The tokens of a Lua chunk. A chunk is a string of bytes, read here as characters below 256. -/

namespace Interleave.Script

inductive Lexeme where
  | name (text : String)
  | number (value : Double)
  | string (value : ByteArray)
  | mark (text : String)
  | stop
deriving DecidableEq

structure Token where
  lexeme : Lexeme
  line : Nat

namespace Token

def keywords : List String :=
  ["and", "break", "do", "else", "elseif", "end", "false", "for", "function", "goto", "if", "in", "local",
    "nil", "not", "or", "repeat", "return", "then", "true", "until", "while"]

def isNameChar (c : Char) : Bool := c.isAlphanum || c == '_'

def hexValue? (c : Char) : Option Nat :=
  if c.isDigit then some (c.toNat - '0'.toNat)
  else if 'a' ≤ c ∧ c ≤ 'f' then some (c.toNat - 'a'.toNat + 10)
  else if 'A' ≤ c ∧ c ≤ 'F' then some (c.toNat - 'A'.toNat + 10)
  else none

def bytesOf (cs : List Char) : ByteArray := ⟨(cs.map fun c => c.toNat.toUInt8).toArray⟩

def isNewline (c : Char) : Bool := c == '\n' || c == '\r'

def dropNewline : List Char → List Char
  | '\n' :: '\r' :: rest => rest
  | '\r' :: '\n' :: rest => rest
  | _ :: rest => rest
  | [] => []

def longOpen? : List Char → Option (Nat × List Char)
  | '[' :: rest =>
    let level := (rest.takeWhile (· == '=')).length
    match rest.drop level with
    | '[' :: inner => some (level, inner)
    | _ => none
  | _ => none

/-- The text up to the long bracket that closes the level, what follows, and the line reached. -/
def longBody (level : Nat) : Nat → List Char → Nat → List Char → Option (List Char × List Char × Nat)
  | 0, _, _, _ => none
  | fuel + 1, cs, line, acc =>
    match cs with
    | [] => none
    | ']' :: rest =>
      let n := (rest.takeWhile (· == '=')).length
      match n == level, rest.drop n with
      | true, ']' :: after => some (acc.reverse, after, line)
      | _, _ => longBody level fuel rest line (']' :: acc)
    | c :: rest =>
      if isNewline c then longBody level fuel (dropNewline cs) (line + 1) ('\n' :: acc)
      else longBody level fuel rest line (c :: acc)

def long (level : Nat) (cs : List Char) (line : Nat) : Option (List Char × List Char × Nat) :=
  match cs with
  | [] => none
  | c :: _ =>
    if isNewline c then longBody level (cs.length + 1) (dropNewline cs) (line + 1) []
    else longBody level (cs.length + 1) cs line []

def simpleEscape? : Char → Option Char
  | 'a' => some '\x07'
  | 'b' => some '\x08'
  | 'f' => some '\x0c'
  | 'n' => some '\n'
  | 'r' => some '\r'
  | 't' => some '\t'
  | 'v' => some '\x0b'
  | '\\' => some '\\'
  | '"' => some '"'
  | '\x27' => some '\x27'
  | _ => none

def skipBlanks : Nat → List Char → Nat → List Char × Nat
  | 0, cs, line => (cs, line)
  | fuel + 1, cs, line =>
    match cs with
    | c :: rest =>
      if isNewline c then skipBlanks fuel (dropNewline cs) (line + 1)
      else if c == ' ' || c == '\t' || c == '\x0b' || c == '\x0c' then skipBlanks fuel rest line
      else (cs, line)
    | [] => (cs, line)

def quoted (quote : Char) : Nat → List Char → Nat → List Char → Option (List Char × List Char × Nat)
  | 0, _, _, _ => none
  | fuel + 1, cs, line, acc =>
    match cs with
    | [] => none
    | '\\' :: rest =>
      match rest with
      | [] => none
      | 'z' :: after =>
        let (after, line) := skipBlanks (after.length + 1) after line
        quoted quote fuel after line acc
      | 'x' :: a :: b :: after =>
        match hexValue? a, hexValue? b with
        | some x, some y => quoted quote fuel after line (Char.ofNat (16 * x + y) :: acc)
        | _, _ => none
      | c :: after =>
        if isNewline c then quoted quote fuel (dropNewline rest) (line + 1) ('\n' :: acc)
        else if c.isDigit then
          let digits := (rest.take 3).takeWhile Char.isDigit
          let code := digits.foldl (fun n d => 10 * n + (d.toNat - '0'.toNat)) 0
          if 255 < code then none
          else quoted quote fuel (rest.drop digits.length) line (Char.ofNat code :: acc)
        else match simpleEscape? c with
          | some e => quoted quote fuel after line (e :: acc)
          | none => none
    | c :: rest =>
      if c == quote then some (acc.reverse, rest, line)
      else if isNewline c then none
      else quoted quote fuel rest line (c :: acc)

def natOfDigits (base : Nat) (digits : List Nat) : Nat := digits.foldl (fun n d => base * n + d) 0

def spanDigits (cs : List Char) : List Char × List Char := cs.span Char.isDigit

def decimalValue (digits : List Char) : Nat := natOfDigits 10 (digits.map fun c => c.toNat - '0'.toNat)

def hexNumeral? (cs : List Char) : Option (Double × List Char) := do
  let (whole, rest) := cs.span (hexValue? · |>.isSome)
  let (part, rest) := match rest with
    | '.' :: rest => rest.span (hexValue? · |>.isSome)
    | _ => ([], rest)
  if whole.isEmpty && part.isEmpty then none
  let m := natOfDigits 16 ((whole ++ part).filterMap hexValue?)
  let e : Int := -4 * part.length
  match rest with
  | p :: rest' =>
    if p == 'p' || p == 'P' then
      let (negative, rest') := match rest' with
        | '-' :: r => (true, r)
        | '+' :: r => (false, r)
        | r => (false, r)
      let (digits, rest') := spanDigits rest'
      if digits.isEmpty then none
      let n : Int := min (decimalValue digits) 100000
      some (Double.ofScaled false m (if negative then e - n else e + n), rest')
    else some (Double.ofScaled false m e, rest)
  | [] => some (Double.ofScaled false m e, rest)

/-- A numeral in base ten; one that is too large for a number is refused. -/
def decimalNumeral? (cs : List Char) : Option (Double × List Char) := do
  let (whole, rest) := spanDigits cs
  let (part, rest) := match rest with
    | '.' :: rest => spanDigits rest
    | _ => ([], rest)
  if whole.isEmpty && part.isEmpty then none
  let m := decimalValue (whole ++ part)
  let (e, rest) ← match rest with
    | p :: rest' =>
      if p == 'e' || p == 'E' then
        let (negative, rest') := match rest' with
          | '-' :: r => (true, r)
          | '+' :: r => (false, r)
          | r => (false, r)
        let (digits, rest') := spanDigits rest'
        if digits.isEmpty then none
        else
          let n : Int := decimalValue digits
          some (if negative then -n else n, rest')
      else some (0, rest)
    | [] => some (0, rest)
  let value := Double.ofDecimal false m (e - part.length)
  if value.isFinite then some (value, rest) else none

def numeral? : List Char → Option (Double × List Char)
  | '0' :: x :: rest => if x == 'x' || x == 'X' then hexNumeral? rest else decimalNumeral? ('0' :: x :: rest)
  | cs => decimalNumeral? cs

def punctuation : List String :=
  ["...", "..", "==", "~=", "<=", ">=", "::", "+", "-", "*", "/", "%", "^", "#", "<", ">", "=", "(", ")",
    "\x7b", "\x7d", "[", "]", ";", ":", ",", "."]

def scan : Nat → List Char → Nat → List Token → Option (List Token)
  | 0, _, _, _ => none
  | fuel + 1, cs, line, acc =>
    match cs with
    | [] => some (⟨.stop, line⟩ :: acc).reverse
    | c :: rest =>
      if isNewline c then scan fuel (dropNewline cs) (line + 1) acc
      else if c == ' ' || c == '\t' || c == '\x0b' || c == '\x0c' then scan fuel rest line acc
      else if c.isAlpha || c == '_' then
        let word := String.ofList (cs.takeWhile isNameChar)
        let lexeme := if keywords.contains word then Lexeme.mark word else .name word
        scan fuel (cs.dropWhile isNameChar) line (⟨lexeme, line⟩ :: acc)
      else if c.isDigit || (c == '.' && (rest.head?.any Char.isDigit)) then
        match numeral? cs with
        | some (value, rest) => scan fuel rest line (⟨.number value, line⟩ :: acc)
        | none => none
      else if c == '"' || c == '\x27' then
        match quoted c (rest.length + 1) rest line [] with
        | some (value, rest, line) => scan fuel rest line (⟨.string (bytesOf value), line⟩ :: acc)
        | none => none
      else match cs with
        | '-' :: '-' :: comment =>
          match longOpen? comment with
          | some (level, inner) =>
            match long level inner line with
            | some (_, rest, line) => scan fuel rest line acc
            | none => none
          | none => scan fuel (comment.dropWhile fun d => !isNewline d) line acc
        | _ =>
          match longOpen? cs with
          | some (level, inner) =>
            match long level inner line with
            | some (value, rest, line) => scan fuel rest line (⟨.string (bytesOf value), line⟩ :: acc)
            | none => none
          | none =>
            match punctuation.find? fun p => p.toList.isPrefixOf cs with
            | some p => scan fuel (cs.drop p.length) line (⟨.mark p, line⟩ :: acc)
            | none => none

def ofBytes? (source : ByteArray) (line : Nat) : Option (List Token) :=
  let cs := source.data.toList.map fun b => Char.ofNat b.toNat
  scan (cs.length + 1) cs line []

end Token

end Interleave.Script
