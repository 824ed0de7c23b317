import Interleave.Double.Decimal
import Interleave.Text.Case

/-! The directives of `string.format`: flags, a width, a precision and a conversion. -/

namespace Interleave.Script

structure Directive where
  left : Bool
  plus : Bool
  space : Bool
  alternate : Bool
  zeros : Bool
  width : Nat
  precision : Option Nat
  conversion : Char

inductive DirectiveError where
  | repeatedFlags
  | tooLong
  | unfinished

namespace Directive

def isFlag (c : Char) : Bool := c == '-' || c == '+' || c == ' ' || c == '#' || c == '0'

def number (digits : List Char) : Nat := digits.foldl (fun n d => 10 * n + (d.toNat - '0'.toNat)) 0

def read (cs : List Char) : Except DirectiveError (Directive × List Char) :=
  let flags := cs.takeWhile isFlag
  if 5 ≤ flags.length then .error .repeatedFlags
  else
    let rest := cs.dropWhile isFlag
    let width := (rest.take 2).takeWhile Char.isDigit
    let rest := rest.drop width.length
    let (precision, rest) := match rest with
      | '.' :: rest =>
        let digits := (rest.take 2).takeWhile Char.isDigit
        (some (number digits), rest.drop digits.length)
      | _ => (none, rest)
    match rest with
    | [] => .error .unfinished
    | c :: rest =>
      if c.isDigit then .error .tooLong
      else
        let left := flags.contains '-'
        .ok ({ left, plus := flags.contains '+', space := flags.contains ' '
               alternate := flags.contains '#', zeros := flags.contains '0' && !left
               width := number width, precision, conversion := c }, rest)

variable (d : Directive)

def pad (cs : List Char) : List Char :=
  let blanks := List.replicate (d.width - cs.length) ' '
  if d.left then cs ++ blanks else blanks ++ cs

def sign (negative : Bool) : List Char :=
  if negative then ['-'] else if d.plus then ['+'] else if d.space then [' '] else []

def signed (negative fill : Bool) (digits : List Char) : List Char :=
  let sign := d.sign negative
  let zeros := if fill then List.replicate (d.width - sign.length - digits.length) '0' else []
  d.pad (sign ++ zeros ++ digits)

def integer (negative : Bool) (digits mark : List Char) : List Char :=
  match d.precision with
  | some 0 => if digits = ['0'] then d.pad [] else d.signed negative false (mark ++ digits)
  | some p => d.signed negative false (mark ++ List.replicate (p - digits.length) '0' ++ digits)
  | none => d.signed negative d.zeros (mark ++ digits)

def float (x : Double) : List Char :=
  if x.isNaN then d.pad (if d.plus then "+NaN" else if d.space then " NaN" else "NaN").toList
  else if !x.isFinite then
    d.pad (if x.isNegative then "-Inf" else if d.space && !d.plus then " Inf" else "+Inf").toList
  else
    let digits := match d.conversion with
      | 'f' => x.fixed (d.precision.getD 6)
      | 'e' | 'E' => x.scientific d.conversion (d.precision.getD 6)
      | c => x.general (if c == 'G' then 'E' else 'e') d.precision
    d.signed x.isNegative d.zeros digits

def text (cs : List Char) : List Char :=
  d.pad (match d.precision with
    | some p => cs.take p
    | none => cs)

end Directive

end Interleave.Script
