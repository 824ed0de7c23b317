import Interleave.Config.Parameter
import Interleave.Text.Integer

/-! Reading parameters from command line arguments. Flags start with one or two dashes and end at the first
argument that is no flag. -/

namespace Interleave

inductive FlagError where
  | malformed (argument : String)
  | undefined (name : String)
  | helpRequested
  | missingValue (name : String)
  | number (name value : String) (e : Text.NumberError)
  | switch (name value : String)
deriving DecidableEq, Repr

def FlagError.message : FlagError → String
  | malformed argument => s!"bad flag syntax: {argument}"
  | undefined name => s!"flag provided but not defined: -{name}"
  | helpRequested => "flag: help requested"
  | missingValue name => s!"flag needs an argument: -{name}"
  | number name value .malformed => s!"invalid value {Text.quote value} for flag -{name}: parse error"
  | number name value .outOfRange =>
    s!"invalid value {Text.quote value} for flag -{name}: value out of range"
  | switch name value => s!"invalid boolean value {Text.quote value} for -{name}: parse error"

inductive Argument where
  | operand
  | terminator
  | malformed
  | flag (name : String) (value : Option String)
deriving DecidableEq, Repr

namespace Argument

def ofName : List Char → Argument
  | [] => malformed
  | c :: cs =>
    if c = '-' ∨ c = '=' then malformed
    else
      let name := String.ofList (c :: cs.takeWhile (· != '='))
      match cs.dropWhile (· != '=') with
      | [] => flag name none
      | _ :: value => flag name (some (String.ofList value))

def ofChars : List Char → Argument
  | ['-'] => operand
  | ['-', '-'] => terminator
  | '-' :: '-' :: name => ofName name
  | '-' :: name => ofName name
  | _ => operand

def ofText (s : String) : Argument := ofChars s.toList

end Argument

structure Flags (α : Type) where
  config : α
  given : List String
  rest : List String
  error : Option FlagError

namespace Flags

variable {α : Type}

def numberBits : Nat := 64

def assign (c : α) (p : Parameter α) (value : String) : Except FlagError α :=
  match p.place with
  | .text _ set => .ok (set c value)
  | .number _ set =>
    match Text.readAnyBase numberBits value.toList with
    | .ok n => .ok (set c n)
    | .error e => .error (.number p.flag value e)
  | .switch _ set =>
    match Text.readBool value with
    | some b => .ok (set c b)
    | none => .error (.switch p.flag value)

def impliedValue (p : Parameter α) : Option String :=
  match p.place with
  | .switch .. => some "true"
  | _ => none

def unknownFlag (name : String) : FlagError :=
  if name = "help" ∨ name = "h" then .helpRequested else .undefined name

def read (ps : List (Parameter α)) : List String → α → List String → Flags α
  | [], c, given => ⟨c, given, [], none⟩
  | arg :: rest, c, given =>
    match Argument.ofText arg with
    | .operand => ⟨c, given, arg :: rest, none⟩
    | .terminator => ⟨c, given, rest, none⟩
    | .malformed => ⟨c, given, arg :: rest, some (.malformed arg)⟩
    | .flag name value =>
      match ps.find? (·.flag = name) with
      | none => ⟨c, given, rest, some (unknownFlag name)⟩
      | some p =>
        match value.or (impliedValue p), rest with
        | some value, rest =>
          match assign c p value with
          | .ok c => read ps rest c (name :: given)
          | .error e => ⟨c, given, rest, some e⟩
        | none, [] => ⟨c, given, [], some (.missingValue name)⟩
        | none, value :: rest =>
          match assign c p value with
          | .ok c => read ps rest c (name :: given)
          | .error e => ⟨c, given, rest, some e⟩

def usageLine (c : α) (p : Parameter α) : String :=
  s!"  -{p.flag}{p.place.valueName}\n    \t{p.usage}{p.place.shownDefault c}\n"

def usage (command : String) (ps : List (Parameter α)) (c : α) : String :=
  let sorted := ps.mergeSort fun p q => decide (p.flag ≤ q.flag)
  s!"Usage of {command}:\n" ++ String.join (sorted.map (usageLine c))

end Flags

end Interleave
