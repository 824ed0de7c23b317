import Interleave.Assoc
import Interleave.Config.Parameter
import Interleave.Text.Integer

/-! Reading parameters from the environment. Variables that are missing or empty leave the default. -/

namespace Interleave

abbrev Environment := List (String × String)

inductive VariableFault where
  | number (field value : String) (e : Text.NumberError)
  | switch (field value : String)
deriving DecidableEq, Repr

def VariableFault.message : VariableFault → String
  | number field value e =>
    s!"parse error on field {Text.quote field} of type \"int\": strconv.ParseInt: " ++
      s!"parsing {Text.quote value}: {e.message}"
  | switch field value =>
    s!"parse error on field {Text.quote field} of type \"bool\": strconv.ParseBool: " ++
      s!"parsing {Text.quote value}: invalid syntax"

/-- How parameters are read from the environment over a configuration, with the variables that do not fit. -/
abbrev EnvironmentReader (α : Type) := Environment → List (Parameter α) → α → α × List VariableFault

namespace Environment

variable {α : Type}

def numberBits : Nat := 32

def assign (c : α) (p : Parameter α) (value : String) : Except VariableFault α :=
  match p.place with
  | .text _ set => .ok (set c value)
  | .number _ set =>
    match Text.readInteger numberBits value.toList with
    | .ok n => .ok (set c n)
    | .error e => .error (.number p.fieldName value e)
  | .switch _ set =>
    match Text.readBool value with
    | some b => .ok (set c b)
    | none => .error (.switch p.fieldName value)

def read (env : Environment) : List (Parameter α) → α → α × List VariableFault
  | [], c => (c, [])
  | p :: ps, c =>
    let value := (Assoc.get? p.environmentName env).getD ""
    if value = "" then read env ps c
    else match assign c p value with
      | .ok c => read env ps c
      | .error fault =>
        let (c, faults) := read env ps c
        (c, fault :: faults)

end Environment

end Interleave
