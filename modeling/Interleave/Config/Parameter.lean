import Interleave.Text.Quoted

/-! The parameters of a command: where each is stored in the configuration and what it is called in the
environment, on the command line and in messages. -/

namespace Interleave

inductive Place (α : Type) where
  | text (get : α → String) (set : α → String → α)
  | number (get : α → Int) (set : α → Int → α)
  | switch (get : α → Bool) (set : α → Bool → α)

namespace Place

variable {α β : Type}

def within (part : β → α) (replace : β → α → β) : Place α → Place β
  | text get set => text (fun b => get (part b)) (fun b s => replace b (set (part b) s))
  | number get set => number (fun b => get (part b)) (fun b n => replace b (set (part b) n))
  | switch get set => switch (fun b => get (part b)) (fun b v => replace b (set (part b) v))

def valueName : Place α → String
  | text .. => " string"
  | number .. => " int"
  | switch .. => ""

/-- How the usage shows the default. Values that are empty, zero or off are not shown. -/
def shownDefault (c : α) : Place α → String
  | text get _ => if get c = "" then "" else s!" (default {Text.quote (get c)})"
  | number get _ => if get c = 0 then "" else s!" (default {get c})"
  | switch get _ => if get c then " (default true)" else ""

end Place

structure Parameter (α : Type) where
  flag : String
  environmentName : String
  fieldName : String
  usage : String
  place : Place α

def Parameter.within {α β : Type} (part : β → α) (replace : β → α → β) (p : Parameter α) :
    Parameter β :=
  { flag := p.flag, environmentName := p.environmentName, fieldName := p.fieldName, usage := p.usage
    place := p.place.within part replace }

end Interleave
