import Interleave.Text.Blank
import Interleave.Text.Case
import Interleave.Text.Quoted

/-! A transition is one step of one actor as its driver reports it. -/

namespace Interleave

abbrev ActorId := Int

/-- What a step does to the shared state. Drivers may report codes outside the known kinds. -/
inductive Kind where
  | internal | read | write | lock | unlock | send | recv | random | assert
  | unknown (code : Int)
deriving DecidableEq, Repr, Inhabited

namespace Kind

def known : List Kind :=
  [internal, read, write, lock, unlock, send, recv, random, assert]

def ofCode (code : Int) : Kind :=
  match code with
  | 0 => internal
  | 1 => read
  | 2 => write
  | 3 => lock
  | 4 => unlock
  | 5 => send
  | 6 => recv
  | 7 => random
  | 8 => assert
  | n => unknown n

def code : Kind → Int
  | internal => 0
  | read => 1
  | write => 2
  | lock => 3
  | unlock => 4
  | send => 5
  | recv => 6
  | random => 7
  | assert => 8
  | unknown n => n

def name : Kind → String
  | internal => "internal"
  | read => "read"
  | write => "write"
  | lock => "lock"
  | unlock => "unlock"
  | send => "send"
  | recv => "recv"
  | random => "random"
  | assert => "assert"
  | unknown n => s!"Kind({n})"

def label (k : Kind) : String := k.name.capitalize

/-- Reads a kind by name, ignoring case and surrounding white space; the empty name is `internal`.
The failure is the name that was looked up. -/
def parse (text : String) : Except String Kind :=
  let wanted := Text.lowercase (Text.trim text)
  if wanted = "" then .ok internal
  else match known.find? (·.name = wanted) with
    | some k => .ok k
    | none => .error wanted

def unknownMessage (name : String) : String := s!"transition: unknown kind {Text.quote name}"

end Kind

structure Transition where
  actor : ActorId
  kind : Kind
  resource : String
  outcome : Int
  args : String
  /-- Whether the step waited on a guard, which may read any resource. -/
  guarded : Bool
deriving DecidableEq, Repr, Inhabited

def Transition.render (t : Transition) : String :=
  s!"[({t.actor})] {t.kind.label}" ++
    (if t.resource = "" then "" else s!"({t.resource})") ++
    (if 0 < t.outcome then s!" #{t.outcome}" else "") ++
    (if t.args = "" then "" else s!" {t.args}")

end Interleave
