import Interleave.Text.Blank
import Interleave.Text.Case

/-! Log entries: a level, a message and named fields. -/

namespace Interleave.Logging

inductive Level where
  | panic | fatal | error | warning | info | debug | trace
deriving DecidableEq, Repr

namespace Level

def all : List Level := [panic, fatal, error, warning, info, debug, trace]

def rank : Level → Nat
  | panic => 0
  | fatal => 1
  | error => 2
  | warning => 3
  | info => 4
  | debug => 5
  | trace => 6

def name : Level → String
  | panic => "panic"
  | fatal => "fatal"
  | error => "error"
  | warning => "warning"
  | info => "info"
  | debug => "debug"
  | trace => "trace"

def ofName? (text : String) : Option Level :=
  match Text.lowercase text with
  | "panic" => some panic
  | "fatal" => some fatal
  | "error" => some error
  | "warn" | "warning" => some warning
  | "info" => some info
  | "debug" => some debug
  | "trace" => some trace
  | _ => none

def shownAt (threshold l : Level) : Bool := l.rank ≤ threshold.rank

end Level

structure Entry where
  level : Level
  message : String
  fields : List (String × String)
deriving DecidableEq, Repr

end Interleave.Logging
