import Interleave.Config
import Interleave.Logging.Format
import Interleave.Remote.Client
import Interleave.RunStore

/-! What a command sees of its surroundings and what it leaves behind. -/

namespace Interleave.Command

/-- The surroundings of a command. `ρ` are the states of the other side of a connection. -/
structure World (ρ : Type) where
  environment : Environment
  file : String → Option ByteArray
  creationFault : String → Option String
  runs : String → Except StoreError RunTable
  dial : String → Remote.Connection ρ × ρ

inductive Notice where
  | plain (text : String)
  | entry (json : Bool) (e : Logging.Entry)
deriving DecidableEq, Repr

def Notice.render (time : String) : Notice → String
  | plain text => text
  | entry true e => Logging.jsonLine time e
  | entry false e => Logging.textLine time e

structure Exit where
  code : Nat
  stdout : String
  stderr : List Notice
  files : List (String × String)
  stored : Option (String × RunTable)
deriving DecidableEq, Repr

structure Log where
  threshold : Logging.Level
  json : Bool
deriving DecidableEq, Repr

namespace Log

def ofConfig (c : LogConfig) : Except ConfigError Log := do return ⟨← c.threshold, c.json⟩

def notices (log : Log) (entries : List Logging.Entry) : List Notice :=
  (entries.filter fun e => log.threshold.shownAt e.level).map (.entry log.json)

end Log

def refuse {α : Type} (p : ConfigParse α) (e : ConfigParseError) : Exit :=
  let (code, notice) := match e with
    | .environment _ =>
      (1, Notice.entry false { level := .fatal, message := "Parse flags", fields := [("error", e.message)] })
    | .flags .helpRequested => (0, .plain p.output)
    | .flags _ => (2, .plain p.output)
  { code, stdout := "", stderr := [notice], files := [], stored := none }

end Interleave.Command
