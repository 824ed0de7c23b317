import Interleave.Model.Start
import Interleave.Script.Interpreter

/-! Loading a model from a script: the script runs once, declares actors and invariants and may set the
global `state`. -/

namespace Interleave.Model

open Script

inductive LoadError where
  | source (model : String) (cause : SourceError)
  | raised (model : String) (text : String)
  | start (model : String) (cause : StartError)
deriving DecidableEq, Repr

def LoadError.message : LoadError → String
  | source model cause => s!"luamodel: load {model}: {cause.message}"
  | raised model text => s!"luamodel: run {model}: {text}"
  | start model cause => cause.message model

def load (name : String) (source : Source) : Except LoadError (Model Store Value × Machine Store) :=
  match source.read with
  | .error e => .error (.source name e)
  | .ok main =>
    match (Store.initial source.chunkName).runChunk main with
    | (.error e, _) => .error (.raised name e.message)
    | (.ok _, s) =>
      match interpreter.start name s.declarations s with
      | .error e => .error (.start name e)
      | .ok started => .ok started

end Interleave.Model
