import Interleave.Command
import Interleave.Model.Load
import Interleave.Remote.Address
import Interleave.Remote.Server

/-! Serving a model to a check in another process. -/

namespace Interleave.Command.Serve

open Logging

inductive ServeError where
  | config (e : ConfigError)
  | load (e : Model.LoadError)
  | listen (address : String) (why : String)
deriving DecidableEq, Repr

def ServeError.message : ServeError → String
  | config e => e.message
  | load e => e.message
  | listen address why => s!"listen on {address}: listen tcp: {why}"

structure Service where
  address : Remote.Address
  server : Remote.Server (Model.Machine Script.Store) Model.Captured
  machine : Model.Machine Script.Store
  log : Log

def failed (stderr : List Notice) (e : ServeError) : Exit :=
  let entry : Entry := { level := .fatal, message := "mcdriver failed", fields := [("error", e.message)] }
  { code := 1, stdout := "", stderr := stderr ++ [.entry false entry], files := [], stored := none }

def serviceOf {σ φ : Type} (m : Model σ φ) : Remote.Server (Model.Machine σ) Model.Captured :=
  { driver := m.driver, codec := { encode := Model.encodeSnapshot, decode := m.decodeSnapshot } }

def prepare {ρ : Type} (w : World ρ) (c : ServeConfig) : Except Exit Service :=
  match c.validate with
  | .error e => .error (failed [] (.config e))
  | .ok _ =>
    match Log.ofConfig c.log with
    | .error e => .error (failed [] (.config e))
    | .ok log =>
      match Model.load c.model (.file c.model (w.file c.model)) with
      | .error e => .error (failed [] (.load e))
      | .ok (model, machine) =>
        match Remote.Address.parse c.listen with
        | .error e => .error (failed (log.notices machine.journal.toList) (.listen c.listen e.message))
        | .ok address => .ok { address, server := serviceOf model, machine, log }

def start {ρ : Type} (w : World ρ) (args : List String) : Except Exit Service :=
  let p := ServeConfig.parse Environment.read w.environment args
  match p.outcome with
  | .error e => .error (refuse p e)
  | .ok c => prepare w c

end Interleave.Command.Serve
