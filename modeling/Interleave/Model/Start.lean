import Interleave.Model.Machine
import Interleave.Model.State

/-! Starting a model on an interpreter that has run its script, with what the script has declared. -/

namespace Interleave

inductive StartError where
  | noActors
  | stateType (typeName : String)
  | guard (cause : Model.GuardError)
deriving DecidableEq, Repr

def StartError.message (model : String) : StartError → String
  | noActors => s!"luamodel: {model} declares no actors"
  | stateType typeName => s!"luamodel: {model}: state must be a table, got {typeName}"
  | guard cause => cause.message

namespace Interpreter

variable {σ ρ κ φ : Type} (L : Interpreter σ ρ κ φ)

def host : Model.Host σ φ where
  run f outcome s :=
    match L.call f [outcome] s with
    | (.error e, s) => (.error e, s)
    | (.ok (.string args :: _), s) => (.ok (Text.ofBytes args), s)
    | (.ok _, s) => (.ok "", s)
  test f s :=
    match L.call f [] s with
    | (.error e, s) => (.error e, s)
    | (.ok results, s) => (.ok (results.headD .nil).truthy, s)
  capture s :=
    match L.captureState s with
    | .error e => .error e.message
    | .ok (_, false) => .error "luamodel: encode snapshot: string field contains invalid UTF-8"
    | .ok (d, true) => .ok d
  install d s := L.installState d s

/-- A script that sets no state has an empty one. -/
def ensureState (s : σ) : Except String σ :=
  match L.state s with
  | .table _ => .ok s
  | .nil => .ok (L.installState (.record []) s)
  | v => .error v.typeName

def start (name : String) (declared : Model.Declarations φ) (s : σ) :
    Except StartError (Model σ φ × Model.Machine σ) :=
  let actors := declared.actors.toList
  let invariants := declared.invariants.toList
  if actors.isEmpty then .error .noActors
  else match L.ensureState s with
    | .error typeName => .error (.stateType typeName)
    | .ok script =>
      let m : Model σ φ := { name, actors, invariants, host := L.host }
      let positions := actors.map fun _ => 0
      let enabled := actors.map fun _ => false
      match m.refresh ⟨script, positions, enabled, #[]⟩ with
      | (some e, _) => .error (.guard e)
      | (none, x) =>
        .ok (m, m.log x .info "Model loaded" [("actors", s!"{actors.length}"),
          ("invariants", s!"{invariants.length}")])

end Interpreter

end Interleave
