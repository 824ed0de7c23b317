import Interleave.Config.Environment
import Interleave.Config.Flags
import Interleave.Exploration.Options
import Interleave.Logging.Entry
import Interleave.Text.Blank

/-! Configurations of the commands. The environment is read first and flags override it. -/

namespace Interleave

structure LogConfig where
  level : String
  json : Bool
  endpoint : String
deriving DecidableEq, Repr, Inhabited

structure CheckConfig where
  model : String
  remote : String
  replay : String
  strategy : String
  reduction : String
  maxDepth : Int
  maxVisited : Int
  checkpoint : Int
  dotPath : String
  storePath : String
  log : LogConfig
deriving DecidableEq, Repr, Inhabited

structure ServeConfig where
  listen : String
  model : String
  log : LogConfig
deriving DecidableEq, Repr, Inhabited

inductive ConfigError where
  | sourceNotUnique
  | unknownStrategy (name : String)
  | unknownReduction (name : String)
  | negativeVisited (count : Int)
  | negativeCheckpoint (interval : Int)
  | conflict
  | noModel
  | noAddress
  | unknownLevel (name : String)
deriving DecidableEq, Repr

def ConfigError.message : ConfigError → String
  | sourceNotUnique => "config: exactly one of model and remote must be set"
  | unknownStrategy name => Strategy.unknownName name
  | unknownReduction name => Reduction.unknownName name
  | negativeVisited n => s!"config: negative number of visited states {n}"
  | negativeCheckpoint n => s!"config: negative checkpoint interval {n}"
  | conflict => s!"config: dpor can not be combined with max-visited-states: {OptionError.conflictText}"
  | noModel => "config: model is required"
  | noAddress => "config: listen address is required"
  | unknownLevel name => s!"config: not a valid logrus Level: {Text.quote name}"

inductive ConfigParseError where
  | environment (faults : List VariableFault)
  | flags (e : FlagError)
deriving DecidableEq, Repr

def ConfigParseError.message : ConfigParseError → String
  | environment faults => "parse env: env: " ++ "; ".intercalate (faults.map VariableFault.message)
  | flags e => e.message

structure ConfigParse (α : Type) where
  outcome : Except ConfigParseError α
  rest : List String
  output : String

namespace ConfigParse

variable {α : Type}

/-- Reads the environment over the defaults and the flags over that. `complete` gets the names of the given
flags. -/
def run (command : String) (ps : List (Parameter α)) (defaults : α) (complete : List String → α → α)
    (read : EnvironmentReader α) (env : Environment) (args : List String) : ConfigParse α :=
  match read env ps defaults with
  | (_, fault :: faults) => ⟨.error (.environment (fault :: faults)), [], ""⟩
  | (c, []) =>
    let flags := Flags.read ps args c []
    match flags.error with
    | none => ⟨.ok (complete flags.given flags.config), flags.rest, ""⟩
    | some e =>
      let line := if e = .helpRequested then "" else e.message ++ "\n"
      ⟨.error (.flags e), flags.rest, line ++ Flags.usage command ps c⟩

end ConfigParse

namespace LogConfig

def default : LogConfig := { level := "info", json := false, endpoint := "" }

def parameters : List (Parameter LogConfig) :=
  [{ flag := "log-level", environmentName := "MCHECK_LOG_LEVEL", fieldName := "Level"
     usage := "Log level: trace, debug, info, warn or error"
     place := .text level fun c s => { c with level := s } },
   { flag := "log-json", environmentName := "MCHECK_LOG_JSON", fieldName := "JSON"
     usage := "Log as JSON"
     place := .switch json fun c b => { c with json := b } },
   { flag := "otel-endpoint", environmentName := "MCHECK_OTEL_ENDPOINT", fieldName := "OTelEndpoint"
     usage := "OTLP/HTTP endpoint receiving traces"
     place := .text endpoint fun c s => { c with endpoint := s } }]

def threshold (c : LogConfig) : Except ConfigError Logging.Level :=
  match Logging.Level.ofName? (Text.trim c.level) with
  | some l => .ok l
  | none => .error (.unknownLevel (Text.trim c.level))

end LogConfig

namespace CheckConfig

def commandName : String := "mcheck"

def default : CheckConfig :=
  { model := "", remote := "", replay := "", strategy := Strategy.depthFirst.name
    reduction := Reduction.dpor.name, maxDepth := 1000, maxVisited := 0, checkpoint := 0, dotPath := ""
    storePath := "", log := .default }

def reductionFlag : String := "reduction"

def reductionVariable : String := "MCHECK_REDUCTION"

def parameters : List (Parameter CheckConfig) :=
  [{ flag := "model", environmentName := "MCHECK_MODEL", fieldName := "Model"
     usage := "Lua model to check"
     place := .text model fun c s => { c with model := s } },
   { flag := "remote", environmentName := "MCHECK_REMOTE", fieldName := "Remote"
     usage := "Address of a remote driver to check"
     place := .text remote fun c s => { c with remote := s } },
   { flag := "replay", environmentName := "MCHECK_REPLAY", fieldName := "Replay"
     usage := "Replay the record trace, e.g. \"1;2/1;2\", instead of exploring"
     place := .text replay fun c s => { c with replay := s } },
   { flag := "strategy", environmentName := "MCHECK_STRATEGY", fieldName := "Strategy"
     usage := "Exploration strategy: dfs or udpor"
     place := .text strategy fun c s => { c with strategy := s } },
   { flag := reductionFlag, environmentName := reductionVariable, fieldName := "Reduction"
     usage :=
       "Reduction: none or dpor. Defaults to none when max-visited-states is set, dpor otherwise"
     place := .text reduction fun c s => { c with reduction := s } },
   { flag := "max-depth", environmentName := "MCHECK_MAX_DEPTH", fieldName := "MaxDepth"
     usage := "Maximum number of transitions on one path, 0 for no bound"
     place := .number maxDepth fun c n => { c with maxDepth := n } },
   { flag := "max-visited-states", environmentName := "MCHECK_MAX_VISITED_STATES"
     fieldName := "MaxVisitedStates"
     usage := "Number of visited states kept for duplicate detection, 0 to disable"
     place := .number maxVisited fun c n => { c with maxVisited := n } },
   { flag := "checkpoint", environmentName := "MCHECK_CHECKPOINT", fieldName := "Checkpoint"
     usage := "Snapshot every n-th state, 0 to only snapshot the initial state"
     place := .number checkpoint fun c n => { c with checkpoint := n } },
   { flag := "dot", environmentName := "MCHECK_DOT", fieldName := "DotPath"
     usage := "Write the explored states to this file in Graphviz DOT format"
     place := .text dotPath fun c s => { c with dotPath := s } },
   { flag := "db", environmentName := "MCHECK_DB", fieldName := "DBPath"
     usage := "SQLite database storing the runs"
     place := .text storePath fun c s => { c with storePath := s } }] ++
  LogConfig.parameters.map (Parameter.within log fun c l => { c with log := l })

/-- Visited states turn the reduction off unless it was asked for, be it by an empty variable. -/
def complete (env : Environment) (given : List String) (c : CheckConfig) : CheckConfig :=
  if 0 < c.maxVisited ∧ !Assoc.contains reductionVariable env ∧ !given.contains reductionFlag then
    { c with reduction := Reduction.none.name }
  else c

def parse (read : EnvironmentReader CheckConfig) (env : Environment) (args : List String) : ConfigParse CheckConfig :=
  ConfigParse.run commandName parameters default (complete env) read env args

def validate (c : CheckConfig) : Except ConfigError Unit :=
  if (c.model = "") ↔ (c.remote = "") then .error .sourceNotUnique
  else match Strategy.ofName? c.strategy, Reduction.ofName? c.reduction with
    | none, _ => .error (.unknownStrategy c.strategy)
    | some _, none => .error (.unknownReduction c.reduction)
    | some _, some reduction =>
      if c.maxVisited < 0 then .error (.negativeVisited c.maxVisited)
      else if c.checkpoint < 0 then .error (.negativeCheckpoint c.checkpoint)
      else if reduction = .dpor ∧ 0 < c.maxVisited then .error .conflict
      else .ok ()

/-- The settings of the exploration, the first of which is where to log; a reduction with an unknown name
counts as none. -/
def settings (c : CheckConfig) : List Setting :=
  [.neutral, .reduction ((Reduction.ofName? c.reduction).getD .none).code, .maxDepth c.maxDepth,
    .visitedStates c.maxVisited, .checkpoint c.checkpoint]

end CheckConfig

namespace ServeConfig

def commandName : String := "mcdriver"

def default : ServeConfig := { listen := "localhost:50051", model := "", log := .default }

def parameters : List (Parameter ServeConfig) :=
  [{ flag := "listen", environmentName := "MCHECK_LISTEN", fieldName := "Listen"
     usage := "Address to serve the driver on"
     place := .text listen fun c s => { c with listen := s } },
   { flag := "model", environmentName := "MCHECK_MODEL", fieldName := "Model"
     usage := "Lua model to serve"
     place := .text model fun c s => { c with model := s } }] ++
  LogConfig.parameters.map (Parameter.within log fun c l => { c with log := l })

def parse (read : EnvironmentReader ServeConfig) (env : Environment) (args : List String) : ConfigParse ServeConfig :=
  ConfigParse.run commandName parameters default (fun _ c => c) read env args

def validate (c : ServeConfig) : Except ConfigError Unit :=
  if c.model = "" then .error .noModel
  else if c.listen = "" then .error .noAddress
  else .ok ()

end ServeConfig

end Interleave
