import Interleave.Command.Check
import Interleave.Command.Serve
import Interleave.Logging.Instant
import Interleave.RunStore.File
import Std.Time.DateTime.Timestamp

/-! The command line. The first argument may name the command: `mcheck`, which is the default, or `mcdriver`. -/

namespace Interleave.Main

open Command

def now : IO Int := do
  return (← Std.Time.Timestamp.now).toNanosecondsSinceUnixEpoch.val

def readEnvironment (names : List String) : IO Environment := do
  let values ← names.filterMapM fun name => do return (← IO.getEnv name).map (name, ·)
  return Assoc.ofList values

def readFile (path : String) : IO (Option ByteArray) := do
  try return some (← IO.FS.readBinFile path)
  catch _ => return none

def readStore (path : String) : IO (Except StoreError RunTable) := do
  match ← readFile path with
  | none => return .ok .empty
  | some bytes =>
    match (String.fromUTF8? bytes).bind RunTable.ofText with
    | some table => return .ok table
    | none => return .error (.damaged path)

def createFile (path : String) : IO (Option String) := do
  try
    IO.FS.writeFile path ""
    return none
  catch
    | .noFileOrDirectory .. => return some "no such file or directory"
    | e => return some (toString e)

def leave (exit : Exit) : IO UInt32 := do
  let time := Logging.instantText ((← now).fdiv 1000000000)
  (← IO.getStdout).putStr exit.stdout
  for notice in exit.stderr do
    (← IO.getStderr).putStr (notice.render time)
  for (path, content) in exit.files do
    IO.FS.writeFile path content
  if let some (path, table) := exit.stored then
    IO.FS.writeFile path table.toText
  return exit.code.toUInt32

def offline (environment : Environment) (model : String) : IO (World Unit) := do
  let content ← readFile model
  return {
    environment
    file := fun path => if path = model then content else none
    creationFault := fun _ => none
    runs := fun _ => .ok .empty
    dial := fun address => (Remote.unreachable address, ()) }

def check (args : List String) : IO UInt32 := do
  let environment ← readEnvironment (CheckConfig.parameters.map (·.environmentName))
  let config := (CheckConfig.parse Environment.read environment args).outcome.toOption.getD .default
  let w ← offline environment config.model
  let startedAt ← now
  match Check.start w args with
  | .error exit => leave exit
  | .ok attempt =>
    let duration := (← now) - startedAt
    let explored := attempt.outcome.toOption.any (·.isExplored)
    let fault ← if explored && config.dotPath ≠ "" then createFile config.dotPath else pure none
    let store ← if explored && config.storePath ≠ "" then readStore config.storePath
      else pure (.ok .empty)
    leave (attempt.conclude { w with creationFault := fun _ => fault, runs := fun _ => store }
      startedAt duration)

def serve (args : List String) : IO UInt32 := do
  let environment ← readEnvironment (ServeConfig.parameters.map (·.environmentName))
  let config := (ServeConfig.parse Environment.read environment args).outcome.toOption.getD .default
  let w ← offline environment config.model
  match Serve.start w args with
  | .error exit => leave exit
  | .ok service =>
    let notices := service.log.notices service.machine.journal.toList
    leave (Serve.failed notices (.listen config.listen "network is unreachable"))

end Interleave.Main

def main (args : List String) : IO UInt32 :=
  match args with
  | "mcdriver" :: args => Interleave.Main.serve args
  | "mcheck" :: args => Interleave.Main.check args
  | args => Interleave.Main.check args
