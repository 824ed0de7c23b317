/-! Failures of a driver itself, as opposed to violations of the program it runs. -/

namespace Interleave

inductive Interruption where
  | cancelled | deadlineExceeded
deriving DecidableEq, Repr

def Interruption.message : Interruption → String
  | .cancelled => "context canceled"
  | .deadlineExceeded => "context deadline exceeded"

inductive StatusCode where
  | ok | canceled | unknown | invalidArgument | deadlineExceeded | internal | unavailable
deriving DecidableEq, Repr

def StatusCode.name : StatusCode → String
  | .ok => "OK"
  | .canceled => "Canceled"
  | .unknown => "Unknown"
  | .invalidArgument => "InvalidArgument"
  | .deadlineExceeded => "DeadlineExceeded"
  | .internal => "Internal"
  | .unavailable => "Unavailable"

inductive Failure where
  | interrupted (cause : Interruption)
  | status (code : StatusCode) (text : String)
  | reported (text : String)
  /-- A failure met while doing something that `context` describes. -/
  | within (context : String) (cause : Failure)
deriving DecidableEq, Repr

namespace Failure

def message : Failure → String
  | interrupted cause => cause.message
  | status code text => s!"rpc error: code = {code.name} desc = {text}"
  | reported text => text
  | within context cause => s!"{context}: {cause.message}"

def root : Failure → Failure
  | within _ cause => cause.root
  | f => f

end Failure

end Interleave
