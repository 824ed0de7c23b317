/-! Addresses to listen on: a host, which may be empty or in brackets, a colon and a service, which is a
number or a name. -/

namespace Interleave.Remote

inductive AddressError where
  | missingService (address : String)
  | tooManyColons (address : String)
  | missingBracket (address : String)
  | unexpectedBracket (address : String) (bracket : Char)
  | unknownService (name : String)
  | invalidService (name : String)
deriving DecidableEq, Repr

def AddressError.message : AddressError → String
  | missingService a => s!"address {a}: missing port in address"
  | tooManyColons a => s!"address {a}: too many colons in address"
  | missingBracket a => s!"address {a}: missing ']' in address"
  | unexpectedBracket a bracket => s!"address {a}: unexpected '{bracket}' in address"
  | unknownService name => s!"lookup tcp/{name}: unknown port"
  | invalidService name => s!"address {name}: invalid port"

structure Address where
  host : String
  service : Nat
deriving DecidableEq, Repr

namespace Address

def splitLastColon? (cs : List Char) : Option (List Char × List Char) :=
  match cs.reverse.dropWhile (· != ':') with
  | [] => none
  | _ :: before => some (before.reverse, (cs.reverse.takeWhile (· != ':')).reverse)

def split (s : String) : Except AddressError (String × String) :=
  match splitLastColon? s.toList with
  | none => .error (.missingService s)
  | some (before, service) =>
    match before with
    | '[' :: inside =>
      match (inside ++ ':' :: service).dropWhile (· != ']') with
      | [] => .error (.missingBracket s)
      | [_] => .error (.missingService s)
      | _ :: c :: rest =>
        let host := inside.takeWhile (· != ']')
        if c ≠ ':' then .error (.missingService s)
        else if rest ≠ service then .error (.tooManyColons s)
        else if host.contains '[' || service.contains '[' then .error (.unexpectedBracket s '[')
        else if service.contains ']' then .error (.unexpectedBracket s ']')
        else .ok (String.ofList host, String.ofList service)
    | host =>
      if host.contains ':' then .error (.tooManyColons s)
      else if s.toList.contains '[' then .error (.unexpectedBracket s '[')
      else if s.toList.contains ']' then .error (.unexpectedBracket s ']')
      else .ok (String.ofList host, String.ofList service)

def namedServices : List (String × Nat) :=
  [("domain", 53), ("ftp", 21), ("ftps", 990), ("gopher", 70), ("http", 80), ("https", 443),
   ("imap2", 143), ("imap3", 220), ("imaps", 993), ("pop3", 110), ("pop3s", 995), ("smtp", 25),
   ("submissions", 465), ("ssh", 22), ("telnet", 23)]

def serviceDigits (service : String) : Bool × List Char :=
  match service.toList with
  | '+' :: digits => (false, digits)
  | '-' :: digits => (true, digits)
  | digits => (false, digits)

/-- A service is a number below 65536 or a known name; the empty one is zero. -/
def serviceOf (service : String) : Except AddressError Nat :=
  let (negative, digits) := serviceDigits service
  if digits.all Char.isDigit then
    let n := digits.foldl (fun n c => 10 * n + (c.toNat - '0'.toNat)) 0
    if 65535 < n ∨ (negative ∧ 0 < n) then .error (.invalidService service) else .ok n
  else match namedServices.find? (·.1 = service.toLower) with
    | some (_, n) => .ok n
    | none => .error (.unknownService service)

def parse (s : String) : Except AddressError Address := do
  let (host, service) ← split s
  return ⟨host, ← serviceOf service⟩

end Address

end Interleave.Remote
