import Interleave.Assoc
import Interleave.Logging.Entry
import Interleave.Text.Json
import Interleave.Text.Quoted

/-! Log lines: named values after the time, or one JSON object. Fields are sorted by name. -/

namespace Interleave.Logging

def reserved : List String := ["time", "msg", "level", "logrus_error"]

/-- Fields by ascending name; those with a reserved name are renamed. -/
def lineFields (e : Entry) : List (String × String) :=
  reserved.foldl (fun fields name =>
    match Assoc.get? name fields with
    | some v => Assoc.insert s!"fields.{name}" v (Assoc.erase name fields)
    | none => fields) (Assoc.ofList e.fields)

def isPlain (c : Char) : Bool :=
  c.isAlphanum || c == '-' || c == '.' || c == '_' || c == '/' || c == '@' || c == '^' || c == '+'

def valueText (s : String) : String := if s.toList.all isPlain then s else Text.quote s

def pairText (field : String × String) : String := s!"{field.1}={valueText field.2}"

def textBody (e : Entry) : String :=
  " ".intercalate ([pairText ("level", e.level.name)] ++
    (if e.message = "" then [] else [pairText ("msg", e.message)]) ++ (lineFields e).map pairText)

def textLine (time : String) (e : Entry) : String := pairText ("time", time) ++ " " ++ textBody e ++ "\n"

def jsonLine (time : String) (e : Entry) : String :=
  let fields := Assoc.insert "time" time (Assoc.insert "msg" e.message
    (Assoc.insert "level" e.level.name (lineFields e)))
  let members := fields.map fun (k, v) => Text.jsonQuote k ++ ":" ++ Text.jsonQuote v
  "\x7b" ++ ",".intercalate members ++ "\x7d\n"

end Interleave.Logging
