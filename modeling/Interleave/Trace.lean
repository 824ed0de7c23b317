import Interleave.Text.Integer
import Interleave.Transition

/-! Record traces: the actor and the outcome of every step of a run, in order, written as `1;2/1;3`. -/

namespace Interleave

structure Step where
  actor : ActorId
  outcome : Int
deriving DecidableEq, Repr, Inhabited

namespace Step

def render (s : Step) : String :=
  if 0 < s.outcome then s!"{s.actor}/{s.outcome}" else s!"{s.actor}"

end Step

def Transition.step (t : Transition) : Step := ⟨t.actor, t.outcome⟩

abbrev RecordTrace := List Step

inductive TraceError where
  | actor (index : Nat) (part : String) (number : String) (cause : Text.NumberError)
  | outcome (index : Nat) (part : String)
deriving DecidableEq, Repr

def TraceError.message : TraceError → String
  | .actor i part number cause =>
    s!"transition: invalid actor in step {i} {Text.quote part}: " ++
      s!"strconv.Atoi: parsing {Text.quote number}: {cause.message}"
  | .outcome i part => s!"transition: invalid times considered in step {i} {Text.quote part}"

namespace RecordTrace

def ofTransitions (ts : List Transition) : RecordTrace := ts.map Transition.step

def render (trace : RecordTrace) : String := ";".intercalate (trace.map Step.render)

def splitAt (sep : Char) : List Char → List (List Char)
  | [] => [[]]
  | c :: cs =>
    match splitAt sep cs with
    | [] => [[c]]
    | part :: parts => if c = sep then [] :: part :: parts else (c :: part) :: parts

def cutAt (sep : Char) : List Char → List Char × Option (List Char)
  | [] => ([], none)
  | c :: cs =>
    if c = sep then ([], some cs)
    else let (before, after) := cutAt sep cs; (c :: before, after)

def parseStep (index : Nat) (part : List Char) : Except TraceError Step :=
  let (actor, times) := cutAt '/' (Text.trimChars part)
  match Text.readInteger 64 actor with
  | .error e => .error (.actor index (String.ofList part) (String.ofList actor) e)
  | .ok id =>
    match times with
    | none => .ok ⟨id, 0⟩
    | some digits =>
      match Text.readInteger 64 digits with
      | .ok n => if n < 0 then .error (.outcome index (String.ofList part)) else .ok ⟨id, n⟩
      | .error _ => .error (.outcome index (String.ofList part))

def parseSteps : Nat → List (List Char) → Except TraceError RecordTrace
  | _, [] => .ok []
  | index, part :: parts => do
    let step ← parseStep index part
    return step :: (← parseSteps (index + 1) parts)

def parse (text : String) : Except TraceError RecordTrace :=
  let cs := Text.trimChars text.toList
  if cs.isEmpty then .ok [] else parseSteps 0 (splitAt ';' cs)

end RecordTrace

end Interleave
