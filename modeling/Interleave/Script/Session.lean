import Interleave.Script.Chunk.Reader
import Interleave.Script.Eval

/-! Loading a chunk into a fresh store and calling its functions from outside. -/

namespace Interleave.Script

inductive Source where
  | text (source : ByteArray)
  | file (name : String) (content : Option ByteArray)

inductive SourceError where
  | missing
  | malformed
deriving DecidableEq, Repr

def SourceError.message : SourceError → String
  | missing => "file error"
  | malformed => "syntax error"

namespace Source

/-- Messages name a text by its first line and a file by its name; both are marked when they are long. -/
def chunkName : Source → ByteArray
  | text source =>
    let line : ByteArray := ⟨(source.data.toList.takeWhile (· ≠ 10)).toArray⟩
    "[string \"".toUTF8 ++ line ++ (if 46 < line.size then "...\"]" else "\"]").toUTF8
  | file name _ =>
    let bytes := name.toUTF8
    if bytes.size < 60 then bytes else "...".toUTF8 ++ bytes.extract 0 56

/-- A file may start with a byte order mark and with a line that is a comment of another program. -/
def body (content : ByteArray) : ByteArray :=
  let bytes := content.data.toList
  let bytes := if [0xef, 0xbb, 0xbf].isPrefixOf bytes then bytes.drop 3 else bytes
  if bytes.head? = some 35 then ⟨(bytes.dropWhile (· ≠ 10)).toArray⟩ else ⟨bytes.toArray⟩

def read : Source → Except SourceError Function
  | text source => parse source
  | file _ none => .error .missing
  | file _ (some content) => parse (body content)
where
  parse (source : ByteArray) : Except SourceError Function :=
    match (Token.ofBytes? source 1).bind readChunk? with
    | some f => .ok f
    | none => .error .malformed

end Source

def builtinTable (fields : List (String × Builtin)) (constants : List (String × Double)) : Table :=
  ⟨#[], fields.map (fun (n, b) => (.text n, .builtin b)) ++
    constants.map (fun (n, x) => (.text n, .number x)), none⟩

def constantsOf (name : String) : List (String × Double) :=
  if name = "math" then
    [("huge", Double.infinity false), ("pi", Double.ofDecimal false 3141592653589793116 (-18))]
  else []

/-- A store in which only the built-in functions are defined. The globals are its first table, the modules
follow in order. -/
def Store.initial (chunk : ByteArray) : Store :=
  let modules := Library.modules
  let globals := builtinTable Library.globals []
  let links : List (Value × Value) :=
    (.text "_G", .table 0) :: (modules.zipIdx 1).map fun ((n, _), i) => (.text n, .table i)
  let tables := modules.map fun (n, fields) => builtinTable fields (constantsOf n)
  { chunk
    cells := #[]
    tables := ({ globals with fields := globals.fields ++ links } :: tables).toArray
    closures := #[]
    globals := 0
    strings := modules.findIdx (·.1 = "string") + 1
    declarations := .empty }

def bound : Nat := 1000000000000000000

def Raise.message : Raise → String
  | .error message => s!"runtime error: {Text.ofBytes message}"
  | .exhausted => "runtime error: out of steps"

namespace Store

def call (f : Value) (args : List Value) (s : Store) : Except Raise (List Value) × Store :=
  match Eval.apply bound [] f args s with
  | .ok results s => (.ok results, s)
  | .error e s => (.error e, s)

def runChunk (f : Function) (s : Store) : Except Raise (List Value) × Store :=
  let main := s.closures.size
  { s with closures := s.closures.push ⟨f, [], 0⟩ }.call (.closure main) []

end Store

end Interleave.Script
