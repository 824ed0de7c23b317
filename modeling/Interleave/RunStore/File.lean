import Interleave.RunStore
import Interleave.Text.Integer

/-! A table of runs as a text: the greatest id on the first line, then a line with the cells of each row, with tabs
between them. -/

namespace Interleave.RunTable

def escape : List Char → List Char
  | [] => []
  | c :: cs =>
    if c = '\\' then '\\' :: '\\' :: escape cs
    else if c = '\t' then '\\' :: 't' :: escape cs
    else if c = '\n' then '\\' :: 'n' :: escape cs
    else c :: escape cs

def unescape : List Char → Option (List Char)
  | [] => some []
  | '\\' :: '\\' :: cs => (unescape cs).map ('\\' :: ·)
  | '\\' :: 't' :: cs => (unescape cs).map ('\t' :: ·)
  | '\\' :: 'n' :: cs => (unescape cs).map ('\n' :: ·)
  | c :: cs => if c = '\\' then none else (unescape cs).map (c :: ·)

def readNumber (s : String) : Option Int := (Text.readInteger 64 s.toList).toOption

def readCell (c : Column) (s : String) : Option Cell :=
  match c.initial with
  | .text _ => some (.text s)
  | .integer _ => (readNumber s).map .integer

def rowLine (row : Row) : String :=
  "\t".intercalate (Column.all.map fun c => String.ofList (escape (row.get c).toText.toList))

def rowOfLine (line : String) : Option Row := do
  let texts ← (line.splitOn "\t").mapM fun s => (unescape s.toList).map String.ofList
  if texts.length = Column.all.length then
    (Column.all.zip texts).mapM fun (c, s) => (readCell c s).map (c, ·)
  else none

def toText (t : RunTable) : String := "\n".intercalate (s!"{t.lastId}" :: t.rows.map rowLine)

def ofText (text : String) : Option RunTable :=
  if text = "" then some empty
  else match text.splitOn "\n" with
    | [] => some empty
    | lastId :: lines => do return ⟨← lines.mapM rowOfLine, ← readNumber lastId⟩

end Interleave.RunTable
