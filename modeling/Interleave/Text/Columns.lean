/-! Texts in aligned columns. A tab or vertical tab ends a cell, a line feed or form feed ends a line. Adjacent
lines that have a cell in the same column pad it to a common width. -/

namespace Interleave.Text.Columns

def minWidth : Nat := 4

def padding : Nat := 1

structure Line where
  cells : List String
  closes : Bool

def splitCells : List Char → List (List Char)
  | [] => [[]]
  | c :: cs =>
    match splitCells cs with
    | [] => [[c]]
    | cell :: cells =>
      if c = '\t' ∨ c.toNat = 11 then [] :: cell :: cells else (c :: cell) :: cells

def splitLines : List Char → List (List Char × Char) × List Char
  | [] => ([], [])
  | c :: cs =>
    let (lines, rest) := splitLines cs
    if c = '\n' ∨ c.toNat = 12 then (([], c) :: lines, rest)
    else match lines with
      | [] => ([], c :: rest)
      | (line, e) :: lines => ((c :: line, e) :: lines, rest)

def Line.ofChars (cs : List Char) (terminator : Char) : Line :=
  let cells := (splitCells cs).map String.ofList
  { cells, closes := terminator ≠ '\n' || cells.length = 1 }

def sections : List Line → List (List (List String))
  | [] => [[]]
  | l :: ls =>
    match sections ls with
    | [] => [[l.cells]]
    | s :: rest => if l.closes then [l.cells] :: s :: rest else (l.cells :: s) :: rest

def pad (width : Nat) (cell : String) : String :=
  cell ++ String.ofList (List.replicate (width - cell.length) ' ')

def writeCells : List Nat → List String → String
  | _, [] => ""
  | [], cell :: cells => cell ++ writeCells [] cells
  | w :: ws, cell :: cells => pad w cell ++ writeCells ws cells

def hasColumn (column : Nat) (cells : List String) : Bool := column + 1 < cells.length

def columnWidth (column : Nat) (lines : List (List String)) : Nat :=
  lines.foldl (fun w cells => max w ((cells.getD column "").length + padding)) minWidth

/-- Writes lines whose first columns have the given widths. Each run of lines that share the next column is
written with the width of that column; `depth` bounds the number of columns. -/
def writeLines : Nat → List Nat → List (List String) → List String
  | 0, widths, lines => lines.map (writeCells widths)
  | depth + 1, widths, lines =>
    let runs := lines.splitBy fun a b => hasColumn widths.length a == hasColumn widths.length b
    runs.flatMap fun run =>
      if run.any (hasColumn widths.length) then
        writeLines depth (widths ++ [columnWidth widths.length run]) run
      else run.map (writeCells widths)

def writeSection (lines : List (List String)) : List String :=
  writeLines (lines.foldl (fun n cells => max n cells.length) 0) [] lines

def align (text : String) : String :=
  let (lines, rest) := splitLines text.toList
  let lines := lines.map fun (cs, e) => Line.ofChars cs e
  let tail := (splitCells rest).map String.ofList
  let tail := if tail.getLast? = some "" then tail.dropLast else tail
  let written := sections (lines ++ [⟨tail, false⟩]) |>.flatMap writeSection
  "\n".intercalate written

end Interleave.Text.Columns
