/-! Schema migrations: texts with a section to apply and a section to revert, each under a mark. -/

namespace Interleave.Migration

def upMark : List Char := "-- +migrate Up".toList

def downMark : List Char := "-- +migrate Down".toList

def after? (mark : List Char) : List Char → Option (List Char)
  | [] => if mark.isEmpty then some [] else none
  | c :: cs => if mark.isPrefixOf (c :: cs) then some ((c :: cs).drop mark.length) else after? mark cs

def before (mark : List Char) : List Char → List Char
  | [] => []
  | c :: cs => if mark.isPrefixOf (c :: cs) then [] else c :: before mark cs

def upSection (content : String) : String :=
  match after? upMark content.toList with
  | none => content
  | some rest => String.ofList (before downMark rest)

end Interleave.Migration
