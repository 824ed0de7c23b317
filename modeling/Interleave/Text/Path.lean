/-! Lexical normal forms of slash separated paths. -/

namespace Interleave.Text

/-- Drops empty and `.` parts and cancels each `..` against the part before it. -/
def cancelParts (rooted : Bool) : List String → List String → List String
  | [], kept => kept.reverse
  | part :: rest, kept =>
    if part = "" ∨ part = "." then cancelParts rooted rest kept
    else if part = ".." then
      match kept with
      | [] => cancelParts rooted rest (if rooted then [] else [".."])
      | last :: before =>
        if last = ".." then cancelParts rooted rest (".." :: kept) else cancelParts rooted rest before
    else cancelParts rooted rest (part :: kept)

def cleanPath (path : String) : String :=
  let rooted := path.startsWith "/"
  let parts := cancelParts rooted (path.splitOn "/") []
  let joined := "/".intercalate parts
  if rooted then "/" ++ joined else if joined = "" then "." else joined

end Interleave.Text
