/-! Instants as texts: the date of the Gregorian calendar and the time of day, without an offset. -/

namespace Interleave.Logging

/-- Year, month and day of a day counted from the first of January 1970. Years start in March, so that the
leap day is the last of its year. -/
def dateOfDay (day : Int) : Int × Int × Int :=
  let z := day + 719468
  let era := z.fdiv 146097
  let dayOfEra := z - era * 146097
  let yearOfEra := (dayOfEra - dayOfEra / 1460 + dayOfEra / 36524 - dayOfEra / 146096) / 365
  let dayOfYear := dayOfEra - (365 * yearOfEra + yearOfEra / 4 - yearOfEra / 100)
  let marchMonth := (5 * dayOfYear + 2) / 153
  let dayOfMonth := dayOfYear - (153 * marchMonth + 2) / 5 + 1
  let month := if marchMonth < 10 then marchMonth + 3 else marchMonth - 9
  let year := yearOfEra + era * 400 + if month ≤ 2 then 1 else 0
  (year, month, dayOfMonth)

def padded (width : Nat) (n : Int) : String :=
  let digits := toString n
  String.ofList (List.replicate (width - digits.length) '0') ++ digits

def instantText (seconds : Int) : String :=
  let day := seconds.fdiv 86400
  let rest := seconds - day * 86400
  let (year, month, dayOfMonth) := dateOfDay day
  s!"{padded 4 year}-{padded 2 month}-{padded 2 dayOfMonth}T" ++
    s!"{padded 2 (rest / 3600)}:{padded 2 (rest / 60 % 60)}:{padded 2 (rest % 60)}Z"

end Interleave.Logging
