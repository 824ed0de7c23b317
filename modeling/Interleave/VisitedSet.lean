import Interleave.State

/-! The visited set: a bounded collection of snapshots that tells when a new state equals an earlier one.

Entries are sorted by actor count and heap size, so that only entries with the key of the candidate are
compared with it. When the set outgrows its bound the entry with the smallest number goes. -/

namespace Interleave

structure VisitedEntry (κ : Type) where
  snapshot : κ
  actorCount : Int
  heapBytes : Int
  num : Int
  /-- The number of the first state this one was found equal to; `-1` if there is none. -/
  firstNum : Int

namespace VisitedEntry

variable {κ : Type}

def ofSnapshot [Snapshot κ] (num : Int) (snapshot : κ) : VisitedEntry κ :=
  { snapshot
    actorCount := Snapshot.actorCount snapshot
    heapBytes := Snapshot.heapBytes snapshot
    num
    firstNum := -1 }

def first (e : VisitedEntry κ) : Int := if e.firstNum = -1 then e.num else e.firstNum

def render (e : VisitedEntry κ) : String :=
  s!"VisitedState {e.num} (actors: {e.actorCount}, heap: {e.heapBytes}, original: {e.first})"

def keyLt (a b : VisitedEntry κ) : Bool :=
  a.actorCount < b.actorCount || (a.actorCount = b.actorCount && a.heapBytes < b.heapBytes)

end VisitedEntry

structure VisitedSet (κ : Type) where
  entries : List (VisitedEntry κ)
  maxSize : Nat

/-- How the search for an equal entry ended. -/
inductive Lookup (κ : Type) where
  | repeated
  | found (front : List (VisitedEntry κ)) (old : VisitedEntry κ) (back : List (VisitedEntry κ))
  | novel

inductive Addition (κ : Type) where
  | repeated
  | duplicate (old : VisitedEntry κ)
  | inserted (total : Nat) (evicted : List Int)

@[semireducible] def narrow (p : Nat → Bool) (lo hi : Nat) : Nat :=
  if lo < hi then
    let mid := (lo + hi) / 2
    if p mid then narrow p lo mid else narrow p (mid + 1) hi
  else lo
termination_by hi - lo

def bisect {α : Type} (p : α → Bool) (l : List α) : List α × List α :=
  l.splitAt (narrow (fun i => l[i]?.all p) 0 l.length)

namespace VisitedSet

variable {κ : Type}

def empty (maxSize : Nat) : VisitedSet κ := { entries := [], maxSize }

def size (s : VisitedSet κ) : Nat := s.entries.length

def contains (s : VisitedSet κ) (num : Int) : Bool := s.entries.any (·.num = num)

def partitionAt (e : VisitedEntry κ) (entries : List (VisitedEntry κ)) :
    List (VisitedEntry κ) × List (VisitedEntry κ) × List (VisitedEntry κ) :=
  let (below, rest) := bisect (!·.keyLt e) entries
  (below, bisect e.keyLt rest)

/-- Compares the entries of a block with the candidate from the first to the first equal one. The second
part lists the entries compared. -/
def lookup [Snapshot κ] (e : VisitedEntry κ) : List (VisitedEntry κ) → Lookup κ × List (VisitedEntry κ)
  | [] => (.novel, [])
  | old :: block =>
    if old.num = e.num then (.repeated, [])
    else if Snapshot.same old.snapshot e.snapshot then (.found [] old block, [old])
    else
      let (result, compared) := lookup e block
      let result := match result with
        | .found front hit back => .found (old :: front) hit back
        | other => other
      (result, old :: compared)

def oldest : List (VisitedEntry κ) → Option Int
  | [] => none
  | e :: es => match oldest es with
    | some n => some (min e.num n)
    | none => some e.num

def evict (num : Int) (entries : List (VisitedEntry κ)) : List (VisitedEntry κ) :=
  entries.eraseP (·.num = num)

/-- Evicts the first entry with the smallest number, `count` times. -/
def evictOldest : Nat → List (VisitedEntry κ) → List (VisitedEntry κ) × List Int
  | 0, entries => (entries, [])
  | count + 1, entries =>
    match oldest entries with
    | none => (entries, [])
    | some num =>
      let (rest, gone) := evictOldest count (evict num entries)
      (rest, num :: gone)

/-- Records a state. An equal entry is replaced in its place by the new one, which inherits its first state;
otherwise the new entry goes to the front of its block. The last part lists the entries compared. -/
def add [Snapshot κ] (s : VisitedSet κ) (num : Int) (snapshot : κ) :
    VisitedSet κ × Addition κ × List (VisitedEntry κ) :=
  let e := VisitedEntry.ofSnapshot num snapshot
  let (below, block, above) := partitionAt e s.entries
  match lookup e block with
  | (.repeated, compared) => (s, .repeated, compared)
  | (.found front old back, compared) =>
    let e := { e with firstNum := old.first }
    ({ s with entries := below ++ front ++ e :: back ++ above }, .duplicate old, compared)
  | (.novel, compared) =>
    let grown := below ++ e :: block ++ above
    let (entries, gone) := evictOldest (grown.length - s.maxSize) grown
    ({ s with entries }, .inserted s.size gone, compared)

end VisitedSet

end Interleave
