/-! Association lists whose keys ascend. -/

namespace Interleave.Assoc

variable {α β : Type} [LT α] [DecidableLT α] [DecidableEq α]

def insert (k : α) (v : β) : List (α × β) → List (α × β)
  | [] => [(k, v)]
  | (k', v') :: rest =>
    if k < k' then (k, v) :: (k', v') :: rest
    else if k = k' then (k, v) :: rest
    else (k', v') :: insert k v rest

def erase (k : α) : List (α × β) → List (α × β)
  | [] => []
  | (k', v') :: rest => if k = k' then rest else (k', v') :: erase k rest

def get? (k : α) : List (α × β) → Option β
  | [] => none
  | (k', v') :: rest => if k = k' then some v' else get? k rest

def modify (k : α) (f : β → β) : List (α × β) → List (α × β)
  | [] => []
  | (k', v') :: rest => if k = k' then (k', f v') :: rest else (k', v') :: modify k f rest

def contains (k : α) (m : List (α × β)) : Bool := (get? k m).isSome

def ofList (entries : List (α × β)) : List (α × β) :=
  entries.foldl (fun m (k, v) => insert k v m) []

end Interleave.Assoc
