import Mathlib.Algebra.Order.Ring.Nat
import Interleave.Proofs.QuotedText
import Interleave.Tree.Newick

/-! A tree in Newick format can be read back: the text determines the shape of the tree, the order of the children and
the label of every node. Parentheses, commas and quotes inside a label stand between its quotes, where the reader does
not take them for structure. -/

namespace Interleave.Tree

variable {α β : Type}

mutual

def map (f : α → β) : Tree α → Tree β
  | node a cs => node (f a) (mapAll f cs)

def mapAll (f : α → β) : List (Tree α) → List (Tree β)
  | [] => []
  | t :: ts => map f t :: mapAll f ts

end

theorem getElem?_mapAll (f : α → β) (ts : List (Tree α)) (i : Nat) : (mapAll f ts)[i]? = ts[i]?.map (map f) := by
  induction ts generalizing i with
  | nil => simp [mapAll]
  | cons t ts ih => cases i <;> simp [mapAll, ih]

theorem get?_map (f : α → β) (t : Tree α) (path : Path) : (t.map f).get? path = (t.get? path).map (map f) := by
  induction path generalizing t with
  | nil => simp [get?]
  | cons i path ih =>
    obtain ⟨a, cs⟩ := t
    rw [map, get?, get?, getElem?_mapAll]
    cases cs[i]? with
    | none => rfl
    | some c => simp [ih]

@[simp]
theorem payload_map (f : α → β) (t : Tree α) : (t.map f).payload = f t.payload := by
  obtain ⟨a, cs⟩ := t
  rw [map, payload, payload]

def labelAt (label : α → β) (t : Tree α) (path : Path) : Option β := (t.get? path).map fun sub => label sub.payload

theorem labelAt_nil (label : α → β) (a : α) (cs : List (Tree α)) : (node a cs).labelAt label [] = some (label a) := by
  simp [labelAt, get?, payload]

theorem labelAt_cons (label : α → β) (a : α) (cs : List (Tree α)) (i : Nat) (path : Path) :
    (node a cs).labelAt label (i :: path) = cs[i]?.bind (labelAt label · path) := by
  rw [labelAt, get?, Option.map_bind]
  rfl

theorem labelAt_eq_payload (label : α → β) (t : Tree α) (path : Path) :
    t.labelAt label path = ((t.map label).get? path).map payload := by
  simp [labelAt, get?_map, Function.comp_def]

section SameLabels

variable {γ : Type} {f : α → γ} {g : β → γ}

mutual

theorem map_eq_map_of_labelAt : ∀ {t : Tree α} {t' : Tree β},
    (∀ path, t.labelAt f path = t'.labelAt g path) → t.map f = t'.map g
  | node a cs, node a' cs', h => by
    have hlabel : f a = g a' := by simpa only [labelAt_nil, Option.some.injEq] using h []
    have hchildren : mapAll f cs = mapAll g cs' := mapAll_eq_mapAll_of_labelAt fun i path => by
      simpa only [labelAt_cons] using h (i :: path)
    rw [map, map, hlabel, hchildren]

theorem mapAll_eq_mapAll_of_labelAt : ∀ {ts : List (Tree α)} {ts' : List (Tree β)},
    (∀ (i : Nat) (path : Path), ts[i]?.bind (labelAt f · path) = ts'[i]?.bind (labelAt g · path)) →
      mapAll f ts = mapAll g ts'
  | [], [], _ => rfl
  | [], t' :: ts', h => by simpa [labelAt, get?] using h 0 []
  | t :: ts, [], h => by simpa [labelAt, get?] using h 0 []
  | t :: ts, t' :: ts', h => by
    have hhead : t.map f = t'.map g := map_eq_map_of_labelAt fun path => h 0 path
    have htail : mapAll f ts = mapAll g ts' := mapAll_eq_mapAll_of_labelAt fun i path => h (i + 1) path
    rw [mapAll, mapAll, hhead, htail]

end

theorem map_eq_map_iff {t : Tree α} {t' : Tree β} :
    t.map f = t'.map g ↔ ∀ path, t.labelAt f path = t'.labelAt g path := by
  constructor
  · intro h path
    rw [labelAt_eq_payload, labelAt_eq_payload, h]
  · exact map_eq_map_of_labelAt

end SameLabels

/-- A reader inside a text: the trees read in the innermost group, the trees read in the groups around it, the children
of the node whose label comes next, and the part of its label that is read. -/
structure Reader where
  siblings : List (Tree ByteArray) := []
  outer : List (List (Tree ByteArray)) := []
  children : List (Tree ByteArray) := []
  label : Option Text.Unquoting := none

namespace Reader

def stepLabel (r : Reader) : Text.Unquoting → Char → Option Reader
  | .plain bytes, '"' =>
    some { r with siblings := r.siblings ++ [node ⟨bytes.toArray⟩ r.children], children := [], label := none }
  | u, c => (u.next c).map fun u => { r with label := some u }

def step (r : Reader) (c : Char) : Option Reader :=
  match r.label with
  | some u => r.stepLabel u c
  | none =>
    match c with
    | '"' => some { r with label := some (.plain []) }
    | '(' => some { siblings := [], outer := r.siblings :: r.outer }
    | ')' =>
      match r.outer with
      | [] => none
      | siblings :: outer => some { siblings, outer, children := r.siblings }
    | ',' => some r
    | ';' => some r
    | _ => none

def run (r : Reader) (cs : List Char) : Option Reader := cs.foldlM step r

@[simp]
theorem run_nil (r : Reader) : r.run [] = some r := rfl

@[simp]
theorem run_cons (r : Reader) (c : Char) (cs : List Char) : r.run (c :: cs) = (r.step c).bind (run · cs) :=
  List.foldlM_cons ..

theorem run_append (r : Reader) (cs cs' : List Char) : r.run (cs ++ cs') = (r.run cs).bind (run · cs') :=
  List.foldlM_append ..

theorem stepLabel_of_next {u v : Text.Unquoting} {c : Char} (h : u.next c = some v) (r : Reader) :
    r.stepLabel u c = some { r with label := some v } := by
  unfold stepLabel
  split
  · simp [Text.Unquoting.next] at h
  · rw [h, Option.map_some]

theorem run_label {u v : Text.Unquoting} {cs : List Char} (h : u.run cs = some v) (r : Reader) :
    { r with label := some u }.run cs = some { r with label := some v } := by
  induction cs generalizing u with
  | nil =>
    cases h
    rfl
  | cons c cs ih =>
    rw [Text.Unquoting.run_cons, Option.bind_eq_some_iff] at h
    obtain ⟨w, hnext, hrest⟩ := h
    have hstep : { r with label := some u }.step c = some { r with label := some w } := stepLabel_of_next hnext _
    rw [run_cons, hstep, Option.bind_some, ih hrest]

theorem run_quoteBytes (r : Reader) (h : r.label = none) (bytes : ByteArray) :
    r.run (Text.quoteBytes bytes).toList =
      some { r with siblings := r.siblings ++ [node bytes r.children], children := [] } := by
  have hbody := run_label (Text.run_quotedBody [] bytes.data.toList) r
  rw [Text.toList_quoteBytes, List.cons_append, run_cons]
  have hopen : r.step '"' = some { r with label := some (.plain []) } := by
    simp [step, h]
  rw [hopen, Option.bind_some, run_append, hbody]
  simp [step, stepLabel, h]

end Reader

mutual

theorem run_newickNode (label : α → ByteArray) (siblings : List (Tree ByteArray)) (outer : List (List (Tree ByteArray))) :
    ∀ t : Tree α, Reader.run { siblings, outer } (newickNode label t).toList =
      some { siblings := siblings ++ [t.map label], outer }
  | node a [] => by
    rw [newickNode, Reader.run_quoteBytes _ rfl, map, mapAll]
  | node a (c :: cs) => by
    have hchildren := run_newickChildren label [] (siblings :: outer) (c :: cs)
    simp only [newickNode, String.toList_append, Reader.run_append]
    simp [Reader.step, hchildren, Reader.run_quoteBytes, map]

theorem run_newickChildren (label : α → ByteArray) (siblings : List (Tree ByteArray))
    (outer : List (List (Tree ByteArray))) :
    ∀ ts : List (Tree α), Reader.run { siblings, outer } (newickChildren label ts).toList =
      some { siblings := siblings ++ mapAll label ts, outer }
  | [] => by simp [newickChildren, mapAll]
  | [t] => by rw [newickChildren, run_newickNode label siblings outer t, mapAll, mapAll]
  | t :: t' :: ts => by
    have hfirst := run_newickNode label siblings outer t
    have hrest := run_newickChildren label (siblings ++ [t.map label]) outer (t' :: ts)
    simp only [newickChildren, String.toList_append, Reader.run_append]
    simp [hfirst, hrest, Reader.step, mapAll]

end

def readNewick (s : String) : Option (Tree ByteArray) :=
  (Reader.run {} s.toList).bind fun r =>
    match r with
    | { siblings := [t], outer := [], children := [], label := none } => some t
    | _ => none

theorem readNewick_newickBytes (label : α → ByteArray) (t : Tree α) :
    readNewick (newickBytes label t) = some (t.map label) := by
  have hnode := run_newickNode label [] [] t
  simp only [readNewick, newickBytes, String.toList_append, Reader.run_append]
  simp [hnode, Reader.step]

mutual

theorem newickNode_map (label : α → ByteArray) : ∀ t : Tree α, newickNode id (t.map label) = newickNode label t
  | node a [] => by simp only [map, mapAll, newickNode, id]
  | node a (c :: cs) => by
    have hchildren := newickChildren_mapAll label (c :: cs)
    rw [mapAll] at hchildren
    simp only [map, mapAll, newickNode, id, hchildren]

theorem newickChildren_mapAll (label : α → ByteArray) :
    ∀ ts : List (Tree α), newickChildren id (mapAll label ts) = newickChildren label ts
  | [] => by simp only [mapAll, newickChildren]
  | [t] => by simp only [mapAll, newickChildren, newickNode_map label t]
  | t :: t' :: ts => by
    have hrest := newickChildren_mapAll label (t' :: ts)
    rw [mapAll] at hrest
    simp only [mapAll, newickChildren, newickNode_map label t, hrest]

end

theorem newickBytes_eq_iff {label : α → ByteArray} {label' : β → ByteArray} {t : Tree α} {t' : Tree β} :
    newickBytes label t = newickBytes label' t' ↔ ∀ path, t.labelAt label path = t'.labelAt label' path := by
  rw [← map_eq_map_iff]
  constructor
  · intro h
    have hread := congrArg readNewick h
    rwa [readNewick_newickBytes, readNewick_newickBytes, Option.some.injEq] at hread
  · intro h
    rw [newickBytes, newickBytes, ← newickNode_map label, ← newickNode_map label', h]

/- A label that imitates the structure of another tree, and one that is no text. -/
example : newick id (leaf "(\"b\")\"a") = "\"(\\\"b\\\")\\\"a\";" ∧
    newick id (node "a" [leaf "b"]) = "(\"b\")\"a\";" ∧
    newickBytes id (leaf ⟨#[0x61, 0xff]⟩) = "\"a\\xff\";" := by decide +kernel

theorem labelAt_toUTF8_eq_iff {label : α → String} {label' : β → String} {t : Tree α} {t' : Tree β} {path : Path} :
    t.labelAt (fun a => (label a).toUTF8) path = t'.labelAt (fun a => (label' a).toUTF8) path ↔
      t.labelAt label path = t'.labelAt label' path := by
  simp only [labelAt]
  cases t.get? path <;> cases t'.get? path <;> simp [String.toUTF8, String.toByteArray_inj]

/-- Newick format determines the tree: there is a reader that undoes it, and two trees have the same text exactly when
they have the same nodes with the same labels. -/
theorem newick_determines_tree (t : Tree α) (t' : Tree β) :
    (∀ label : α → ByteArray, readNewick (newickBytes label t) = some (t.map label)) ∧
      (∀ (label : α → ByteArray) (label' : β → ByteArray),
        newickBytes label t = newickBytes label' t' ↔ ∀ path, t.labelAt label path = t'.labelAt label' path) ∧
      ∀ (label : α → String) (label' : β → String),
        newick label t = newick label' t' ↔ ∀ path, t.labelAt label path = t'.labelAt label' path := by
  refine ⟨fun label => readNewick_newickBytes label t, fun _ _ => newickBytes_eq_iff, ?_⟩
  intro label label'
  rw [newick, newick, newickBytes_eq_iff]
  exact forall_congr' fun _ => labelAt_toUTF8_eq_iff

end Interleave.Tree
