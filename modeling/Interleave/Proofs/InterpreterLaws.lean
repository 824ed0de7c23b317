import Interleave.Model.State
import Interleave.Proofs.Assoc
import Mathlib.Tactic.SplitIfs

/-! What models rely on of an interpreter: tables are finite maps, a new table is a table of its own, and the length of
a table is some border of it. What a message value shows is said by what a reader finds in the tables. -/

namespace Interleave.Interpreter

/-- A natural is a position if a number tells it exactly. -/
def IsPosition (n : Nat) : Prop := 1 ≤ n ∧ (Double.ofInt n).toInt? = some (n : Int)

/-- How the tables of an interpreter lie: its states, the tables that exist in one, and the table of the globals. -/
structure Heap (σ ρ : Type) where
  valid : σ → Prop
  made : σ → ρ → Prop
  globals : σ → ρ

variable {σ ρ κ φ : Type}

structure KeepsBut (L : Interpreter σ ρ κ φ) (H : Heap σ ρ) (except : ρ → Prop) (s s' : σ) : Prop where
  valid : H.valid s'
  globals : H.globals s' = H.globals s
  made : ∀ r, H.made s r → H.made s' r
  get : ∀ r, H.made s r → ¬ except r → ∀ key, L.get r key s' = L.get r key s

/-- The rules of the language about tables, global variables and calls. -/
structure Lawful (L : Interpreter σ ρ κ φ) (H : Heap σ ρ) : Prop where
  keys_nodup {s : σ} (hs : H.valid s) (r : ρ) : (L.keys r s).Nodup
  mem_keys {s : σ} (hs : H.valid s) (r : ρ) (key : Key κ) : key ∈ L.keys r s ↔ L.get r key s ≠ .nil
  isPosition {s : σ} (hs : H.valid s) {r : ρ} {n : Nat} (h : L.get r (.position n) s ≠ .nil) : IsPosition n
  /-- Any border may be the length. -/
  border {s : σ} (hs : H.valid s) (r : ρ) :
    (L.length r s = 0 ∨ L.get r (.position (L.length r s)) s ≠ .nil) ∧ L.get r (.position (L.length r s + 1)) s = .nil
  made_globals {s : σ} (hs : H.valid s) : H.made s (H.globals s)
  create {s : σ} (hs : H.valid s) (n : Nat) : L.KeepsBut H (fun _ => False) s (L.create n s).2
  create_new {s : σ} (hs : H.valid s) (n : Nat) :
    ¬ H.made s (L.create n s).1 ∧ H.made (L.create n s).2 (L.create n s).1 ∧
      ∀ key, L.get (L.create n s).1 key (L.create n s).2 = .nil
  put {s : σ} (hs : H.valid s) {r : ρ} (hr : H.made s r) {key : Key κ} (hkey : ∀ k, key ≠ .other k) {v : Value ρ}
    (hv : ∀ typeName, v ≠ .other typeName) : L.KeepsBut H (· = r) s (L.put r key v s)
  get_put {s : σ} (hs : H.valid s) {r : ρ} (hr : H.made s r) {key : Key κ} (hkey : ∀ k, key ≠ .other k)
    (hposition : ∀ n, key = .position n → IsPosition n) {v : Value ρ} (hv : ∀ typeName, v ≠ .other typeName) :
    L.get r key (L.put r key v s) = v ∧ ∀ key', key' ≠ key → L.get r key' (L.put r key v s) = L.get r key' s
  setState {s : σ} (hs : H.valid s) {v : Value ρ} (hv : ∀ typeName, v ≠ .other typeName) :
    L.KeepsBut H (· = H.globals s) s (L.setState v s) ∧ L.state (L.setState v s) = v
  call {s : σ} (hs : H.valid s) (f : φ) (args : List Int) : H.valid (L.call f args s).2

variable (L : Interpreter σ ρ κ φ)

/-- A capture takes a table for a list if it has as many keys as its length says. -/
def TakenForList (s : σ) (r : ρ) : Prop := 0 < (L.keys r s).length ∧ (L.keys r s).length = L.length r s

def IsSequence (s : σ) (r : ρ) : Prop :=
  ∀ key, L.get r key s ≠ .nil → ∃ n, key = .position n ∧ 1 ≤ n ∧ n ≤ L.length r s

inductive Within (s : σ) : Value ρ → ρ → Prop
  | self (r : ρ) : Within s (.table r) r
  | held {r inner : ρ} {key : Key κ} (h : Within s (L.get r key s) inner) : Within s (.table r) inner

def Regular (s : σ) (v : Value ρ) : Prop := ∀ r, L.Within s v r → L.TakenForList s r → L.IsSequence s r

/-- Two values have the same structure: they are equal, or they are tables with values of the same structure under
every key. Which tables are shared plays no part. -/
inductive Alike (s s' : σ) : Value ρ → Value ρ → Prop
  | plain {v : Value ρ} (h : ∀ r, v ≠ .table r) : Alike s s' v v
  | table {i j : ρ} (h : ∀ key, Alike s s' (L.get i key s) (L.get j key s')) : Alike s s' (.table i) (.table j)

/-- A message value shows a value with tables nested at most `room` deep: the keys of a table are the positions of a
list or the names of a record. -/
inductive Shows (s : σ) : Nat → Value ρ → Datum → Prop
  | nil (room : Nat) : Shows s room .nil .null
  | bool (room : Nat) (b : Bool) : Shows s room (.bool b) (.bool b)
  | number (room : Nat) (x : Double) : Shows s room (.number x) (.number x)
  | text (room : Nat) (t : String) : Shows s room (.text t) (.text t)
  | list {room : Nat} {r : ρ} {items : List Datum} (hempty : items ≠ [])
      (hkeys : ∀ key, L.get r key s ≠ .nil ↔ ∃ i < items.length, key = .position (i + 1))
      (hitems : ∀ i (hi : i < items.length), Shows s room (L.get r (.position (i + 1)) s) items[i]) :
      Shows s (room + 1) (.table r) (.list items)
  | record {room : Nat} {r : ρ} {fields : List (String × Datum)} (hascending : Assoc.Ascending fields)
      (hkeys : ∀ key, L.get r key s ≠ .nil ↔ ∃ f ∈ fields, key = .text f.1)
      (hfields : ∀ f ∈ fields, Shows s room (L.get r (.text f.1) s) f.2) :
      Shows s (room + 1) (.table r) (.record fields)

structure Unmodified (s s' : σ) : Prop where
  state : L.state s' = L.state s
  get : ∀ r, L.Within s (L.state s) r → ∀ key, L.get r key s' = L.get r key s

def Shown (s : σ) (d : Datum) : Prop := L.Shows s maxNesting (L.state s) d

variable {L} {s s' : σ} {v w : Value ρ} {room : Nat} {d : Datum}

theorem Regular.held {r : ρ} (h : L.Regular s (.table r)) (key : Key κ) : L.Regular s (L.get r key s) :=
  fun inner hinner => h inner (.held hinner)

theorem within_congr (h : ∀ r, L.Within s v r → ∀ key, L.get r key s' = L.get r key s) {r : ρ} :
    L.Within s' v r ↔ L.Within s v r := by
  constructor <;> intro hr
  · induction hr with
    | self r => exact .self r
    | @held r _ key _ ih =>
      rw [h r (.self r)] at ih
      exact .held (ih fun inner hinner => h inner (.held hinner))
  · induction hr with
    | self r => exact .self r
    | @held r inner key _ ih =>
      have hheld : L.Within s' (L.get r key s') inner := by
        rw [h r (.self r)]
        exact ih fun inner hinner => h inner (.held hinner)
      exact .held hheld

namespace KeepsBut

variable {H : Heap σ ρ} {except : ρ → Prop} {s'' : σ}

theorem refl (hs : H.valid s) : L.KeepsBut H except s s := ⟨hs, rfl, fun _ h => h, fun _ _ _ _ => rfl⟩

theorem trans (h : L.KeepsBut H except s s') (h' : L.KeepsBut H except s' s'') : L.KeepsBut H except s s'' where
  valid := h'.valid
  globals := h'.globals.trans h.globals
  made r hr := h'.made r (h.made r hr)
  get r hr hexcept key := (h'.get r (h.made r hr) hexcept key).trans (h.get r hr hexcept key)

theorem mono {except' : ρ → Prop} (h : L.KeepsBut H except s s') (hmono : ∀ r, H.made s r → except r → except' r) :
    L.KeepsBut H except' s s' := { h with get := fun r hr hexcept => h.get r hr (mt (hmono r hr) hexcept) }

end KeepsBut

namespace Shows

theorem nil_iff (h : L.Shows s room v d) : v = .nil ↔ d = .null := by
  cases h <;> simp [Value.text]

theorem congr (h : L.Shows s room v d) (hagree : ∀ r, L.Within s v r → ∀ key, L.get r key s' = L.get r key s) :
    L.Shows s' room v d := by
  induction h with
  | nil room => exact .nil room
  | bool room b => exact .bool room b
  | number room x => exact .number room x
  | text room t => exact .text room t
  | @list room r items hempty hkeys _ ih =>
    have hsame := hagree r (.self r)
    refine .list hempty (fun key => by rw [hsame, hkeys]) fun i hi => ?_
    rw [hsame]
    exact ih i hi fun inner hinner => hagree inner (.held hinner)
  | @record room r fields hascending hkeys _ ih =>
    have hsame := hagree r (.self r)
    refine .record hascending (fun key => by rw [hsame, hkeys]) fun f hf => ?_
    rw [hsame]
    exact ih f hf fun inner hinner => hagree inner (.held hinner)

theorem alike {room' : Nat} (h : L.Shows s room v d) (h' : L.Shows s' room' w d) : L.Alike s s' v w := by
  have hboth_nil : ∀ {i j : ρ} {key : Key κ} {P : Prop}, ¬ P → (L.get i key s ≠ .nil ↔ P) →
      (L.get j key s' ≠ .nil ↔ P) → L.Alike s s' (L.get i key s) (L.get j key s') := by
    intro i j key P hP hi hj
    rw [not_not.mp (mt hi.mp hP), not_not.mp (mt hj.mp hP)]
    exact .plain (by simp)
  induction h generalizing w room' with
  | nil => cases h'; exact .plain (by simp)
  | bool => cases h'; exact .plain (by simp)
  | number => cases h'; exact .plain (by simp)
  | text => cases h'; exact .plain (by simp [Value.text])
  | @list room r items _ hkeys _ ih =>
    cases h' with
    | list _ hkeys' hitems' =>
      refine .table fun key => ?_
      by_cases hkey : ∃ i < items.length, key = .position (i + 1)
      · obtain ⟨i, hi, rfl⟩ := hkey
        exact ih i hi (hitems' i hi)
      · exact hboth_nil hkey (hkeys key) (hkeys' key)
  | @record room r fields _ hkeys _ ih =>
    cases h' with
    | record _ hkeys' hfields' =>
      refine .table fun key => ?_
      by_cases hkey : ∃ f ∈ fields, key = .text f.1
      · obtain ⟨f, hf, rfl⟩ := hkey
        exact ih f hf (hfields' f hf)
      · exact hboth_nil hkey (hkeys key) (hkeys' key)

end Shows

namespace Unmodified

variable {s'' : σ}

theorem refl (s : σ) : L.Unmodified s s := ⟨rfl, fun _ _ _ => rfl⟩

theorem within (h : L.Unmodified s s') {r : ρ} : L.Within s' (L.state s') r ↔ L.Within s (L.state s) r := by
  rw [h.state]
  exact within_congr h.get

theorem symm (h : L.Unmodified s s') : L.Unmodified s' s where
  state := h.state.symm
  get r hr key := (h.get r (h.within.mp hr) key).symm

theorem trans (h : L.Unmodified s s') (h' : L.Unmodified s' s'') : L.Unmodified s s'' where
  state := h'.state.trans h.state
  get r hr key := (h'.get r (h.within.mpr hr) key).trans (h.get r hr key)

theorem shown (h : L.Unmodified s s') (hshown : L.Shown s d) : L.Shown s' d := by
  rw [Shown, h.state]
  exact Shows.congr hshown h.get

end Unmodified

end Interleave.Interpreter
