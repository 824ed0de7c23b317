import Interleave.Proofs.Doubles
import Interleave.Proofs.InterpreterLaws
import Interleave.Script.Interpreter
import Mathlib.Data.List.Nodup
import Mathlib.Data.List.Perm.Subperm

/-! Tables as finite maps. The items and the fields of a table never compete for a key, whatever is set in it, and its
length is a border. -/

namespace Interleave.Script

open Interpreter (Key IsPosition)

theorem toInt?_of_rank {x : Double} (h : x.rank = 0) : x.toInt? = some 0 := by
  obtain ⟨bits⟩ := x
  have hpow : Nat.pow 2 63 = 9223372036854775808 := rfl
  have hbits : bits.toNat = 0 ∨ bits.toNat = 9223372036854775808 := by
    simp only [Double.rank, Double.isNegative, decide_eq_true_eq, hpow] at h
    split_ifs at h <;> omega
  rcases hbits with hbits | hbits
  · obtain rfl : bits = 0 := UInt64.toNat_inj.mp hbits
    decide +kernel
  · obtain rfl : bits = 0x8000000000000000 := UInt64.toNat_inj.mp hbits
    decide +kernel

namespace Value

theorem key_eq_position_iff {w : Value} {n : Nat} : w.key = .position n ↔ w = .int n ∧ IsPosition n := by
  constructor
  · intro h
    cases w with
    | number x =>
      simp only [key] at h
      split at h
      · rename_i m hm
        split_ifs at h with hpositive
        obtain rfl : m.toNat = n := Key.position.inj h
        have hx : Double.ofInt (m.toNat : Int) = x := by
          rw [Int.toNat_of_nonneg (by omega)]
          exact Double.ofInt_of_toInt? hm hpositive
        exact ⟨congrArg number hx.symm, by omega, by rw [hx, hm, Int.toNat_of_nonneg (by omega)]⟩
      · cases h
    | _ => cases h
  · rintro ⟨rfl, hpositive, hexact⟩
    have hle : (1 : Int) ≤ n := by omega
    simp [key, int, hexact, hle]

theorem canonicalKey_int {n : Nat} (h : IsPosition n) : Table.canonicalKey (.int n) = .int n := by
  have hrank : (Double.ofInt n).rank ≠ 0 := by
    intro hrank
    have hzero : (n : Int) = 0 := Option.some.inj (h.2.symm.trans (toInt?_of_rank hrank))
    have hpositive := h.1
    omega
  simp [Table.canonicalKey, int, hrank]

theorem canonicalKey_idem (w : Value) : Table.canonicalKey (Table.canonicalKey w) = Table.canonicalKey w := by
  cases w with
  | number x => by_cases hrank : x.rank = 0 <;> simp [Table.canonicalKey, hrank]
  | _ => rfl

theorem key_canonicalKey (w : Value) : (Table.canonicalKey w).key = w.key := by
  cases w with
  | number x =>
    by_cases hrank : x.rank = 0
    · have hzero : Double.zero.toInt? = some 0 := by decide +kernel
      simp [Table.canonicalKey, key, hrank, hzero, toInt?_of_rank hrank]
    · simp [Table.canonicalKey, hrank]
  | _ => rfl

theorem key_eq_string {w : Value} {s : ByteArray} (h : w.key = .string s) : w = .string s := by
  cases w with
  | number x =>
    simp only [key] at h
    split at h
    · split_ifs at h
    · cases h
  | string => exact congrArg string (Key.string.inj h)
  | _ => cases h

theorem key_eq_other {w k : Value} (h : w.key = .other k) : Table.canonicalKey w = k := by
  cases w with
  | number x =>
    simp only [key] at h
    split at h
    · split_ifs at h
      exact Key.other.inj h
    · exact Key.other.inj h
  | string => cases h
  | _ => exact Key.other.inj h

theorem canonicalKey_eq_of_key {w w' : Value} (h : w.key = w'.key) : Table.canonicalKey w = Table.canonicalKey w' := by
  cases hkey : w'.key with
  | position n => rw [(key_eq_position_iff.mp (h.trans hkey)).1, (key_eq_position_iff.mp hkey).1]
  | string s => rw [key_eq_string (h.trans hkey), key_eq_string hkey]
  | other k => rw [key_eq_other (h.trans hkey), key_eq_other hkey]

theorem key_injective {w w' : Value} (h : w.key = w'.key) (hw : Table.canonicalKey w = w)
    (hw' : Table.canonicalKey w' = w') : w = w' := by
  rw [← hw, ← hw', canonicalKey_eq_of_key h]

end Value

namespace Table

theorem isPosition_iff {n : Nat} : isPosition n = true ↔ IsPosition n := by simp [isPosition, IsPosition]

theorem int_injective {n n' : Nat} (hn : IsPosition n) (hn' : IsPosition n') (h : Value.int n = Value.int n') : n = n' := by
  have hkey := Value.key_eq_position_iff.mpr ⟨h, hn'⟩
  exact Key.position.inj ((Value.key_eq_position_iff.mpr ⟨rfl, hn⟩).symm.trans hkey)

variable {t : Table}

theorem slot?_eq_some_iff {w : Value} {i : Nat} :
    t.slot? w = some i ↔ w = .int (i + 1 : Nat) ∧ IsPosition (i + 1) ∧ i < t.items.size := by
  rw [← and_assoc, ← Value.key_eq_position_iff]
  cases w with
  | number x =>
    cases hx : x.toInt? with
    | none => simp [slot?, Value.key, hx]
    | some n =>
      simp only [slot?, Value.key, hx, Option.bind_eq_bind, Option.bind_some]
      split_ifs <;> simp <;> omega
  | _ => simp [slot?, Value.key]

theorem slot?_canonicalKey (t : Table) (w : Value) : t.slot? (canonicalKey w) = t.slot? w := by
  refine Option.ext fun i => ?_
  rw [slot?_eq_some_iff, slot?_eq_some_iff, ← and_assoc, ← and_assoc, ← Value.key_eq_position_iff,
    ← Value.key_eq_position_iff, Value.key_canonicalKey]

theorem get_canonicalKey (t : Table) (w : Value) : t.get (canonicalKey w) = t.get w := by
  rw [get, get, slot?_canonicalKey, Value.canonicalKey_idem]

/-- The fields have distinct keys, and none of them is at a position of the items. -/
structure WellFormed (t : Table) : Prop where
  nodup : (t.fields.map Prod.fst).Nodup
  canonical : ∀ k ∈ t.fields.map Prod.fst, canonicalKey k = k
  free : ∀ k ∈ t.fields.map Prod.fst, t.slot? k = none

instance decidableWellFormed (t : Table) : Decidable t.WellFormed :=
  decidable_of_iff ((t.fields.map Prod.fst).Nodup ∧ (∀ k ∈ t.fields.map Prod.fst, canonicalKey k = k) ∧
    ∀ k ∈ t.fields.map Prod.fst, t.slot? k = none) ⟨fun h => ⟨h.1, h.2.1, h.2.2⟩, fun h => ⟨h.1, h.2, h.3⟩⟩

theorem wellFormed_row (items : Array Value) (metatable : Option Nat) : (Table.mk items [] metatable).WellFormed :=
  ⟨List.nodup_nil, by simp, by simp⟩

theorem wellFormed_empty : empty.WellFormed := wellFormed_row _ _

theorem keys_store (k v : Value) (fields : List (Value × Value)) :
    (store k v fields).map Prod.fst = fields.map Prod.fst ∨
      k ∉ fields.map Prod.fst ∧ (store k v fields).map Prod.fst = fields.map Prod.fst ++ [k] := by
  induction fields with
  | nil => by_cases hv : v = .nil <;> simp [store, hv]
  | cons e rest ih =>
    obtain ⟨k', v'⟩ := e
    by_cases hk : k' = k
    · simp [store, hk]
    · rcases ih with ih | ⟨hnew, ih⟩
      · simp [store, hk, ih]
      · right
        simp_all [store, eq_comm]

theorem mem_keys_store {k k' v : Value} {fields : List (Value × Value)}
    (h : k' ∈ (store k v fields).map Prod.fst) : k' ∈ fields.map Prod.fst ∨ k' = k := by
  rcases keys_store k v fields with hkeys | ⟨-, hkeys⟩ <;> rw [hkeys] at h
  · exact .inl h
  · simpa using h

theorem mem_keys_discard {k k' : Value} {fields : List (Value × Value)} :
    k' ∈ (discard k fields).map Prod.fst ↔ k' ∈ fields.map Prod.fst ∧ k' ≠ k := by
  simp [discard]

theorem lookup_store (k k' v : Value) (fields : List (Value × Value)) :
    lookup k' (store k v fields) = if k' = k then v else lookup k' fields := by
  induction fields with
  | nil => by_cases hv : v = .nil <;> grind [store, lookup]
  | cons e rest ih => grind [store, lookup]

theorem lookup_discard (k k' : Value) (fields : List (Value × Value)) :
    lookup k' (discard k fields) = if k' = k then .nil else lookup k' fields := by
  induction fields with
  | nil => simp [discard, lookup]
  | cons e rest ih =>
    by_cases he : e.1 = k
    · have hdiscard : discard k (e :: rest) = discard k rest := by simp [discard, he]
      rw [hdiscard, ih]
      grind [lookup]
    · have hdiscard : discard k (e :: rest) = e :: discard k rest := by simp [discard, he]
      rw [hdiscard]
      grind [lookup]

theorem mem_of_lookup {k v : Value} {fields : List (Value × Value)} (h : lookup k fields = v) (hv : v ≠ .nil) :
    (k, v) ∈ fields := by
  induction fields with
  | nil => exact absurd h.symm hv
  | cons e rest ih =>
    obtain ⟨k', w⟩ := e
    rw [lookup] at h
    split_ifs at h with hkey
    · simp [← h, hkey]
    · exact List.mem_cons_of_mem _ (ih h)

theorem lookup_of_mem {k v : Value} {fields : List (Value × Value)} (hnodup : (fields.map Prod.fst).Nodup)
    (h : (k, v) ∈ fields) : lookup k fields = v := by
  induction fields with
  | nil => cases h
  | cons e rest ih =>
    obtain ⟨k', w⟩ := e
    obtain ⟨hfresh, hrest⟩ := List.nodup_cons.mp hnodup
    rw [lookup]
    rcases List.mem_cons.mp h with heq | hmem
    · simp_all
    · have hne : k' ≠ k := by
        rintro rfl
        exact hfresh (List.mem_map.mpr ⟨_, hmem, rfl⟩)
      rw [if_neg hne, ih hrest hmem]

def grown (t : Table) (v : Value) : Table :=
  { t with items := t.items.push v, fields := discard (.int (t.items.size + 1)) t.fields }

theorem slot?_grown {w : Value} (hposition : IsPosition (t.items.size + 1)) (v : Value) :
    (t.grown v).slot? w = if w = .int (t.items.size + 1) then some t.items.size else t.slot? w := by
  -- A field that is not at a position of the items is not at the next one either, unless it has that key.
  refine Option.ext fun i => ?_
  rw [slot?_eq_some_iff]
  have hsize : (t.grown v).items.size = t.items.size + 1 := by simp [grown]
  have hcast : Value.int (t.items.size + 1) = .int (t.items.size + 1 : Nat) := rfl
  split_ifs with hw
  · rw [hsize]
    constructor
    · rintro ⟨hint, hi, -⟩
      have := int_injective hi hposition (hint.symm.trans hw)
      exact congrArg some (by omega)
    · rintro ⟨⟩
      exact ⟨hw, hposition, by omega⟩
  · rw [slot?_eq_some_iff, hsize]
    refine and_congr_right fun hint => and_congr_right fun _ => ?_
    have hne : i ≠ t.items.size := by
      rintro rfl
      exact hw hint
    omega

namespace WellFormed

theorem grown (h : t.WellFormed) (hposition : IsPosition (t.items.size + 1)) (v : Value) : (t.grown v).WellFormed where
  nodup := h.nodup.sublist (List.filter_sublist.map Prod.fst)
  canonical k hk := h.canonical k (mem_keys_discard.mp hk).1
  free k hk := by
    obtain ⟨hmem, hne⟩ := mem_keys_discard.mp hk
    rw [slot?_grown hposition, if_neg hne, h.free k hmem]

theorem store (h : t.WellFormed) {key : Value} (hkey : t.slot? key = none) (v : Value) :
    Table.WellFormed { t with fields := Table.store (canonicalKey key) v t.fields } where
  nodup := by
    rcases keys_store (canonicalKey key) v t.fields with hkeys | ⟨hnew, hkeys⟩
    · exact hkeys ▸ h.nodup
    · show (List.map Prod.fst (Table.store _ v t.fields)).Nodup
      rw [hkeys]
      exact List.nodup_append.mpr ⟨h.nodup, List.nodup_singleton _, by grind⟩
  canonical k hk := by
    rcases mem_keys_store hk with hmem | rfl
    · exact h.canonical k hmem
    · exact Value.canonicalKey_idem key
  free k hk := by
    rcases mem_keys_store hk with hmem | rfl
    · exact h.free k hmem
    · exact (slot?_canonicalKey t key).trans hkey

theorem absorb (h : t.WellFormed) (fuel : Nat) : (t.absorb fuel).WellFormed := by
  induction fuel generalizing t with
  | zero => exact h
  | succ fuel ih =>
    unfold Table.absorb
    split
    · exact h
    · rename_i hnil
      have hposition : IsPosition (t.items.size + 1) := by
        by_contra hnot
        exact hnil (by rw [item, if_neg (mt isPosition_iff.mp hnot)])
      exact ih (h.grown hposition _)

theorem set (h : t.WellFormed) (key v : Value) : (t.set key v).WellFormed := by
  unfold Table.set
  split
  · refine ⟨h.nodup, h.canonical, fun k hk => ?_⟩
    have hfree := h.free k hk
    simp only [Option.eq_none_iff_forall_ne_some, ne_eq, slot?_eq_some_iff, Array.size_setIfInBounds] at hfree ⊢
    exact hfree
  · rename_i hslot
    dsimp only
    split_ifs with hnext
    · obtain ⟨hkey, hposition, -⟩ := hnext
      rw [hkey]
      exact (h.grown (isPosition_iff.mp hposition) v).absorb _
    · exact h.store hslot v

theorem metatable (h : t.WellFormed) (m : Option Nat) : Table.WellFormed { t with metatable := m } :=
  ⟨h.nodup, h.canonical, h.free⟩

theorem fillRow (h : t.WellFormed) (row : List Value) : (t.fillRow row).WellFormed := by
  have hfold : ∀ (l : List Nat) (fields : List (Value × Value)),
      (l.foldl (fun fields (i : Nat) => discard (.int (i + 1)) fields) fields).Sublist fields ∧
        ∀ i ∈ l, .int (i + 1) ∉ (l.foldl (fun fields (i : Nat) => discard (.int (i + 1)) fields) fields).map Prod.fst := by
    intro l
    induction l with
    | nil => exact fun fields => ⟨.refl _, by simp⟩
    | cons i l ih =>
      intro fields
      obtain ⟨hsub, hgone⟩ := ih (discard (.int (i + 1)) fields)
      refine ⟨hsub.trans List.filter_sublist, List.forall_mem_cons.mpr ⟨fun hmem => ?_, hgone⟩⟩
      exact (mem_keys_discard.mp ((hsub.map Prod.fst).subset hmem)).2 rfl
  obtain ⟨hsub, hgone⟩ := hfold (List.range row.length) t.fields
  have hkeys := hsub.map Prod.fst
  refine ⟨h.nodup.sublist hkeys, fun k hk => h.canonical k (hkeys.subset hk), fun k hk => ?_⟩
  rw [Option.eq_none_iff_forall_ne_some]
  intro i hi
  obtain ⟨rfl, hposition, hlt⟩ := slot?_eq_some_iff.mp hi
  by_cases hrow : i < row.length
  · exact hgone i (List.mem_range.mpr hrow) hk
  · have hold : t.slot? (.int (i + 1 : Nat)) = some i := by
      refine slot?_eq_some_iff.mpr ⟨rfl, hposition, ?_⟩
      simp only [Table.fillRow, Array.size_append, List.size_toArray, Array.size_extract] at hlt
      omega
    rw [h.free _ (hkeys.subset hk)] at hold
    cases hold

theorem shiftUp (h : t.WellFormed) (first : Int) (n : Nat) : (Library.shiftUp t first n).WellFormed := by
  induction n generalizing t with
  | zero => exact h
  | succ n ih => exact ih (h.set _ _)

theorem shiftDown (h : t.WellFormed) (first : Int) (n : Nat) : (Library.shiftDown t first n).WellFormed := by
  induction n generalizing t first with
  | zero => exact h
  | succ n ih => exact ih (h.set _ _) _

theorem foldl_setInt (h : t.WellFormed) (l : List (Value × Nat)) :
    (l.foldl (fun t (v, i) => t.setInt i v) t).WellFormed := by
  induction l generalizing t with
  | nil => exact h
  | cons e l ih => exact ih (h.set _ _)

end WellFormed

theorem get_of_slot {w : Value} {i : Nat} (h : t.slot? w = some i) : t.get w = t.items.getD i .nil := by simp [get, h]

theorem get_of_free {w : Value} (h : t.slot? w = none) : t.get w = lookup (canonicalKey w) t.fields := by simp [get, h]

theorem get_grown (hposition : IsPosition (t.items.size + 1)) (v w : Value) :
    (t.grown v).get w = if canonicalKey w = .int (t.items.size + 1) then v else t.get w := by
  have hcanonical : canonicalKey (.int (t.items.size + 1)) = .int (t.items.size + 1) :=
    Value.canonicalKey_int hposition
  rw [← get_canonicalKey, ← get_canonicalKey t w]
  have hidem := Value.canonicalKey_idem w
  generalize canonicalKey w = k at hidem ⊢
  split_ifs with hk
  · rw [get_of_slot (by rw [slot?_grown hposition, if_pos hk])]
    simp [grown]
  · have hslot : (t.grown v).slot? k = t.slot? k := by rw [slot?_grown hposition, if_neg hk]
    cases hold : t.slot? k with
    | some i =>
      obtain ⟨-, -, hi⟩ := slot?_eq_some_iff.mp hold
      rw [get_of_slot hold, get_of_slot (hslot.trans hold)]
      simp [grown, Array.getElem?_push, hi.ne]
    | none =>
      rw [get_of_free hold, get_of_free (hslot.trans hold), hidem]
      exact (lookup_discard _ _ _).trans (if_neg hk)

theorem get_absorb (fuel : Nat) (w : Value) : (t.absorb fuel).get w = t.get w := by
  induction fuel generalizing t with
  | zero => rfl
  | succ fuel ih =>
    unfold absorb
    split
    · rfl
    · rename_i hnil
      have hposition : IsPosition (t.items.size + 1) := by
        by_contra hnot
        exact hnil (by rw [item, if_neg (mt isPosition_iff.mp hnot)])
      rw [ih]
      refine (get_grown hposition _ w).trans ?_
      split_ifs with hw
      · rw [← get_canonicalKey t w, hw, item, if_pos (isPosition_iff.mpr hposition)]
        rfl
      · rfl

theorem get_setIfInBounds {i : Nat} (h : t.slot? (.int (i + 1 : Nat)) = some i) (k v : Value) :
    Table.get { t with items := t.items.setIfInBounds i v } k = if k = .int (i + 1 : Nat) then v else t.get k := by
  have hi := (slot?_eq_some_iff.mp h).2.2
  have hsame : Table.slot? { t with items := t.items.setIfInBounds i v } k = t.slot? k := by
    refine Option.ext fun j => ?_
    rw [slot?_eq_some_iff, slot?_eq_some_iff, Array.size_setIfInBounds]
  split_ifs with hk
  · rw [get_of_slot (hsame.trans (hk ▸ h))]
    simp [hi]
  · cases hold : t.slot? k with
    | some j =>
      have hne : i ≠ j := by
        rintro rfl
        exact hk (slot?_eq_some_iff.mp hold).1
      rw [get_of_slot hold, get_of_slot (hsame.trans hold)]
      simp [hne]
    | none => rw [get_of_free hold, get_of_free (hsame.trans hold)]

theorem get_store (key v w : Value) :
    Table.get { t with fields := store (canonicalKey key) v t.fields } w = match t.slot? w with
      | some _ => t.get w
      | none => if canonicalKey w = canonicalKey key then v else lookup (canonicalKey w) t.fields := by
  have hsame : Table.slot? { t with fields := store (canonicalKey key) v t.fields } w = t.slot? w := by
    refine Option.ext fun j => ?_
    rw [slot?_eq_some_iff, slot?_eq_some_iff]
  cases hold : t.slot? w with
  | some i => rw [get_of_slot (hsame.trans hold), get_of_slot hold]
  | none => rw [get_of_free (hsame.trans hold), lookup_store]

theorem get_set (t : Table) (key v w : Value) :
    (t.set key v).get w = if canonicalKey w = canonicalKey key then v else t.get w := by
  rw [← get_canonicalKey t w]
  unfold set
  split
  · rename_i i hslot
    obtain ⟨rfl, hposition, hi⟩ := slot?_eq_some_iff.mp hslot
    rw [Value.canonicalKey_int hposition, ← get_canonicalKey]
    exact get_setIfInBounds hslot _ v
  · rename_i hslot
    dsimp only
    split_ifs with hnext hk hk
    · obtain ⟨hkey, hposition, -⟩ := hnext
      rw [get_absorb, hkey]
      exact (get_grown (isPosition_iff.mp hposition) v w).trans (if_pos (hk.trans hkey))
    · obtain ⟨hkey, hposition, -⟩ := hnext
      rw [get_absorb, hkey, get_canonicalKey]
      exact (get_grown (isPosition_iff.mp hposition) v w).trans (if_neg (hkey ▸ hk))
    · have hfree : t.slot? w = none := by rw [← slot?_canonicalKey, hk, slot?_canonicalKey, hslot]
      rw [get_store, hfree]
      exact if_pos hk
    · rw [get_store, get_canonicalKey]
      cases hold : t.slot? w with
      | some i => rfl
      | none => exact (if_neg hk).trans (get_of_free hold).symm

theorem getKey_key (t : Table) (w : Value) : t.getKey w.key = t.get w := by
  cases hkey : w.key with
  | position n =>
    obtain ⟨rfl, hposition⟩ := Value.key_eq_position_iff.mp hkey
    simp [getKey, item, isPosition_iff.mpr hposition]
  | string s => rw [Value.key_eq_string hkey, getKey]
  | other k =>
    have hk := Value.key_eq_other hkey
    have hself : k.key = .other k := by rw [← hk, Value.key_canonicalKey, hkey, hk]
    rw [getKey, if_pos hself, ← hk, get_canonicalKey]

theorem exists_key_of_getKey {k : Key Value} (h : t.getKey k ≠ .nil) : ∃ w : Value, w.key = k := by
  cases k with
  | position n =>
    refine ⟨.int n, Value.key_eq_position_iff.mpr ⟨rfl, ?_⟩⟩
    by_contra hnot
    exact h (by rw [getKey, item, if_neg (mt isPosition_iff.mp hnot)])
  | string s => exact ⟨.string s, rfl⟩
  | other k =>
    refine ⟨k, ?_⟩
    by_contra hnot
    exact h (by rw [getKey, if_neg hnot])

theorem getKey_set (t : Table) (key v : Value) (k : Key Value) :
    (t.set key v).getKey k = if k = key.key then v else t.getKey k := by
  by_cases hk : ∃ w : Value, w.key = k
  · obtain ⟨w, rfl⟩ := hk
    rw [getKey_key, getKey_key, get_set]
    refine if_congr ⟨fun h => ?_, Value.canonicalKey_eq_of_key⟩ rfl rfl
    rw [← Value.key_canonicalKey w, h, Value.key_canonicalKey]
  · have hnil : ∀ t : Table, t.getKey k = .nil := fun t => by
      by_contra h
      exact hk (exists_key_of_getKey h)
    rw [hnil, hnil, if_neg fun h => hk ⟨key, h.symm⟩]

theorem mem_keys {k : Key Value} : k ∈ t.keys ↔ (∃ i < t.items.size, t.item (i + 1) ≠ .nil ∧ k = .position (i + 1)) ∨
    ∃ e ∈ t.fields, e.2 ≠ .nil ∧ k = e.1.key := by
  simp only [keys, List.mem_append, List.mem_filterMap, List.mem_range]
  grind

namespace WellFormed

theorem mem_keys_iff (h : t.WellFormed) (k : Key Value) : k ∈ t.keys ↔ t.getKey k ≠ .nil := by
  rw [mem_keys]
  constructor
  · rintro (⟨i, -, hitem, rfl⟩ | ⟨e, he, hv, rfl⟩)
    · exact hitem
    · have hmem : e.1 ∈ t.fields.map Prod.fst := List.mem_map.mpr ⟨e, he, rfl⟩
      rw [getKey_key, get_of_free (h.free _ hmem), h.canonical _ hmem, lookup_of_mem h.nodup he]
      exact hv
  · intro hk
    obtain ⟨w, rfl⟩ := exists_key_of_getKey hk
    rw [getKey_key] at hk
    cases hslot : t.slot? w with
    | some i =>
      obtain ⟨rfl, hposition, hi⟩ := slot?_eq_some_iff.mp hslot
      refine .inl ⟨i, hi, ?_, Value.key_eq_position_iff.mpr ⟨rfl, hposition⟩⟩
      rwa [item, if_pos (isPosition_iff.mpr hposition)]
    | none =>
      rw [get_of_free hslot] at hk
      exact .inr ⟨_, mem_of_lookup rfl hk, hk, (Value.key_canonicalKey w).symm⟩

theorem keys_nodup (h : t.WellFormed) : t.keys.Nodup := by
  refine List.nodup_append.mpr ⟨?_, ?_, ?_⟩
  · refine List.nodup_range.filterMap fun i j k hi hj => ?_
    grind
  · have hfields : t.fields.Nodup := h.nodup.of_map
    have hpairwise : t.fields.Pairwise fun e e' => e.1 ≠ e'.1 := List.pairwise_map.mp h.nodup
    refine List.pairwise_filterMap.mpr (hpairwise.imp_of_mem fun {e e'} he he' hne k hk k' hk' => ?_)
    rintro rfl
    have hcanonical := h.canonical _ (List.mem_map.mpr ⟨e, he, rfl⟩)
    have hcanonical' := h.canonical _ (List.mem_map.mpr ⟨e', he', rfl⟩)
    refine hne (Value.key_injective ?_ hcanonical hcanonical')
    grind
  · rintro k hk k' hk' rfl
    obtain ⟨i, hi, hitem⟩ := List.mem_filterMap.mp hk
    obtain ⟨e, he, hfield⟩ := List.mem_filterMap.mp hk'
    have hkey : e.1.key = .position (i + 1) := by grind
    obtain ⟨hint, hposition⟩ := Value.key_eq_position_iff.mp hkey
    have hfree := h.free e.1 (List.mem_map.mpr ⟨e, he, rfl⟩)
    rw [slot?_eq_some_iff.mpr ⟨hint, hposition, List.mem_range.mp hi⟩] at hfree
    cases hfree

end WellFormed

def IsBorder (t : Table) (n : Nat) : Prop := (n = 0 ∨ t.item n ≠ .nil) ∧ t.item (n + 1) = .nil

theorem isBorder_borderIn {fuel i j : Nat} (hlt : i < j) (hfuel : j - i ≤ fuel + 1) (hi : i = 0 ∨ t.item i ≠ .nil)
    (hj : t.item j = .nil) : t.IsBorder (t.borderIn fuel i j) := by
  -- Halving keeps a present position on the left and an absent one on the right.
  induction fuel generalizing i j with
  | zero =>
    obtain rfl : j = i + 1 := by omega
    exact ⟨hi, hj⟩
  | succ fuel ih =>
    unfold borderIn
    dsimp only
    split_ifs with hstop hm
    · obtain rfl : j = i + 1 := by omega
      exact ⟨hi, hj⟩
    · exact ih (by omega) (by omega) hi hm
    · exact ih (by omega) (by omega) (.inr hm) hj

theorem borderAfter_spec (fuel n : Nat) : n ≤ t.borderAfter fuel n ∧
    (∀ i, n < i → i ≤ t.borderAfter fuel n → t.item i ≠ .nil) ∧
      (t.item (t.borderAfter fuel n + 1) = .nil ∨ t.borderAfter fuel n = n + fuel) := by
  induction fuel generalizing n with
  | zero => exact ⟨le_rfl, fun i hi hi' => absurd (hi.trans_le hi') (lt_irrefl n), .inr rfl⟩
  | succ fuel ih =>
    unfold borderAfter
    split_ifs with hnext
    · exact ⟨le_rfl, fun i _ _ => by omega, .inl hnext⟩
    · obtain ⟨hle, hitems, hstop⟩ := ih (n + 1)
      refine ⟨by omega, fun i hi hi' => ?_, hstop.imp_right fun h => by omega⟩
      rcases Nat.lt_or_eq_of_le hi with hlt | rfl
      · exact hitems i hlt hi'
      · exact hnext

theorem length_le_of_items {n : Nat} (h : ∀ i, t.items.size < i → i ≤ t.items.size + n → t.item i ≠ .nil) :
    n ≤ t.fields.length := by
  -- Positions behind the items are keys of fields, so there are not more of them than fields.
  have hposition : ∀ i < n, IsPosition (t.items.size + 1 + i) := by
    intro i hi
    by_contra hnot
    exact h (t.items.size + 1 + i) (by omega) (by omega) (by rw [item, if_neg (mt isPosition_iff.mp hnot)])
  have hnodup : ((List.range n).map fun i => Value.int (t.items.size + 1 + i : Nat)).Nodup := by
    refine List.nodup_range.map_on fun i hi j hj heq => ?_
    have := int_injective (hposition i (List.mem_range.mp hi)) (hposition j (List.mem_range.mp hj)) heq
    omega
  have hsubset : ((List.range n).map fun i => Value.int (t.items.size + 1 + i : Nat)) ⊆ t.fields.map Prod.fst := by
    intro k hk
    obtain ⟨i, hi, rfl⟩ := List.mem_map.mp hk
    have hi := List.mem_range.mp hi
    have hitem := h (t.items.size + 1 + i) (by omega) (by omega)
    have hslot : t.slot? (.int (t.items.size + 1 + i : Nat)) = none := by
      rw [Option.eq_none_iff_forall_ne_some]
      intro j hj
      obtain ⟨heq, hj', hlt⟩ := slot?_eq_some_iff.mp hj
      have := int_injective (hposition i hi) hj' heq
      omega
    rw [item, if_pos (isPosition_iff.mpr (hposition i hi)), get_of_free hslot,
      Value.canonicalKey_int (hposition i hi)] at hitem
    exact List.mem_map.mpr ⟨_, mem_of_lookup rfl hitem, rfl⟩
  simpa using (hnodup.subperm hsubset).length_le

theorem isBorder_length (t : Table) : t.IsBorder t.length := by
  unfold length
  dsimp only
  split_ifs with hlast
  · exact isBorder_borderIn hlast.1 (by omega) (.inl rfl) hlast.2
  · obtain ⟨hle, hitems, hstop⟩ := t.borderAfter_spec t.fields.length t.items.size
    refine ⟨?_, ?_⟩
    · rcases Nat.lt_or_eq_of_le hle with hlt | heq
      · exact .inr (hitems _ hlt le_rfl)
      · rw [← heq]
        by_contra hnot
        push Not at hnot
        exact hlast ⟨by omega, hnot.2⟩
    · by_contra hnext
      have hfull := hstop.resolve_left hnext
      have hcount : t.fields.length + 1 ≤ t.fields.length := by
        refine length_le_of_items fun i hi hi' => ?_
        rcases Nat.lt_or_eq_of_le hi' with hlt | rfl
        · exact hitems i hi (by omega)
        · rwa [hfull] at hnext
      omega

end Table

end Interleave.Script
