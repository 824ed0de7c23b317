import Interleave.Model.Load
import Interleave.Proofs.ScriptEffects

/-! Running scripts obeys the rules that models rely on, in every store that a script can leave. -/

namespace Interleave.Script

open Interpreter (Heap IsPosition)

namespace Value

theorem outside_inside {v : Interpreter.Value Nat} (h : ∀ typeName, v ≠ .other typeName) : (inside v).outside = v := by
  cases v with
  | other typeName => exact absurd rfl (h typeName)
  | _ => rfl

theorem truthy_outside (v : Value) : v.outside.truthy = v.truthy := by
  cases v with
  | bool b => cases b <;> rfl
  | _ => rfl

@[simp] theorem outside_eq_nil {v : Value} : v.outside = .nil ↔ v = .nil := by cases v <;> simp [outside]

end Value

def heap : Heap Store Nat where
  valid := Store.Sound
  made s r := r < s.tables.size
  globals := Store.globals

namespace Store

variable {s : Store}

theorem Sound.getD (hs : s.Sound) (id : Nat) : (s.tables.getD id .empty).WellFormed := by
  rw [Array.getD_eq_getD_getElem?]
  cases hid : s.tables[id]? with
  | none => exact Table.wellFormed_empty
  | some t => exact hs.tables t (Array.mem_of_getElem? hid)

theorem getD_modify {f : Table → Table} {r r' : Nat} (hr : r < s.tables.size) :
    (s.tables.modify r f).getD r' .empty =
      if r' = r then f (s.tables.getD r .empty) else s.tables.getD r' .empty := by
  simp only [Array.getD_eq_getD_getElem?, Array.getElem?_modify]
  split_ifs with heq heq' heq'
  · subst heq
    simp [hr]
  · exact absurd heq.symm heq'
  · exact absurd heq'.symm heq
  · rfl

theorem keepsBut_modify (hs : s.Sound) {r : Nat} (hr : r < s.tables.size) {f : Table → Table}
    (hf : ∀ t, t.WellFormed → (f t).WellFormed) :
    interpreter.KeepsBut heap (· = r) s { s with tables := s.tables.modify r f } where
  valid := (Effect.changeTable s r hf).sound hs
  globals := rfl
  made r' hr' := by simpa [heap] using hr'
  get r' _ hne key := by
    show ((s.tables.modify r f).getD r' .empty |>.getKey key).outside = _
    rw [getD_modify hr, if_neg hne]
    rfl

end Store

theorem Table.get_blank (n : Nat) (metatable : Option Nat) (w : Value) :
    (Table.mk (Array.replicate n .nil) [] metatable).get w = .nil := by
  unfold get
  split
  · rw [Array.getD_eq_getD_getElem?, Array.getElem?_replicate]
    split_ifs <;> rfl
  · rfl

theorem Table.setKey_eq {t : Table} {k : Interpreter.Key Value} (hk : ∀ w, k ≠ .other w)
    (hposition : ∀ n, k = .position n → IsPosition n) : ∃ w : Value, w.key = k ∧ ∀ v, t.setKey k v = t.set w v := by
  cases k with
  | position n => exact ⟨.int n, Value.key_eq_position_iff.mpr ⟨rfl, hposition n rfl⟩, fun _ => rfl⟩
  | string s => exact ⟨.string s, rfl, fun _ => rfl⟩
  | other w => exact absurd rfl (hk w)

theorem Table.WellFormed.setKey {t : Table} (h : t.WellFormed) (k : Interpreter.Key Value) (v : Value) :
    (t.setKey k v).WellFormed := by
  cases k with
  | position n => exact h.set (.int n) v
  | string s => exact h.set (.string s) v
  | other w => exact h.set w v

theorem interpreter_lawful : interpreter.Lawful heap where
  keys_nodup hs r := (hs.getD r).keys_nodup
  mem_keys hs r key := by
    show key ∈ (Table.keys _) ↔ Value.outside _ ≠ .nil
    rw [(hs.getD r).mem_keys_iff, ne_eq, ne_eq, Value.outside_eq_nil]
  isPosition := by
    intro s _ r n h
    have hitem : (s.tables.getD r .empty).item n ≠ .nil := fun hnil => h (Value.outside_eq_nil.mpr hnil)
    by_contra hnot
    exact hitem (by rw [Table.item, if_neg (mt Table.isPosition_iff.mp hnot)])
  border := by
    intro s _ r
    obtain ⟨hlast, hnext⟩ := (s.tables.getD r .empty).isBorder_length
    exact ⟨hlast.imp_right (mt Value.outside_eq_nil.mp), Value.outside_eq_nil.mpr hnext⟩
  made_globals hs := hs.globals
  create := by
    intro s hs n
    refine ⟨(Effect.newTable s (Table.wellFormed_row _ _)).sound hs, rfl, fun r hr => ?_, fun r hr _ key => ?_⟩
    · simp only [heap, interpreter, Array.size_push] at hr ⊢
      omega
    · have hlt : r < s.tables.size := hr
      simp [interpreter, Array.getElem?_push, hlt.ne]
  create_new := by
    intro s _ n
    refine ⟨by simp [heap, interpreter], by simp [heap, interpreter], fun key => ?_⟩
    refine Value.outside_eq_nil.mpr ?_
    by_contra hget
    have hnew : (s.tables.push ⟨Array.replicate n .nil, [], none⟩).getD s.tables.size .empty =
        ⟨Array.replicate n .nil, [], none⟩ := by simp
    obtain ⟨w, rfl⟩ := Table.exists_key_of_getKey hget
    rw [Table.getKey_key] at hget
    refine hget ?_
    show ((s.tables.push _).getD s.tables.size .empty).get w = .nil
    rw [hnew, Table.get_blank]
  put := by
    intro s hs r hr key _ v _
    exact Store.keepsBut_modify hs hr fun t ht => ht.setKey key _
  get_put := by
    intro s hs r hr key hkey hposition v hv
    obtain ⟨w, rfl, hset⟩ := Table.setKey_eq hkey hposition
    have hget : ∀ key', interpreter.get r key' (interpreter.put r w.key v s) =
        if key' = w.key then v else interpreter.get r key' s := by
      intro key'
      show ((s.tables.modify r _).getD r .empty |>.getKey key').outside = _
      rw [Store.getD_modify hr, if_pos rfl, hset, Table.getKey_set]
      split_ifs
      · exact Value.outside_inside hv
      · rfl
    exact ⟨(hget _).trans (if_pos rfl), fun key' hne => (hget key').trans (if_neg hne)⟩
  setState := by
    intro s hs v hv
    refine ⟨Store.keepsBut_modify hs hs.globals fun t ht => ht.set _ _, ?_⟩
    show ((s.tables.modify s.globals _).getD s.globals .empty |>.get Store.stateKey).outside = v
    rw [Store.getD_modify hs.globals, if_pos rfl, Table.get_set, if_pos rfl, Value.outside_inside hv]
  call := by
    intro s hs f args
    have hcall := (s.call_effects f (s.state :: args.map Value.int)).sound hs
    simp only [interpreter]
    split <;> simp_all [heap]

end Interleave.Script

namespace Interleave.Model

open Script

theorem load_eq_ok {name : String} {source : Source} {m : Model Store Value} {x₀ : Machine Store}
    (h : load name source = .ok (m, x₀)) :
    ∃ s : Store, s.Sound ∧ interpreter.start name s.declarations s = .ok (m, x₀) := by
  unfold load at h
  split at h
  · cases h
  · rename_i main hread
    have hsound := Store.sound_runChunk source.chunkName main
    split at h
    · cases h
    · rename_i s hrun
      rw [hrun] at hsound
      split at h
      · cases h
      · rename_i hstart
        cases h
        exact ⟨s, hsound, hstart⟩

theorem exists_load {name : String} {source : Source} {check : Model Store Value → Machine Store → Bool}
    (h : (match load name source with
      | .ok r => check r.1 r.2
      | .error _ => false) = true) :
    ∃ m x₀, load name source = .ok (m, x₀) ∧ check m x₀ = true := by
  split at h
  · exact ⟨_, _, ‹_›, h⟩
  · cases h

end Interleave.Model
