import Mathlib.Data.Prod.Basic
import Mathlib.Logic.Pairwise
import Mathlib.Order.Defs.Unbundled
import Mathlib.Tactic.SplitIfs
import Interleave.Assoc

/-! Association lists as finite maps: what a lookup sees after each operation, and that the keys stay in
ascending order. Lookups after an insertion need no order at all. -/

namespace Interleave.Assoc

variable {α β γ : Type}

section Lookup

variable [DecidableEq α]

@[simp] theorem get?_nil (k : α) : get? k ([] : List (α × β)) = none := rfl

theorem get?_cons (k : α) (e : α × β) (m : List (α × β)) :
    get? k (e :: m) = if k = e.1 then some e.2 else get? k m := rfl

@[simp] theorem get?_modify (k' k : α) (f : β → β) (m : List (α × β)) :
    get? k' (modify k f m) = if k' = k then (get? k m).map f else get? k' m := by
  induction m with
  | nil => simp [modify]
  | cons e m ih =>
    simp only [modify]
    split_ifs <;> simp only [get?_cons] <;> grind

theorem keys_modify (k : α) (f : β → β) (m : List (α × β)) :
    (modify k f m).map Prod.fst = m.map Prod.fst := by
  induction m with
  | nil => rfl
  | cons e m ih =>
    simp only [modify]
    split_ifs <;> simp [ih]

theorem map_modify {f : β → β} {g : α × β → γ} {k : α} {m : List (α × β)}
    (h : ∀ v, g (k, f v) = g (k, v)) : (modify k f m).map g = m.map g := by
  induction m with
  | nil => rfl
  | cons e m ih =>
    obtain ⟨k', v⟩ := e
    simp only [modify]
    split_ifs with hk
    · subst hk
      simp [h]
    · simp [ih]

theorem get?_map (k : α) (f : β → γ) (m : List (α × β)) :
    get? k (m.map fun e => (e.1, f e.2)) = (get? k m).map f := by
  induction m with
  | nil => rfl
  | cons e m ih =>
    simp only [List.map_cons, get?_cons, ih]
    split_ifs <;> rfl

theorem mem_of_get? {k : α} {v : β} {m : List (α × β)} (h : get? k m = some v) : (k, v) ∈ m := by
  induction m with
  | nil => cases h
  | cons e m ih =>
    rw [get?_cons] at h
    split_ifs at h with hk
    · cases h
      subst hk
      exact List.mem_cons_self
    · exact List.mem_cons_of_mem _ (ih h)

theorem mem_modify {k : α} {f : β → β} {m : List (α × β)} {e : α × β} (h : e ∈ modify k f m) :
    e ∈ m ∨ ∃ v, (k, v) ∈ m ∧ e = (k, f v) := by
  induction m with
  | nil => cases h
  | cons e' m ih =>
    obtain ⟨k', v⟩ := e'
    simp only [modify] at h
    split_ifs at h with hk <;> grind

theorem get?_erase_of_ne {k' k : α} (hne : k' ≠ k) (m : List (α × β)) : get? k' (erase k m) = get? k' m := by
  induction m with
  | nil => rfl
  | cons e m ih =>
    simp only [erase]
    split_ifs with hk
    · rw [get?_cons, if_neg (hk ▸ hne)]
    · rw [get?_cons, get?_cons, ih]

theorem get?_foldl_of_ne {f : List (α × β) → γ → List (α × β)} (key : γ → α) {k : α}
    (hf : ∀ m x, key x ≠ k → get? k (f m x) = get? k m) {xs : List γ} (hxs : ∀ x ∈ xs, key x ≠ k)
    (m : List (α × β)) : get? k (xs.foldl f m) = get? k m := by
  induction xs generalizing m with
  | nil => rfl
  | cons x xs ih =>
    obtain ⟨hx, hxs⟩ := List.forall_mem_cons.mp hxs
    rw [List.foldl_cons, ih hxs, hf m x hx]

theorem get?_foldl_of_mem {f : List (α × β) → γ → List (α × β)} {k : α} {P : List (α × β) → Prop}
    {Q : Option β → Prop} {xs : List γ} (key : γ → α) (hP : ∀ m x, P m → P (f m x))
    (hf : ∀ m x, key x ≠ k → get? k (f m x) = get? k m)
    (hQ : ∀ m x, x ∈ xs → key x = k → P m → Q (get? k (f m x))) (hx : ∃ x ∈ xs, key x = k)
    {m : List (α × β)} (hm : P m) : Q (get? k (xs.foldl f m)) := by
  induction xs generalizing m with
  | nil => simp at hx
  | cons x xs ih =>
    rw [List.foldl_cons]
    by_cases hlater : ∃ y ∈ xs, key y = k
    · exact ih (fun m y hy => hQ m y (List.mem_cons_of_mem x hy)) hlater (hP m x hm)
    · rw [get?_foldl_of_ne key hf fun y hy hk => hlater ⟨y, hy, hk⟩]
      obtain ⟨y, hy, hk⟩ := hx
      rcases List.mem_cons.mp hy with rfl | hy
      · exact hQ m y List.mem_cons_self hk hm
      · exact absurd ⟨y, hy, hk⟩ hlater

theorem mem_erase {k : α} {m : List (α × β)} {e : α × β} (h : e ∈ erase k m) : e ∈ m := by
  induction m with
  | nil => cases h
  | cons e' m ih =>
    simp only [erase] at h
    split_ifs at h <;> grind

end Lookup

section Order

variable [LT α]

def Ascending (m : List (α × β)) : Prop := m.Pairwise fun x y => x.1 < y.1

@[simp] theorem ascending_nil : Ascending ([] : List (α × β)) := List.Pairwise.nil

theorem ascending_iff_keys {m : List (α × β)} :
    Ascending m ↔ (m.map Prod.fst).Pairwise (· < ·) := by
  rw [Ascending, List.pairwise_map]

theorem ascending_of_keys {m : List (α × β)} {m' : List (α × γ)}
    (hk : m'.map Prod.fst = m.map Prod.fst) (h : Ascending m) : Ascending m' := by
  rw [ascending_iff_keys] at h ⊢
  rwa [hk]

variable [DecidableEq α]

theorem ascending_modify {k : α} {f : β → β} {m : List (α × β)} (h : Ascending m) :
    Ascending (modify k f m) := ascending_of_keys (keys_modify k f m) h

theorem ascending_erase {k : α} {m : List (α × β)} (h : Ascending m) : Ascending (erase k m) := by
  induction m with
  | nil => exact ascending_nil
  | cons e m ih =>
    obtain ⟨hhead, htail⟩ := List.pairwise_cons.mp h
    simp only [erase]
    split_ifs
    · exact htail
    · exact List.pairwise_cons.mpr ⟨fun x hx => hhead x (mem_erase hx), ih htail⟩

variable [DecidableLT α]

@[simp] theorem get?_insert (k' k : α) (v : β) (m : List (α × β)) :
    get? k' (insert k v m) = if k' = k then some v else get? k' m := by
  induction m with
  | nil => rfl
  | cons e m ih =>
    simp only [insert]
    split_ifs with hlt heq hk <;> simp only [get?_cons] <;> grind

theorem mem_insert {k : α} {v : β} {m : List (α × β)} {e : α × β} (h : e ∈ insert k v m) :
    e = (k, v) ∨ e ∈ m := by
  induction m with
  | nil => exact .inl (List.mem_singleton.mp h)
  | cons e' m ih =>
    simp only [insert] at h
    split_ifs at h <;> grind

end Order

section TotalOrder

variable [LT α] [DecidableEq α] [IsStrictTotalOrder α (· < ·)]

theorem get?_eq_some_iff {k : α} {v : β} {m : List (α × β)} (h : Ascending m) :
    get? k m = some v ↔ (k, v) ∈ m := by
  refine ⟨mem_of_get?, fun hmem => ?_⟩
  induction m with
  | nil => cases hmem
  | cons e m ih =>
    obtain ⟨hhead, htail⟩ := List.pairwise_cons.mp h
    rw [get?_cons]
    rcases List.mem_cons.mp hmem with rfl | hmem
    · simp
    · have hne : k ≠ e.1 := fun hk => Std.Irrefl.irrefl (r := (· < ·)) e.1 (hk ▸ hhead (k, v) hmem)
      rw [if_neg hne]
      exact ih htail hmem

theorem get?_erase_self {k : α} {m : List (α × β)} (h : Ascending m) : get? k (erase k m) = none := by
  induction m with
  | nil => rfl
  | cons e m ih =>
    obtain ⟨hhead, htail⟩ := List.pairwise_cons.mp h
    simp only [erase]
    split_ifs with hk
    · subst hk
      rw [Option.eq_none_iff_forall_not_mem]
      exact fun v hv => Std.Irrefl.irrefl (r := (· < ·)) _ (hhead (_, v) (mem_of_get? hv))
    · rw [get?_cons, if_neg hk, ih htail]

theorem modify_eq_map {k : α} {f : β → β} {m : List (α × β)} (h : Ascending m) :
    modify k f m = m.map fun e => (e.1, if e.1 = k then f e.2 else e.2) := by
  induction m with
  | nil => rfl
  | cons e m ih =>
    obtain ⟨hhead, htail⟩ := List.pairwise_cons.mp h
    rw [modify, List.map_cons]
    by_cases hk : k = e.1
    · have hrest : m.map (fun e => (e.1, if e.1 = k then f e.2 else e.2)) = m := by
        refine (List.map_congr_left fun e' he' => ?_).trans (List.map_id m)
        have hne : e'.1 ≠ k := by
          intro heq
          have hlt := hhead e' he'
          rw [heq, hk] at hlt
          exact Std.Irrefl.irrefl (r := (· < ·)) e.1 hlt
        simp [hne]
      rw [if_pos hk, if_pos hk.symm, hrest]
    · rw [if_neg hk, if_neg (Ne.symm hk), ih htail]

variable [DecidableLT α]

theorem ascending_insert {k : α} {v : β} {m : List (α × β)} (h : Ascending m) :
    Ascending (insert k v m) := by
  induction m with
  | nil => exact List.pairwise_singleton _ _
  | cons e m ih =>
    obtain ⟨hhead, htail⟩ := List.pairwise_cons.mp h
    simp only [insert]
    split_ifs with hlt heq
    · refine List.pairwise_cons.mpr ⟨fun x hx => ?_, h⟩
      rcases List.mem_cons.mp hx with rfl | hx
      · exact hlt
      · exact IsTrans.trans _ _ _ hlt (hhead x hx)
    · subst heq
      exact List.pairwise_cons.mpr ⟨hhead, htail⟩
    · have hgt : e.1 < k := by
        rcases trichotomous_of (· < ·) k e.1 with h | h | h
        · exact absurd h hlt
        · exact absurd h heq
        · exact h
      refine List.pairwise_cons.mpr ⟨fun x hx => ?_, ih htail⟩
      rcases mem_insert hx with rfl | hx
      · exact hgt
      · exact hhead x hx

theorem ascending_ofList (entries : List (α × β)) : Ascending (ofList entries) :=
  List.foldlRecOn entries _ ascending_nil fun _ hm _ _ => ascending_insert hm

theorem insert_eq_modify {k : α} {w : β} {m : List (α × β)} (h : Ascending m) (hk : get? k m = some w)
    (f : β → β) : insert k (f w) m = modify k f m := by
  induction m with
  | nil => cases hk
  | cons e m ih =>
    obtain ⟨hhead, htail⟩ := List.pairwise_cons.mp h
    rw [get?_cons] at hk
    simp only [insert, modify]
    by_cases heq : k = e.1
    · subst heq
      rw [if_pos rfl, Option.some.injEq] at hk
      simp [Std.Irrefl.irrefl (r := (· < ·)) e.1, hk]
    · rw [if_neg heq] at hk
      have hlt : e.1 < k := hhead _ (mem_of_get? hk)
      have hge : ¬ k < e.1 := fun h' =>
        Std.Irrefl.irrefl (r := (· < ·)) k (IsTrans.trans _ _ _ h' hlt)
      simp [heq, hge, ih htail hk]

theorem insert_comm {k k' : α} (v v' : β) (hne : k ≠ k') (m : List (α × β)) :
    insert k v (insert k' v' m) = insert k' v' (insert k v m) := by
  have hasymm : ∀ x y : α, x < y → ¬ y < x := fun x y h h' =>
    Std.Irrefl.irrefl (r := (· < ·)) x (IsTrans.trans _ _ _ h h')
  have htrans : ∀ x y z : α, x < y → y < z → x < z := IsTrans.trans
  have htri : ∀ x y : α, x < y ∨ x = y ∨ y < x := trichotomous_of (· < ·)
  induction m with
  | nil =>
    simp only [insert]
    grind
  | cons e m ih =>
    simp only [insert]
    grind [insert]

end TotalOrder

end Interleave.Assoc
