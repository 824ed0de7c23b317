import Interleave.Proofs.Assoc
import Interleave.State
import Mathlib.Algebra.Order.Ring.Int
import Mathlib.Data.List.Basic
import Mathlib.Data.List.Forall2
import Mathlib.Data.List.Nodup
import Mathlib.Tactic.ByContra

/-! The marks of a state. What the driver reported about the actors, the profile, never changes while a state
is on the stack; the marks say which outcomes have been handed out and which actors are still to be tried. -/

namespace Interleave

namespace ActorStatus

structure Tallied (st : ActorStatus) : Prop where
  one_le_limit : 1 ≤ st.limit
  taken_nonneg : 0 ≤ st.taken
  taken_le : st.taken ≤ st.limit
  done_iff : st.done = true ↔ st.taken = st.limit

structure Fresh (st : ActorStatus) : Prop where
  one_le_limit : 1 ≤ st.limit
  taken : st.taken = 0
  done : st.done = false
  todo : st.todo = false

theorem Fresh.tallied {st : ActorStatus} (h : st.Fresh) : st.Tallied where
  one_le_limit := h.one_le_limit
  taken_nonneg := h.taken.ge
  taken_le := by have := h.one_le_limit; have := h.taken; omega
  done_iff := by
    have hlimit := h.one_le_limit
    have htaken := h.taken
    simp only [h.done, Bool.false_eq_true, false_iff]
    omega

theorem fresh_fresh (enabled : Bool) (outcomes : Int) : (fresh enabled outcomes).Fresh :=
  ⟨le_max_left _ _, rfl, rfl, rfl⟩

theorem Tallied.lt_of_not_done {st : ActorStatus} (h : st.Tallied) (hd : st.done = false) :
    st.taken < st.limit := by
  have hne : st.taken ≠ st.limit := fun he => by simp [h.done_iff.mpr he] at hd
  exact lt_of_le_of_ne h.taken_le hne

theorem Tallied.consider {st : ActorStatus} (h : st.Tallied) (hd : st.done = false) :
    st.consider.Tallied := by
  have hlt := h.lt_of_not_done hd
  have hnonneg := h.taken_nonneg
  have hone := h.one_le_limit
  unfold ActorStatus.consider
  dsimp only
  split_ifs with hle
  · exact ⟨hone, by dsimp only; omega, by dsimp only; omega, by simp; omega⟩
  · exact ⟨hone, by dsimp only; omega, by dsimp only; omega, by simp [hd]; omega⟩

@[simp] theorem consider_taken (st : ActorStatus) : st.consider.taken = st.taken + 1 := by
  unfold consider
  dsimp only
  split_ifs <;> rfl

@[simp] theorem consider_enabled (st : ActorStatus) : st.consider.enabled = st.enabled := by
  unfold consider
  dsimp only
  split_ifs <;> rfl

@[simp] theorem consider_limit (st : ActorStatus) : st.consider.limit = st.limit := by
  unfold consider
  dsimp only
  split_ifs <;> rfl

theorem consider_marked {st : ActorStatus} (h : st.todo = true ∨ st.done = true) :
    st.consider.todo = true ∨ st.consider.done = true := by
  unfold consider
  dsimp only
  split_ifs
  · exact .inr rfl
  · exact h

def Remarked (st st' : ActorStatus) : Prop := st' = st ∨ (st.done = false ∧ st' = { st with todo := true })

theorem remarked_markTodo (st : ActorStatus) : st.Remarked st.markTodo := by
  unfold markTodo
  split_ifs with hd
  · exact .inl rfl
  · exact .inr ⟨by simpa using hd, rfl⟩

namespace Remarked

variable {st st' : ActorStatus} (h : st.Remarked st')

include h

theorem enabled : st'.enabled = st.enabled := by obtain rfl | ⟨-, rfl⟩ := h <;> rfl

theorem limit : st'.limit = st.limit := by obtain rfl | ⟨-, rfl⟩ := h <;> rfl

theorem taken : st'.taken = st.taken := by obtain rfl | ⟨-, rfl⟩ := h <;> rfl

theorem tallied (ht : st.Tallied) : st'.Tallied := by
  obtain rfl | ⟨-, rfl⟩ := h
  · exact ht
  · exact ⟨ht.one_le_limit, ht.taken_nonneg, ht.taken_le, ht.done_iff⟩

theorem marked (hm : st.todo = true ∨ st.done = true) : st'.todo = true ∨ st'.done = true := by
  obtain rfl | ⟨-, rfl⟩ := h
  · exact hm
  · exact .inl rfl

end Remarked

end ActorStatus

namespace State

/-- What the driver reported about the alive actors, without marks. -/
def profile (s : State) : List (ActorId × Bool × Int) :=
  s.actors.map fun e => (e.1, e.2.enabled, e.2.limit)

structure WellFormed (s : State) : Prop where
  ascending : Assoc.Ascending s.actors
  tallied : ∀ e ∈ s.actors, e.2.Tallied

structure Fresh (s : State) : Prop where
  ascending : Assoc.Ascending s.actors
  fresh : ∀ e ∈ s.actors, e.2.Fresh
  transition : s.transition = none

theorem Fresh.wellFormed {s : State} (h : s.Fresh) : s.WellFormed :=
  ⟨h.ascending, fun e he => (h.fresh e he).tallied⟩

def offers (s : State) (x : Step) : Bool :=
  (s.status? x.actor).any fun st => st.enabled && 0 ≤ x.outcome && x.outcome < st.limit

theorem offers_iff {s : State} {x : Step} :
    s.offers x = true ↔ ∃ st, s.status? x.actor = some st ∧ st.enabled = true ∧
      0 ≤ x.outcome ∧ x.outcome < st.limit := by
  simp [offers, Option.any_eq_true, and_assoc]

/-- The outcome has been handed out. -/
def Tried (s : State) (x : Step) : Prop :=
  ∃ st, s.status? x.actor = some st ∧ 0 ≤ x.outcome ∧ x.outcome < st.taken

instance (s : State) (x : Step) : Decidable (s.Tried x) :=
  decidable_of_iff ((s.status? x.actor).any fun st => 0 ≤ x.outcome && x.outcome < st.taken)
    (by simp [Tried, Option.any_eq_true])

def Marked (s : State) (a : ActorId) : Prop :=
  ∃ st, s.status? a = some st ∧ st.enabled = true ∧ (st.todo = true ∨ st.done = true)

theorem isEnabled_iff {s : State} {a : ActorId} :
    s.isEnabled a = true ↔ ∃ st, s.status? a = some st ∧ st.enabled = true := by
  simp [isEnabled, Option.any_eq_true]

theorem WellFormed.status_tallied {s : State} (h : s.WellFormed) {a : ActorId} {st : ActorStatus}
    (hst : s.status? a = some st) : st.Tallied := h.tallied _ (Assoc.mem_of_get? hst)

theorem WellFormed.offers_zero {s : State} (h : s.WellFormed) {a : ActorId} (ha : s.isEnabled a = true) :
    s.offers ⟨a, 0⟩ = true := by
  obtain ⟨st, hst, hen⟩ := isEnabled_iff.mp ha
  exact offers_iff.mpr ⟨st, hst, hen, le_rfl, zero_lt_one.trans_le (h.status_tallied hst).one_le_limit⟩

theorem isEnabled_of_offers {s : State} {x : Step} (h : s.offers x = true) : s.isEnabled x.actor = true := by
  obtain ⟨st, hst, hen, -⟩ := offers_iff.mp h
  exact isEnabled_iff.mpr ⟨st, hst, hen⟩

section Profile

variable {s s' : State} (hp : s.profile = s'.profile)

theorem get?_profile (s : State) (a : ActorId) :
    Assoc.get? a s.profile = (s.status? a).map fun st => (st.enabled, st.limit) :=
  Assoc.get?_map a (fun st : ActorStatus => (st.enabled, st.limit)) s.actors

include hp

theorem status?_of_profile_eq {a : ActorId} {st : ActorStatus} (h : s.status? a = some st) :
    ∃ st', s'.status? a = some st' ∧ st'.enabled = st.enabled ∧ st'.limit = st.limit := by
  have hget := get?_profile s a
  rw [hp, get?_profile, h, Option.map_some] at hget
  obtain ⟨st', hst', heq⟩ := Option.map_eq_some_iff.mp hget
  exact ⟨st', hst', congrArg Prod.fst heq, congrArg Prod.snd heq⟩

theorem offers_of_profile_eq {x : Step} (h : s.offers x = true) : s'.offers x = true := by
  obtain ⟨st, hst, hen, h0, hlt⟩ := offers_iff.mp h
  obtain ⟨st', hst', hen', hlim'⟩ := status?_of_profile_eq hp hst
  exact offers_iff.mpr ⟨st', hst', hen'.trans hen, h0, hlim' ▸ hlt⟩

theorem offers_congr (x : Step) : s.offers x = s'.offers x :=
  Bool.eq_iff_iff.mpr ⟨offers_of_profile_eq hp, offers_of_profile_eq hp.symm⟩

theorem isEnabled_congr (a : ActorId) : s.isEnabled a = s'.isEnabled a := by
  have hview (s : State) : s.isEnabled a = (Assoc.get? a s.profile).any (·.1) := by
    rw [get?_profile, isEnabled, Option.any_map]
  rw [hview, hview, hp]

theorem enabledIds_congr : s.enabledIds = s'.enabledIds := by
  have hview (s : State) : s.enabledIds = (s.profile.filter (·.2.1)).map (·.1) := by
    simp only [enabledIds, profile, List.filter_map, List.map_map, Function.comp_def]
  rw [hview, hview, hp]

theorem isDeadlock_congr : s.isDeadlock = s'.isDeadlock := by
  have hview (s : State) : s.actors.isEmpty = s.profile.isEmpty := by
    simp only [profile, List.isEmpty_map]
  rw [isDeadlock, isDeadlock, enabledIds_congr hp, hview, hview, hp]

omit hp in
theorem map_fresh (s : State) : (s.actors.map fun e => (e.1, ActorStatus.fresh e.2.enabled e.2.limit)) =
    s.profile.map fun e => (e.1, ActorStatus.fresh e.2.1 e.2.2) := by
  simp only [profile, List.map_map, Function.comp_def]

theorem successorActors_congr (ht : s.transition.map (·.actor) = s'.transition.map (·.actor))
    (r : StepResult) : s.successorActors r = s'.successorActors r := by
  unfold successorActors
  rw [map_fresh, map_fresh, hp]
  cases h : s.transition <;> cases h' : s'.transition <;> simp [h, h'] at ht ⊢
  rw [ht]

end Profile

def after (s : State) (r : StepResult) : State :=
  { s with transition := some r.transition }.successor (s.num + 1) r

theorem mem_enabledIds {s : State} (h : s.WellFormed) {a : ActorId} :
    a ∈ s.enabledIds ↔ s.isEnabled a = true := by
  rw [isEnabled_iff]
  simp only [enabledIds, List.mem_map, List.mem_filter]
  constructor
  · rintro ⟨e, ⟨hmem, hen⟩, rfl⟩
    exact ⟨e.2, (Assoc.get?_eq_some_iff h.ascending).mpr hmem, hen⟩
  · rintro ⟨st, hst, hen⟩
    exact ⟨(a, st), ⟨Assoc.mem_of_get? hst, hen⟩, rfl⟩

theorem new_fresh (num : Int) (actors : List Actor) : (new num actors).Fresh where
  ascending := Assoc.ascending_ofList _
  fresh := by
    let P (m : List (ActorId × ActorStatus)) : Prop := ∀ e ∈ m, e.2.Fresh
    refine List.foldlRecOn (motive := P) _ _ nofun fun m hm d hd e he => ?_
    rcases Assoc.mem_insert he with rfl | he
    · obtain ⟨a, -, rfl⟩ := List.mem_map.mp hd
      exact ActorStatus.fresh_fresh _ _
    · exact hm e he
  transition := rfl

theorem successor_fresh {s : State} (h : Assoc.Ascending s.actors) (num : Int) (r : StepResult) :
    (s.successor num r).Fresh := by
  -- Every stage of the construction keeps the ids in order and the statuses fresh.
  let P (m : List (ActorId × ActorStatus)) : Prop := Assoc.Ascending m ∧ ∀ e ∈ m, e.2.Fresh
  have hinsert : ∀ m a st, P m → st.Fresh → P (Assoc.insert a st m) := by
    rintro m a st ⟨hm, hf⟩ hst
    refine ⟨Assoc.ascending_insert hm, fun e he => ?_⟩
    rcases Assoc.mem_insert he with rfl | he
    · exact hst
    · exact hf e he
  have hinherited : P (s.actors.map fun e => (e.1, ActorStatus.fresh e.2.enabled e.2.limit)) := by
    refine ⟨Assoc.ascending_of_keys (by simp) h, fun e he => ?_⟩
    obtain ⟨e', -, rfl⟩ := List.mem_map.mp he
    exact ActorStatus.fresh_fresh _ _
  have hmoved : ∀ m a, P m → P (Assoc.modify a (fun st => { st with limit := 1 }) m) := by
    rintro m a ⟨hm, hf⟩
    refine ⟨Assoc.ascending_modify hm, fun e he => ?_⟩
    obtain he | ⟨st, hst, rfl⟩ := Assoc.mem_modify he
    · exact hf e he
    · exact ⟨le_rfl, (hf _ hst).taken, (hf _ hst).done, (hf _ hst).todo⟩
  have hall : P (s.successorActors r) := by
    unfold successorActors
    refine List.foldlRecOn _ _ (List.foldlRecOn _ _ (List.foldlRecOn _ _ ?_ ?_) ?_) ?_
    · cases s.transition with
      | none => exact hinherited
      | some t => exact hmoved _ _ hinherited
    · exact fun m hm a _ => hinsert m _ _ hm (ActorStatus.fresh_fresh _ _)
    · intro m hm a _
      split
      · rename_i st hst
        have hst := hm.2 _ (Assoc.mem_of_get? hst)
        exact hinsert m _ _ hm ⟨hst.one_le_limit, hst.taken, hst.done, hst.todo⟩
      · exact hinsert m _ _ hm (ActorStatus.fresh_fresh _ _)
    · exact fun m hm a _ => ⟨Assoc.ascending_erase hm.1, fun e he => hm.2 e (Assoc.mem_erase he)⟩
  exact ⟨hall.1, hall.2, rfl⟩

theorem Fresh.after {s : State} (h : s.Fresh) (r : StepResult) : (s.after r).Fresh := by
  apply successor_fresh
  exact h.ascending

theorem Fresh.renumbered {s : State} (h : s.Fresh) (num : Int) : Fresh { s with num := num } :=
  ⟨h.ascending, h.fresh, h.transition⟩

theorem Fresh.not_tried {s : State} (h : s.Fresh) (x : Step) : ¬ s.Tried x := by
  rintro ⟨st, hst, h0, hlt⟩
  have htaken : st.taken = 0 := (h.fresh _ (Assoc.mem_of_get? hst)).taken
  omega

theorem take_eq_ok {s s' : State} {a : ActorId} {outcome : Int} (h : s.take a = .ok (outcome, s')) :
    ∃ st, s.status? a = some st ∧ st.enabled = true ∧ st.done = false ∧ outcome = st.taken ∧
      s' = s.setStatus a st.consider := by
  simp only [take, requireStatus] at h
  cases hst : s.status? a with
  | none => simp [hst, bind, Except.bind] at h
  | some st =>
    simp only [hst, bind, Except.bind] at h
    split_ifs at h with hrun
    simp only [Bool.or_eq_true, Bool.not_eq_true', not_or, Bool.not_eq_false, Bool.not_eq_true] at hrun
    obtain ⟨rfl, rfl⟩ := Prod.mk.inj (Except.ok.inj h)
    exact ⟨st, rfl, hrun.1, hrun.2, rfl, rfl⟩

section Take

variable {s s' : State} {a : ActorId} {outcome : Int} (h : s.take a = .ok (outcome, s'))

include h

theorem take_num : s'.num = s.num := by obtain ⟨st, -, -, -, -, rfl⟩ := take_eq_ok h; rfl

theorem take_status (b : ActorId) :
    s'.status? b = if b = a then (s.status? a).map ActorStatus.consider else s.status? b := by
  obtain ⟨st, hst, -, -, -, rfl⟩ := take_eq_ok h
  simp only [status?] at hst
  simp only [status?, setStatus, Assoc.get?_insert, hst, Option.map_some]

theorem take_profile (hw : s.WellFormed) : s'.profile = s.profile := by
  obtain ⟨st, hst, -, -, -, rfl⟩ := take_eq_ok h
  rw [profile, setStatus, Assoc.insert_eq_modify hw.ascending hst]
  exact Assoc.map_modify fun st => by simp

theorem take_wellFormed (hw : s.WellFormed) : s'.WellFormed := by
  obtain ⟨st, hst, -, hd, -, rfl⟩ := take_eq_ok h
  refine ⟨Assoc.ascending_insert hw.ascending, fun e he => ?_⟩
  rcases Assoc.mem_insert he with rfl | he
  · exact (hw.status_tallied hst).consider hd
  · exact hw.tallied e he

theorem take_offers (hw : s.WellFormed) : s.offers ⟨a, outcome⟩ = true := by
  obtain ⟨st, hst, hen, hd, rfl, -⟩ := take_eq_ok h
  have ht := hw.status_tallied hst
  exact offers_iff.mpr ⟨st, hst, hen, ht.taken_nonneg, ht.lt_of_not_done hd⟩

theorem tried_take (hw : s.WellFormed) (x : Step) : s'.Tried x ↔ s.Tried x ∨ x = ⟨a, outcome⟩ := by
  obtain ⟨st, hst, -, -, rfl, -⟩ := take_eq_ok h
  have hnonneg := (hw.status_tallied hst).taken_nonneg
  obtain ⟨b, k⟩ := x
  simp only [Tried, take_status h, Step.mk.injEq]
  by_cases hb : b = a
  · subst hb
    simp only [if_true, hst, Option.map_some, Option.some.injEq, exists_eq_left',
      ActorStatus.consider_taken, true_and]
    omega
  · simp [hb]

theorem not_tried_take : ¬ s.Tried ⟨a, outcome⟩ := by
  obtain ⟨st, hst, -, -, rfl, -⟩ := take_eq_ok h
  rintro ⟨st', hst', -, hlt⟩
  cases hst.symm.trans hst'
  exact lt_irrefl _ hlt

theorem take_marked {b : ActorId} (hb : s.Marked b) : s'.Marked b := by
  obtain ⟨st, hst, hen, hm⟩ := hb
  by_cases hba : b = a
  · subst hba
    exact ⟨st.consider, by simp [take_status h, hst], by simpa using hen, ActorStatus.consider_marked hm⟩
  · exact ⟨st, by simpa [take_status h, hba] using hst, hen, hm⟩

end Take

theorem execute_eq_ok {σ : Type} {s s' : State} {exec : ActorId → Int → Action σ StepResult}
    {a : ActorId} {m m' : σ} {r : StepResult} (h : s.execute exec a m = (.ok r, s', m')) :
    ∃ outcome taken, s.take a = .ok (outcome, taken) ∧ exec a outcome m = (.ok r, m') ∧
      r.transition.actor = a ∧ s' = { taken with transition := some r.transition } := by
  unfold execute at h
  split at h
  · cases h
  · rename_i outcome taken htake
    split at h
    · cases h
    · rename_i r' m'' hexec
      split_ifs at h with hactor <;> cases h
      exact ⟨outcome, taken, htake, hexec, hactor, rfl⟩

theorem todoCount_eq_zero_iff {s : State} (hw : s.WellFormed) :
    s.todoCount = 0 ↔ ∀ a st, s.status? a = some st → st.runnable = false := by
  simp only [todoCount, List.length_eq_zero_iff, List.filter_eq_nil_iff, Bool.not_eq_true]
  constructor
  · exact fun h a st hst => h (a, st) (Assoc.mem_of_get? hst)
  · exact fun h e he => h e.1 e.2 ((Assoc.get?_eq_some_iff hw.ascending).mpr he)

theorem next?_eq_none_iff {s : State} : s.next? = none ↔ s.todoCount = 0 := by
  simp [next?, todoCount]

theorem enabledIds_ne_nil {s : State} (hw : s.WellFormed) (h : 0 < s.todoCount) : s.enabledIds ≠ [] := by
  obtain ⟨e, he⟩ := List.exists_mem_of_length_pos h
  obtain ⟨hmem, hrun⟩ := List.mem_filter.mp he
  have hen : e.2.enabled = true := by
    simp only [ActorStatus.runnable, Bool.and_eq_true] at hrun
    exact hrun.1.2
  have henabled : s.isEnabled e.1 = true :=
    isEnabled_iff.mpr ⟨e.2, (Assoc.get?_eq_some_iff hw.ascending).mpr hmem, hen⟩
  exact List.ne_nil_of_mem ((mem_enabledIds hw).mpr henabled)

theorem next?_eq_some {s : State} (hw : s.WellFormed) {a : ActorId} (h : s.next? = some a) :
    (∃ st, s.status? a = some st ∧ st.runnable = true) ∧
      ∀ b st, s.status? b = some st → b < a → st.runnable = false := by
  obtain ⟨e, hfind, rfl⟩ := Option.map_eq_some_iff.mp h
  obtain ⟨hrun, before, behind, hsplit, hbefore⟩ := List.find?_eq_some_iff_append.mp hfind
  have hmem : e ∈ s.actors := hsplit ▸ by simp
  refine ⟨⟨e.2, (Assoc.get?_eq_some_iff hw.ascending).mpr hmem, hrun⟩, fun b st hst hlt => ?_⟩
  have hst := Assoc.mem_of_get? hst
  have hasc := hw.ascending
  rw [hsplit, Assoc.Ascending, List.pairwise_append, List.pairwise_cons] at hasc
  rw [hsplit, List.mem_append, List.mem_cons] at hst
  rcases hst with hst | rfl | hst
  · simpa using hbefore _ hst
  · exact absurd hlt (lt_irrefl _)
  · exact absurd (hasc.2.1.1 _ hst) (not_lt.mpr hlt.le)

theorem take_ok {s : State} (hw : s.WellFormed) {a : ActorId} (h : s.next? = some a) :
    ∃ outcome s', s.take a = .ok (outcome, s') := by
  obtain ⟨⟨st, hst, hrun⟩, -⟩ := next?_eq_some hw h
  simp only [ActorStatus.runnable, Bool.and_eq_true, Bool.not_eq_true'] at hrun
  simp only [take, requireStatus, hst, bind, Except.bind, hrun, Bool.not_true, Bool.or_self,
    Bool.false_eq_true, if_false]
  exact ⟨_, _, rfl⟩

theorem tried_of_not_runnable {s : State} (hw : s.WellFormed) {x : Step} {st : ActorStatus}
    (hst : s.status? x.actor = some st) (hrun : st.runnable = false) (hm : s.Marked x.actor)
    (hx : s.offers x = true) : s.Tried x := by
  obtain ⟨st', hst', hen, hmark⟩ := hm
  cases hst.symm.trans hst'
  obtain ⟨st', hst', -, h0, hlt⟩ := offers_iff.mp hx
  cases hst.symm.trans hst'
  have hdone : st.done = true := by
    cases htodo : st.todo <;> cases hd : st.done <;>
      simp_all [ActorStatus.runnable]
  exact ⟨st, hst, h0, by rwa [(hw.status_tallied hst).done_iff.mp hdone]⟩

theorem tried_of_exhausted {s : State} (hw : s.WellFormed) (h : s.todoCount = 0) {x : Step}
    (hm : s.Marked x.actor) (hx : s.offers x = true) : s.Tried x := by
  have ⟨st, hst, _⟩ := hm
  exact tried_of_not_runnable hw hst ((todoCount_eq_zero_iff hw).mp h _ _ hst) hm hx

/-- The second state is the first one with more actors marked. -/
structure Remarked (s s' : State) : Prop where
  num : s'.num = s.num
  transition : s'.transition = s.transition
  actors : List.Forall₂ (fun e e' => e'.1 = e.1 ∧ e.2.Remarked e'.2) s.actors s'.actors

namespace Remarked

theorem refl (s : State) : s.Remarked s :=
  ⟨rfl, rfl, List.forall₂_same.mpr fun _ _ => ⟨rfl, .inl rfl⟩⟩

variable {s s' : State} (h : s.Remarked s')

include h

theorem keys : s'.actors.map Prod.fst = s.actors.map Prod.fst := by
  obtain ⟨-, -, h⟩ := h
  generalize s.actors = m, s'.actors = m' at h ⊢
  induction h with
  | nil => rfl
  | cons he _ ih => simp [he.1, ih]

theorem profile : s'.profile = s.profile := by
  obtain ⟨-, -, h⟩ := h
  unfold State.profile
  generalize s.actors = m, s'.actors = m' at h ⊢
  induction h with
  | nil => rfl
  | cons he _ ih => simp [he.1, he.2.enabled, he.2.limit, ih]

theorem status {a : ActorId} {st : ActorStatus} (hst : s.status? a = some st) :
    ∃ st', s'.status? a = some st' ∧ st.Remarked st' := by
  obtain ⟨-, -, h⟩ := h
  unfold State.status? at hst ⊢
  generalize s.actors = m, s'.actors = m' at h hst ⊢
  induction h with
  | nil => cases hst
  | cons he _ ih =>
    rw [Assoc.get?_cons] at hst ⊢
    rw [he.1]
    split_ifs at hst ⊢
    · cases hst
      exact ⟨_, rfl, he.2⟩
    · exact ih hst

theorem status_back {a : ActorId} {st' : ActorStatus} (hst' : s'.status? a = some st') :
    ∃ st, s.status? a = some st ∧ st.Remarked st' := by
  obtain ⟨st, hst, -, -⟩ := status?_of_profile_eq h.profile hst'
  obtain ⟨st'', hst'', hrel⟩ := h.status hst
  cases hst'.symm.trans hst''
  exact ⟨st, hst, hrel⟩

theorem wellFormed (hw : s.WellFormed) : s'.WellFormed where
  ascending := Assoc.ascending_of_keys h.keys hw.ascending
  tallied := by
    obtain ⟨-, hw⟩ := hw
    obtain ⟨-, -, h⟩ := h
    generalize s.actors = m, s'.actors = m' at h hw ⊢
    induction h with
    | nil => exact hw
    | cons he _ ih =>
      rw [List.forall_mem_cons] at hw ⊢
      exact ⟨he.2.tallied hw.1, ih hw.2⟩

theorem tried_iff (x : Step) : s'.Tried x ↔ s.Tried x := by
  constructor
  · rintro ⟨st', hst', h0, hlt⟩
    obtain ⟨st, hst, hrel⟩ := h.status_back hst'
    exact ⟨st, hst, h0, hrel.taken ▸ hlt⟩
  · rintro ⟨st, hst, h0, hlt⟩
    obtain ⟨st', hst', hrel⟩ := h.status hst
    exact ⟨st', hst', h0, hrel.taken ▸ hlt⟩

theorem marked {a : ActorId} (hm : s.Marked a) : s'.Marked a := by
  obtain ⟨st, hst, hen, hmark⟩ := hm
  obtain ⟨st', hst', hrel⟩ := h.status hst
  exact ⟨st', hst', hrel.enabled ▸ hen, hrel.marked hmark⟩

end Remarked

theorem considerAll_remarked (s : State) : s.Remarked s.considerAll where
  num := rfl
  transition := rfl
  actors := by
    unfold considerAll
    rw [List.forall₂_map_right_iff, List.forall₂_same]
    intro e _
    refine ⟨rfl, ?_⟩
    dsimp only
    split_ifs
    · exact ActorStatus.remarked_markTodo _
    · exact .inl rfl

theorem modify_remarked (s : State) (a : ActorId) :
    s.Remarked { s with actors := Assoc.modify a ActorStatus.markTodo s.actors } where
  num := rfl
  transition := rfl
  actors := by
    dsimp only
    induction s.actors with
    | nil => exact .nil
    | cons e m ih =>
      simp only [Assoc.modify]
      split_ifs
      · exact .cons ⟨rfl, ActorStatus.remarked_markTodo _⟩
          (List.forall₂_same.mpr fun _ _ => ⟨rfl, .inl rfl⟩)
      · exact .cons ⟨rfl, .inl rfl⟩ ih

theorem considerOne_remarked (s : State) : s.Remarked s.considerOne := by
  unfold considerOne
  split
  · exact modify_remarked s _
  · exact .refl s

theorem setTodo_remarked {s : State} (hw : s.WellFormed) {a : ActorId} {st : ActorStatus}
    (hst : s.status? a = some st) : s.Remarked (s.setStatus a st.markTodo) := by
  rw [setStatus, Assoc.insert_eq_modify hw.ascending hst]
  exact modify_remarked s a

theorem setTodo_marked {s : State} {a : ActorId} {st : ActorStatus} (hen : st.enabled = true) :
    (s.setStatus a st.markTodo).Marked a := by
  refine ⟨st.markTodo, by simp [status?, setStatus], ?_⟩
  unfold ActorStatus.markTodo
  split_ifs with hd
  · exact ⟨hen, .inr hd⟩
  · exact ⟨hen, .inl rfl⟩

def AllMarked (s : State) : Prop := ∀ a, s.isEnabled a = true → s.Marked a

theorem considerAll_allMarked (s : State) : s.considerAll.AllMarked := by
  intro a ha
  obtain ⟨st, hst, hen⟩ := isEnabled_iff.mp ha
  refine ⟨st, hst, hen, ?_⟩
  have hget : s.considerAll.status? a = (s.status? a).map fun st =>
      if st.enabled && !st.done then st.markTodo else st :=
    Assoc.get?_map a (fun st : ActorStatus => if st.enabled && !st.done then st.markTodo else st) s.actors
  rw [hst] at hget
  obtain ⟨st₀, -, heq⟩ := Option.map_eq_some_iff.mp hget.symm
  subst heq
  unfold ActorStatus.markTodo at hen ⊢
  cases h₀ : st₀.enabled <;> cases h₁ : st₀.done <;> simp_all

theorem considerOne_marked {s : State} (hw : s.WellFormed) {a : ActorId} {st : ActorStatus}
    (hst : s.status? a = some st) (hen : st.enabled = true) (hd : st.done = false) :
    ∃ b, s.considerOne.Marked b := by
  have hcand : (a, st) ∈ s.actors.filter fun e => e.2.enabled && !e.2.done :=
    List.mem_filter.mpr ⟨Assoc.mem_of_get? hst, by simp [hen, hd]⟩
  have hhead : s.candidates.head? ≠ none := by
    simp only [candidates, ne_eq, List.head?_eq_none_iff, List.map_eq_nil_iff]
    exact List.ne_nil_of_mem hcand
  obtain ⟨b, hb⟩ := Option.ne_none_iff_exists'.mp hhead
  have hmem : b ∈ s.candidates := List.mem_of_mem_head? hb
  obtain ⟨e, he, rfl⟩ := List.mem_map.mp hmem
  simp only [List.mem_filter, Bool.and_eq_true, Bool.not_eq_true'] at he
  refine ⟨e.1, e.2.markTodo, ?_, ?_⟩
  · unfold considerOne
    rw [hb]
    simp [status?, (Assoc.get?_eq_some_iff hw.ascending).mpr he.1]
  · simp [ActorStatus.markTodo, he.2.1, he.2.2]

def unmarked (s : State) : State :=
  { s with
    actors := s.actors.map fun e => (e.1, ActorStatus.fresh e.2.enabled e.2.limit)
    transition := none }

theorem Fresh.eq_unmarked {s s' : State} (hs : s.Fresh) (hp : s'.profile = s.profile)
    (hnum : s'.num = s.num) : s'.unmarked = s := by
  have hactors : ∀ m : List (ActorId × ActorStatus), (∀ e ∈ m, e.2.Fresh) →
      (m.map fun e => (e.1, ActorStatus.fresh e.2.enabled e.2.limit)) = m := by
    intro m hm
    refine (List.map_congr_left fun e he => ?_).trans m.map_id
    obtain ⟨hlimit, htaken, hdone, htodo⟩ := hm e he
    obtain ⟨a, enabled, done, todo, limit, taken⟩ := e
    simp_all [ActorStatus.fresh]
  have hsame : s'.unmarked = s.unmarked := by
    simp only [unmarked, map_fresh, hp, hnum]
  obtain ⟨-, hfresh, htransition⟩ := hs
  obtain ⟨num, actors, transition⟩ := s
  subst htransition
  rw [hsame, unmarked]
  simp only [hactors actors hfresh]

end State

end Interleave
