import Interleave.Proofs.Execution
import Interleave.Proofs.Runs

/-! The statuses that the reports of the driver of a program add up to mirror the configuration: the alive
actors are those with a pending step, the enabled ones those whose guard holds. So the executions through the
driver are the runs of the program. -/

namespace Interleave

namespace State

section After

variable {s : State} {r : StepResult} {a : ActorId}

theorem get?_foldl_enabled (hr : ∀ x ∈ r.enabled, x.id ≠ a) (m : List (ActorId × ActorStatus)) :
    Assoc.get? a (r.enabled.foldl
      (fun m x => Assoc.insert x.id (ActorStatus.fresh true x.outcomes) m) m) = Assoc.get? a m :=
  Assoc.get?_foldl_of_ne Actor.id (fun m x hx => by rw [Assoc.get?_insert, if_neg hx.symm]) hr m

theorem get?_foldl_disabled (hr : a ∉ r.disabled) (m : List (ActorId × ActorStatus)) :
    Assoc.get? a (r.disabled.foldl (fun m b => match Assoc.get? b m with
      | some st => Assoc.insert b { st with enabled := false } m
      | none => Assoc.insert b (ActorStatus.fresh false 1) m) m) = Assoc.get? a m := by
  refine Assoc.get?_foldl_of_ne id (fun m b (hb : b ≠ a) => ?_) (fun b hb (hba : b = a) => hr (hba ▸ hb)) m
  split <;> rw [Assoc.get?_insert, if_neg hb.symm]

theorem get?_foldl_finished (hr : a ∉ r.finished) (m : List (ActorId × ActorStatus)) :
    Assoc.get? a (r.finished.foldl (fun m b => Assoc.erase b m) m) = Assoc.get? a m :=
  Assoc.get?_foldl_of_ne id (fun m _ hb => Assoc.get?_erase_of_ne (Ne.symm hb) m)
    (fun b hb (hba : b = a) => hr (hba ▸ hb)) m

theorem status?_new_of_ne {actors : List Actor} (num : Int) (h : ∀ x ∈ actors, x.id ≠ a) :
    (new num actors).status? a = none := by
  simp only [new, status?, Assoc.ofList, List.foldl_map]
  exact Assoc.get?_foldl_of_ne Actor.id (fun m x hx => by rw [Assoc.get?_insert, if_neg hx.symm]) h []

theorem status?_new {actors : List Actor} (num : Int) {st : ActorStatus} (hx : ∃ x ∈ actors, x.id = a)
    (h : ∀ x ∈ actors, x.id = a → ActorStatus.fresh x.enabled x.outcomes = st) :
    (new num actors).status? a = some st := by
  simp only [new, status?, Assoc.ofList, List.foldl_map]
  refine Assoc.get?_foldl_of_mem (P := fun _ => True) (Q := fun o => o = some st) Actor.id
    (fun _ _ _ => trivial) (fun m x hx => by rw [Assoc.get?_insert, if_neg hx.symm])
    (fun m x hmem hxa _ => ?_) hx trivial
  rw [Assoc.get?_insert, if_pos hxa.symm, h x hmem hxa]

theorem get?_inherited (hmover : ∀ t, s.transition = some t → t.actor ≠ a) :
    Assoc.get? a (match s.transition with
      | some t => Assoc.modify t.actor (fun st => { st with limit := 1 })
          (s.actors.map fun e => (e.1, ActorStatus.fresh e.2.enabled e.2.limit))
      | none => s.actors.map fun e => (e.1, ActorStatus.fresh e.2.enabled e.2.limit)) =
    (s.status? a).map fun st => ActorStatus.fresh st.enabled st.limit := by
  have hmap := Assoc.get?_map a (fun st : ActorStatus => ActorStatus.fresh st.enabled st.limit) s.actors
  cases ht : s.transition with
  | none => exact hmap
  | some t =>
    dsimp only
    rw [Assoc.get?_modify, if_neg (hmover t ht).symm]
    exact hmap

theorem status?_successor (num : Int) (hmover : ∀ t, s.transition = some t → t.actor ≠ a)
    (henabled : ∀ x ∈ r.enabled, x.id ≠ a) (hdisabled : a ∉ r.disabled) (hfinished : a ∉ r.finished) :
    (s.successor num r).status? a = (s.status? a).map fun st => ActorStatus.fresh st.enabled st.limit := by
  simp only [successor, status?, successorActors]
  refine (get?_foldl_finished hfinished _).trans ((get?_foldl_disabled hdisabled _).trans ?_)
  rw [get?_foldl_enabled henabled]
  exact get?_inherited hmover

theorem status?_successor_enabled (num : Int) {outcomes : Int} (hx : ∃ x ∈ r.enabled, x.id = a)
    (henabled : ∀ x ∈ r.enabled, x.id = a → x.outcomes = outcomes) (hdisabled : a ∉ r.disabled)
    (hfinished : a ∉ r.finished) :
    (s.successor num r).status? a = some (ActorStatus.fresh true outcomes) := by
  simp only [successor, status?, successorActors]
  refine (get?_foldl_finished hfinished _).trans ((get?_foldl_disabled hdisabled _).trans ?_)
  refine Assoc.get?_foldl_of_mem (P := fun _ => True) (Q := fun st => st = some _) Actor.id
    (fun _ _ _ => trivial) (fun m x hx => by rw [Assoc.get?_insert, if_neg hx.symm])
    (fun m x hmem hxa _ => ?_) hx trivial
  rw [Assoc.get?_insert, if_pos hxa.symm, henabled x hmem hxa]

theorem status?_successor_disabled (num : Int) (hdisabled : a ∈ r.disabled) (hfinished : a ∉ r.finished) :
    ∃ st, (s.successor num r).status? a = some st ∧ st.enabled = false := by
  simp only [successor, status?, successorActors]
  rw [get?_foldl_finished hfinished]
  refine Assoc.get?_foldl_of_mem (P := fun _ => True)
    (Q := fun o => ∃ st : ActorStatus, o = some st ∧ st.enabled = false) id (fun _ _ _ => trivial)
    (fun m b (hb : b ≠ a) => ?_) (fun m b _ (hba : b = a) _ => ?_) ⟨a, hdisabled, rfl⟩ trivial
  · split <;> rw [Assoc.get?_insert, if_neg hb.symm]
  · split <;> rw [Assoc.get?_insert, if_pos hba.symm] <;> exact ⟨_, rfl, rfl⟩

theorem status?_successor_finished (num : Int) (hs : Assoc.Ascending s.actors) (hfinished : a ∈ r.finished) :
    (s.successor num r).status? a = none := by
  simp only [successor, status?, successorActors]
  refine Assoc.get?_foldl_of_mem (P := Assoc.Ascending) (Q := fun st => st = none) id
    (fun _ _ hm => Assoc.ascending_erase hm) (fun m b hb => Assoc.get?_erase_of_ne (Ne.symm hb) m)
    (fun m b _ hba hm => ?_) ⟨a, hfinished, rfl⟩ ?_
  · obtain rfl : b = a := hba
    exact Assoc.get?_erase_self hm
  · have hinherited : Assoc.Ascending (s.actors.map fun e => (e.1, ActorStatus.fresh e.2.enabled e.2.limit)) :=
      Assoc.ascending_of_keys (by simp) hs
    refine List.foldlRecOn _ _ (List.foldlRecOn _ _ ?_ fun m hm x _ => Assoc.ascending_insert hm) ?_
    · cases s.transition with
      | none => exact hinherited
      | some t => exact Assoc.ascending_modify hinherited
    · intro m hm b _
      split <;> exact Assoc.ascending_insert hm

end After

end State

namespace Program

variable {p : Program} {c c' : Configuration}

theorem index?_eq_some {a : ActorId} {i : Nat} :
    p.index? a = some i ↔ i < p.actors.length ∧ idAt i = a := by
  have key : ∀ (x : Int) (n i : Nat), (1 ≤ x ∧ x ≤ n ∧ (x - 1).toNat = i) ↔ (i < n ∧ (i : Int) + 1 = x) := by
    intro x n i
    omega
  have hx := key a p.actors.length i
  unfold index? idAt
  split_ifs with h
  · simp only [Option.some.injEq]
    exact ⟨fun hi => hx.mp ⟨h.1, h.2, hi⟩, fun hi => (hx.mpr hi).2.2⟩
  · exact ⟨nofun, fun hi => absurd ⟨(hx.mpr hi).1, (hx.mpr hi).2.1⟩ h⟩

theorem pending_lt {i : Nat} {s : Step} (h : p.pending c i = some s) : i < p.actors.length := by
  simp only [pending, Option.bind_eq_bind, Option.bind_eq_some_iff] at h
  obtain ⟨steps, hsteps, -⟩ := h
  exact (List.getElem?_eq_some_iff.mp hsteps).1

theorem isEnabled_of_pending {i : Nat} {s : Step} (h : p.pending c i = some s) :
    p.isEnabled c i = s.guard.all fun g => g c.vars := by
  simp [isEnabled, h]

/-- The statuses are those of the actors in a configuration. The number of outcomes matters only for actors that
can move. -/
structure Mirrors (p : Program) (s : State) (c : Configuration) : Prop where
  dead : ∀ a, p.next c a = none → s.status? a = none
  alive : ∀ a step, p.next c a = some step → ∃ st, s.status? a = some st ∧
    (st.enabled = step.guard.all fun g => g c.vars) ∧ (st.enabled = true → st.limit = max 1 step.choices)

theorem next_eq_some {a : ActorId} {step : Step} :
    p.next c a = some step ↔ ∃ i, p.pending c i = some step ∧ idAt i = a := by
  simp only [next, Option.bind_eq_some_iff, index?_eq_some]
  constructor
  · rintro ⟨i, ⟨-, hid⟩, hi⟩
    exact ⟨i, hi, hid⟩
  · rintro ⟨i, hi, hid⟩
    exact ⟨i, ⟨pending_lt hi, hid⟩, hi⟩

theorem idAt_inj {i j : Nat} (h : idAt i = idAt j) : i = j := by
  simpa [idAt] using h

theorem mem_aliveActors {x : Actor} :
    x ∈ p.aliveActors c ↔ ∃ i step, p.pending c i = some step ∧
      x = ⟨idAt i, step.guard.all fun g => g c.vars, step.choices⟩ := by
  simp only [aliveActors, actorAt?, indices, List.mem_filterMap, List.mem_range, Option.map_eq_some_iff]
  constructor
  · rintro ⟨i, -, step, hstep, rfl⟩
    exact ⟨i, step, hstep, by rw [isEnabled_of_pending hstep]⟩
  · rintro ⟨i, step, hstep, rfl⟩
    exact ⟨i, pending_lt hstep, step, hstep, by rw [isEnabled_of_pending hstep]⟩

theorem mirrors_new (p : Program) (c : Configuration) (num : Int) :
    p.Mirrors (State.new num (p.aliveActors c)) c where
  dead := by
    intro a ha
    refine State.status?_new_of_ne num fun x hx hxa => ?_
    obtain ⟨i, step, hstep, rfl⟩ := mem_aliveActors.mp hx
    rw [next_eq_some.mpr ⟨i, hstep, hxa⟩] at ha
    cases ha
  alive := by
    intro a step ha
    obtain ⟨i, hi, rfl⟩ := next_eq_some.mp ha
    refine ⟨ActorStatus.fresh (step.guard.all fun g => g c.vars) step.choices, ?_, rfl, fun _ => rfl⟩
    refine State.status?_new num ⟨_, mem_aliveActors.mpr ⟨i, step, hi, rfl⟩, rfl⟩ fun x hx hxa => ?_
    obtain ⟨j, step', hj, rfl⟩ := mem_aliveActors.mp hx
    obtain rfl := idAt_inj hxa
    cases hi.symm.trans hj
    rfl

section Result

variable {i j : Nat} {t : Transition} {v : Option Violation}

theorem changeAt_id (p : Program) (c c' : Configuration) (i j : Nat) :
    (∀ x, p.changeAt c c' i j = .enabled x → x.id = idAt j) ∧
      (∀ a, p.changeAt c c' i j = .disabled a → a = idAt j) ∧
      ∀ a, p.changeAt c c' i j = .finished a → a = idAt j := by
  unfold changeAt
  split
  · split_ifs <;> simp [eq_comm]
  · rename_i actor hactor
    have hid : actor.id = idAt j := by
      obtain ⟨step, -, rfl⟩ := Option.map_eq_some_iff.mp hactor
      rfl
    split_ifs <;> simp [hid, eq_comm]

theorem mem_changes {α : Type} {f : Change → Option α} {x : α} :
    x ∈ (p.indices.map (p.changeAt c c' i)).filterMap f ↔
      ∃ j, j < p.actors.length ∧ f (p.changeAt c c' i j) = some x := by
  simp [indices]

theorem mem_result_enabled {x : Actor} (h : x ∈ (p.result c c' i t v).enabled) :
    ∃ j, j < p.actors.length ∧ x.id = idAt j ∧ p.changeAt c c' i j = .enabled x := by
  obtain ⟨j, hj, hx⟩ := mem_changes.mp h
  split at hx
  · rename_i y hy
    cases hx
    exact ⟨j, hj, (changeAt_id p c c' i j).1 x hy, hy⟩
  · cases hx

theorem mem_result_disabled {a : ActorId} (h : a ∈ (p.result c c' i t v).disabled) :
    ∃ j, j < p.actors.length ∧ a = idAt j ∧ p.changeAt c c' i j = .disabled a := by
  obtain ⟨j, hj, ha⟩ := mem_changes.mp h
  split at ha
  · rename_i b hb
    cases ha
    exact ⟨j, hj, (changeAt_id p c c' i j).2.1 a hb, hb⟩
  · cases ha

theorem mem_result_finished {a : ActorId} (h : a ∈ (p.result c c' i t v).finished) :
    ∃ j, j < p.actors.length ∧ a = idAt j ∧ p.changeAt c c' i j = .finished a := by
  obtain ⟨j, hj, ha⟩ := mem_changes.mp h
  split at ha
  · rename_i b hb
    cases ha
    exact ⟨j, hj, (changeAt_id p c c' i j).2.2 a hb, hb⟩
  · cases ha

theorem status?_result (c c' : Configuration) (i : Nat) (t : Transition) (v : Option Violation) (num : Int)
    {s : State} (hs : Assoc.Ascending s.actors) (hj : j < p.actors.length) :
    match p.changeAt c c' i j with
    | .none => (∀ t', s.transition = some t' → t'.actor ≠ idAt j) →
        (s.successor num (p.result c c' i t v)).status? (idAt j) =
          (s.status? (idAt j)).map fun st => ActorStatus.fresh st.enabled st.limit
    | .enabled x => (s.successor num (p.result c c' i t v)).status? (idAt j) =
        some (ActorStatus.fresh true x.outcomes)
    | .disabled _ => ∃ st, (s.successor num (p.result c c' i t v)).status? (idAt j) = some st ∧
        st.enabled = false
    | .finished _ => (s.successor num (p.result c c' i t v)).status? (idAt j) = none := by
  have henabled : ∀ x ∈ (p.result c c' i t v).enabled, x.id = idAt j → p.changeAt c c' i j = .enabled x := by
    intro x hx hid
    obtain ⟨k, -, hk, hchange⟩ := mem_result_enabled hx
    exact idAt_inj (hid.symm.trans hk) ▸ hchange
  have hdisabled : idAt j ∈ (p.result c c' i t v).disabled →
      p.changeAt c c' i j = .disabled (idAt j) := by
    intro hx
    obtain ⟨k, -, hk, hchange⟩ := mem_result_disabled hx
    exact idAt_inj hk ▸ hchange
  have hfinished : idAt j ∈ (p.result c c' i t v).finished →
      p.changeAt c c' i j = .finished (idAt j) := by
    intro hx
    obtain ⟨k, -, hk, hchange⟩ := mem_result_finished hx
    exact idAt_inj hk ▸ hchange
  obtain ⟨hid, hid', hid''⟩ := changeAt_id p c c' i j
  cases hchange : p.changeAt c c' i j with
  | none =>
    rw [hchange] at henabled hdisabled hfinished
    exact fun hmover => State.status?_successor num hmover (fun x hx hxj => nomatch henabled x hx hxj)
      (fun h => nomatch hdisabled h) fun h => nomatch hfinished h
  | enabled x =>
    rw [hchange] at henabled hdisabled hfinished
    refine State.status?_successor_enabled num ⟨x, mem_changes.mpr ⟨j, hj, by rw [hchange]⟩, hid x hchange⟩ ?_
      (fun h => nomatch hdisabled h) fun h => nomatch hfinished h
    intro y hy hyj
    cases henabled y hy hyj
    rfl
  | disabled a =>
    obtain rfl := hid' a hchange
    rw [hchange] at hfinished
    exact State.status?_successor_disabled num (mem_changes.mpr ⟨j, hj, by rw [hchange]⟩) fun h => nomatch hfinished h
  | finished a =>
    obtain rfl := hid'' a hchange
    exact State.status?_successor_finished num hs (mem_changes.mpr ⟨j, hj, by rw [hchange]⟩)

end Result

theorem Mirrors.successor {s : State} (h : p.Mirrors s c) (hs : Assoc.Ascending s.actors) {i : Nat} {step : Step}
    (hi : p.pending c i = some step) (hleft : ∀ t, s.transition = some t → t.actor = idAt i) (k : Int)
    (t : Transition) (v : Option Violation) (num : Int) :
    p.Mirrors (s.successor num (p.result c (afterStep c i step k).1 i t v)) (afterStep c i step k).1 where
  dead := by
    intro a ha
    by_cases hindex : ∃ j, j < p.actors.length ∧ idAt j = a
    · obtain ⟨j, hj, rfl⟩ := hindex
      have hpending : p.pending (afterStep c i step k).1 j = none := by
        by_contra hsome
        obtain ⟨step', hstep'⟩ := Option.ne_none_iff_exists'.mp hsome
        rw [next_eq_some.mpr ⟨j, hstep', rfl⟩] at ha
        cases ha
      have hstatus := status?_result c (afterStep c i step k).1 i t v num hs hj
      -- The actor has just taken its last step, or had none left before.
      by_cases hij : j = i
      · subst hij
        simpa only [changeAt, actorAt?, hpending, Option.map_none, if_true] using hstatus
      · simp only [changeAt, actorAt?, hpending, Option.map_none, if_neg hij] at hstatus
        rw [hstatus fun t' ht' hid => hij (idAt_inj ((hleft t' ht').symm.trans hid)).symm, h.dead, Option.map_none]
        rw [pending_afterStep (Ne.symm hij)] at hpending
        rw [next, index?_eq_some.mpr ⟨hj, rfl⟩, Option.bind_some, hpending]
    · -- No report names an id that belongs to no actor.
      have hnext : p.next c a = none := by
        by_contra hsome
        obtain ⟨step', hstep'⟩ := Option.ne_none_iff_exists'.mp hsome
        obtain ⟨j, hj, hid⟩ := next_eq_some.mp hstep'
        exact hindex ⟨j, pending_lt hj, hid⟩
      rw [State.status?_successor, h.dead a hnext, Option.map_none]
      · exact fun t' ht' hmover => hindex ⟨i, pending_lt hi, (hleft t' ht').symm.trans hmover⟩
      · intro x hx hid
        obtain ⟨j, hj, hid', -⟩ := mem_result_enabled hx
        exact hindex ⟨j, hj, hid'.symm.trans hid⟩
      · intro hmem
        obtain ⟨j, hj, hid, -⟩ := mem_result_disabled hmem
        exact hindex ⟨j, hj, hid.symm⟩
      · intro hmem
        obtain ⟨j, hj, hid, -⟩ := mem_result_finished hmem
        exact hindex ⟨j, hj, hid.symm⟩
  alive := by
    intro a step' ha
    obtain ⟨j, hj, rfl⟩ := next_eq_some.mp ha
    have hstatus := status?_result c (afterStep c i step k).1 i t v num hs (pending_lt hj)
    simp only [changeAt, actorAt?, hj, Option.map_some, isEnabled_of_pending hj] at hstatus
    split_ifs at hstatus with hsame hen
    · -- Another actor whose status has not changed is not reported; it still has the same pending step.
      have hpending := pending_afterStep (c := c) (p := p) (Ne.symm hsame.1) step k
      rw [hj] at hpending
      obtain ⟨st, hst, henabled, hlimit⟩ := h.alive _ step' (next_eq_some.mpr ⟨j, hpending.symm, rfl⟩)
      rw [isEnabled_of_pending hpending.symm, ← henabled] at hsame
      rw [hstatus fun t' ht' hid => hsame.1 (idAt_inj ((hleft t' ht').symm.trans hid)).symm, hst]
      refine ⟨_, rfl, hsame.2, fun hen => ?_⟩
      simp only [ActorStatus.fresh, hlimit hen]
      omega
    · exact ⟨_, hstatus, hen.symm, fun _ => rfl⟩
    · obtain ⟨st, hst, hdisabled⟩ := hstatus
      exact ⟨st, hst, by rw [hdisabled]; simpa using hen, fun h => by simp [hdisabled] at h⟩

theorem Mirrors.after {s : State} (h : p.Mirrors s c) (hs : Assoc.Ascending s.actors) {i : Nat} {step : Step}
    (hi : p.pending c i = some step) (k : Int) {t : Transition} (ht : t.actor = idAt i) (v : Option Violation) :
    p.Mirrors (s.after (p.result c (afterStep c i step k).1 i t v)) (afterStep c i step k).1 := by
  have hstored : p.Mirrors { s with transition := some t } c := ⟨h.dead, h.alive⟩
  refine hstored.successor hs hi ?_ k t v _
  rintro _ ⟨rfl⟩
  exact ht

section Executions

variable {s : State} {t : Transition} {v : Option Violation}

theorem Mirrors.fires_of_offers (h : p.Mirrors s c) {x : Interleave.Step} (hx : s.offers x = true) :
    ∃ t v c', t.step = x ∧ p.Fires c t v c' := by
  obtain ⟨st, hst, hen, hlow, hhigh⟩ := State.offers_iff.mp hx
  cases hnext : p.next c x.actor with
  | none =>
    rw [h.dead _ hnext] at hst
    cases hst
  | some step =>
    obtain ⟨i, hi, hid⟩ := next_eq_some.mp hnext
    obtain ⟨st', hst', henabled, hlimit⟩ := h.alive _ step hnext
    cases hst.symm.trans hst'
    exact ⟨step.transition x.actor x.outcome, _, _, rfl,
      .intro (index?_eq_some.mpr ⟨pending_lt hi, hid⟩) hi (henabled ▸ hen) hlow (hlimit hen ▸ hhigh)⟩

theorem Mirrors.offers_of_fires (h : p.Mirrors s c) (hfires : p.Fires c t v c') :
    s.offers t.step = true := by
  obtain ⟨hindex, hpending, hguard, hlow, hhigh⟩ := hfires
  rename_i a i step outcome
  have hnext : p.next c a = some step := by rw [next, hindex, Option.bind_some, hpending]
  obtain ⟨st, hst, henabled, hlimit⟩ := h.alive a step hnext
  have hen : st.enabled = true := henabled.trans hguard
  exact State.offers_iff.mpr ⟨st, hst, hen, hlow, (hlimit hen).symm ▸ hhigh⟩

theorem execute_of_enabled {i : Nat} {step : Step} (hi : p.pending c i = some step)
    (hen : p.isEnabled c i = true) (k : Int) : p.driver.execute (idAt i) k c =
      (.ok (p.result c (afterStep c i step k).1 i (step.transition (idAt i) k) (afterStep c i step k).2),
        (afterStep c i step k).1) := by
  have hindex : p.index? (idAt i) = some i := index?_eq_some.mpr ⟨pending_lt hi, rfl⟩
  simp only [driver, execute, hindex, hi, hen, Bool.not_true, Bool.false_eq_true, if_false]

theorem Fires.execute (h : p.Fires c t v c') : ∃ i step, p.index? t.actor = some i ∧
    p.pending c i = some step ∧ c' = (afterStep c i step t.outcome).1 ∧
    p.driver.execute t.actor t.outcome c = (.ok (p.result c c' i t v), c') := by
  obtain ⟨hindex, hpending, hguard, -, -⟩ := h
  rename_i a i step outcome
  obtain ⟨-, rfl⟩ := index?_eq_some.mp hindex
  refine ⟨i, step, hindex, hpending, rfl, ?_⟩
  exact execute_of_enabled hpending ((isEnabled_of_pending hpending).trans hguard) outcome

variable {n n' : Node Configuration}

theorem Fires.advance? (h : p.Fires n.machine t v c') (hn : p.Mirrors n.state n.machine) :
    ∃ n', p.driver.advance? n t.step = some n' ∧ n'.machine = c' ∧ n'.violation = v ∧
      n'.trace = n.trace ++ [t] := by
  obtain ⟨i, step, -, -, -, hexec⟩ := h.execute
  have hexec : p.driver.execute t.step.actor t.step.outcome n.machine = _ := hexec
  exact ⟨_, by rw [Driver.advance?, if_pos (hn.offers_of_fires h), hexec], rfl, rfl, rfl⟩

theorem Mirrors.advance? (hn : p.Mirrors n.state n.machine) (hfresh : n.state.Fresh) {x : Interleave.Step}
    (h : p.driver.advance? n x = some n') :
    p.Mirrors n'.state n'.machine ∧ ∃ t, t.step = x ∧ p.Fires n.machine t n'.violation n'.machine ∧
      n'.trace = n.trace ++ [t] := by
  obtain ⟨hoff, r, hexec, hstate, htrace, hviolation⟩ := Driver.advance?_eq_some h
  obtain ⟨t, v, c', rfl, hfires⟩ := hn.fires_of_offers hoff
  obtain ⟨i, step, hindex, hpending, rfl, hexec'⟩ := hfires.execute
  have hexec : p.driver.execute t.actor t.outcome n.machine = _ := hexec
  rw [hexec', Prod.mk.injEq, Except.ok.injEq] at hexec
  obtain ⟨rfl, hmachine⟩ := hexec
  rw [hstate, htrace, hviolation, ← hmachine]
  exact ⟨hn.after hfresh.ascending hpending _ (index?_eq_some.mp hindex).2.symm _, t, rfl, hfires, rfl⟩

theorem mirrors_root {root : Node Configuration} (h : p.driver.root? c = some root) :
    p.Mirrors root.state root.machine ∧ root.machine = c := by
  obtain ⟨actors, hinit, hstate, -, -⟩ := Driver.root?_eq_some h
  simp only [driver, Prod.mk.injEq, Except.ok.injEq] at hinit
  obtain ⟨rfl, rfl⟩ := hinit
  exact ⟨hstate ▸ p.mirrors_new _ 0, rfl⟩

theorem Mirrors.isDeadlock_iff (h : p.Mirrors s c) (hs : s.WellFormed) :
    s.isDeadlock = true ↔ ¬ p.Complete c ∧ ∀ t v c', ¬ p.Fires c t v c' := by
  have hempty : s.actors = [] ↔ p.Complete c := by
    constructor
    · intro hnil a
      by_contra hsome
      obtain ⟨step, hstep⟩ := Option.ne_none_iff_exists'.mp hsome
      obtain ⟨st, hst, -⟩ := h.alive a step hstep
      simp [State.status?, hnil] at hst
    · intro hc
      rw [List.eq_nil_iff_forall_not_mem]
      intro e he
      have hst := (Assoc.get?_eq_some_iff hs.ascending).mpr he
      rw [show Assoc.get? e.1 s.actors = none from h.dead e.1 (hc e.1)] at hst
      cases hst
  have hstuck : s.enabledIds = [] ↔ ∀ t v c', ¬ p.Fires c t v c' := by
    rw [List.eq_nil_iff_forall_not_mem]
    constructor
    · intro hnone t v c' hfires
      exact hnone _ ((State.mem_enabledIds hs).mpr (State.isEnabled_of_offers (h.offers_of_fires hfires)))
    · intro hnone a ha
      have hoff := hs.offers_zero ((State.mem_enabledIds hs).mp ha)
      obtain ⟨t, v, c', -, hfires⟩ := h.fires_of_offers hoff
      exact hnone t v c' hfires
  rw [State.isDeadlock, Bool.and_eq_true, Bool.not_eq_true', List.isEmpty_eq_false_iff, List.isEmpty_iff,
    hstuck, ← hempty]

end Executions

end Program

end Interleave
