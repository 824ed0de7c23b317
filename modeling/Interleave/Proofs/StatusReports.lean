import Interleave.Proofs.Mirroring
import Mathlib.Data.List.Sort

/-! The driver of a program reports changes only, and the reports add up: after any calls the alive actors are those
with steps left, an actor is enabled if the guard of its pending step holds, and an enabled actor has the outcomes of
that step. It makes no difference whether the states in between keep the transitions taken. -/

namespace Interleave.Program

variable {p : Program} {s : State} {c c' : Configuration}

/-- The states that the reports of successful calls add up to. A state that is left may have been marked, and it may
have stored the transition or not. -/
inductive Reported (p : Program) : State → Configuration → Prop
  | initial {actors : List Actor} {c : Configuration}
      (hinit : p.driver.initialActors p.initial = (.ok actors, c)) (num : Int) :
      Reported p (State.new num actors) c
  | executed {s : State} {c c' : Configuration} {a : ActorId} {outcome : Int} {r : StepResult}
      (hs : Reported p s c) (left : State) (hprofile : left.profile = s.profile)
      (hleft : left.transition = none ∨ left.transition = some r.transition)
      (hexec : p.driver.execute a outcome c = (.ok r, c')) (num : Int) :
      Reported p (left.successor num r) c'

theorem execute_eq_ok {a : ActorId} {outcome : Int} {r : StepResult}
    (h : p.driver.execute a outcome c = (.ok r, c')) :
    ∃ i step, a = idAt i ∧ p.pending c i = some step ∧ c' = (afterStep c i step outcome).1 ∧
      r = p.result c c' i (step.transition a outcome) (afterStep c i step outcome).2 := by
  change p.execute a outcome c = _ at h
  unfold execute at h
  split at h
  · cases h
  · rename_i i hindex
    split at h
    · cases h
    · rename_i step hstep
      split_ifs at h
      · cases h
      · obtain ⟨-, hid⟩ := index?_eq_some.mp hindex
        simp only [Prod.mk.injEq, Except.ok.injEq] at h
        obtain ⟨hr, rfl⟩ := h
        exact ⟨i, step, hid.symm, hstep, rfl, hr.symm⟩

theorem Mirrors.of_profile {left : State} (h : p.Mirrors s c) (hprofile : left.profile = s.profile) :
    p.Mirrors left c where
  dead a ha := by
    cases hst : left.status? a with
    | none => rfl
    | some st =>
      obtain ⟨st', hst', -⟩ := State.status?_of_profile_eq hprofile hst
      rw [h.dead a ha] at hst'
      cases hst'
  alive a step ha := by
    obtain ⟨st, hst, henabled, hlimit⟩ := h.alive a step ha
    obtain ⟨st', hst', henabled', hlimit'⟩ := State.status?_of_profile_eq hprofile.symm hst
    rw [← henabled', ← hlimit'] at hlimit
    exact ⟨st', hst', henabled'.trans henabled, hlimit⟩

theorem ascending_of_profile {left : State} (hprofile : left.profile = s.profile)
    (hs : Assoc.Ascending s.actors) : Assoc.Ascending left.actors := by
  have hkeys (s : State) : s.actors.map Prod.fst = s.profile.map Prod.fst := by
    simp only [State.profile, List.map_map, Function.comp_def]
  refine Assoc.ascending_of_keys ?_ hs
  rw [hkeys, hkeys, hprofile]

theorem Reported.mirrors (h : p.Reported s c) : p.Mirrors s c ∧ Assoc.Ascending s.actors := by
  induction h with
  | initial hinit num =>
    cases hinit
    exact ⟨p.mirrors_new _ num, (State.new_fresh num _).ascending⟩
  | @executed s c c' a outcome r hs left hprofile hleft hexec num ih =>
    obtain ⟨hmirrors, hascending⟩ := ih
    have hleftAscending := ascending_of_profile hprofile hascending
    obtain ⟨i, step, ha, hpending, hc', hr⟩ := execute_eq_ok hexec
    -- A stored transition is that of the actor that moved.
    have hmover : ∀ t, left.transition = some t → t.actor = idAt i := by
      intro t ht
      rcases hleft with hnone | hsome
      · cases hnone.symm.trans ht
      · cases hsome.symm.trans ht
        rw [hr]
        exact ha
    refine ⟨?_, (State.successor_fresh hleftAscending num r).ascending⟩
    rw [hr, hc']
    exact (hmirrors.of_profile hprofile).successor hleftAscending hpending hmover outcome _ _ num

theorem Mirrors.ids_eq (h : p.Mirrors s c) (hs : Assoc.Ascending s.actors) :
    s.ids = (p.indices.filter (p.isAlive c)).map idAt := by
  have hids : s.ids.Pairwise (· < ·) := Assoc.ascending_iff_keys.mp hs
  have halive : ((p.indices.filter (p.isAlive c)).map idAt).Pairwise (· < ·) := by
    refine (List.pairwise_lt_range.filter _).map _ fun i j hij => ?_
    show (i : Int) + 1 < j + 1
    omega
  refine hids.eq_of_mem_iff halive fun a => ?_
  have hmem : a ∈ s.ids ↔ ∃ st, s.status? a = some st := by
    simp only [State.ids, List.mem_map, State.status?]
    constructor
    · rintro ⟨e, he, rfl⟩
      exact ⟨e.2, (Assoc.get?_eq_some_iff hs).mpr he⟩
    · rintro ⟨st, hst⟩
      exact ⟨(a, st), Assoc.mem_of_get? hst, rfl⟩
  have hnext : (∃ st, s.status? a = some st) ↔ ∃ step, p.next c a = some step := by
    constructor
    · rintro ⟨st, hst⟩
      by_contra hnone
      rw [h.dead a (Option.eq_none_iff_forall_ne_some.mpr fun step hstep => hnone ⟨step, hstep⟩)] at hst
      cases hst
    · rintro ⟨step, hstep⟩
      obtain ⟨st, hst, -⟩ := h.alive a step hstep
      exact ⟨st, hst⟩
  rw [hmem, hnext]
  simp only [next_eq_some, List.mem_map, List.mem_filter, indices, List.mem_range, isAlive,
    Option.isSome_iff_exists]
  constructor
  · rintro ⟨step, i, hi, rfl⟩
    exact ⟨i, ⟨pending_lt hi, step, hi⟩, rfl⟩
  · rintro ⟨i, ⟨-, step, hi⟩, rfl⟩
    exact ⟨step, i, hi, rfl⟩

/-- The reports of the driver add up to the statuses of the actors of the program. -/
theorem reports_track_program (h : p.Reported s c) :
    s.ids = (p.indices.filter (p.isAlive c)).map idAt ∧
      ∀ i step, p.pending c i = some step → ∃ st, s.status? (idAt i) = some st ∧
        (st.enabled = step.guard.all fun g => g c.vars) ∧
        (st.enabled = true → st.limit = max 1 step.choices) := by
  obtain ⟨hmirrors, hascending⟩ := h.mirrors
  refine ⟨hmirrors.ids_eq hascending, fun i step hi => ?_⟩
  exact hmirrors.alive (idAt i) step (next_eq_some.mpr ⟨i, hi, rfl⟩)

def gatedPick : Program :=
  ⟨.empty, [[.write "gate" 1, .write "gate" 0], [(Step.choose "x" 3).when fun v => v.get "gate" = 0]], none⟩

theorem reports_track_program_gatedPick :
    ∃ s c, gatedPick.Reported s c ∧ s.ids = [2] ∧
      ∃ st, s.status? 2 = some st ∧ st.enabled = true ∧ st.limit = 3 := by
  have hinit : gatedPick.Reported (State.new 0 (gatedPick.aliveActors gatedPick.initial)) gatedPick.initial :=
    .initial rfl 0
  obtain ⟨r₁, hclose⟩ : ∃ r, gatedPick.driver.execute 1 0 gatedPick.initial =
      (.ok r, ⟨[1, 0], ⟨[("gate", 1)]⟩⟩) := ⟨_, rfl⟩
  obtain ⟨r₂, hopen⟩ : ∃ r, gatedPick.driver.execute 1 0 ⟨[1, 0], ⟨[("gate", 1)]⟩⟩ =
      (.ok r, ⟨[2, 0], ⟨[("gate", 0)]⟩⟩) := ⟨_, rfl⟩
  have hclosed := hinit.executed _ rfl (.inl rfl) hclose 1
  generalize State.successor _ _ _ = s₁ at hclosed
  have hopened := hclosed.executed { s₁ with transition := some r₂.transition } rfl (.inr rfl) hopen 2
  obtain ⟨hids, hstatus⟩ := reports_track_program hopened
  obtain ⟨st, hst, henabled, hlimit⟩ := hstatus 1 _ rfl
  have henabled : st.enabled = true := henabled
  exact ⟨_, _, hopened, hids, st, hst, henabled, hlimit henabled⟩

end Interleave.Program
