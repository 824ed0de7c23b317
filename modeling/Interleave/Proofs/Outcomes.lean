import Interleave.Proofs.Exhaustion
import Interleave.Proofs.FullSearch
import Mathlib.Order.Bounds.Basic

/-! What a state hands out. Whatever is asked of a state, and whether the executions succeed, fail or report another
actor, the outcomes of each actor are handed out from zero on, one after the other, until the actor is done. Executing
the next actor until there is none hands out what is left in the order of steps. -/

namespace Interleave

variable {σ : Type}

abbrev Executor (σ : Type) := ActorId → Int → Action σ StepResult

namespace Executor

def noting (exec : Executor σ) : Executor (σ × List Step) := fun a outcome m =>
  ((exec a outcome m.1).1, (exec a outcome m.1).2, m.2 ++ [⟨a, outcome⟩])

def Succeeds (exec : Executor σ) : Prop :=
  ∀ a outcome m, ∃ r, (exec a outcome m).1 = .ok r ∧ r.transition.actor = a

end Executor

/-- What can be asked of a state. -/
inductive Request (σ : Type) where
  | markTodo (a : ActorId)
  | considerAll
  | considerOne
  | execute (exec : Executor σ) (a : ActorId)

def outcomesOf (a : ActorId) (calls : List Step) : List Int := (calls.filter (·.actor = a)).map (·.outcome)

def given? (actors : List Actor) (a : ActorId) : Option Actor := actors.reverse.find? (·.id = a)

theorem outcomesOf_append (a : ActorId) (calls : List Step) (x : Step) :
    outcomesOf a (calls ++ [x]) = outcomesOf a calls ++ if x.actor = a then [x.outcome] else [] := by
  rw [outcomesOf, List.filter_append, List.map_append]
  by_cases hx : x.actor = a <;> simp [outcomesOf, hx]

theorem mem_outcomesOf {calls : List Step} {x : Step} : x.outcome ∈ outcomesOf x.actor calls ↔ x ∈ calls := by
  simp only [outcomesOf, List.mem_map, List.mem_filter, decide_eq_true_eq]
  constructor
  · rintro ⟨y, ⟨hy, hactor⟩, houtcome⟩
    obtain ⟨a, k⟩ := y
    obtain ⟨b, l⟩ := x
    obtain rfl : a = b := hactor
    obtain rfl : k = l := houtcome
    exact hy
  · exact fun hx => ⟨x, ⟨hx, rfl⟩, rfl⟩

namespace State

/-- Serves one request. A request that is refused leaves the state as it is. -/
def serve (s : State) (m : σ × List Step) : Request σ → State × σ × List Step
  | .markTodo a => ((s.markTodo a).toOption.getD s, m)
  | .considerAll => (s.considerAll, m)
  | .considerOne => (s.considerOne, m)
  | .execute exec a => (s.execute exec.noting a m).2

def serveAll (s : State) (m : σ × List Step) (requests : List (Request σ)) : State × σ × List Step :=
  requests.foldl (fun now request => now.1.serve now.2 request) (s, m)

/-- Executes the next actor until there is none; none if that takes `fuel` rounds or more, or if an execution fails. -/
def drain (exec : Executor σ) : Nat → State → σ → Option (State × σ)
  | 0, _, _ => none
  | fuel + 1, s, m =>
    match s.next? with
    | none => some (s, m)
    | some a =>
      match s.execute exec a m with
      | (.ok _, s, m) => drain exec fuel s m
      | (.error _, _, _) => none

theorem status?_new_eq_given (num : Int) (actors : List Actor) (a : ActorId) :
    (new num actors).status? a = (given? actors a).map fun x => ActorStatus.fresh x.enabled x.outcomes := by
  simp only [new, status?, Assoc.ofList, List.foldl_map, given?]
  induction actors using List.reverseRecOn with
  | nil => rfl
  | append_singleton actors x ih =>
    rw [List.foldl_append, List.foldl_cons, List.foldl_nil, Assoc.get?_insert, List.reverse_append,
      List.reverse_singleton, List.singleton_append, List.find?_cons]
    by_cases hx : x.id = a
    · simp [hx]
    · simp [hx, Ne.symm hx, ih]

inductive Serves (s : State) (calls : List Step) : State → List Step → Prop
  | marked {s' : State} (h : s.Remarked s') : Serves s calls s' calls
  | handed {s' : State} {a : ActorId} {outcome : Int} (h : s.take a = .ok (outcome, s'))
      (transition : Option Transition) : Serves s calls { s' with transition } (calls ++ [⟨a, outcome⟩])

theorem serve_serves {s : State} (hw : s.WellFormed) (m : σ) (calls : List Step) (request : Request σ) :
    Serves s calls (s.serve (m, calls) request).1 (s.serve (m, calls) request).2.2 := by
  cases request with
  | markTodo a =>
    simp only [serve, State.markTodo, requireStatus]
    cases hst : s.status? a with
    | none => exact .marked (.refl s)
    | some st => exact .marked (setTodo_remarked hw hst)
  | considerAll => exact .marked s.considerAll_remarked
  | considerOne => exact .marked s.considerOne_remarked
  | execute exec a =>
    simp only [serve, State.execute]
    split
    · exact .marked (.refl s)
    · rename_i outcome s' htake
      split
      · rename_i e m' hexec
        obtain rfl := congrArg (·.2) hexec
        exact .handed htake s'.transition
      · rename_i r m' hexec
        obtain rfl := congrArg (·.2) hexec
        split_ifs
        · exact .handed htake (some r.transition)
        · exact .handed htake s'.transition

def Separate (s : State) : Prop := ∀ a st, s.status? a = some st → st.done = true → st.todo = false

def takenBy (s : State) (a : ActorId) : Nat := ((s.status? a).map (·.taken.toNat)).getD 0

structure Accounted (s₀ s : State) (calls : List Step) : Prop where
  wellFormed : s.WellFormed
  separate : s.Separate
  profile : s.profile = s₀.profile
  outcomes : ∀ a, outcomesOf a calls = (List.range (s.takenBy a)).map Int.ofNat

theorem Fresh.accounted {s : State} (h : s.Fresh) : Accounted s s [] where
  wellFormed := h.wellFormed
  separate := fun a st hst hdone => (h.fresh _ (Assoc.mem_of_get? hst)).todo
  profile := rfl
  outcomes := by
    intro a
    have hzero : s.takenBy a = 0 := by
      unfold takenBy
      cases hst : s.status? a with
      | none => rfl
      | some st =>
        have htaken : st.taken = 0 := (h.fresh _ (Assoc.mem_of_get? hst)).taken
        simp [htaken]
    rw [hzero]
    rfl

theorem consider_separate {st : ActorStatus} (hd : st.done = false) (h : st.consider.done = true) :
    st.consider.todo = false := by
  unfold ActorStatus.consider at h ⊢
  dsimp only at h ⊢
  split_ifs at h ⊢
  · rfl
  · rw [hd] at h
    cases h

theorem Remarked.takenBy_eq {s s' : State} (h : s.Remarked s') (a : ActorId) : s'.takenBy a = s.takenBy a := by
  unfold takenBy
  cases hst : s.status? a with
  | none =>
    cases hst' : s'.status? a with
    | none => rfl
    | some st' =>
      obtain ⟨st, hst₁, -⟩ := h.status_back hst'
      cases hst.symm.trans hst₁
  | some st =>
    obtain ⟨st', hst', hrel⟩ := h.status hst
    simp [hst', hrel.taken]

theorem takenBy_of_take {s s' : State} (hw : s.WellFormed) {a : ActorId} {outcome : Int}
    (h : s.take a = .ok (outcome, s')) :
    outcome = s.takenBy a ∧ ∀ b, s'.takenBy b = s.takenBy b + if a = b then 1 else 0 := by
  obtain ⟨st, hst, -, -, rfl, -⟩ := take_eq_ok h
  have hnonneg := (hw.status_tallied hst).taken_nonneg
  have hcount : s.takenBy a = st.taken.toNat := by simp [takenBy, hst]
  refine ⟨by rw [hcount, Int.toNat_of_nonneg hnonneg], fun b => ?_⟩
  rw [takenBy, take_status h]
  by_cases hb : b = a
  · subst hb
    simp only [if_true, hst, Option.map_some, Option.getD_some, ActorStatus.consider_taken, hcount]
    omega
  · simp [takenBy, hb, Ne.symm hb]

theorem Serves.accounted {s₀ s s' : State} {calls calls' : List Step} (h : Serves s calls s' calls')
    (hs : Accounted s₀ s calls) : Accounted s₀ s' calls' := by
  cases h with
  | marked hmarks =>
    refine ⟨hmarks.wellFormed hs.wellFormed, fun a st' hst' hdone => ?_, hmarks.profile.trans hs.profile, fun a => ?_⟩
    · obtain ⟨st, hst, rfl | ⟨hd, rfl⟩⟩ := hmarks.status_back hst'
      · exact hs.separate a st' hst hdone
      · rw [hd] at hdone
        cases hdone
    · rw [hmarks.takenBy_eq]
      exact hs.outcomes a
  | @handed s' a outcome htake transition =>
    have hw := take_wellFormed htake hs.wellFormed
    obtain ⟨houtcome, htaken⟩ := takenBy_of_take hs.wellFormed htake
    refine ⟨⟨hw.ascending, hw.tallied⟩, fun b st' hst' hdone => ?_,
      (take_profile htake hs.wellFormed).trans hs.profile, fun b => ?_⟩
    · obtain ⟨st, hst, -, hd, -, -⟩ := take_eq_ok htake
      have hst' : s'.status? b = some st' := hst'
      rw [take_status htake] at hst'
      split_ifs at hst'
      · rw [hst] at hst'
        cases hst'
        exact consider_separate hd hdone
      · exact hs.separate b st' hst' hdone
    · rw [outcomesOf_append, hs.outcomes b, show takenBy { s' with transition } b = _ from htaken b]
      by_cases hb : a = b
      · subst hb
        rw [if_pos rfl, if_pos rfl, List.range_succ, List.map_append, houtcome]
        rfl
      · rw [if_neg hb, if_neg hb, List.append_nil, Nat.add_zero]

theorem Serves.done {s s' : State} {calls calls' : List Step} (h : Serves s calls s' calls') {a : ActorId}
    {st : ActorStatus} (hst : s.status? a = some st) (hdone : st.done = true) :
    ∃ st', s'.status? a = some st' ∧ st'.done = true := by
  cases h with
  | marked hmarks =>
    obtain ⟨st', hst', rfl | ⟨hd, rfl⟩⟩ := hmarks.status hst
    · exact ⟨st', hst', hdone⟩
    · rw [hd] at hdone
      cases hdone
  | @handed s' b outcome htake transition =>
    obtain ⟨stb, hstb, -, hd, -, -⟩ := take_eq_ok htake
    have hne : a ≠ b := by
      rintro rfl
      cases hst.symm.trans hstb
      rw [hd] at hdone
      cases hdone
    have hsame : s'.status? a = some st := by rw [take_status htake, if_neg hne, hst]
    exact ⟨st, hsame, hdone⟩

theorem serveAll_accounted {s₀ s : State} {calls : List Step} (hs : Accounted s₀ s calls) (m : σ)
    (requests : List (Request σ)) :
    Accounted s₀ (s.serveAll (m, calls) requests).1 (s.serveAll (m, calls) requests).2.2 := by
  induction requests generalizing s m calls with
  | nil => exact hs
  | cons request requests ih => exact ih ((serve_serves hs.wellFormed m calls request).accounted hs) _

theorem serveAll_done {s₀ s : State} {calls : List Step} (hs : Accounted s₀ s calls) (m : σ)
    (requests : List (Request σ)) {a : ActorId} {st : ActorStatus} (hst : s.status? a = some st)
    (hdone : st.done = true) : ∃ st', (s.serveAll (m, calls) requests).1.status? a = some st' ∧ st'.done = true := by
  induction requests generalizing s m calls st with
  | nil => exact ⟨st, hst, hdone⟩
  | cons request requests ih =>
    have hserves := serve_serves hs.wellFormed m calls request
    obtain ⟨st', hst', hdone'⟩ := hserves.done hst hdone
    exact ih (hserves.accounted hs) _ hst' hdone'

def runnables (s : State) : Set ActorId :=
  {a | ∃ st, s.status? a = some st ∧ st.todo = true ∧ st.enabled = true ∧ st.done = false}

theorem mem_runnables {s : State} {a : ActorId} :
    a ∈ s.runnables ↔ ∃ st, s.status? a = some st ∧ st.runnable = true := by
  simp [runnables, ActorStatus.runnable, and_assoc]

theorem next?_eq_some_iff {s : State} (hw : s.WellFormed) {a : ActorId} :
    s.next? = some a ↔ IsLeast s.runnables a := by
  have hleast : ∀ {a}, s.next? = some a → IsLeast s.runnables a := by
    intro a h
    obtain ⟨hrun, hbelow⟩ := next?_eq_some hw h
    refine ⟨mem_runnables.mpr hrun, fun b hb => ?_⟩
    obtain ⟨st, hst, hst_run⟩ := mem_runnables.mp hb
    by_contra hlt
    rw [hbelow b st hst (not_le.mp hlt)] at hst_run
    cases hst_run
  refine ⟨hleast, fun h => ?_⟩
  cases hnext : s.next? with
  | some b => rw [(hleast hnext).unique h]
  | none =>
    obtain ⟨st, hst, hrun⟩ := mem_runnables.mp h.1
    rw [(todoCount_eq_zero_iff hw).mp (next?_eq_none_iff.mp hnext) a st hst] at hrun
    cases hrun

theorem isSome_next?_iff (s : State) : s.next?.isSome = true ↔ 0 < s.todoCount := by
  rw [Option.isSome_iff_ne_none, ne_eq, next?_eq_none_iff, Nat.pos_iff_ne_zero]

theorem execute_refused {s : State} {a : ActorId}
    (h : ∀ st, s.status? a = some st → st.enabled = false ∨ st.done = true) (exec : Executor σ) (m : σ) :
    s.execute exec a m =
      (.error (.fault (if (s.status? a).isSome then .notRunnable s.num a else .unknownActor s.num a)), s, m) := by
  have htake : s.take a =
      .error (if (s.status? a).isSome then .notRunnable s.num a else .unknownActor s.num a) := by
    simp only [take, requireStatus]
    cases hst : s.status? a with
    | none => rfl
    | some st =>
      have hrun : (!st.enabled || st.done) = true := by
        rcases h st hst with hoff | hdone
        · simp [hoff]
        · simp [hdone]
      simp [bind, Except.bind, hrun]
  rw [State.execute, htake]

def Ahead (s : State) (x : Step) : Prop :=
  ∃ st, s.status? x.actor = some st ∧ st.runnable = true ∧ st.taken ≤ x.outcome ∧ x.outcome < st.limit

theorem ahead_iff_of_take {s s' : State} (hw : s.WellFormed) {a : ActorId} {outcome : Int} (hnext : s.next? = some a)
    (htake : s.take a = .ok (outcome, s')) (x : Step) :
    (s.Ahead x ↔ x = ⟨a, outcome⟩ ∨ s'.Ahead x) ∧ (s'.Ahead x → Step.Before ⟨a, outcome⟩ x) := by
  obtain ⟨⟨st, hst, hrun⟩, hbelow⟩ := next?_eq_some hw hnext
  obtain ⟨st', hst', hen, hd, rfl, -⟩ := take_eq_ok htake
  obtain rfl := Option.some.inj (hst.symm.trans hst')
  have hlt := (hw.status_tallied hst).lt_of_not_done hd
  obtain ⟨b, k⟩ := x
  by_cases hb : b = a
  · subst hb
    have hconsidered : s'.status? b = some st.consider := by rw [take_status htake, if_pos rfl, hst, Option.map_some]
    have hrunnable : st.consider.runnable = decide (st.taken + 1 < st.limit) := by
      simp only [ActorStatus.runnable, Bool.and_eq_true, Bool.not_eq_true'] at hrun
      unfold ActorStatus.consider ActorStatus.runnable
      dsimp only
      split_ifs with hlimit
      · simpa using hlimit
      · simpa [hrun.1.1, hrun.1.2, hrun.2] using lt_of_not_ge hlimit
    simp only [Ahead, hst, hconsidered, Option.some.injEq, exists_eq_left', hrun, hrunnable, decide_eq_true_eq,
      ActorStatus.consider_taken, ActorStatus.consider_limit, Step.mk.injEq, Step.Before, lt_irrefl, true_and, false_or]
    exact ⟨by omega, by omega⟩
  · have hsame : s'.status? b = s.status? b := by rw [take_status htake, if_neg hb]
    simp only [Ahead, hsame, Step.mk.injEq, hb, false_and, false_or, iff_self, true_and]
    rintro ⟨stb, hstb, hrunb, -⟩
    refine .inl (lt_of_le_of_ne (not_lt.mp fun hba => ?_) (Ne.symm hb))
    rw [hbelow b stb hstb hba] at hrunb
    cases hrunb

theorem drain_ahead {exec : Executor σ} (hexec : exec.Succeeds) {s : State} (hw : s.WellFormed) (m : σ)
    (calls : List Step) : ∃ rest s' m',
      s.drain exec.noting (rest.length + 1) (m, calls) = some (s', m', calls ++ rest) ∧
      rest.Pairwise Step.Before ∧ ∀ x, x ∈ rest ↔ s.Ahead x := by
  induction hreserve : s.reserve using Nat.strong_induction_on generalizing s m calls with
  | _ reserve ih =>
    subst hreserve
    cases hnext : s.next? with
    | none =>
      refine ⟨[], s, m, ?_, .nil, fun x => ?_⟩
      · simp [drain, hnext]
      · simp only [List.not_mem_nil, false_iff]
        rintro ⟨st, hst, hrun, -⟩
        rw [(todoCount_eq_zero_iff hw).mp (next?_eq_none_iff.mp hnext) _ st hst] at hrun
        cases hrun
    | some a =>
      obtain ⟨outcome, s', htake⟩ := take_ok hw hnext
      obtain ⟨r, hok, hactor⟩ := hexec a outcome m
      have hexecuted : s.execute exec.noting a (m, calls) = (.ok r, { s' with transition := some r.transition },
          (exec a outcome m).2, calls ++ [⟨a, outcome⟩]) := by
        simp only [State.execute, htake, Executor.noting, hok, hactor, if_true]
      have hw' : WellFormed { s' with transition := some r.transition } :=
        ⟨(take_wellFormed htake hw).ascending, (take_wellFormed htake hw).tallied⟩
      have hahead := ahead_iff_of_take hw hnext htake
      obtain ⟨rest, s'', m'', hdrain, hsorted, hmem⟩ := ih _ (execute_reserve_lt hexecuted hw) hw'
        (exec a outcome m).2 (calls ++ [⟨a, outcome⟩]) rfl
      refine ⟨⟨a, outcome⟩ :: rest, s'', m'', ?_, ?_, fun x => ?_⟩
      · rw [List.length_cons, drain, hnext]
        dsimp only
        rw [hexecuted]
        dsimp only
        rw [hdrain, List.append_assoc, List.singleton_append]
      · exact List.pairwise_cons.mpr ⟨fun x hx => (hahead x).2 ((hmem x).mp hx), hsorted⟩
      · rw [List.mem_cons, hmem, (hahead x).1]
        rfl

theorem ahead_considerAll_iff {s : State} (hw : s.WellFormed) (x : Step) :
    s.considerAll.Ahead x ↔ s.offers x = true ∧ ¬ s.Tried x := by
  have hmarks := s.considerAll_remarked
  have hall := s.considerAll_allMarked
  have hw' := hmarks.wellFormed hw
  rw [← State.offers_congr hmarks.profile, ← hmarks.tried_iff, offers_iff]
  constructor
  · rintro ⟨st, hst, hrun, htaken, hlimit⟩
    have hnonneg := (hw'.status_tallied hst).taken_nonneg
    simp only [ActorStatus.runnable, Bool.and_eq_true] at hrun
    refine ⟨⟨st, hst, hrun.1.2, hnonneg.trans htaken, hlimit⟩, ?_⟩
    rintro ⟨st', hst', -, hlt⟩
    obtain rfl := Option.some.inj (hst.symm.trans hst')
    exact absurd hlt (not_lt.mpr htaken)
  · rintro ⟨⟨st, hst, hen, hnonneg, hlimit⟩, hnew⟩
    have htaken : st.taken ≤ x.outcome := not_lt.mp fun hlt => hnew ⟨st, hst, hnonneg, hlt⟩
    refine ⟨st, hst, ?_, htaken, hlimit⟩
    by_contra hrun
    have hoffers : s.considerAll.offers x = true := offers_iff.mpr ⟨st, hst, hen, hnonneg, hlimit⟩
    have hconsidered := hall _ (isEnabled_of_offers hoffers)
    exact hnew (tried_of_not_runnable hw' hst (Bool.not_eq_true _ ▸ hrun) hconsidered hoffers)

end State

/-- How an actor stands once `calls` have been handed out: its outcomes were handed out from zero on without gap or
repetition, all of them are below its limit, and it is done once all of them were. An actor that was not given is
unknown and gets nothing. -/
inductive Standing (actors : List Actor) (s : State) (calls : List Step) (a : ActorId) : Prop
  | unknown (hgiven : given? actors a = none) (hst : s.status? a = none) (hnone : outcomesOf a calls = [])
  | known {x : Actor} {st : ActorStatus} {count : Nat} (hgiven : given? actors a = some x)
      (hst : s.status? a = some st) (henabled : st.enabled = x.enabled) (hlimit : st.limit = max 1 x.outcomes)
      (houtcomes : outcomesOf a calls = (List.range count).map Int.ofNat) (hbelow : (count : Int) ≤ st.limit)
      (hdone : st.done = true ↔ (count : Int) = st.limit) (hseparate : st.done = true → st.todo = false)

namespace State

variable {actors : List Actor} {num : Int} {s : State} {calls : List Step}

theorem Accounted.status_new (h : Accounted (new num actors) s calls) {a : ActorId} {x : Actor}
    (hx : given? actors a = some x) :
    ∃ st, s.status? a = some st ∧ st.enabled = x.enabled ∧ st.limit = max 1 x.outcomes := by
  have hnew := status?_new_eq_given num actors a
  rw [hx, Option.map_some] at hnew
  exact status?_of_profile_eq h.profile.symm hnew

theorem Accounted.standing (h : Accounted (new num actors) s calls) (a : ActorId) : Standing actors s calls a := by
  cases hgiven : given? actors a with
  | none =>
    have hst : s.status? a = none := by
      cases hst : s.status? a with
      | none => rfl
      | some st =>
        obtain ⟨st', hst', -⟩ := status?_of_profile_eq h.profile hst
        rw [status?_new_eq_given, hgiven] at hst'
        cases hst'
    refine .unknown hgiven hst ?_
    rw [h.outcomes, takenBy, hst]
    rfl
  | some x =>
    obtain ⟨st, hst, henabled, hlimit⟩ := h.status_new hgiven
    have htallied := h.wellFormed.status_tallied hst
    have hcount : (s.takenBy a : Int) = st.taken := by
      rw [takenBy, hst]
      exact Int.toNat_of_nonneg htallied.taken_nonneg
    refine .known hgiven hst henabled hlimit (h.outcomes a) ?_ ?_ (h.separate a st hst)
    · rw [hcount]
      exact htallied.taken_le
    · rw [hcount]
      exact htallied.done_iff

theorem Accounted.tried_iff (h : Accounted (new num actors) s calls) (x : Step) : s.Tried x ↔ x ∈ calls := by
  rw [← mem_outcomesOf, h.outcomes, takenBy, Tried]
  cases hst : s.status? x.actor with
  | none => simp
  | some st =>
    have hnonneg := (h.wellFormed.status_tallied hst).taken_nonneg
    simp only [Option.some.injEq, exists_eq_left', Option.map_some, Option.getD_some, List.mem_map, List.mem_range]
    constructor
    · rintro ⟨h0, hlt⟩
      exact ⟨x.outcome.toNat, by omega, Int.toNat_of_nonneg h0⟩
    · rintro ⟨k, hk, heq⟩
      have heq : (k : Int) = x.outcome := heq
      omega

theorem Accounted.offers_iff (h : Accounted (new num actors) s calls) (y : Step) : s.offers y = true ↔
    ∃ x, given? actors y.actor = some x ∧ x.enabled = true ∧ 0 ≤ y.outcome ∧ y.outcome < max 1 x.outcomes := by
  rw [offers_congr h.profile, State.offers_iff, status?_new_eq_given]
  simp only [Option.map_eq_some_iff]
  constructor
  · rintro ⟨st, ⟨x, hx, rfl⟩, henabled, hnonneg, hlimit⟩
    exact ⟨x, hx, henabled, hnonneg, hlimit⟩
  · rintro ⟨x, hx, henabled, hnonneg, hlimit⟩
    exact ⟨_, ⟨x, hx, rfl⟩, henabled, hnonneg, hlimit⟩

end State

/-- Every outcome is handed out once. After any requests to a new state: every actor stands as its outcomes say, and
being done is permanent; executing an actor that is unknown, disabled or done is refused, and neither the state nor the
executor notices; the next actor is the lowest that is to be tried, enabled and not done, and there is one as long as
some are counted. So once all actors are marked, executing the next actor until there is none hands out, in the order of
steps, exactly the outcomes of the enabled actors that were not handed out before; after no requests these are all. -/
theorem outcomes_handed_out_once (num : Int) (actors : List Actor) (requests : List (Request σ)) (m m' : σ)
    {s : State} {calls : List Step}
    (hserved : (State.new num actors).serveAll (m, []) requests = (s, m', calls)) :
    (∀ a, Standing actors s calls a) ∧
    (∀ (more : List (Request σ)) a st, s.status? a = some st → st.done = true →
      ∃ st', (s.serveAll (m', calls) more).1.status? a = some st' ∧ st'.done = true) ∧
    (∀ (exec : Executor σ) a, (∀ st, s.status? a = some st → st.enabled = false ∨ st.done = true) →
      s.execute exec.noting a (m', calls) = (.error (.fault
        (if (s.status? a).isSome then .notRunnable s.num a else .unknownActor s.num a)), s, m', calls)) ∧
    (s.next?.isSome = true ↔ 0 < s.todoCount) ∧
    (∀ a, s.next? = some a ↔ IsLeast s.runnables a) ∧
    ∀ exec : Executor σ, exec.Succeeds → ∃ rest s' m'',
      s.considerAll.drain exec.noting (rest.length + 1) (m', calls) = some (s', m'', calls ++ rest) ∧
      rest.Pairwise Step.Before ∧
      ∀ y, y ∈ rest ↔ y ∉ calls ∧ ∃ x, given? actors y.actor = some x ∧ x.enabled = true ∧
        0 ≤ y.outcome ∧ y.outcome < max 1 x.outcomes := by
  have haccounted : State.Accounted (State.new num actors) s calls := by
    have hkept := State.serveAll_accounted (State.new_fresh num actors).accounted m requests
    rwa [hserved] at hkept
  have hw := haccounted.wellFormed
  refine ⟨haccounted.standing, fun more a st => State.serveAll_done haccounted m' more,
    fun exec a hstuck => State.execute_refused hstuck exec.noting (m', calls), s.isSome_next?_iff,
    fun a => State.next?_eq_some_iff hw, fun exec hexec => ?_⟩
  have hw' := s.considerAll_remarked.wellFormed hw
  obtain ⟨rest, s', m'', hdrain, hsorted, hmem⟩ := State.drain_ahead hexec hw' m' calls
  refine ⟨rest, s', m'', hdrain, hsorted, fun y => ?_⟩
  rw [hmem, State.ahead_considerAll_iff hw, haccounted.tried_iff, haccounted.offers_iff, and_comm]

def Executor.obliging : Executor Unit := fun a outcome m =>
  (.ok { transition := { actor := a, kind := .internal, resource := "", outcome, args := "", guarded := false }
         enabled := [], disabled := [], finished := [], violation := none }, m)

def Executor.failing : Executor Unit := fun _ _ m => (.error (.reported "broken"), m)

def Actor.unequal : List Actor := [⟨2, true, 2⟩, ⟨3, false, 1⟩, ⟨1, true, 0⟩]

theorem outcomes_handed_out_once_failing :
    ∃ s, (State.new 0 Actor.unequal).serveAll ((), []) [.considerOne, .execute .failing 2, .markTodo 3, .markTodo 4] =
        (s, (), [⟨2, 0⟩]) ∧
      (∀ a, Standing Actor.unequal s [⟨2, 0⟩] a) ∧ IsLeast s.runnables 1 ∧
      ∃ rest s', s.considerAll.drain Executor.obliging.noting (rest.length + 1) ((), [⟨2, 0⟩]) =
          some (s', (), ⟨2, 0⟩ :: rest) ∧
        rest.Pairwise Step.Before ∧ ⟨1, 0⟩ ∈ rest ∧ ⟨2, 1⟩ ∈ rest ∧ ⟨2, 0⟩ ∉ rest ∧ ⟨3, 0⟩ ∉ rest := by
  obtain ⟨s, hserved, hnext⟩ : ∃ s, (State.new 0 Actor.unequal).serveAll ((), [])
      [.considerOne, .execute .failing 2, .markTodo 3, .markTodo 4] = (s, (), [⟨2, 0⟩]) ∧ s.next? = some 1 :=
    ⟨_, rfl, rfl⟩
  obtain ⟨hstanding, -, -, -, hleast, hdrains⟩ := outcomes_handed_out_once 0 Actor.unequal _ () () hserved
  have hobliging : Executor.obliging.Succeeds := fun a outcome m => ⟨_, rfl, rfl⟩
  obtain ⟨rest, s', m, hdrain, hsorted, hmem⟩ := hdrains Executor.obliging hobliging
  refine ⟨s, hserved, hstanding, (hleast 1).mp hnext, rest, s', hdrain, hsorted, ?_, ?_, ?_, ?_⟩
  · exact (hmem _).mpr ⟨by decide, _, rfl, rfl, by decide, by decide⟩
  · exact (hmem _).mpr ⟨by decide, _, rfl, rfl, by decide, by decide⟩
  · exact fun hgone => ((hmem _).mp hgone).1 (by decide)
  · intro hoff
    obtain ⟨-, x, hx, henabled, -⟩ := (hmem _).mp hoff
    obtain rfl := Option.some.inj hx
    cases henabled

end Interleave
