import Interleave.Proofs.Following
import Interleave.Proofs.Starvation

/-! Actors that do not depend on each other cost one interleaving. Under partial order reduction a search of such a
program with one outcome to every step goes straight down: no frame that it leaves has anything left to try, no race is
found, and the first time it goes back it is over. -/

namespace Interleave

variable {σ κ : Type}

def Frame.Apart (f g : Frame κ) : Prop :=
  ∀ t, f.state.transition = some t →
    ∃ u, g.state.transition = some u ∧ (u.actor = t.actor ∨ t.dependent u = false)

namespace Race

theorem visitAll_of_apart {t : Transition} {last : Option Clock} {fs : List (Frame κ)}
    (h : ∀ g ∈ fs, ∃ u, g.state.transition = some u ∧ (u.actor = t.actor ∨ t.dependent u = false)) :
    visitAll t last fs = .ok (fs, []) := by
  induction fs with
  | nil => rfl
  | cons g below ih =>
    obtain ⟨⟨u, hu, hapart⟩, hbelow⟩ := List.forall_mem_cons.mp h
    have hvisit : visit t last below.length g u = (g, []) := by
      refine if_pos ?_
      simpa using hapart
    simp only [visitAll, outgoing_eq_ok.mpr hu, ih hbelow, hvisit, bind, Except.bind, pure, Except.pure,
      List.append_nil]

theorem analyse_of_apart {t : Transition} {fs : List (Frame κ)}
    (h : ∀ g ∈ fs, ∃ u, g.state.transition = some u ∧ (u.actor = t.actor ∨ t.dependent u = false)) :
    analyse t fs = .ok (fs, []) := by
  have hleft : ∀ g ∈ fs, g.state.transition.isSome = true := by
    intro g hg
    obtain ⟨u, hu, -⟩ := h g hg
    rw [hu, Option.isSome_some]
  obtain ⟨last, hlast⟩ := latestClock_ok hleft t.actor
  simp only [analyse, hlast, bind, Except.bind]
  exact visitAll_of_apart h

end Race

namespace Search

theorem settle_of_apart (o : Options) {f : Frame κ} {below : List (Frame κ)} (h : ∀ g ∈ below, f.Apart g) :
    settle o f below = .ok (below, []) := by
  unfold settle
  split
  · rename_i t _ ht
    exact Race.analyse_of_apart fun g hg => h g hg t ht
  · rfl

theorem unwind_of_apart (drv : Driver σ κ) (o : Options) {fs : List (Frame κ)}
    (hspent : ∀ f ∈ fs, f.state.todoCount = 0) (hapart : fs.Pairwise Frame.Apart) {s : Search σ κ}
    (hstack : s.stack = fs) : ∃ events, unwind drv o fs.length s = (none, { s with stack := [], events }) := by
  induction fs generalizing s with
  | nil =>
    refine ⟨s.events, ?_⟩
    rw [List.length_nil, unwind, ← hstack]
  | cons f below ih =>
    obtain ⟨hf, hbelow⟩ := List.forall_mem_cons.mp hspent
    obtain ⟨hraces, hrest⟩ := List.pairwise_cons.mp hapart
    rw [List.length_cons, Trail.unwind_succ below.length hstack, settle_of_apart o hraces]
    simp only [hf, lt_irrefl, decide_false, Bool.false_and, Bool.false_eq_true, if_false]
    exact ih hbelow hrest rfl

end Search

namespace State

theorem Fresh.runnable_considerOne {st : State} (h : st.Fresh) {a : ActorId} {status : ActorStatus}
    (hstatus : st.considerOne.status? a = some status) (hrun : status.runnable = true) :
    st.candidates.head? = some a := by
  have hfresh : ∀ status, st.status? a = some status → status.runnable = false := by
    intro status hstatus
    have htodo : status.todo = false := (h.fresh _ (Assoc.mem_of_get? hstatus)).todo
    simp only [ActorStatus.runnable, htodo, Bool.false_and]
  unfold considerOne at hstatus
  split at hstatus
  · rename_i b hb
    rw [status?, Assoc.get?_modify] at hstatus
    split_ifs at hstatus with hab
    · rw [hb, hab]
    · rw [hfresh status hstatus] at hrun
      cases hrun
  · rw [hfresh status hstatus] at hrun
    cases hrun

theorem Fresh.take_considerOne {st taken : State} (h : st.Fresh) {a : ActorId} {outcome : Int}
    (htake : st.considerOne.take a = .ok (outcome, taken))
    (hnext : st.considerOne.next? = some a)
    (hlimit : ∀ status, st.considerOne.status? a = some status → status.limit = 1) :
    outcome = 0 ∧ taken.todoCount = 0 := by
  have hw : st.considerOne.WellFormed := st.considerOne_remarked.wellFormed h.wellFormed
  obtain ⟨⟨status, hstatus, hrun⟩, -⟩ := next?_eq_some hw hnext
  obtain ⟨status', hstatus', -, hdone, rfl, -⟩ := take_eq_ok htake
  cases hstatus.symm.trans hstatus'
  have htally := hw.status_tallied hstatus
  have htaken : status.taken = 0 := by
    have hlt := htally.lt_of_not_done hdone
    have hnonneg := htally.taken_nonneg
    rw [hlimit status hstatus] at hlt
    omega
  refine ⟨htaken, (todoCount_eq_zero_iff (take_wellFormed htake hw)).mpr fun b other hother => ?_⟩
  rw [take_status htake] at hother
  split_ifs at hother with hba
  · rw [hstatus, Option.map_some, Option.some.injEq] at hother
    subst hother
    have hspent : status.consider.done = true := by
      refine ((htally.consider hdone).done_iff).mpr ?_
      rw [ActorStatus.consider_taken, htaken, ActorStatus.consider_limit, hlimit status hstatus]
      rfl
    simp only [ActorStatus.runnable, hspent, Bool.not_true, Bool.and_false]
  · by_contra hother'
    have hb := h.runnable_considerOne hother (Bool.not_eq_false _ ▸ hother')
    have ha := h.runnable_considerOne hstatus hrun
    exact hba (Option.some.inj (hb.symm.trans ha))

theorem execute_of_take {s taken : State} {exec : ActorId → Int → Action σ StepResult} {a : ActorId} {outcome : Int}
    {m m' : σ} {r : StepResult} (htake : s.take a = .ok (outcome, taken)) (hexec : exec a outcome m = (.ok r, m'))
    (hactor : r.transition.actor = a) :
    s.execute exec a m = (.ok r, { taken with transition := some r.transition }, m') := by
  simp only [State.execute, htake, hexec, hactor, if_true]

end State

namespace Program

variable {p : Program} {c d : Configuration} {us : List Transition} {o : Options}

def SingleOutcome (p : Program) : Prop := ∀ steps ∈ p.actors, ∀ step ∈ steps, step.choices ≤ 1

instance (p : Program) : Decidable p.SingleOutcome := inferInstanceAs (Decidable (∀ _ ∈ _, _))

/-- The steps of different actors are independent, as the transitions that they report. -/
def ActorsIndependent (p : Program) : Prop :=
  ∀ (i : Nat) (hi : i < p.actors.length) (j : Nat) (hj : j < p.actors.length), i ≠ j →
    ∀ step ∈ p.actors[i], ∀ step' ∈ p.actors[j],
      (step.transition (idAt i) 0).dependent (step'.transition (idAt j) 0) = false

instance (p : Program) : Decidable p.ActorsIndependent := inferInstanceAs (Decidable (∀ _ _, _))

def Issues (p : Program) (t : Transition) : Prop :=
  ∃ (i : Nat) (hi : i < p.actors.length), ∃ step ∈ p.actors[i], t = step.transition (idAt i) 0

theorem ActorsIndependent.apart (h : p.ActorsIndependent) {t u : Transition} (ht : p.Issues t) (hu : p.Issues u) :
    u.actor = t.actor ∨ t.dependent u = false := by
  obtain ⟨i, hi, step, hstep, rfl⟩ := ht
  obtain ⟨j, hj, step', hstep', rfl⟩ := hu
  by_cases hij : i = j
  · exact .inl (congrArg idAt hij.symm)
  · exact .inr (h i hi j hj hij step hstep step' hstep')

theorem SingleOutcome.outcome_eq_zero (h : p.SingleOutcome) {t : Transition} {v : Option Violation}
    (hfires : p.Fires c t v d) : t.outcome = 0 := by
  obtain ⟨-, hpending, -, hlow, hhigh⟩ := hfires
  rename_i a i step outcome
  obtain ⟨steps, hsteps, hstep⟩ := mem_of_pending hpending
  have hchoices := h steps hsteps step hstep
  show outcome = 0
  omega

theorem SingleOutcome.issues (h : p.SingleOutcome) {t : Transition} {v : Option Violation}
    (hfires : p.Fires c t v d) : p.Issues t := by
  have hzero := h.outcome_eq_zero hfires
  obtain ⟨hindex, hpending, -, -, -⟩ := hfires
  rename_i a i step outcome
  obtain ⟨-, rfl⟩ := index?_eq_some.mp hindex
  simp only [pending, Option.bind_eq_bind, Option.bind_eq_some_iff] at hpending
  obtain ⟨steps, hsteps, position, -, hstep⟩ := hpending
  obtain ⟨hi, rfl⟩ := List.getElem?_eq_some_iff.mp hsteps
  obtain rfl : outcome = 0 := hzero
  exact ⟨i, hi, step, List.mem_of_getElem? hstep, rfl⟩

theorem SingleOutcome.issues_of_run (h : p.SingleOutcome) {ok : Option Violation → Prop} (hrun : p.Run ok c us d) :
    ∀ t ∈ us, p.Issues t := by
  induction hrun with
  | nil => exact List.forall_mem_nil _
  | cons hfires _ _ ih => exact List.forall_mem_cons.mpr ⟨h.issues hfires, ih⟩

structure Played (p : Program) (us : List Transition) (s : Search (Recorded Configuration) Captured) : Prop where
  run : p.Run (· = none) p.initial us s.machine.machine
  executed : s.machine.executed.toList = us.map Transition.step
  restores : s.machine.restores = 0
  cancelled : s.machine.cancelled = false
  violation : s.violation = none
  truncated : s.truncated = none
  expanded : s.stats.expanded = us.length + 1

/-- The search has never gone back: the frames below the top have been left by the transitions in order and have nothing
left to try, and the top frame holds the new state `st` with one actor marked. -/
structure Straight (p : Program) (us : List Transition) (s : Search (Recorded Configuration) Captured) (st : State) :
    Prop extends Played p us s where
  stack : ∃ top below, s.stack = top :: below ∧ top.state = st.considerOne ∧
    below.map (·.state.transition) = us.reverse.map some ∧ ∀ f ∈ below, f.state.todoCount = 0
  fresh : st.Fresh
  mirrors : p.Mirrors st s.machine.machine
  live : st.isDeadlock = false
  phase : s.phase = .running
  backtracks : s.stats.backtracks = 0

structure Unwound (p : Program) (us : List Transition) (s : Search (Recorded Configuration) Captured) : Prop
    extends Played p us s where
  stack : s.stack = []
  complete : p.Complete s.machine.machine
  backtracks : s.stats.backtracks = 1

theorem recorded_interrupted {m : Recorded Configuration} (h : m.cancelled = false) :
    p.driver.recorded.interrupted m = none := by
  show (if m.cancelled then some _ else none) = none
  rw [h]
  rfl

theorem Mirrors.complete_of_next?_none {st : State} (h : p.Mirrors st c) (hfresh : st.Fresh)
    (hlive : st.isDeadlock = false) (hnext : st.considerOne.next? = none) : p.Complete c := by
  by_contra hcomplete
  obtain ⟨t, v, c', hfires⟩ : ∃ t v c', p.Fires c t v c' := by
    by_contra hstuck
    have hdead := (h.isDeadlock_iff hfresh.wellFormed).mpr ⟨hcomplete, fun t v c' hf => hstuck ⟨t, v, c', hf⟩⟩
    rw [hlive] at hdead
    cases hdead
  obtain ⟨status, hstatus, hen, -, -⟩ := State.offers_iff.mp (h.offers_of_fires hfires)
  obtain ⟨b, hb⟩ := State.considerOne_marked hfresh.wellFormed hstatus hen
    (hfresh.fresh _ (Assoc.mem_of_get? hstatus)).done
  have hremarked := st.considerOne_remarked
  have hw := hremarked.wellFormed hfresh.wellFormed
  have ⟨other, hother, hen', _⟩ := hb
  have htried := State.tried_of_exhausted hw (State.next?_eq_none_iff.mp hnext) hb
    (hw.offers_zero (State.isEnabled_iff.mpr ⟨other, hother, hen'⟩))
  exact hfresh.not_tried _ ((hremarked.tried_iff _).mp htried)

theorem arrive_recorded (hnone : o.maxVisited = 0) (s : Search (Recorded Configuration) Captured)
    (top : Frame Captured) (next : State) :
    ∃ snapshots snapshot, Search.arrive p.driver.recorded o s top next =
      (none, Search.enter o { s with machine := { s.machine with snapshots } } top next snapshot) := by
  unfold Search.arrive
  rw [if_neg (by omega)]
  split_ifs
  · rw [Driver.recorded_snapshot]
    exact ⟨_, _, rfl⟩
  · exact ⟨s.machine.snapshots, none, rfl⟩

end Program

theorem Search.enter_eq (o : Options) (s : Search σ κ) (top : Frame κ) (next : State) (snapshot : Option κ) :
    ∃ node graph, s.enter o top next snapshot =
      { s with graph }.push { state := consider o next, snapshot, clock := [], node } := by
  cases hgraph : s.graph with
  | none =>
    refine ⟨[], none, ?_⟩
    simp only [enter, addNode, hgraph]
    rw [← hgraph]
  | some g =>
    refine ⟨g.nextChild top.node, some (g.addChild top.node (.explored next.num top.state.transition)), ?_⟩
    simp only [enter, addNode, hgraph]

def Search.leave (s : Search σ κ) (m : σ) (left : Frame κ) (below : List (Frame κ)) (t : Transition) : Search σ κ :=
  { s with machine := m, stack := left :: below, nextNum := s.nextNum + 1 }.log
    (.executed left.state.num below.length t)

theorem Search.advance_of_execute [Snapshot κ] {drv : Driver σ κ} {o : Options} (ho : o.reduction = .dpor)
    {s : Search σ κ} {top : Frame κ} {below : List (Frame κ)} {a : ActorId} {r : StepResult} {state : State} {m : σ}
    {clock : Clock} (hexec : top.state.execute drv.execute a s.machine = (.ok r, state, m))
    (hclock : Race.clockOf r.transition below = .ok clock) :
    advance drv o s top below a =
      match r.violation with
      | some v => (none, (s.leave m { top with state, clock } below r.transition).report v (s.nextNum + 1 - 1))
      | none =>
        if (state.successor (s.nextNum + 1 - 1) r).isDeadlock then
          (none, (s.leave m { top with state, clock } below r.transition).report
            (deadlock (state.successor (s.nextNum + 1 - 1) r)) (s.nextNum + 1 - 1))
        else arrive drv o (s.leave m { top with state, clock } below r.transition) { top with state, clock }
          (state.successor (s.nextNum + 1 - 1) r) := by
  unfold advance
  simp only [hexec, ho, hclock]
  rfl

theorem Search.start_of_snapshot [Snapshot κ] {drv : Driver σ κ} {o : Options} (hnone : o.maxVisited = 0) {m m₁ m₂ : σ}
    {actors : List Actor} {snapshot : Option κ} (hinit : drv.initialActors m = (.ok actors, m₁))
    (hsnap : drv.snapshot m₁ = (.ok snapshot, m₂)) {root : State} (hroot : consider o (State.new 0 actors) = root) :
    start drv o (new o m) = (none,
      if root.isDeadlock then
        (opened o m₂ (.empty o.maxVisited) #[] { state := root, snapshot, clock := [], node := [] }).report
          (deadlock root) root.num
      else opened o m₂ (.empty o.maxVisited) #[] { state := root, snapshot, clock := [], node := [] }) := by
  have hempty : ¬ 0 < o.maxVisited := by omega
  unfold start
  simp only [show drv.initialActors (new o m).machine = _ from hinit, hsnap, if_neg hempty]
  rw [← hroot]
  rfl

theorem Search.report_ends (s : Search σ κ) (v : Violation) (num : Int) :
    (s.report v num).violation.isSome = true ∧ (s.report v num).phase = .done := by
  have hcore := Search.report_core s v num
  exact ⟨congrArg (·.violation.isSome) hcore, congrArg Core.phase hcore⟩

namespace Program

variable {p : Program} {us : List Transition} {o : Options} {s : Search (Recorded Configuration) Captured} {st : State}

theorem ActorsIndependent.pairwise (h : p.ActorsIndependent) {fs : List (Frame Captured)}
    (hfs : ∀ f ∈ fs, ∃ u, f.state.transition = some u ∧ p.Issues u) : fs.Pairwise Frame.Apart := by
  refine List.pairwise_of_forall_mem_list fun f hf g hg t ht => ?_
  obtain ⟨t', ht', hissues⟩ := hfs f hf
  cases ht.symm.trans ht'
  obtain ⟨u, hu, hissues'⟩ := hfs g hg
  exact ⟨u, hu, h.apart hissues hissues'⟩

theorem Straight.left (h : p.Straight us s st) {top : Frame Captured} {below : List (Frame Captured)}
    (hstack : s.stack = top :: below) {f : Frame Captured} (hf : f ∈ below) :
    ∃ u ∈ us, f.state.transition = some u := by
  obtain ⟨top', below', hstack', -, hbelow, -⟩ := h.stack
  cases hstack.symm.trans hstack'
  have hmem : f.state.transition ∈ us.reverse.map some := hbelow ▸ List.mem_map_of_mem hf
  obtain ⟨u, hu, hleft⟩ := List.mem_map.mp hmem
  exact ⟨u, List.mem_reverse.mp hu, hleft.symm⟩

theorem Straight.turn_back (h : p.Straight us s st) (hsingle : p.SingleOutcome) (hindep : p.ActorsIndependent)
    (hnext : st.considerOne.next? = none) :
    ∃ s', Search.turn p.driver.recorded o s = (none, s') ∧ p.Unwound us s' := by
  obtain ⟨top, below, hstack, htop, -, hspent⟩ := h.stack
  have hnext' : top.state.next? = none := htop ▸ hnext
  have htodo : top.state.todoCount = 0 := State.next?_eq_none_iff.mp hnext'
  have hturn : Search.turn p.driver.recorded o s = Search.backtrack p.driver.recorded o s := by
    simp only [Search.turn, recorded_interrupted h.cancelled, hstack, htodo, lt_irrefl, if_false, hnext', ite_self]
  have hissued : ∀ f ∈ below, ∃ u, f.state.transition = some u ∧ p.Issues u := by
    intro f hf
    obtain ⟨u, hu, hleft⟩ := h.left hstack hf
    exact ⟨u, hleft, hsingle.issues_of_run h.run u hu⟩
  have hapart : s.stack.Pairwise Frame.Apart := by
    rw [hstack]
    refine List.pairwise_cons.mpr ⟨fun g _ t ht => ?_, hindep.pairwise hissued⟩
    rw [htop, st.considerOne_remarked.transition, h.fresh.transition] at ht
    cases ht
  have hall : ∀ f ∈ s.stack, f.state.todoCount = 0 := hstack ▸ List.forall_mem_cons.mpr ⟨htodo, hspent⟩
  obtain ⟨events, hunwind⟩ := Search.unwind_of_apart p.driver.recorded o hall hapart
    (s := { s with phase := .backtracking, stats := { s.stats with backtracks := s.stats.backtracks + 1 } }.log
      (.backtracked (s.stack.length - 1 : Int))) rfl
  refine ⟨_, hturn.trans hunwind, ⟨h.run, h.executed, h.restores, h.cancelled, h.violation, h.truncated, h.expanded⟩,
    rfl, h.mirrors.complete_of_next?_none h.fresh h.live hnext, ?_⟩
  show s.stats.backtracks + 1 = 1
  rw [h.backtracks]
  rfl

theorem Straight.take (h : p.Straight us s st) (hsingle : p.SingleOutcome) {a : ActorId}
    (hnext : st.considerOne.next? = some a) :
    ∃ taken t v c', st.considerOne.take a = .ok (0, taken) ∧ taken.todoCount = 0 ∧ t.step = ⟨a, 0⟩ ∧
      p.Fires s.machine.machine t v c' := by
  have hremarked := st.considerOne_remarked
  have hw := hremarked.wellFormed h.fresh.wellFormed
  have hmirrors : p.Mirrors st.considerOne s.machine.machine := h.mirrors.of_profile hremarked.profile
  obtain ⟨outcome, taken, htake⟩ := State.take_ok hw hnext
  obtain ⟨t, v, c', hstep, hfires⟩ := hmirrors.fires_of_offers (State.take_offers htake hw)
  have hlimit : ∀ status, st.considerOne.status? a = some status → status.limit = 1 := by
    intro status hstatus
    obtain ⟨step, hpending, -⟩ := hfires.next_eq
    obtain ⟨status', hstatus', -, hlimit⟩ := hmirrors.alive _ step hpending
    obtain rfl : t.actor = a := congrArg Interleave.Step.actor hstep
    cases hstatus.symm.trans hstatus'
    obtain ⟨status'', hstatus'', hen, -⟩ := State.take_eq_ok htake
    cases hstatus.symm.trans hstatus''
    obtain ⟨i, hi, -⟩ := next_eq_some.mp hpending
    obtain ⟨steps, hsteps, hmem⟩ := mem_of_pending hi
    have hchoices := hsingle steps hsteps step hmem
    rw [hlimit hen]
    omega
  obtain ⟨rfl, hspent⟩ := h.fresh.take_considerOne htake hnext hlimit
  exact ⟨taken, t, v, c', htake, hspent, hstep, hfires⟩

theorem Straight.length_below (h : p.Straight us s st) {top : Frame Captured} {below : List (Frame Captured)}
    (hstack : s.stack = top :: below) : below.length = us.length := by
  obtain ⟨top', below', hstack', -, hbelow, -⟩ := h.stack
  cases hstack.symm.trans hstack'
  simpa using congrArg List.length hbelow

theorem Straight.within (h : p.Straight us s st) (hspinless : p.Spinless) (hadmits : o.Admits p.stepCount)
    {t : Transition} {v : Option Violation} {c' : Configuration} (hfires : p.Fires s.machine.machine t v c') :
    o.withinDepth us.length = true := by
  have hall := h.run.remaining hspinless
  have hone := hfires.remaining hspinless
  rw [remaining_initial] at hall
  exact Options.admits_succ_iff.mp (hadmits.mono (by omega))

theorem Straight.execute (h : p.Straight us s st) {a : ActorId} {taken : State} {t : Transition} {v : Option Violation}
    {c' : Configuration} (htake : st.considerOne.take a = .ok (0, taken)) (hstep : t.step = ⟨a, 0⟩)
    (hfires : p.Fires s.machine.machine t v c') :
    ∃ r, st.considerOne.execute p.driver.recorded.execute a s.machine =
        (.ok r, { taken with transition := some t }, s.machine.after [t.step] c') ∧
      r.transition = t ∧ r.violation = v ∧
      ∀ num, p.Mirrors (State.successor { taken with transition := some t } num r) c' := by
  obtain ⟨i, step, hindex, hpending, hc', hexec⟩ := hfires.execute
  obtain rfl : t.actor = a := congrArg Interleave.Step.actor hstep
  have houtcome : t.outcome = 0 := congrArg Interleave.Step.outcome hstep
  have hremarked := st.considerOne_remarked
  have hw := hremarked.wellFormed h.fresh.wellFormed
  refine ⟨p.result s.machine.machine c' i t v, State.execute_of_take htake ?_ rfl, rfl, rfl, fun num => ?_⟩
  · rw [Driver.recorded_execute, ← houtcome, hexec]
    simp [Recorded.after, Transition.step]
  · have hmirrors : p.Mirrors { taken with transition := some t } s.machine.machine :=
      h.mirrors.of_profile ((State.take_profile htake hw).trans hremarked.profile)
    rw [hc']
    refine hmirrors.successor (State.take_wellFormed htake hw).ascending hpending ?_ _ t v num
    rintro t' ⟨⟩
    exact (index?_eq_some.mp hindex).2.symm

theorem Straight.enter (h : p.Straight us s st) (ho : o.reduction = .dpor) {left : Frame Captured}
    {below : List (Frame Captured)} (hbelow : below.map (·.state.transition) = us.reverse.map some)
    (hspent : ∀ f ∈ left :: below, f.state.todoCount = 0) {t : Transition} (hleft : left.state.transition = some t)
    {c' : Configuration} (hfires : p.Fires s.machine.machine t none c') {next : State} (hfresh : next.Fresh)
    (hmirrors : p.Mirrors next c') (hlive : next.isDeadlock = false) (snapshots : Nat) (snapshot : Option Captured) :
    p.Straight (us ++ [t]) (Search.enter o { s.leave (s.machine.after [t.step] c') left below t with
      machine := { s.machine.after [t.step] c' with snapshots } } left next snapshot) next := by
  obtain ⟨node, graph, henter⟩ := Search.enter_eq o { s.leave (s.machine.after [t.step] c') left below t with
    machine := { s.machine.after [t.step] c' with snapshots } } left next snapshot
  rw [henter]
  have hexecuted : (s.machine.after [t.step] c').executed.toList = (us ++ [t]).map Transition.step := by
    show (s.machine.executed ++ [t.step].toArray).toList = _
    simp [h.executed]
  have hexpanded : s.stats.expanded + (if s.phase = .backtracking then 0 else 1) = (us ++ [t]).length + 1 := by
    simp [h.phase, h.expanded]
  have hconsider : Search.consider o next = next.considerOne := by
    simp only [Search.consider, ho]
  have hlisted : (left :: below).map (·.state.transition) = (us ++ [t]).reverse.map some := by
    simp [hbelow, hleft]
  exact ⟨⟨h.run.append (.cons hfires rfl (.nil c')), hexecuted, h.restores, h.cancelled, h.violation, h.truncated,
    hexpanded⟩, ⟨_, _, rfl, hconsider, hlisted, hspent⟩, hfresh, hmirrors, hlive, h.phase, h.backtracks⟩

theorem Straight.turn_down (h : p.Straight us s st) (hsingle : p.SingleOutcome) (hspinless : p.Spinless)
    (ho : o.reduction = .dpor) (hnone : o.maxVisited = 0) (hadmits : o.Admits p.stepCount) {a : ActorId}
    (hnext : st.considerOne.next? = some a) :
    ∃ s', Search.turn p.driver.recorded o s = (none, s') ∧
      (s'.violation.isSome = true ∧ s'.phase = .done ∨ ∃ t st', p.Straight (us ++ [t]) s' st') := by
  obtain ⟨top, below, hstack, htop, hbelow, hspent⟩ := h.stack
  obtain ⟨taken, t, v, c', htake, htaken, hstep, hfires⟩ := h.take hsingle hnext
  have hwithin : o.withinDepth below.length = true :=
    h.length_below hstack ▸ h.within hspinless hadmits hfires
  have hnext' : top.state.next? = some a := htop ▸ hnext
  have hturn : Search.turn p.driver.recorded o s = Search.advance p.driver.recorded o s top below a := by
    simp only [Search.turn, recorded_interrupted h.cancelled, hstack, hwithin, Bool.not_true, Bool.false_eq_true,
      if_false, hnext']
  obtain ⟨r, hexecute, htransition, hviolation, hmirrors⟩ := h.execute htake hstep hfires
  have hleft : ∀ g ∈ below, g.state.transition.isSome = true := by
    intro g hg
    obtain ⟨u, -, hu⟩ := h.left hstack hg
    rw [hu, Option.isSome_some]
  obtain ⟨clock, hclock⟩ := Race.clockOf_ok hleft t
  have hadvance := hturn.trans (Search.advance_of_execute ho (htop.symm ▸ hexecute) (htransition.symm ▸ hclock))
  rw [htransition, hviolation] at hadvance
  cases v with
  | some w => exact ⟨_, hadvance, .inl (Search.report_ends _ w _)⟩
  | none =>
    dsimp only at hadvance
    split_ifs at hadvance with hlive
    · exact ⟨_, hadvance, .inl (Search.report_ends _ _ _)⟩
    · obtain ⟨snapshots, snapshot, harrive⟩ := arrive_recorded (p := p) hnone _ _ _
      have hascending : Assoc.Ascending ({ taken with transition := some t } : State).actors :=
        (State.take_wellFormed htake (st.considerOne_remarked.wellFormed h.fresh.wellFormed)).ascending
      have hspent' : ∀ f ∈ { top with state := { taken with transition := some t }, clock } :: below,
          f.state.todoCount = 0 := List.forall_mem_cons.mpr ⟨htaken, hspent⟩
      exact ⟨_, hadvance.trans harrive, .inr ⟨t, _, h.enter ho hbelow hspent' rfl hfires
        (State.successor_fresh hascending _ r) (hmirrors _) (Bool.eq_false_of_not_eq_true hlive) snapshots snapshot⟩⟩

theorem Straight.finished (h : p.Straight us s st) : s.finished = false := by
  obtain ⟨top, below, hstack, -⟩ := h.stack
  simp [Search.finished, hstack, h.phase]

section Searches

variable (hsingle : p.SingleOutcome) (hspinless : p.Spinless) (hindep : p.ActorsIndependent)
  (ho : o.reduction = .dpor) (hnone : o.maxVisited = 0) (hadmits : o.Admits p.stepCount)

include hsingle hspinless hindep ho hnone hadmits

theorem Straight.loop {fuel : Nat} (h : p.Straight us s st) (hfuel : p.remaining s.machine.machine < fuel) :
    ∃ s', Search.loop p.driver.recorded o fuel s = some (none, s') ∧
      (s'.violation.isSome = true ∨ ∃ us', p.Unwound us' s') := by
  induction fuel generalizing us s st with
  | zero => exact absurd hfuel (Nat.not_lt_zero _)
  | succ fuel ih =>
    have hloop : ∀ s', Search.turn p.driver.recorded o s = (none, s') →
        Search.loop p.driver.recorded o (fuel + 1) s = Search.loop p.driver.recorded o fuel s' := by
      intro s' hturn
      simp only [Search.loop, h.finished, Bool.false_eq_true, if_false, hturn]
    cases hnext : st.considerOne.next? with
    | none =>
      obtain ⟨s', hturn, hunwound⟩ := h.turn_back hsingle hindep hnext
      have hfinished : s'.finished = true := by simp [Search.finished, hunwound.stack]
      exact ⟨s', (hloop s' hturn).trans (Trail.loop_of_finished hfinished fuel), .inr ⟨us, hunwound⟩⟩
    | some a =>
      obtain ⟨s', hturn, ⟨hviolation, hphase⟩ | ⟨t, st', hstraight⟩⟩ :=
        h.turn_down hsingle hspinless ho hnone hadmits hnext
      · have hfinished : s'.finished = true := by simp [Search.finished, hphase]
        exact ⟨s', (hloop s' hturn).trans (Trail.loop_of_finished hfinished fuel), .inl hviolation⟩
      · have hbefore := h.run.remaining hspinless
        have hafter := hstraight.run.remaining hspinless
        rw [List.length_append, List.length_singleton] at hafter
        obtain ⟨s'', hrest, hended⟩ := ih hstraight (by omega)
        exact ⟨s'', (hloop s' hturn).trans hrest, hended⟩

end Searches

theorem Run.filter_actor (hsingle : p.SingleOutcome) (hspinless : p.Spinless) {ok : Option Violation → Prop}
    {c d : Configuration} (h : p.Run ok c us d) (hd : p.Complete d) {i : Nat} {steps : List Step}
    (hi : p.actors[i]? = some steps) {position : Nat} (hposition : c.positions[i]? = some position) :
    us.filter (·.actor = idAt i) = (steps.drop position).map (·.transition (idAt i) 0) := by
  induction h generalizing position with
  | nil c =>
    have hdone : p.next c (idAt i) = none := hd (idAt i)
    have hindex : p.index? (idAt i) = some i :=
      index?_eq_some.mpr ⟨(List.getElem?_eq_some_iff.mp hi).1, rfl⟩
    have hlength : steps.length ≤ position := by
      simpa [next, hindex, pending, hi, hposition] using hdone
    rw [List.drop_eq_nil_of_le hlength]
    rfl
  | @cons c c₁ c₂ t v us hfires hv hrun ih =>
    have hzero : t.outcome = 0 := hsingle.outcome_eq_zero hfires
    obtain ⟨hindex, hpending, -, -, -⟩ := hfires
    rename_i a j step outcome
    obtain rfl : outcome = 0 := hzero
    obtain ⟨-, rfl⟩ := index?_eq_some.mp hindex
    obtain ⟨steps', hj, hmem⟩ := mem_of_pending hpending
    have hmoved : (afterStep c j step 0).1.positions = c.positions.modify j (· + 1) := by
      rw [afterStep_eq]
      exact if_neg (by simp [hspinless steps' hj step hmem])
    by_cases hij : j = i
    · subst hij
      have hstep : steps[position]? = some step := by simpa [pending, hi, hposition] using hpending
      obtain ⟨hlt, rfl⟩ := List.getElem?_eq_some_iff.mp hstep
      have hnext : (afterStep c j steps[position] 0).1.positions[j]? = some (position + 1) := by
        rw [hmoved]
        simp [hposition]
      rw [List.drop_eq_getElem_cons hlt, List.map_cons, ← ih hd hnext]
      exact List.filter_cons_of_pos (decide_eq_true rfl)
    · have hsame : (afterStep c j step 0).1.positions[i]? = some position := by
        rw [hmoved]
        simpa [hij] using hposition
      rw [← ih hd hsame]
      refine List.filter_cons_of_neg ?_
      rw [decide_eq_true_eq]
      exact fun hactor => hij (idAt_inj hactor)

theorem remaining_of_complete {c : Configuration} (h : p.Complete c) : p.remaining c = 0 := by
  refine List.sum_eq_zero fun x hx => ?_
  obtain ⟨i, hi⟩ := List.mem_iff_getElem?.mp hx
  obtain ⟨steps, position, hsteps, hposition, rfl⟩ := List.getElem?_zipWith_eq_some.mp hi
  have hindex : p.index? (idAt i) = some i := index?_eq_some.mpr ⟨(List.getElem?_eq_some_iff.mp hsteps).1, rfl⟩
  have hdone : p.next c (idAt i) = none := h (idAt i)
  have hlength : steps.length ≤ position := by
    simpa [next, hindex, pending, hsteps, hposition] using hdone
  exact Nat.sub_eq_zero_of_le hlength

theorem straight_start (p : Program) (ho : o.reduction = .dpor) (hnone : o.maxVisited = 0) :
    ∃ s, Search.start p.driver.recorded o (Search.new o (.new .none p.initial)) = (none, s) ∧
      (s.violation.isSome = true ∧ s.phase = .done ∨
        p.Straight [] s (State.new 0 (p.aliveActors p.initial))) := by
  have hdead : (State.new 0 (p.aliveActors p.initial)).considerOne.isDeadlock =
      (State.new 0 (p.aliveActors p.initial)).isDeadlock :=
    State.isDeadlock_congr (State.considerOne_remarked _).profile
  have hroot : Search.consider o (State.new 0 (p.aliveActors p.initial)) =
      (State.new 0 (p.aliveActors p.initial)).considerOne := by
    simp only [Search.consider, ho]
  have hstart := Search.start_of_snapshot hnone (Driver.recorded_initialActors p.driver (.new .none p.initial))
    (Driver.recorded_snapshot p.driver _) hroot
  rw [hdead] at hstart
  split_ifs at hstart with hlive
  · exact ⟨_, hstart, .inl (Search.report_ends _ _ _)⟩
  · exact ⟨_, hstart, .inr ⟨⟨.nil _, rfl, rfl, rfl, rfl, rfl, rfl⟩, ⟨_, [], rfl, rfl, rfl, List.forall_mem_nil _⟩,
      State.new_fresh _ _, p.mirrors_new _ _, by simpa using hlive, rfl, rfl⟩⟩

theorem run_ends_straight (hsingle : p.SingleOutcome) (hspinless : p.Spinless) (hindep : p.ActorsIndependent)
    (ho : o.reduction = .dpor) (hnone : o.maxVisited = 0) (hadmits : o.Admits p.stepCount) {fuel : Nat}
    (hfuel : p.stepCount < fuel) :
    ∃ s, Search.run p.driver.recorded o fuel (.new .none p.initial) = some (none, s) ∧
      (s.violation.isSome = true ∨ ∃ us, p.Unwound us s) := by
  obtain ⟨s₁, hstart, hstarted⟩ := p.straight_start ho hnone
  obtain ⟨s₂, hloop, hended⟩ : ∃ s₂, Search.loop p.driver.recorded o fuel s₁ = some (none, s₂) ∧
      (s₂.violation.isSome = true ∨ ∃ us, p.Unwound us s₂) := by
    rcases hstarted with ⟨hviolation, hphase⟩ | hstraight
    · have hfinished : s₁.finished = true := by simp [Search.finished, hphase]
      exact ⟨s₁, Trail.loop_of_finished hfinished fuel, .inl hviolation⟩
    · refine hstraight.loop hsingle hspinless hindep ho hnone hadmits ?_
      have hall := hstraight.run.remaining hspinless
      rw [remaining_initial, List.length_nil] at hall
      omega
  refine ⟨{ s₂.log (.finished s₂.outcome s₂.stats) with phase := .done }, ?_, ?_⟩
  · simp only [Search.run, hstart, hloop, Option.map_some, Search.close]
  · rcases hended with hviolation | ⟨us, hplayed, hstack, hcomplete, hbacktracks⟩
    · exact .inl hviolation
    · exact .inr ⟨us, ⟨hplayed.run, hplayed.executed, hplayed.restores, hplayed.cancelled, hplayed.violation,
        hplayed.truncated, hplayed.expanded⟩, hstack, hcomplete, hbacktracks⟩

/-- Independent actors cost one interleaving. Where every step has one outcome, none loops, and the steps of different
actors are independent, a search under reduction ends without an error as long as the depth bound leaves room for all
steps. If it finds no violation, it has executed the steps of every actor once and in order, has never restored the
driver, has expanded one state more than there are steps, and has gone back once. -/
theorem independent_actors_cost_one_interleaving (hsingle : p.SingleOutcome) (hspinless : p.Spinless)
    (hindep : p.ActorsIndependent) (ho : o.reduction = .dpor) (hnone : o.maxVisited = 0)
    (hadmits : o.maxDepth < 1 ∨ p.stepCount ≤ o.maxDepth) :
    (∀ fuel, p.stepCount < fuel → ∃ ended,
      Search.run p.driver.recorded o fuel (.new .none p.initial) = some ended) ∧
    ∀ fuel a s, Search.run p.driver.recorded o fuel (.new .none p.initial) = some (a, s) → a = none ∧
      (s.violation = none → s.result.outcome = .noViolation ∧ s.machine.restores = 0 ∧
        s.stats.expanded = p.stepCount + 1 ∧ s.stats.backtracks = 1 ∧
        ∃ us, s.machine.executed.toList = us.map Transition.step ∧ us.length = p.stepCount ∧
          (∃ c, p.Run (· = none) p.initial us c) ∧
          ∀ (i : Nat) (hi : i < p.actors.length),
            us.filter (·.actor = idAt i) = p.actors[i].map (·.transition (idAt i) 0)) := by
  have hrun : ∀ fuel, p.stepCount < fuel → _ :=
    fun _ hfuel => run_ends_straight hsingle hspinless hindep ho hnone hadmits hfuel
  refine ⟨fun fuel hfuel => ?_, fun fuel a s hs => ?_⟩
  · obtain ⟨s, hs, -⟩ := hrun fuel hfuel
    exact ⟨_, hs⟩
  · obtain ⟨s', hs', hended⟩ := hrun _ (Nat.lt_succ_self _)
    obtain ⟨rfl, rfl⟩ := Prod.mk.inj (Search.run_unique hs hs')
    refine ⟨rfl, fun hclean => ?_⟩
    rcases hended with hviolation | ⟨us, hunwound⟩
    · rw [hclean] at hviolation
      cases hviolation
    · have hlength : us.length = p.stepCount := by
        have hall := hunwound.run.remaining hspinless
        rwa [remaining_initial, remaining_of_complete hunwound.complete] at hall
      have houtcome : s.result.outcome = .noViolation := by
        simp [Search.result, Search.outcome, hclean, hunwound.truncated]
      refine ⟨houtcome, hunwound.restores, hlength ▸ hunwound.expanded, hunwound.backtracks, us, hunwound.executed,
        hlength, ⟨_, hunwound.run⟩, fun i hi => ?_⟩
      have hposition : p.initial.positions[i]? = some 0 := by simp [initial, hi]
      exact hunwound.run.filter_actor hsingle hspinless hunwound.complete (List.getElem?_eq_getElem hi) hposition

def privateCounters : Program :=
  ⟨.empty, [[.write "x" 1, .expect "x" 1], [.incr "y", .incr "y"], [.read "z"]], none⟩

theorem independent_actors_cost_one_interleaving_privateCounters :
    privateCounters.SingleOutcome ∧ privateCounters.Spinless ∧ privateCounters.ActorsIndependent ∧
      ∃ s, Search.run privateCounters.driver.recorded
          { maxDepth := 5, reduction := .dpor, maxVisited := 0, checkpoint := 2, graph := true } 6
          (.new .none privateCounters.initial) = some (none, s) ∧
        s.violation = none ∧ s.machine.restores = 0 ∧ s.stats.expanded = 6 ∧ s.stats.backtracks = 1 ∧
        s.machine.executed.toList.length = 5 := by
  have hsingle : privateCounters.SingleOutcome := by decide
  have hspinless : privateCounters.Spinless := by decide
  have hindep : privateCounters.ActorsIndependent := by decide
  let o : Options := { maxDepth := 5, reduction := .dpor, maxVisited := 0, checkpoint := 2, graph := true }
  obtain ⟨hends, honce⟩ := independent_actors_cost_one_interleaving (o := o) hsingle hspinless hindep rfl rfl
    (.inr (by decide))
  obtain ⟨⟨a, s⟩, hs⟩ := hends 6 (by decide)
  obtain ⟨rfl, hcosts⟩ := honce 6 a s hs
  have hclean : s.violation = none := by
    have hcheck : ((Search.run privateCounters.driver.recorded o 6 (.new .none privateCounters.initial)).map
        (·.2.violation)) = some none := by decide +kernel
    rw [hs] at hcheck
    exact Option.some.inj hcheck
  obtain ⟨-, hrestores, hexpanded, hbacktracks, us, hexecuted, hlength, -⟩ := hcosts hclean
  refine ⟨hsingle, hspinless, hindep, s, hs, hclean, hrestores, hexpanded, hbacktracks, ?_⟩
  rw [hexecuted, List.length_map, hlength]
  rfl

end Program

end Interleave
