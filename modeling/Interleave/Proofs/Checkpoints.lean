import Interleave.FaultInjection
import Interleave.Proofs.Lockstep
import Interleave.Proofs.Progress
import Mathlib.Algebra.BigOperators.Group.List.Basic

/-! Checkpoints change what a search costs, not what it finds. With any two intervals it explores the same steps and
goes back equally often; the calls that a recording driver counts differ in the snapshots taken and in the steps
replayed, and with a snapshot of every state no step is replayed. -/

namespace Interleave

variable {σ κ π : Type}

def Driver.recorded (drv : Driver σ κ) : Driver (Recorded σ) κ :=
  Recorded.driver .none Recorded.ignoresCancellation drv

namespace Driver

variable (drv : Driver σ κ) (m : Recorded σ)

theorem recorded_inner {α : Type} (action : Action σ α) :
    Recorded.inner none action m = ((action m.machine).1, { m with machine := (action m.machine).2 }) := by
  unfold Recorded.inner
  cases m.cancelled <;> rfl

theorem recorded_initialActors :
    drv.recorded.initialActors m =
      ((drv.initialActors m.machine).1, { m with machine := (drv.initialActors m.machine).2 }) :=
  recorded_inner m drv.initialActors

theorem recorded_execute (a : ActorId) (outcome : Int) :
    drv.recorded.execute a outcome m =
      ((drv.execute a outcome m.machine).1,
        { m with
          machine := (drv.execute a outcome m.machine).2
          executed := m.executed.push ⟨a, outcome⟩ }) := by
  have hanswer (answer : Except Failure StepResult) (n : Nat) :
      answer.map (Recorded.distort .none (n + 1)) = answer := by
    cases answer <;> rfl
  show Recorded.execute .none none drv a outcome m = _
  unfold Recorded.execute
  simp only [Array.size_push, recorded_inner, hanswer]
  simp [FaultPlan.none]

theorem recorded_snapshot :
    drv.recorded.snapshot m =
      ((drv.snapshot m.machine).1,
        { m with machine := (drv.snapshot m.machine).2, snapshots := m.snapshots + 1 }) := by
  have hanswer (answer : Except Failure (Option κ)) : (answer.map fun k => k) = answer := by
    cases answer <;> rfl
  show Recorded.snapshot .none none drv m = _
  unfold Recorded.snapshot
  simp [FaultPlan.none, recorded_inner, hanswer]

theorem recorded_restore (k : κ) :
    drv.recorded.restore k m =
      ((drv.restore k m.machine).1,
        { m with machine := (drv.restore k m.machine).2, restores := m.restores + 1 }) := by
  show Recorded.restore .none none drv k m = _
  unfold Recorded.restore
  simp [FaultPlan.none, recorded_inner]

variable {drv} {view : σ → π}

theorem Deterministic.recorded (hdet : drv.Deterministic view) :
    drv.recorded.Deterministic fun m => view m.machine where
  initialActors := by
    intro m m' hview
    rw [recorded_initialActors, recorded_initialActors]
    exact hdet.initialActors hview
  execute := by
    intro m m' a outcome hview
    rw [recorded_execute, recorded_execute]
    exact hdet.execute a outcome hview
  snapshot := by
    intro m m' hview
    rw [recorded_snapshot, recorded_snapshot]
    exact hdet.snapshot hview
  restore := by
    intro m m' k hview
    rw [recorded_restore, recorded_restore]
    exact hdet.restore k hview
  snapshot_view := by
    intro m
    rw [recorded_snapshot]
    exact hdet.snapshot_view m.machine
  restore_view := by
    intro m m' k hsnap hrestore
    rw [recorded_snapshot] at hsnap
    rw [recorded_restore] at hrestore ⊢
    exact hdet.restore_view hsnap hrestore
  echo := by
    intro a outcome m r h
    rw [recorded_execute] at h
    exact hdet.echo h

theorem GivesSnapshots.recorded (h : drv.GivesSnapshots) : drv.recorded.GivesSnapshots := by
  intro m
  rw [recorded_snapshot]
  exact h m.machine

end Driver

namespace Replay

variable {drv : Driver σ κ} {index : Nat} {m m' : Recorded σ}

theorem executeStep_recorded {x : Step} {r : StepResult}
    (h : executeStep drv.recorded index x m = (.ok r, m')) :
    m'.executed = m.executed.push x ∧ m'.restores = m.restores := by
  unfold executeStep at h
  rw [Driver.recorded_execute] at h
  split at h
  · cases h
  · rename_i r' m₁ hexec
    cases (Prod.mk.inj hexec).2
    split_ifs at h
    · cases h
      exact ⟨rfl, rfl⟩
    · cases h

theorem steps_recorded {xs : List Step} (h : steps drv.recorded index xs m = (none, m')) :
    m'.executed.toList = m.executed.toList ++ xs ∧ m'.restores = m.restores := by
  induction xs generalizing index m with
  | nil =>
    cases h
    simp
  | cons x xs ih =>
    simp only [steps] at h
    split at h
    · cases h
    · rename_i r m₁ hstep
      obtain ⟨hexecuted, hrestores⟩ := executeStep_recorded hstep
      split at h
      · cases h
      · obtain ⟨hrest, hrestores'⟩ := ih h
        rw [hrest, hexecuted, hrestores', hrestores]
        simp

end Replay

namespace Race

theorem visit_quiet (t : Transition) (last : Option Clock) (position : Nat) (f : Frame κ) (earlier : Transition) :
    (visit t last position f earlier).1.snapshot = f.snapshot ∧
      ∀ e ∈ (visit t last position f earlier).2, e.Quiet := by
  have hschedule : (schedule t earlier f.state).2.Quiet := by
    unfold schedule
    split
    · split_ifs <;> exact ⟨rfl, rfl⟩
    · exact ⟨rfl, rfl⟩
  unfold visit
  split_ifs
  · exact ⟨rfl, by simp⟩
  · exact ⟨rfl, by simpa using ⟨rfl, rfl⟩⟩
  · exact ⟨rfl, by simpa using hschedule⟩

theorem visitAll_quiet {t : Transition} {last : Option Clock} {fs fs' : List (Frame κ)} {es : List Event}
    (h : visitAll t last fs = .ok (fs', es)) :
    fs'.map Frame.snapshot = fs.map Frame.snapshot ∧ ∀ e ∈ es, e.Quiet := by
  induction fs generalizing fs' es with
  | nil =>
    cases h
    exact ⟨rfl, by simp⟩
  | cons f below ih =>
    obtain ⟨earlier, below', later, -, hrest, rfl, rfl⟩ := visitAll_cons_eq_ok h
    obtain ⟨hsnapshot, hquiet⟩ := visit_quiet t last below.length f earlier
    obtain ⟨hsnapshots, hlater⟩ := ih hrest
    rw [List.map_cons, List.map_cons, hsnapshot, hsnapshots]
    exact ⟨rfl, List.forall_mem_append.mpr ⟨hquiet, hlater⟩⟩

end Race

theorem Search.settle_quiet {o : Options} {f : Frame κ} {below below' : List (Frame κ)} {es : List Event}
    (h : settle o f below = .ok (below', es)) :
    below'.map Frame.snapshot = below.map Frame.snapshot ∧ ∀ e ∈ es, e.Quiet := by
  unfold settle at h
  split at h
  · obtain ⟨last, -, hvisit⟩ := Race.analyse_eq_ok h
    exact Race.visitAll_quiet hvisit
  · cases h
    exact ⟨rfl, by simp⟩

namespace Event

def explored (log : Array Event) : List Step := log.toList.filterMap explored?

def replayed (log : Array Event) : List Nat := log.toList.filterMap replayed?

theorem explored_push (log : Array Event) (e : Event) :
    explored (log.push e) = explored log ++ e.explored?.toList := by
  cases h : e.explored? <;> simp [explored, h]

theorem replayed_push (log : Array Event) (e : Event) :
    replayed (log.push e) = replayed log ++ e.replayed?.toList := by
  cases h : e.replayed? <;> simp [replayed, h]

theorem append_quiet (log : Array Event) {es : List Event} (h : ∀ e ∈ es, e.Quiet) :
    explored (log ++ es) = explored log ∧ replayed (log ++ es) = replayed log := by
  have hexplored : es.filterMap explored? = [] := List.filterMap_eq_nil_iff.mpr fun e he => (h e he).1
  have hreplayed : es.filterMap replayed? = [] := List.filterMap_eq_nil_iff.mpr fun e he => (h e he).2
  simp [explored, replayed, hexplored, hreplayed]

end Event

namespace Ledger

/-- The log accounts for the calls that a recording driver has got: each restore, each step taken for the first
time, in order, and each step replayed. -/
structure Tally (l : Ledger (Recorded σ) κ) : Prop where
  restores : l.machine.restores = (Event.replayed l.events).length
  explored : (Event.explored l.events).Sublist l.machine.executed.toList
  executed : l.machine.executed.size = (Event.explored l.events).length + (Event.replayed l.events).sum

structure Backed (l : Ledger σ κ) : Prop where
  snapshots : ∀ f ∈ l.stack, f.snapshot.isSome = true
  replayed : ∀ n ∈ Event.replayed l.events, n = 0

end Ledger

variable [Snapshot κ] {drv : Driver σ κ} {o : Options}

theorem Move.tally {view : σ → π} (hdet : drv.Deterministic view) {l l' : Ledger (Recorded σ) κ}
    (h : Move drv.recorded o l l') (hl : l.Tally) : l'.Tally := by
  obtain ⟨hrestores, hexplored, hexecuted⟩ := hl
  cases h with
  | initial hinit =>
    rw [Driver.recorded_initialActors] at hinit
    cases (Prod.mk.inj hinit).2
    exact ⟨hrestores, hexplored, hexecuted⟩
  | note hquiet =>
    constructor
    all_goals simp only [Event.explored_push, Event.replayed_push, hquiet.1, hquiet.2, Option.toList_none,
      List.append_nil]
    · exact hrestores
    · exact hexplored
    · exact hexecuted
  | settle hstack hsettle =>
    obtain ⟨hexplored', hreplayed'⟩ := Event.append_quiet l.events (Search.settle_quiet hsettle).2
    constructor
    all_goals simp only [hexplored', hreplayed']
    · exact hrestores
    · exact hexplored
    · exact hexecuted
  | restore hstack hnear hrestore hsteps =>
    rw [Driver.recorded_restore] at hrestore
    cases (Prod.mk.inj hrestore).2
    obtain ⟨hlist, hcount⟩ := Replay.steps_recorded hsteps
    -- The steps replayed are executed once more, but they were explored before.
    have hsize := congrArg List.length hlist
    constructor
    all_goals simp only [Event.explored_push, Event.replayed_push, Event.explored?, Event.replayed?,
      Option.toList_none, Option.toList_some, List.append_nil, hlist, hcount]
    · simp [hrestores]
    · exact hexplored.trans (List.sublist_append_left _ _)
    · simp at hsize ⊢
      omega
  | execute hstack hexec =>
    obtain ⟨outcome, taken, -, hrun, -, -⟩ := State.execute_eq_ok hexec
    have hstep := hdet.recorded.echo (congrArg Prod.fst hrun)
    rw [Driver.recorded_execute] at hrun
    cases (Prod.mk.inj hrun).2
    constructor
    all_goals simp only [Event.explored_push, Event.replayed_push, Event.explored?, Event.replayed?,
      Option.toList_none, Option.toList_some, List.append_nil, hstep]
    · exact hrestores
    · rw [Array.toList_push]
      exact hexplored.append_right _
    · simp
      omega
  | snapshot hsnap =>
    rw [Driver.recorded_snapshot] at hsnap
    cases (Prod.mk.inj hsnap).2
    exact ⟨hrestores, hexplored, hexecuted⟩
  | drop _ => exact ⟨hrestores, hexplored, hexecuted⟩
  | record k => exact ⟨hrestores, hexplored, hexecuted⟩
  | enter _ => exact ⟨hrestores, hexplored, hexecuted⟩

theorem Move.backed (hgives : drv.GivesSnapshots) (hcheckpoint : o.checkpoint = 1) {l l' : Ledger σ κ}
    (h : Move drv o l l') (hl : l.Backed) : l'.Backed := by
  -- With a snapshot of every state, the nearest one is always that of the top frame.
  obtain ⟨hsnapshots, hreplayed⟩ := hl
  cases h with
  | initial _ => exact ⟨hsnapshots, hreplayed⟩
  | note hquiet =>
    refine ⟨hsnapshots, ?_⟩
    simp only [Event.replayed_push, hquiet.2, Option.toList_none, List.append_nil]
    exact hreplayed
  | @settle f below below' es hstack hsettle =>
    obtain ⟨hsame, hquiet⟩ := Search.settle_quiet hsettle
    refine ⟨?_, ?_⟩
    · have hall : ∀ k ∈ below.map Frame.snapshot, k.isSome = true := by
        intro k hk
        obtain ⟨f', hf', rfl⟩ := List.mem_map.mp hk
        exact hsnapshots f' (hstack ▸ List.mem_cons_of_mem f hf')
      rw [← hsame] at hall
      refine List.forall_mem_cons.mpr ⟨hsnapshots f (hstack ▸ List.mem_cons_self), fun f' hf' => ?_⟩
      exact hall _ (List.mem_map_of_mem hf')
    · simp only [(Event.append_quiet l.events hquiet).2]
      exact hreplayed
  | drop hstack =>
    exact ⟨fun f hf => hsnapshots f (hstack ▸ List.mem_cons_of_mem _ hf), hreplayed⟩
  | @restore top base below above k m₁ m hstack hnear hrestore hsteps =>
    obtain ⟨k', hk'⟩ := Option.isSome_iff_exists.mp (hsnapshots top (hstack ▸ List.mem_cons_self))
    have habove : above = [] := by
      rw [hstack, Search.nearestSnapshot, hk'] at hnear
      cases hnear
      rfl
    refine ⟨hsnapshots, ?_⟩
    simp only [Event.replayed_push, Event.replayed?, Option.toList_some, List.forall_mem_append,
      List.forall_mem_singleton]
    exact ⟨hreplayed, by rw [habove]; rfl⟩
  | execute hstack _ =>
    refine ⟨?_, ?_⟩
    · rw [hstack] at hsnapshots
      exact List.forall_mem_cons.mpr (List.forall_mem_cons.mp hsnapshots)
    · simp only [Event.replayed_push, Event.replayed?, Option.toList_none, List.append_nil]
      exact hreplayed
  | snapshot _ => exact ⟨hsnapshots, hreplayed⟩
  | record _ => exact ⟨hsnapshots, hreplayed⟩
  | @enter f hsnapshot =>
    have hsome : f.snapshot.isSome = true := by
      refine Option.isSome_iff_ne_none.mpr fun hnone => ?_
      rcases hsnapshot with ⟨m, hm⟩ | ⟨-, hdue⟩
      · exact hgives m (hnone ▸ hm)
      · exact hdue (by simp [hcheckpoint])
    exact ⟨List.forall_mem_cons.mpr ⟨hsome, hsnapshots⟩, hreplayed⟩

namespace Search

theorem run_tally {view : σ → π} (hdet : drv.Deterministic view) {fuel : Nat} {m : σ}
    {s : Search (Recorded σ) κ} (h : run drv.recorded o fuel (.new .none m) = some (none, s)) :
    s.ledger.Tally :=
  (run_moves h).induction ⟨rfl, .slnil, rfl⟩ fun _ _ hl hmove => hmove.tally hdet hl

theorem run_backed (hgives : drv.GivesSnapshots) (hcheckpoint : o.checkpoint = 1) {fuel : Nat} {m : σ}
    {s : Search σ κ} (h : run drv o fuel m = some (none, s)) : s.ledger.Backed :=
  (run_moves h).induction ⟨fun _ hf => (by cases hf), fun _ hn => (by cases hn)⟩
    fun _ _ hl hmove => hmove.backed hgives hcheckpoint hl

/-- The run has not been ended by a call that failed or by a snapshot that the driver did not have to give. -/
def Unhindered (drv : Driver σ κ) (ended : Option (Option Abort × Search σ κ)) : Prop :=
  ∀ a s, ended = some (some a, s) → ¬ drv.Blamed a

omit [Snapshot κ] in
theorem unhindered_of_eq {ended : Option (Option Abort × Search σ κ)} {s : Search σ κ}
    (h : ended = some (none, s)) : Unhindered drv ended := by
  rintro a s' hended
  cases h.symm.trans hended

theorem Unhindered.unaborted {view : σ → π} (hdet : drv.Deterministic view) {fuel : Nat} {m : σ}
    (h : Unhindered drv (run drv o fuel m)) : Unaborted (run drv o fuel m) :=
  fun a s hrun => h a s hrun (run_blamed hdet hrun)

omit [Snapshot κ] in
theorem result_eq_of_bare {g : Bool} {s₁ s₂ : Search σ κ} (h : s₁.bare g = s₂.bare g) :
    s₁.result = s₂.result := by
  have hbare : ∀ s : Search σ κ, (s.bare g).result = s.result := by
    intro s
    simp only [result, reportedTrace, stackTrace_bare]
    rfl
  rw [← hbare s₁, h, hbare s₂]

end Search

namespace Event

theorem explored_bare (log : Array Event) : explored (log.map bare) = explored log := by
  have hbare : explored? ∘ bare = explored? := by
    funext e
    cases e <;> rfl
  simp only [explored, Array.toList_map, List.filterMap_map, hbare]

theorem length_replayed_bare (log : Array Event) :
    (replayed (log.map bare)).length = (replayed log).length := by
  have hbare : replayed? ∘ bare = fun e => e.replayed?.map fun _ => 0 := by
    funext e
    cases e <;> rfl
  rw [replayed, Array.toList_map, List.filterMap_map, hbare, ← List.map_filterMap, List.length_map]
  rfl

end Event

/-- Two runs of a deterministic driver that differ in the checkpoint interval, or in whether they record the graph,
both run out of fuel or both end, with the same result and the same graph if both record it. The driver is asked
for the same steps in the same order and restored equally often: what differs is the number of snapshots, and of
steps that are replayed. With a snapshot of every state none is. -/
theorem checkpoint_independence {view : σ → π} (hdet : drv.Deterministic view) (o : Options) (c₁ c₂ : Nat)
    (g₁ g₂ : Bool) (fuel : Nat) (m : σ) :
    let run (c : Nat) (g : Bool) := Search.run drv { o with checkpoint := c, graph := g } fuel m
    let recorded (c : Nat) (g : Bool) :=
      Search.run drv.recorded { o with checkpoint := c, graph := g } fuel (Recorded.new .none m)
    (Search.Unhindered drv (run c₁ g₁) → Search.Unhindered drv (run c₂ g₂) →
      Option.Rel (fun x y => x.1 = none ∧ y.1 = none ∧ x.2.result = y.2.result ∧
        (g₁ = true → g₂ = true → x.2.graph = y.2.graph)) (run c₁ g₁) (run c₂ g₂)) ∧
    (Search.Unhindered drv.recorded (recorded c₁ g₁) → Search.Unhindered drv.recorded (recorded c₂ g₂) →
      Option.Rel (fun x y => x.1 = none ∧ y.1 = none ∧
        x.2.machine.restores = y.2.machine.restores ∧
        Event.explored x.2.events = Event.explored y.2.events) (recorded c₁ g₁) (recorded c₂ g₂)) ∧
    ∀ c g s, recorded c g = some (none, s) →
      s.machine.restores = (Event.replayed s.events).length ∧
      (Event.explored s.events).Sublist s.machine.executed.toList ∧
      s.machine.executed.size = (Event.explored s.events).length + (Event.replayed s.events).sum ∧
      (c = 1 → drv.GivesSnapshots → s.machine.executed.toList = Event.explored s.events) := by
  intro run recorded
  have ho : ({ o with checkpoint := c₁, graph := g₁ } : Options).Alike
      { o with checkpoint := c₂, graph := g₂ } := ⟨rfl, rfl, rfl⟩
  have hgraph : (g₁ && g₂) = true → g₁ = g₂ := by
    intro h
    rw [Bool.and_eq_true] at h
    exact h.1.trans h.2.symm
  refine ⟨fun h₁ h₂ => ?_, fun h₁ h₂ => ?_, fun c g s hrun => ?_⟩
  · refine (Search.run_abreast hdet ho hgraph fuel (h₁.unaborted hdet) (h₂.unaborted hdet)).relates ?_
    intro s₁ s₂ _ _ h
    refine ⟨rfl, rfl, Search.result_eq_of_bare h, ?_⟩
    rintro rfl rfl
    have hgraphs : (s₁.bare true).graph = (s₂.bare true).graph := congrArg Search.graph h
    exact hgraphs
  · refine (Search.run_abreast hdet.recorded ho hgraph fuel (h₁.unaborted hdet.recorded)
      (h₂.unaborted hdet.recorded)).relates ?_
    intro s₁ s₂ hrun₁ hrun₂ h
    have hevents : s₁.events.map Event.bare = s₂.events.map Event.bare := congrArg Search.events h
    refine ⟨rfl, rfl, ?_, ?_⟩
    · calc s₁.machine.restores
          = (Event.replayed s₁.events).length := (Search.run_tally hdet hrun₁).restores
        _ = (Event.replayed s₂.events).length := by
          rw [← Event.length_replayed_bare, hevents, Event.length_replayed_bare]
        _ = s₂.machine.restores := (Search.run_tally hdet hrun₂).restores.symm
    · rw [← Event.explored_bare, hevents, Event.explored_bare]
  · obtain ⟨hrestores, hexplored, hexecuted⟩ := Search.run_tally hdet hrun
    refine ⟨hrestores, hexplored, hexecuted, fun hc hgives => ?_⟩
    -- Nothing is replayed from a snapshot of the state itself.
    have hsum : (Event.replayed s.events).sum = 0 :=
      List.sum_eq_zero (Search.run_backed hgives.recorded hc hrun).replayed
    have hlength : s.machine.executed.toList.length = (Event.explored s.events).length := by
      have hexecuted : s.machine.executed.size = _ + (Event.replayed s.events).sum := hexecuted
      rw [Array.length_toList, hexecuted, hsum]
      rfl
    exact (hexplored.eq_of_length hlength.symm).symm

def Program.unevenCounters : Program := ⟨.empty, [[.incr "x", .incr "x"], [.incr "y"]], none⟩

theorem checkpoint_independence_unevenCounters :
    ∃ s₁ s₂ r₁ r₂,
      Search.run Program.unevenCounters.driver ⟨0, .none, 0, 0, true⟩ 40 Program.unevenCounters.initial =
        some (none, s₁) ∧
      Search.run Program.unevenCounters.driver ⟨0, .none, 0, 1, true⟩ 40 Program.unevenCounters.initial =
        some (none, s₂) ∧
      s₁.result = s₂.result ∧ s₁.graph = s₂.graph ∧
      Search.run Program.unevenCounters.driver.recorded ⟨0, .none, 0, 0, true⟩ 40
        (Recorded.new .none Program.unevenCounters.initial) = some (none, r₁) ∧
      Search.run Program.unevenCounters.driver.recorded ⟨0, .none, 0, 1, true⟩ 40
        (Recorded.new .none Program.unevenCounters.initial) = some (none, r₂) ∧
      r₁.machine.restores = r₂.machine.restores ∧ r₁.machine.executed.size = 9 ∧
      r₂.machine.executed.size = 8 ∧ r₂.machine.executed.toList = Event.explored r₁.events := by
  obtain ⟨s₁, s₂, hrun₁, hrun₂⟩ : ∃ s₁ s₂,
      Search.run Program.unevenCounters.driver ⟨0, .none, 0, 0, true⟩ 40 Program.unevenCounters.initial =
        some (none, s₁) ∧
      Search.run Program.unevenCounters.driver ⟨0, .none, 0, 1, true⟩ 40 Program.unevenCounters.initial =
        some (none, s₂) := ⟨_, _, rfl, rfl⟩
  obtain ⟨r₁, r₂, hrec₁, hrec₂, hsize₁, hsize₂⟩ : ∃ r₁ r₂,
      Search.run Program.unevenCounters.driver.recorded ⟨0, .none, 0, 0, true⟩ 40
        (Recorded.new .none Program.unevenCounters.initial) = some (none, r₁) ∧
      Search.run Program.unevenCounters.driver.recorded ⟨0, .none, 0, 1, true⟩ 40
        (Recorded.new .none Program.unevenCounters.initial) = some (none, r₂) ∧
      r₁.machine.executed.size = 9 ∧ r₂.machine.executed.size = 8 := ⟨_, _, rfl, rfl, rfl, rfl⟩
  have hgives : Program.unevenCounters.driver.GivesSnapshots := fun _ hnone => by cases hnone
  obtain ⟨hfindings, hcalls, hcost⟩ := checkpoint_independence Program.unevenCounters.driver_deterministic
    ⟨0, .none, 0, 0, false⟩ 0 1 true true 40 Program.unevenCounters.initial
  have hfound := hfindings (Search.unhindered_of_eq hrun₁) (Search.unhindered_of_eq hrun₂)
  have hcalled := hcalls (Search.unhindered_of_eq hrec₁) (Search.unhindered_of_eq hrec₂)
  dsimp only at hfound hcalled
  rw [hrun₁, hrun₂] at hfound
  rw [hrec₁, hrec₂] at hcalled
  cases hfound with
  | some hfound =>
    cases hcalled with
    | some hcalled =>
      obtain ⟨-, -, hresult, hgraph⟩ := hfound
      obtain ⟨-, -, hrestores, hexplored⟩ := hcalled
      refine ⟨s₁, s₂, r₁, r₂, hrun₁, hrun₂, hresult, hgraph rfl rfl, hrec₁, hrec₂, hrestores, hsize₁, hsize₂, ?_⟩
      exact ((hcost 1 true r₂ hrec₂).2.2.2 rfl hgives).trans hexplored.symm

end Interleave
