import Interleave.Proofs.Simulation

/-! The heads of the iterations of a run. Each one is on a trail that started at the root, so the stack is a
path of the program and the driver stands at its end. -/

namespace Interleave

variable {σ κ π : Type}

namespace Search

variable [Snapshot κ]

/-- The heads of the iterations of a run. -/
inductive Reached (drv : Driver σ κ) (o : Options) (m : σ) : Search σ κ → Prop
  | start {s : Search σ κ} (h : start drv o (new o m) = (none, s)) : Reached drv o m s
  | turn {s s' : Search σ κ} (hs : Reached drv o m s) (hopen : s.finished = false)
      (h : turn drv o s = (none, s')) : Reached drv o m s'

/-- What is kept of the first state, and logged about it. -/
inductive Begins (o : Options) : Option κ → VisitedSet κ → Array Event → Prop
  | off {snapshot : Option κ} (h : o.maxVisited = 0) : Begins o snapshot (.empty o.maxVisited) #[]
  | kept {k : κ} (h : 0 < o.maxVisited) :
      Begins o (some k) ((VisitedSet.empty o.maxVisited).add 0 k).1 #[.inserted 0 0]

/-- The search whose stack holds its first frame only. -/
def opened (o : Options) (m : σ) (visited : VisitedSet κ) (events : Array Event) (f : Frame κ) : Search σ κ :=
  { ({ new o m with
        nextNum := 1, visited, events
        graph := if o.graph then some (Tree.leaf (GraphNode.explored f.state.num none)) else none }.push f).log
      (.started f.state.actorCount o.reduction o.maxDepth) with phase := .running }

omit [Snapshot κ] in
theorem opened_graph {o : Options} (hgraph : o.graph = true) (m : σ) (visited : VisitedSet κ) (events : Array Event)
    {f : Frame κ} (hnum : f.state.num = 0) :
    (opened o m visited events f).graph = some (.leaf (GraphNode.explored 0 none)) := by
  rw [← hnum]
  exact if_pos hgraph

theorem start_eq_none {drv : Driver σ κ} {o : Options} {m : σ} {s : Search σ κ}
    (h : start drv o (new o m) = (none, s)) :
    ∃ actors m₁ snapshot m₂ visited events f, drv.initialActors m = (.ok actors, m₁) ∧
      drv.snapshot m₁ = (.ok snapshot, m₂) ∧ Begins o snapshot visited events ∧
      f = { state := consider o (State.new 0 actors), snapshot, clock := [], node := [] } ∧
      s = if f.state.isDeadlock then (opened o m₂ visited events f).report (deadlock f.state) f.state.num
        else opened o m₂ visited events f := by
  unfold start at h
  split at h
  · cases h
  · rename_i actors m₁ hinit
    dsimp only at h
    split at h
    · cases h
    · rename_i snapshot m₂ hsnap
      split at h
      · cases h
      · rename_i s₁ hentered
        have hbegins : ∃ visited events, s₁ = { (new o m : Search σ κ) with
            machine := m₂, nextNum := 1, visited, events } ∧ Begins o snapshot visited events := by
          split_ifs at hentered with hpositive
          · cases snapshot with
            | none => cases hentered
            | some k =>
              cases hentered
              exact ⟨_, _, rfl, .kept hpositive⟩
          · cases hentered
            exact ⟨_, _, rfl, .off (Nat.eq_zero_of_not_pos hpositive)⟩
        obtain ⟨visited, events, rfl, hbegins⟩ := hbegins
        cases h
        exact ⟨actors, m₁, snapshot, m₂, visited, events, _, hinit, hsnap, hbegins, rfl, rfl⟩

end Search

namespace Trail

variable {drv : Driver σ κ} {view : σ → π} {o : Options} {root : Node σ} [Snapshot κ]

structure Starts (drv : Driver σ κ) (view : σ → π) (o : Options) (root : Node σ) (T : Trail σ κ) :
    Prop where
  spots : ∃ p, T.spots = [p] ∧ p.node = root ∧ p.state = Search.consider o root.state ∧
    ∃ m, view m = view root.machine ∧ (drv.snapshot m).1 = .ok p.frame.snapshot
  truncated : T.truncated = none
  visited : (o.maxVisited = 0 ∧ T.visited = VisitedSet.empty o.maxVisited) ∨ ∃ k,
    drv.Captures view k root.machine ∧ T.visited = ((VisitedSet.empty o.maxVisited).add 0 k).1

theorem Starts.sound {T : Trail σ κ} (h : Starts drv view o root T) (hfresh : root.state.Fresh)
    (hroot : ¬ root.Failing) : Sound drv view o root T.spots := by
  obtain ⟨p, hspots, hnode, hstate, m, hview, hsnapshot⟩ := h.spots
  have hmarks : root.state.Remarked p.state := hstate ▸ consider_remarked o _
  rw [hspots]
  refine .root ⟨?_, ?_, ?_, ?_, ?_, ?_⟩ hnode
  · rw [hmarks.profile, hnode]
  · exact hmarks.wellFormed hfresh.wellFormed
  · exact hnode ▸ hfresh
  · exact hnode ▸ hroot
  · exact fun k hk => ⟨m, hnode ▸ hview, hk ▸ hsnapshot⟩
  · exact fun _ => ⟨hmarks.transition.trans hfresh.transition, fun x hx =>
      hfresh.not_tried x ((hmarks.tried_iff x).mp hx)⟩

def first (o : Options) (actors : List Actor) (m : σ) (snapshot : Option κ) : Spot σ κ :=
  .entered o 0 snapshot [] (.initial actors m)

section First

variable {actors : List Actor} {m₁ m₂ : σ} {snapshot : Option κ} {visited : VisitedSet κ} {events : Array Event}

omit [Snapshot κ] in
theorem first_remarked : (State.new 0 actors).Remarked (first o actors m₁ snapshot).state :=
  consider_remarked o _

omit [Snapshot κ] in
theorem initial_failing_iff :
    (Node.initial actors m₁).Failing ↔ (first o actors m₁ snapshot).state.isDeadlock = true := by
  -- The execution that has taken no step reports nothing, so it fails where it cannot go on.
  rw [State.isDeadlock_congr first_remarked.profile]
  exact or_iff_right Bool.false_ne_true

theorem first_starts (hsnap : drv.snapshot m₁ = (.ok snapshot, m₂))
    (hbegins : Search.Begins o snapshot visited events) :
    Starts drv view o (.initial actors m₁) ⟨[first o actors m₁ snapshot], visited, none⟩ := by
  refine ⟨⟨_, rfl, rfl, rfl, m₁, rfl, by rw [hsnap]; rfl⟩, rfl, ?_⟩
  cases hbegins with
  | off hnone => exact .inl ⟨hnone, rfl⟩
  | @kept k _ => exact .inr ⟨k, ⟨m₁, rfl, by rw [hsnap]⟩, rfl⟩

omit [Snapshot κ] in
theorem opened_follows (hsound : Sound drv view o (.initial actors m₁) [first o actors m₁ snapshot]) :
    Follows drv view o (.initial actors m₁) (Search.opened o m₂ visited events (first o actors m₁ snapshot).frame).core
      ⟨[first o actors m₁ snapshot], visited, none⟩ := by
  refine ⟨rfl, rfl, rfl, rfl, hsound, List.forall_mem_singleton.mpr ?_⟩
  rw [first_remarked.num]
  exact one_pos

end First

theorem start_simulates (hdet : drv.Deterministic view) {m : σ} {s : Search σ κ}
    (h : Search.start drv o (Search.new o m) = (none, s)) :
    ∃ root, drv.root? m = some root ∧
      ((¬ root.Failing ∧ ∃ T, Starts drv view o root T ∧ Tracks drv view o root s.core T) ∨
        (root.Failing ∧ s.core.phase = .done ∧ s.core.violation = some (blame root) ∧
          s.core.trace = root.trace ∧ s.core.truncated = none)) := by
  obtain ⟨actors, m₁, snapshot, m₂, visited, events, f, hinit, hsnap, hbegins, hf, rfl⟩ := Search.start_eq_none h
  obtain rfl : f = (first o actors m₁ snapshot).frame := hf
  have hroot : drv.root? m = some (.initial actors m₁) := by rw [Driver.root?, hinit]
  have hfresh : (Node.initial actors m₁).state.Fresh := State.new_fresh 0 actors
  have htransition : (first o actors m₁ snapshot).state.transition = none := first_remarked.transition
  refine ⟨_, hroot, ?_⟩
  split_ifs with hdead
  · have htrace : (Search.opened o m₂ visited events (first o actors m₁ snapshot).frame).stackTrace = [] := by
      show [(first o actors m₁ snapshot).frame].reverse.filterMap (·.state.transition) = []
      simp [htransition]
    refine .inr ⟨initial_failing_iff.mpr hdead, ?_⟩
    rw [Search.report_core]
    exact ⟨rfl, congrArg some (deadlock_congr first_remarked.keys), htrace, rfl⟩
  · have hok : ¬ (Node.initial actors m₁).Failing := initial_failing_iff.not.mpr hdead
    have hstarts : Starts drv view o (.initial actors m₁) _ := first_starts hsnap hbegins
    have hview : view m₂ = view m₁ := by
      have hkeep := hdet.snapshot_view m₁
      rwa [hsnap] at hkeep
    refine .inl ⟨hok, _, hstarts, ?_⟩
    exact (opened_follows (hstarts.sound hfresh hok)).tracks (by rintro ⟨⟩) hview

def Visits (drv : Driver σ κ) (view : σ → π) (o : Options) (root : Node σ) (T : Trail σ κ) : Prop :=
  ¬ root.Failing ∧ ∃ T₀, Starts drv view o root T₀ ∧ Relation.ReflTransGen (Shift drv view o) T₀ T

theorem Visits.induction {P : Trail σ κ → Prop} {T : Trail σ κ} (h : Visits drv view o root T)
    (hroot : root.state.Fresh) (hstarts : ∀ T, Starts drv view o root T → P T)
    (hshift : ∀ T T', Sound drv view o root T.spots → P T → Shift drv view o T T' → P T') :
    Sound drv view o root T.spots ∧ P T := by
  obtain ⟨hfail, T₀, hstart, hrun⟩ := h
  induction hrun with
  | refl => exact ⟨hstart.sound hroot hfail, hstarts T₀ hstart⟩
  | tail _ hstep ih => exact ⟨hstep.sound ih.1, hshift _ _ ih.1 ih.2 hstep⟩

theorem Visits.sound {T : Trail σ κ} (h : Visits drv view o root T) (hroot : root.state.Fresh) :
    Sound drv view o root T.spots :=
  (h.induction (P := fun _ => True) hroot (fun _ _ => trivial) fun _ _ _ _ _ => trivial).1

/-- The search has found a failing execution: the root itself, or the next step from a trail. -/
def Ends (drv : Driver σ κ) (view : σ → π) (o : Options) (root : Node σ) (c : Core σ κ) : Prop :=
  (root.Failing ∧ c.phase = .done ∧ c.violation = some (blame root) ∧ c.trace = root.trace ∧
    c.truncated = none) ∨ ∃ T, Visits drv view o root T ∧ Reports drv o T c

theorem Ends.phase {c : Core σ κ} (h : Ends drv view o root c) : c.phase = .done := by
  rcases h with ⟨-, hphase, -⟩ | ⟨T, -, p, below, x, t, n, p', -, -, -, hphase, -⟩ <;> exact hphase

theorem Ends.violation {c : Core σ κ} (h : Ends drv view o root c) : c.violation.isSome = true := by
  rcases h with ⟨-, -, hsome, -⟩ | ⟨T, -, p, below, x, t, n, p', -, -, -, -, hsome, -⟩ <;>
    exact Option.isSome_iff_exists.mpr ⟨_, hsome⟩

omit [Snapshot κ] in
theorem finished_iff {s : Search σ κ} : s.finished = true ↔ s.stack = [] ∨ s.phase = .done := by
  simp [Search.finished]

theorem visits_of_reached (hdet : drv.Deterministic view) {m : σ} {s : Search σ κ}
    (h : Search.Reached drv o m s) :
    ∃ root, drv.root? m = some root ∧
      ((∃ T, Visits drv view o root T ∧ Tracks drv view o root s.core T) ∨
        Ends drv view o root s.core) := by
  induction h with
  | start h =>
    obtain ⟨root, hroot, ⟨hfail, T, hstarts, htracks⟩ | hends⟩ := start_simulates hdet h
    · exact ⟨root, hroot, .inl ⟨T, ⟨hfail, T, hstarts, .refl⟩, htracks⟩⟩
    · exact ⟨root, hroot, .inr (.inl hends)⟩
  | turn _ hopen h ih =>
    obtain ⟨root, hroot, ⟨T, hvisits, htracks⟩ | hends⟩ := ih
    · obtain ⟨-, -, -, htrace, -⟩ := Driver.root?_eq_some hroot
      have hspots : T.spots ≠ [] := by
        intro hnil
        have hstack := htracks.stack
        rw [hnil] at hstack
        exact absurd (finished_iff.mpr (.inl hstack)) (by simp [hopen])
      refine ⟨root, hroot, ?_⟩
      rcases htracks.turn hdet htrace hspots h with ⟨T', hturned, htracks'⟩ | hreports
      · obtain ⟨hfail, T₀, hstarts, hrun⟩ := hvisits
        exact .inl ⟨T', ⟨hfail, T₀, hstarts, hrun.trans hturned.shifts.to_reflTransGen⟩, htracks'⟩
      · exact .inr (.inr ⟨T, hvisits, hreports⟩)
    · exact absurd (finished_iff.mpr (.inr hends.phase)) (by simp [hopen])

theorem tracks_of_open (hdet : drv.Deterministic view) {m : σ} {s : Search σ κ}
    (h : Search.Reached drv o m s) (hopen : s.finished = false) :
    ∃ root T p below, drv.root? m = some root ∧ Visits drv view o root T ∧
      Tracks drv view o root s.core T ∧ T.spots = p :: below := by
  obtain ⟨root, hroot, ⟨T, hvisits, htracks⟩ | hends⟩ := visits_of_reached hdet h
  · have hstack : s.stack = T.spots.map Spot.frame := htracks.stack
    cases hspots : T.spots with
    | nil =>
      rw [hspots] at hstack
      exact absurd (finished_iff.mpr (.inl hstack)) (by simp [hopen])
    | cons p below => exact ⟨root, T, p, below, hroot, hvisits, htracks, hspots⟩
  · exact absurd (finished_iff.mpr (.inr hends.phase)) (by simp [hopen])

theorem loop_reached {m : σ} {fuel : Nat} {s s' : Search σ κ} (hs : Search.Reached drv o m s)
    (h : Search.loop drv o fuel s = some (none, s')) : Search.Reached drv o m s' ∧ s'.finished = true := by
  induction fuel generalizing s with
  | zero =>
    simp only [Search.loop] at h
    split_ifs at h with hfin
    cases h
    exact ⟨hs, hfin⟩
  | succ fuel ih =>
    simp only [Search.loop] at h
    split_ifs at h with hfin
    · cases h
      exact ⟨hs, hfin⟩
    · split at h
      · cases h
      · rename_i s₁ hturn
        exact ih (.turn hs (by simpa using hfin) hturn) h

theorem run_closes {m : σ} {fuel : Nat} {s : Search σ κ} (h : Search.run drv o fuel m = some (none, s)) :
    ∃ s₁, Search.Reached drv o m s₁ ∧ s₁.finished = true ∧
      s = { s₁.log (.finished s₁.outcome s₁.stats) with phase := .done } := by
  unfold Search.run at h
  split at h
  · rename_i a s₀ hstart
    cases a <;> cases h
  · rename_i s₀ hstart
    obtain ⟨⟨abort, s₁⟩, hloop, hclose⟩ := Option.map_eq_some_iff.mp h
    cases abort with
    | some a => cases a <;> cases hclose
    | none =>
      obtain ⟨hreached, hfin⟩ := loop_reached (.start hstart) hloop
      cases hclose
      exact ⟨s₁, hreached, hfin, rfl⟩

theorem run_reached {m : σ} {fuel : Nat} {s : Search σ κ}
    (h : Search.run drv o fuel m = some (none, s)) :
    ∃ s₁, Search.Reached drv o m s₁ ∧ s₁.finished = true ∧ s.core = { s₁.core with phase := .done } := by
  obtain ⟨s₁, hreached, hfin, rfl⟩ := run_closes h
  exact ⟨s₁, hreached, hfin, rfl⟩

theorem run_phase {m : σ} {fuel : Nat} {s : Search σ κ} (h : Search.run drv o fuel m = some (none, s)) :
    s.phase = .done := by
  obtain ⟨s₁, -, -, hcore⟩ := run_reached h
  exact congrArg Core.phase hcore

/-- A run that ends without an error has unwound its whole trail or has found a failing execution. -/
theorem run_cases (hdet : drv.Deterministic view) {m : σ} {fuel : Nat} {s : Search σ κ}
    (h : Search.run drv o fuel m = some (none, s)) :
    ∃ root, drv.root? m = some root ∧
      ((∃ T, Visits drv view o root T ∧ T.spots = [] ∧ s.violation = none ∧
        s.truncated = T.truncated) ∨ Ends drv view o root s.core) := by
  obtain ⟨s₁, hreached, hfin, hcore⟩ := run_reached h
  obtain ⟨root, hroot, ⟨T, hvisits, htracks⟩ | hends⟩ := visits_of_reached hdet hreached
  · have hstack : s₁.core.stack = [] :=
      (finished_iff.mp hfin).resolve_right htracks.phase
    rw [htracks.stack, List.map_eq_nil_iff] at hstack
    refine ⟨root, hroot, .inl ⟨T, hvisits, hstack, ?_, ?_⟩⟩
    · exact (congrArg Core.violation hcore).trans htracks.violation
    · exact (congrArg Core.truncated hcore).trans htracks.truncated
  · refine ⟨root, hroot, .inr ?_⟩
    rw [hcore]
    rcases hends with ⟨hfail, -, hrest⟩ | ⟨T, hvisits, p, below, x, t, n, p', hspots, htakes, hfail, -, hrest⟩
    · exact .inl ⟨hfail, rfl, hrest⟩
    · exact .inr ⟨T, hvisits, p, below, x, t, n, p', hspots, htakes, hfail, rfl, hrest⟩

theorem run_clean (hdet : drv.Deterministic view) {m : σ} {fuel : Nat} {s : Search σ κ}
    (h : Search.run drv o fuel m = some (none, s)) (hclean : s.result.outcome = .noViolation) :
    ∃ root T, drv.root? m = some root ∧ Visits drv view o root T ∧ T.spots = [] ∧ T.truncated = none := by
  have hout : s.violation = none ∧ s.truncated = none := by
    have hclean : s.outcome = .noViolation := hclean
    unfold Search.outcome at hclean
    split_ifs at hclean with hviolation htruncated
    exact ⟨by simpa using hviolation, by simpa using htruncated⟩
  obtain ⟨root, hroot, ⟨T, hvisits, hspots, -, htruncated⟩ | hends⟩ := run_cases hdet h
  · exact ⟨root, T, hroot, hvisits, hspots, htruncated ▸ hout.2⟩
  · have hsome : s.violation.isSome = true := hends.violation
    simp [hout.1] at hsome

end Trail

/-- The frames, from the top of the stack to its bottom, lead from `m₁` to `m`: every frame below the top has
an outgoing transition, the driver executes it, and the state of the frame above is built from its result. -/
inductive StackPath (drv : Driver σ κ) (view : σ → π) (actors : List Actor) (m₁ : σ) :
    List (Frame κ) → σ → Prop
  | root {f : Frame κ} (built : f.state.unmarked = State.new f.state.num actors)
      (captured : ∀ k, f.snapshot = some k → drv.Captures view k m₁) :
      StackPath drv view actors m₁ [f] m₁
  | step {g f : Frame κ} {below : List (Frame κ)} {m m' : σ} {r : StepResult}
      (path : StackPath drv view actors m₁ (f :: below) m)
      (left : f.state.transition = some r.transition)
      (executed : drv.execute r.transition.actor r.transition.outcome m = (.ok r, m'))
      (built : g.state.unmarked = f.state.successor g.state.num r)
      (captured : ∀ k, g.snapshot = some k → drv.Captures view k m') :
      StackPath drv view actors m₁ (g :: f :: below) m'

namespace Trail

variable {drv : Driver σ κ} {view : σ → π} {o : Options} {root : Node σ}

theorem Sound.stackPath {actors : List Actor} (hroot : root.state = State.new 0 actors) {p : Spot σ κ}
    {below : List (Spot σ κ)} (hs : Sound drv view o root (p :: below)) :
    StackPath drv view actors root.machine ((p :: below).map Spot.frame) p.node.machine := by
  induction below generalizing p with
  | nil =>
    cases hs with
    | root hp hnode =>
      have hfresh : (State.new p.state.num actors).Fresh := State.new_fresh _ _
      have hprofile : p.state.profile = (State.new p.state.num actors).profile := by
        rw [hp.profile, hnode, hroot]
        rfl
      exact hnode ▸ .root (hfresh.eq_unmarked hprofile rfl) (hnode ▸ hp.snapshot)
  | cons q below ih =>
    cases hs with
    | @link _ _ _ t hbelow hp hout hadv htrace hnum =>
      obtain ⟨-, r, hexec, hstate, htrace', -⟩ := Driver.advance?_eq_some hadv
      obtain rfl : t = r.transition :=
        List.singleton_inj.mp (List.append_cancel_left (htrace.symm.trans htrace'))
      have hq := hbelow.fits
      -- A state is built from the profile of the one below, so its marks make no difference.
      have hactors : q.state.successorActors r = p.node.state.actors := by
        have hprofile : q.state.profile =
            State.profile { q.node.state with transition := some r.transition } := hq.profile
        rw [hstate]
        exact State.successorActors_congr hprofile (by rw [hout]) r
      have hbuilt : p.state.unmarked = q.state.successor p.state.num r := by
        refine State.Fresh.eq_unmarked (State.successor_fresh hq.wellFormed.ascending _ _) ?_ rfl
        rw [hp.profile, State.profile, State.profile, State.successor, hactors]
      exact .step (ih hbelow) hout hexec hbuilt hp.snapshot

theorem Sound.nums_ascend {spots : List (Spot σ κ)} (hs : Sound drv view o root spots) :
    (spots.map Spot.frame).Pairwise fun g f => f.state.num < g.state.num := by
  induction spots with
  | nil => exact .nil
  | cons p below ih =>
    refine List.pairwise_cons.mpr ⟨?_, ih hs.tail⟩
    cases hs with
    | root _ _ => simp
    | link hbelow _ _ _ _ hnum =>
      have hrest := List.pairwise_cons.mp (ih hbelow)
      rw [List.map_cons, List.forall_mem_cons]
      exact ⟨hnum, fun f hf => (hrest.1 f hf).trans hnum⟩

end Trail

/-- At the head of every iteration the numbers on the stack ascend, the stack is a path of the program from
its initial state, and the driver stands at the end of that path. -/
theorem stack_is_path [Snapshot κ] {drv : Driver σ κ} {view : σ → π} (hdet : drv.Deterministic view)
    {o : Options} {m : σ} {s : Search σ κ} (hs : Search.Reached drv o m s) (hopen : s.finished = false) :
    (s.stack.Pairwise fun g f => f.state.num < g.state.num) ∧
      ∃ actors m₁ m', drv.initialActors m = (.ok actors, m₁) ∧
        StackPath drv view actors m₁ s.stack m' ∧ view s.machine = view m' := by
  obtain ⟨root, hroot, ⟨T, -, htracks⟩ | hends⟩ := Trail.visits_of_reached hdet hs
  · have hstack : s.stack = T.spots.map Spot.frame := htracks.stack
    obtain ⟨actors, hinit, hstate, -, -⟩ := Driver.root?_eq_some hroot
    cases hspots : T.spots with
    | nil =>
      rw [hspots] at hstack
      exact absurd (Trail.finished_iff.mpr (.inl hstack)) (by simp [hopen])
    | cons p below =>
      have hsound := htracks.sound
      rw [hspots] at hstack hsound
      rw [hstack]
      exact ⟨hsound.nums_ascend, actors, root.machine, p.node.machine, hinit,
        hsound.stackPath hstate, htracks.position p below hspots⟩
  · exact absurd (Trail.finished_iff.mpr (.inr hends.phase)) (by simp [hopen])

def Program.checkedCounter : Program := ⟨.empty, [[.expect "x" 0], [.incr "x"]], none⟩

theorem stack_is_path_checkedCounter :
    ∃ s, Search.Reached Program.checkedCounter.driver ⟨0, .none, 0, 2, false⟩
        Program.checkedCounter.initial s ∧ s.stack.length = 2 ∧
      (s.stack.Pairwise fun g f => f.state.num < g.state.num) ∧
      ∃ actors m₁ m', Program.checkedCounter.driver.initialActors Program.checkedCounter.initial =
          (.ok actors, m₁) ∧
        StackPath Program.checkedCounter.driver id actors m₁ s.stack m' ∧ id s.machine = id m' := by
  obtain ⟨s, hs, hopen, hlength⟩ : ∃ s, Search.Reached Program.checkedCounter.driver
      ⟨0, .none, 0, 2, false⟩ Program.checkedCounter.initial s ∧ s.finished = false ∧ s.stack.length = 2 :=
    ⟨_, .turn (.turn (.turn (.turn (.start rfl) rfl rfl) rfl rfl) rfl rfl) rfl rfl, rfl, rfl⟩
  exact ⟨s, hs, hlength, stack_is_path Program.checkedCounter.driver_deterministic hs hopen⟩

end Interleave
