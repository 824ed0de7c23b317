import Interleave.Proofs.Restoring

/-! Every turn of a search of a deterministic driver shifts a trail, until a violation is reported. The
simulation keeps the driver at the program state of the top frame. -/

namespace Interleave

variable {σ κ π : Type}

/-- What the course of a search depends on: its log, counters and graph are left out. -/
structure Core (σ κ : Type) where
  machine : σ
  phase : Phase
  stack : List (Frame κ)
  visited : VisitedSet κ
  nextNum : Int
  violation : Option Violation
  trace : List Transition
  truncated : Option (List Transition)

namespace Search

def core (s : Search σ κ) : Core σ κ :=
  { machine := s.machine, phase := s.phase, stack := s.stack, visited := s.visited
    nextNum := s.nextNum, violation := s.violation, trace := s.trace, truncated := s.truncated }

theorem core_phase (s : Search σ κ) (p : Phase) :
    { s with phase := p }.core = { s.core with phase := p } := rfl

theorem core_stack (s : Search σ κ) (fs : List (Frame κ)) :
    { s with stack := fs }.core = { s.core with stack := fs } := rfl

@[simp] theorem log_core (s : Search σ κ) (e : Event) : (s.log e).core = s.core := rfl

@[simp] theorem logAll_core (s : Search σ κ) (es : List Event) : (s.logAll es).core = s.core := by
  induction es generalizing s with
  | nil => rfl
  | cons e es ih => exact (ih (s.log e)).trans (log_core s e)

@[simp] theorem addNode_core (s : Search σ κ) (path : Tree.Path) (n : GraphNode) :
    (s.addNode path n).2.core = s.core := by
  unfold addNode
  cases s.graph <;> rfl

@[simp] theorem push_core (s : Search σ κ) (f : Frame κ) :
    (s.push f).core = { s.core with stack := f :: s.core.stack } := rfl

theorem cut_core (s : Search σ κ) (top : Frame κ) :
    (s.cut top).core = { s.core with truncated := some (s.truncated.getD s.stackTrace) } := rfl

theorem report_core (s : Search σ κ) (v : Violation) (num : Int) :
    (s.report v num).core =
      { s.core with phase := .done, violation := some v, trace := s.stackTrace } := by
  unfold report
  dsimp only
  rw [core_phase, log_core]
  split
  · rfl
  · split
    · rfl
    · rw [addNode_core]
      rfl

theorem enter_core (o : Options) (s : Search σ κ) (top : Frame κ) (next : State) (snapshot : Option κ) :
    ∃ node, (s.enter o top next snapshot).core = { s.core with
      stack := { state := consider o next, snapshot, clock := [], node } :: s.core.stack } := by
  refine ⟨(s.addNode top.node (GraphNode.explored next.num top.state.transition)).1, ?_⟩
  unfold enter
  dsimp only
  rw [push_core, addNode_core]

end Search

namespace Trail

variable (drv : Driver σ κ) (view : σ → π) (o : Options) (root : Node σ)

structure Follows (c : Core σ κ) (T : Trail σ κ) : Prop where
  stack : c.stack = T.spots.map Spot.frame
  visited : c.visited = T.visited
  truncated : c.truncated = T.truncated
  violation : c.violation = none
  sound : Sound drv view o root T.spots
  nums : ∀ p ∈ T.spots, p.state.num < c.nextNum

/-- In addition the driver is at the program state of the top frame, and the search has not ended. -/
structure Tracks (c : Core σ κ) (T : Trail σ κ) : Prop extends Follows drv view o root c T where
  phase : c.phase ≠ .done
  position : ∀ p below, T.spots = p :: below → view c.machine = view p.node.machine

variable {drv view o root}

theorem Follows.stackTrace {s : Search σ κ} {T : Trail σ κ} {p : Spot σ κ} {below : List (Spot σ κ)}
    (h : Follows drv view o root s.core T) (hspots : T.spots = p :: below) (hroot : root.trace = []) :
    s.stackTrace = p.node.trace ++ p.state.transition.toList := by
  have hstack : s.stack = T.spots.map Spot.frame := h.stack
  rw [Search.stackTrace, hstack, hspots]
  exact (hspots ▸ h.sound).trace_eq hroot

theorem Follows.tracks {c : Core σ κ} {p : Spot σ κ} {below : List (Spot σ κ)} {visited : VisitedSet κ}
    {truncated : Option (List Transition)} (h : Follows drv view o root c ⟨p :: below, visited, truncated⟩)
    (hphase : c.phase ≠ .done) (hview : view c.machine = view p.node.machine) :
    Tracks drv view o root c ⟨p :: below, visited, truncated⟩ := by
  refine ⟨h, hphase, ?_⟩
  rintro q rest ⟨⟩
  exact hview

theorem Follows.restoreTop (hdet : drv.Deterministic view) {s s' : Search σ κ} {p : Spot σ κ}
    {below : List (Spot σ κ)} {visited : VisitedSet κ} {truncated : Option (List Transition)}
    (hf : Follows drv view o root s.core ⟨p :: below, visited, truncated⟩)
    (h : Search.restoreTop drv s = (none, s')) :
    Follows drv view o root s'.core ⟨p :: below, visited, truncated⟩ ∧ s'.phase = s.phase ∧
      view s'.machine = view p.node.machine := by
  obtain ⟨m, e, rfl, hview⟩ := hf.sound.restoreTop hdet hf.stack h
  exact ⟨⟨hf.stack, hf.visited, hf.truncated, hf.violation, hf.sound, hf.nums⟩, rfl, hview⟩

theorem exists_spots {below : List (Spot σ κ)} {frames : List (Frame κ)}
    (h : frames.length = below.length) :
    ∃ below' : List (Spot σ κ), below'.map Spot.frame = frames ∧
      below'.map Spot.node = below.map Spot.node := by
  induction below generalizing frames with
  | nil => exact ⟨[], (List.length_eq_zero_iff.mp h).symm, rfl⟩
  | cons p below ih =>
    cases frames with
    | nil => cases h
    | cons f frames =>
      obtain ⟨below', hframes, hnodes⟩ := ih (Nat.succ.inj h)
      exact ⟨⟨f, p.node⟩ :: below', by simp [hframes], by simp [hnodes]⟩

theorem Sound.within_of_link {q p : Spot σ κ} {below : List (Spot σ κ)}
    (h : Sound drv view o root (q :: p :: below)) : o.withinDepth below.length = true := by
  cases h with
  | link hbelow _ hout _ _ _ =>
    by_contra hbound
    have hnone := (hbelow.fits.untouched (by simpa using hbound)).1
    simp [hnone] at hout

theorem Sound.length_eq_bound {p : Spot σ κ} {below : List (Spot σ κ)}
    (h : Sound drv view o root (p :: below)) (hbound : o.withinDepth below.length = false) :
    ((path below).length : Int) = o.maxDepth := by
  rw [h.length_path]
  cases below with
  | nil =>
    simp only [Options.withinDepth, Bool.or_eq_false_iff, decide_eq_false_iff_not, List.length_nil] at hbound
    omega
  | cons q below =>
    have hwithin := h.within_of_link
    simp only [Options.withinDepth, Bool.or_eq_false_iff, Bool.or_eq_true, decide_eq_false_iff_not,
      decide_eq_true_eq, List.length_cons] at hbound hwithin ⊢
    omega

theorem nums_remarked {below below' : List (Spot σ κ)} {bound : Int}
    (h : List.Forall₂ Spot.Remarked below below') (hb : ∀ p ∈ below, p.state.num < bound) :
    ∀ p ∈ below', p.state.num < bound := by
  induction h with
  | nil => exact hb
  | cons hp _ ih =>
    rw [List.forall_mem_cons] at hb ⊢
    exact ⟨hp.state.num ▸ hb.1, ih hb.2⟩

theorem unwind_succ {s : Search σ κ} {f : Frame κ} {below : List (Frame κ)} (count : Nat)
    (h : s.stack = f :: below) :
    Search.unwind drv o (count + 1) s =
      match Search.settle o f below with
      | .error fault => (some (.fault fault), { s with stack := below })
      | .ok (below, events) =>
        let s := { s with stack := below }.logAll events
        if 0 < f.state.todoCount && o.withinDepth below.length then
          match Search.restoreTop drv (s.push f) with
          | (none, s) => (none, { s with phase := .running })
          | (some a, s) => (some a, s)
        else Search.unwind drv o count (s.log (.deleted f.state.num below.length)) := by
  rw [Search.unwind, h]
  rfl

theorem Sound.exists_settles {p : Spot σ κ} {below : List (Spot σ κ)} {frames : List (Frame κ)} {es : List Event}
    (hsound : Sound drv view o root (p :: below))
    (h : Search.settle o p.frame (below.map Spot.frame) = .ok (frames, es)) :
    ∃ below' : List (Spot σ κ), below'.map Spot.frame = frames ∧ Settles o p below below' := by
  have hmarks := Search.settle_remarked hsound.tail.wellFormed h
  obtain ⟨below', rfl, hnodes⟩ := exists_spots (hmarks.length_eq.symm.trans (List.length_map _))
  exact ⟨below', rfl, ⟨es, h⟩, hnodes⟩

section Unwind

variable {c : Core σ κ} {p : Spot σ κ} {below below' : List (Spot σ κ)} {visited : VisitedSet κ}
  {truncated : Option (List Transition)}

theorem Follows.settled (hf : Follows drv view o root c ⟨p :: below, visited, truncated⟩)
    (hsettles : Settles o p below below') :
    Follows drv view o root { c with stack := (p :: below').map Spot.frame } ⟨p :: below', visited, truncated⟩ := by
  obtain ⟨hp, hbelow⟩ := List.forall_mem_cons.mp hf.nums
  have hnums := nums_remarked (hsettles.remarked hf.sound.tail) hbelow
  exact ⟨rfl, hf.visited, hf.truncated, hf.violation, hsettles.sound hf.sound,
    List.forall_mem_cons.mpr ⟨hp, hnums⟩⟩

theorem Follows.tail (hf : Follows drv view o root c ⟨p :: below, visited, truncated⟩) :
    Follows drv view o root { c with stack := below.map Spot.frame } ⟨below, visited, truncated⟩ :=
  ⟨rfl, hf.visited, hf.truncated, hf.violation, hf.sound.tail, (List.forall_mem_cons.mp hf.nums).2⟩

theorem Sound.within_below {q : Spot σ κ} {rest : List (Spot σ κ)} (h : Sound drv view o root (p :: below))
    (hbelow : below = q :: rest) : o.withinDepth rest.length = true := by
  -- Only the top of a path can be beyond the depth bound: the spots below it have been left.
  subst hbelow
  exact h.within_of_link

theorem Follows.resumed (hdet : drv.Deterministic view) {s s' : Search σ κ}
    (hf : Follows drv view o root s.core ⟨p :: below, visited, truncated⟩) (hsettles : Settles o p below below')
    {es : List Event}
    (h : Search.restoreTop drv (({ s with stack := below'.map Spot.frame }.logAll es).push p.frame) = (none, s')) :
    Tracks drv view o root { s' with phase := .running }.core ⟨p :: below', visited, truncated⟩ := by
  have hpushed : Follows drv view o root (({ s with stack := below'.map Spot.frame }.logAll es).push p.frame).core
      ⟨p :: below', visited, truncated⟩ := by
    rw [Search.push_core, Search.logAll_core, Search.core_stack]
    exact hf.settled hsettles
  obtain ⟨hf', -, hview⟩ := hpushed.restoreTop hdet h
  have hrunning : Follows drv view o root { s' with phase := .running }.core ⟨p :: below', visited, truncated⟩ :=
    ⟨hf'.stack, hf'.visited, hf'.truncated, hf'.violation, hf'.sound, hf'.nums⟩
  exact hrunning.tracks (by rintro ⟨⟩) hview

theorem Follows.dropped {s : Search σ κ} (hf : Follows drv view o root s.core ⟨p :: below, visited, truncated⟩)
    (hsettles : Settles o p below below') (es : List Event) (e : Event) :
    Follows drv view o root (({ s with stack := below'.map Spot.frame }.logAll es).log e).core
        ⟨below', visited, truncated⟩ ∧
      (({ s with stack := below'.map Spot.frame }.logAll es).log e).core.phase = s.phase := by
  rw [Search.log_core, Search.logAll_core, Search.core_stack]
  exact ⟨(hf.settled hsettles).tail, rfl⟩

end Unwind

theorem unwind_simulates (hdet : drv.Deterministic view) (count : Nat) {s s' : Search σ κ}
    {spots : List (Spot σ κ)} {visited : VisitedSet κ} {truncated : Option (List Transition)}
    (hf : Follows drv view o root s.core ⟨spots, visited, truncated⟩) (hphase : s.phase ≠ .done)
    (hcount : spots.length ≤ count)
    (hcut : ∀ p below, spots = p :: below → o.withinDepth below.length = false →
      p.state.todoCount = 0 ∨ truncated.isSome = true)
    (h : Search.unwind drv o count s = (none, s')) :
    ∃ T, Unwinds o ⟨spots, visited, truncated⟩ T ∧ Tracks drv view o root s'.core T := by
  induction count generalizing s spots with
  | zero =>
    cases h
    obtain rfl := List.length_eq_zero_iff.mp (Nat.le_zero.mp hcount)
    exact ⟨_, .emptied _ _, hf, hphase, by rintro p below ⟨⟩⟩
  | succ count ih =>
    have hstack : s.stack = spots.map Spot.frame := hf.stack
    cases spots with
    | nil =>
      rw [Search.unwind, hstack] at h
      cases h
      exact ⟨_, .emptied _ _, hf, hphase, by rintro p below ⟨⟩⟩
    | cons p below =>
      rw [unwind_succ count hstack] at h
      split at h
      · cases h
      · rename_i frames es hsettle
        obtain ⟨below', rfl, hsettles⟩ := hf.sound.exists_settles hsettle
        dsimp only at h
        rw [List.length_map, hsettles.length_eq] at h
        -- The frame is put back if something is left to try within the bound, and dropped otherwise.
        split_ifs at h with hresume
        · simp only [Bool.and_eq_true, decide_eq_true_eq] at hresume
          split at h
          · rename_i s₂ hrestore
            cases h
            exact ⟨_, .resumed visited truncated hsettles hresume.1 hresume.2, hf.resumed hdet hsettles hrestore⟩
          · cases h
        · have hover : p.state.todoCount = 0 ∨
              (o.withinDepth below.length = false ∧ truncated.isSome = true) := by
            have := hcut p below rfl
            cases hwithin : o.withinDepth below.length <;> simp_all
          obtain ⟨hf₁, hphase₁⟩ := hf.dropped hsettles es (.deleted p.state.num below.length)
          have hcount₁ : below'.length ≤ count := by
            rw [hsettles.length_eq]
            exact Nat.le_of_succ_le_succ hcount
          have hcut₁ : ∀ q rest, below' = q :: rest → o.withinDepth rest.length = false →
              q.state.todoCount = 0 ∨ truncated.isSome = true := by
            intro q rest hbelow hwithin
            exact absurd ((hsettles.sound hf.sound).within_below hbelow) (by simp [hwithin])
          obtain ⟨T, hunwinds, htracks⟩ := ih hf₁ (fun hdone => hphase (hphase₁.symm.trans hdone)) hcount₁ hcut₁ h
          exact ⟨T, .dropped hsettles hover hunwinds, htracks⟩

theorem Follows.backtrack (hdet : drv.Deterministic view) {s s' : Search σ κ} {p : Spot σ κ}
    {below : List (Spot σ κ)} {visited : VisitedSet κ} {truncated : Option (List Transition)}
    (hf : Follows drv view o root s.core ⟨p :: below, visited, truncated⟩)
    (hover : p.state.todoCount = 0 ∨ (o.withinDepth below.length = false ∧ truncated.isSome = true))
    (h : Search.backtrack drv o s = (none, s')) :
    ∃ T, Unwinds o ⟨p :: below, visited, truncated⟩ T ∧ Tracks drv view o root s'.core T := by
  unfold Search.backtrack at h
  dsimp only at h
  have hlength : (p :: below).length ≤ s.stack.length := by
    rw [show s.stack = (p :: below).map Spot.frame from hf.stack, List.length_map]
  generalize hs₁ : Search.log _ _ = s₁ at h
  have hcore : s₁.core = { s.core with phase := .backtracking } := by
    rw [← hs₁]
    rfl
  have hf₁ : Follows drv view o root s₁.core ⟨p :: below, visited, truncated⟩ := by
    rw [hcore]
    exact ⟨hf.stack, hf.visited, hf.truncated, hf.violation, hf.sound, hf.nums⟩
  have hphase : s₁.phase ≠ .done := by
    rw [show s₁.phase = .backtracking from congrArg Core.phase hcore]
    exact nofun
  refine unwind_simulates hdet s.stack.length hf₁ hphase hlength ?_ h
  rintro q rest ⟨⟩ -
  exact hover.imp_right And.right

def blame (n : Node σ) : Violation := n.violation.getD (Search.deadlock n.state)

/-- The search ends with a violation that the next step from the top frame leads to. -/
def Reports (drv : Driver σ κ) (o : Options) (T : Trail σ κ) (c : Core σ κ) : Prop :=
  ∃ p below x t n p', T.spots = p :: below ∧ Takes drv o p below x t n p' ∧ n.Failing ∧
    c.phase = .done ∧ c.violation = some (blame n) ∧ c.trace = n.trace ∧ c.truncated = T.truncated

theorem Tracks.takes (hdet : drv.Deterministic view) {c : Core σ κ} {p : Spot σ κ}
    {below : List (Spot σ κ)} {visited : VisitedSet κ} {truncated : Option (List Transition)}
    (ht : Tracks drv view o root c ⟨p :: below, visited, truncated⟩)
    (hwithin : o.withinDepth below.length = true) {a : ActorId} (hnext : p.state.next? = some a)
    {r : StepResult} {state : State} {m : σ} {clock : Clock}
    (hexec : p.state.execute drv.execute a c.machine = (.ok r, state, m))
    (hclock : o.reduction = .dpor → Race.clockOf r.transition (below.map Spot.frame) = .ok clock) :
    ∃ x n, Takes drv o p below x r.transition n (p.left state clock) ∧
      view m = view n.machine ∧ n.violation = r.violation ∧
      ∀ num, state.successor num r = { n.state with num := num } := by
  have hfits := ht.sound.fits
  obtain ⟨outcome, taken, htake, hrun, hactor, hstate⟩ := State.execute_eq_ok hexec
  have hview := ht.position p below rfl
  have hoff : p.node.state.offers ⟨a, outcome⟩ = true :=
    State.offers_of_profile_eq hfits.profile (State.take_offers htake hfits.wellFormed)
  obtain ⟨n, hadv, hn, hview', htrace, hviolation⟩ := hdet.advance? hview hoff hrun
  refine ⟨⟨a, outcome⟩, n, ⟨hwithin, hnext, ⟨taken, htake, hstate⟩, ?_, hadv, htrace, hclock, rfl, rfl⟩,
    hview', hviolation, fun num => ?_⟩
  · exact hdet.echo (congrArg Prod.fst hrun)
  · have hprofile : taken.profile = p.node.state.profile :=
      (State.take_profile htake hfits.wellFormed).trans hfits.profile
    have hactors : state.successorActors r =
        ({ p.node.state with transition := some r.transition }).successorActors r :=
      State.successorActors_congr (s := state) (hstate ▸ hprofile) (by rw [hstate]) r
    rw [hn]
    simp only [State.after, State.successor, hactors]

theorem deadlock_congr {st st' : State} (h : st'.actors.map Prod.fst = st.actors.map Prod.fst) :
    Search.deadlock st' = Search.deadlock st := by
  have hcount : st'.actorCount = st.actorCount := by
    simpa [State.actorCount] using congrArg List.length h
  rw [Search.deadlock, Search.deadlock, State.ids, State.ids, h, hcount]

theorem captures_of_snapshot (hdet : drv.Deterministic view) {m m' : σ} {n : Node σ}
    (hview : view m = view n.machine) {answer : Except Failure (Option κ)} (hsnap : drv.snapshot m = (answer, m')) :
    view m' = view n.machine ∧ ∀ k, answer = .ok (some k) → drv.Captures view k n.machine := by
  have hkeep := hdet.snapshot_view m
  rw [hsnap] at hkeep
  exact ⟨hkeep.trans hview, fun k hk => ⟨m, hview, by rw [hsnap, hk]⟩⟩

section Turn

variable [Snapshot κ]

def Retreat (drv : Driver σ κ) (view : σ → π) (o : Options) (T T' : Trail σ κ) : Prop :=
  Shift drv view o T T' ∧ T'.spots.length ≤ T.spots.length

inductive Turned (drv : Driver σ κ) (view : σ → π) (o : Options) (T T' : Trail σ κ) : Prop
  | entered (hshift : Shift drv view o T T') (hdeeper : T'.spots.length = T.spots.length + 1)
  | retreated (hshifts : Relation.TransGen (Retreat drv view o) T T')

theorem Turned.shifts {T T' : Trail σ κ} (h : Turned drv view o T T') :
    Relation.TransGen (Shift drv view o) T T' := by
  cases h with
  | entered hshift _ => exact .single hshift
  | retreated hshifts => exact Relation.TransGen.mono (fun _ _ => And.left) _ _ hshifts

omit [Snapshot κ] in
theorem Unwinds.length_le {T T' : Trail σ κ} (h : Unwinds o T T') : T'.spots.length ≤ T.spots.length := by
  induction h with
  | emptied => exact le_rfl
  | resumed _ _ hsettle _ _ => simp [hsettle.length_eq]
  | dropped hsettle _ _ ih =>
    have hlength := hsettle.length_eq
    simp only [List.length_cons] at ih ⊢
    omega

theorem Unwinds.retreat {p : Spot σ κ} {below : List (Spot σ κ)} {visited : VisitedSet κ}
    {truncated : Option (List Transition)} {T : Trail σ κ} (h : Unwinds o ⟨p :: below, visited, truncated⟩ T)
    (hover : p.state.todoCount = 0 ∨ (o.withinDepth below.length = false ∧ truncated.isSome = true)) :
    Retreat drv view o ⟨p :: below, visited, truncated⟩ T :=
  ⟨.unwound hover h, h.length_le⟩

theorem Takes.enter_simulates {p p' : Spot σ κ} {below : List (Spot σ κ)} {x : Step} {t : Transition}
    {n : Node σ} {num : Int} {visited visited' : VisitedSet κ} {truncated : Option (List Transition)}
    (htakes : Takes drv o p below x t n p') (hsound : Sound drv view o root (p :: below))
    (hn : ¬ n.Failing) {s : Search σ κ}
    (hf : Follows drv view o root s.core ⟨p' :: below, visited', truncated⟩) (hphase : s.phase ≠ .done)
    (hnums : p.state.num < num ∧ num < s.nextNum) (hview : view s.machine = view n.machine)
    (snapshot : Option κ) (hsnapshot : ∀ k, snapshot = some k → drv.Captures view k n.machine)
    (hvisited : (o.maxVisited = 0 ∧ visited' = visited) ∨ ∃ k total gone,
      Adds drv view n num visited visited' k (.inserted total gone)) :
    ∃ T, Turned drv view o ⟨p :: below, visited, truncated⟩ T ∧
      Tracks drv view o root (s.enter o p'.frame { n.state with num := num } snapshot).core T := by
  obtain ⟨node, hcore⟩ := Search.enter_core o s p'.frame { n.state with num := num } snapshot
  have hshift := Shift.entered (q := Spot.entered o num snapshot node n) truncated htakes hn rfl rfl hnums.1 hsnapshot
    hvisited
  refine ⟨_, .entered hshift rfl, ?_⟩
  rw [hcore]
  refine Follows.tracks ⟨?_, hf.visited, hf.truncated, hf.violation, hshift.sound hsound, ?_⟩ hphase hview
  · rw [show s.core.stack = (p' :: below).map Spot.frame from hf.stack]
    rfl
  · refine List.forall_mem_cons.mpr ⟨?_, hf.nums⟩
    rw [show (Spot.entered o num snapshot node n).state.num = num from (consider_remarked o _).num]
    exact hnums.2

theorem Takes.skip_simulates (hdet : drv.Deterministic view) {p p' : Spot σ κ}
    {below : List (Spot σ κ)} {x : Step} {t : Transition} {n : Node σ} {num : Int}
    {visited visited' : VisitedSet κ} {truncated : Option (List Transition)} {k : κ}
    {old : VisitedEntry κ} (htakes : Takes drv o p below x t n p') (hn : ¬ n.Failing) {s s' : Search σ κ}
    (hf : Follows drv view o root s.core ⟨p' :: below, visited', truncated⟩) (hphase : s.phase ≠ .done)
    (hpositive : 0 < o.maxVisited) (hadds : Adds drv view n num visited visited' k (.duplicate old))
    {next : State} (h : Search.skip drv o s p'.frame next old = (none, s')) :
    ∃ T, Turned drv view o ⟨p :: below, visited, truncated⟩ T ∧ Tracks drv view o root s'.core T := by
  have hskipped : Retreat drv view o ⟨p :: below, visited, truncated⟩ ⟨p' :: below, visited', truncated⟩ :=
    ⟨.skipped truncated htakes hn hpositive hadds, le_rfl⟩
  unfold Search.skip at h
  dsimp only at h
  generalize hs₁ : Search.log _ _ = s₁ at h
  have hcore : s₁.core = s.core := by
    rw [← hs₁, Search.log_core, Search.addNode_core]
    rfl
  have hf₁ : Follows drv view o root s₁.core ⟨p' :: below, visited', truncated⟩ := hcore ▸ hf
  split_ifs at h with htodo
  · obtain ⟨T, hunwinds, htracks⟩ := hf₁.backtrack hdet (.inl htodo) h
    exact ⟨T, .retreated (.tail (.single hskipped) (hunwinds.retreat (.inl htodo))), htracks⟩
  · refine ⟨_, .retreated (.single hskipped), ?_⟩
    obtain ⟨hf₂, hphase₂, hview⟩ := hf₁.restoreTop hdet h
    refine hf₂.tracks ?_ hview
    rw [show s'.core.phase = s.core.phase from hphase₂.trans (congrArg Core.phase hcore)]
    exact hphase

theorem Takes.arrive_simulates (hdet : drv.Deterministic view) {p p' : Spot σ κ}
    {below : List (Spot σ κ)} {x : Step} {t : Transition} {n : Node σ} {num : Int}
    {visited : VisitedSet κ} {truncated : Option (List Transition)}
    (htakes : Takes drv o p below x t n p') (hsound : Sound drv view o root (p :: below))
    (hn : ¬ n.Failing) {s s' : Search σ κ}
    (hf : Follows drv view o root s.core ⟨p' :: below, visited, truncated⟩) (hphase : s.phase ≠ .done)
    (hnums : p.state.num < num ∧ num < s.nextNum) (hview : view s.machine = view n.machine)
    (h : Search.arrive drv o s p'.frame { n.state with num := num } = (none, s')) :
    ∃ T, Turned drv view o ⟨p :: below, visited, truncated⟩ T ∧ Tracks drv view o root s'.core T := by
  unfold Search.arrive at h
  split_ifs at h with hpositive hcheckpoint
  · split at h
    · cases h
    · cases h
    · rename_i k m hsnap
      obtain ⟨hview', hcapt⟩ := captures_of_snapshot hdet hview hsnap
      have hcapt := hcapt k rfl
      have hold : s.visited = visited := hf.visited
      obtain ⟨⟨visited', addition, compared⟩, hadd⟩ : ∃ result, s.visited.add num k = result := ⟨_, rfl⟩
      dsimp only at h
      rw [hadd] at h
      dsimp only at h
      have hadds : Adds drv view n num visited visited' k addition := ⟨hcapt, compared, hold ▸ hadd⟩
      have hfollows : ∀ {s₁ : Search σ κ}, s₁.core = { s.core with machine := m, visited := visited' } →
          Follows drv view o root s₁.core ⟨p' :: below, visited', truncated⟩ := by
        intro s₁ hcore
        rw [hcore]
        exact ⟨hf.stack, rfl, hf.truncated, hf.violation, hf.sound, hf.nums⟩
      -- A number that is met again ends the run, an equal snapshot the path; a new state is entered.
      cases addition with
      | repeated => cases h
      | duplicate old =>
        exact htakes.skip_simulates (s := { s with machine := m, visited := visited' }) hdet hn
          (hfollows rfl) hphase hpositive hadds h
      | inserted total gone =>
        dsimp only at h
        generalize hs₁ : Search.logAll _ _ = s₁ at h
        have hcore : s₁.core = { s.core with machine := m, visited := visited' } := by
          rw [← hs₁, Search.logAll_core, Search.log_core]
          rfl
        cases h
        exact htakes.enter_simulates hsound hn (hfollows hcore)
          (show s₁.core.phase ≠ .done by rw [hcore]; exact hphase)
          (show p.state.num < num ∧ num < s₁.core.nextNum by rw [hcore]; exact hnums)
          (show view s₁.core.machine = _ by rw [hcore]; exact hview') (some k)
          (fun k' hk' => by cases hk'; exact hcapt) (.inr ⟨k, total, gone, hadds⟩)
  · split at h
    · cases h
    · rename_i snapshot m hsnap
      obtain ⟨hview', hcapt⟩ := captures_of_snapshot hdet hview hsnap
      cases h
      exact htakes.enter_simulates (s := { s with machine := m }) hsound hn
        ⟨hf.stack, hf.visited, hf.truncated, hf.violation, hf.sound, hf.nums⟩ hphase hnums hview' snapshot
        (fun k hk => hcapt k (by rw [hk])) (.inl ⟨Nat.eq_zero_of_not_pos hpositive, rfl⟩)
  · cases h
    exact htakes.enter_simulates hsound hn hf hphase hnums hview none nofun
      (.inl ⟨Nat.eq_zero_of_not_pos hpositive, rfl⟩)

omit [Snapshot κ] in
theorem Tracks.left {c : Core σ κ} {p p' : Spot σ κ} {below : List (Spot σ κ)} {visited : VisitedSet κ}
    {truncated : Option (List Transition)} (ht : Tracks drv view o root c ⟨p :: below, visited, truncated⟩)
    {x : Step} {t : Transition} {n : Node σ} (htakes : Takes drv o p below x t n p') (m : σ) :
    Follows drv view o root { c with
      machine := m, stack := (p' :: below).map Spot.frame, nextNum := c.nextNum + 1 }
      ⟨p' :: below, visited, truncated⟩ := by
  obtain ⟨hp, hbelow⟩ := List.forall_mem_cons.mp ht.nums
  refine ⟨rfl, ht.visited, ht.truncated, ht.violation, htakes.sound ht.sound, List.forall_mem_cons.mpr ⟨?_, ?_⟩⟩
  · rw [htakes.num]
    exact hp.trans (lt_add_one _)
  · exact fun q hq => (hbelow q hq).trans (lt_add_one _)

omit [Snapshot κ] in
theorem Takes.reports {p p' : Spot σ κ} {below : List (Spot σ κ)} {x : Step} {t : Transition} {n : Node σ}
    (htakes : Takes drv o p below x t n p') (hroot : root.trace = []) {s : Search σ κ} {visited : VisitedSet κ}
    {truncated : Option (List Transition)}
    (hf : Follows drv view o root s.core ⟨p' :: below, visited, truncated⟩) (hfail : n.Failing) (num : Int) :
    Reports drv o ⟨p :: below, visited, truncated⟩ (s.report (blame n) num).core := by
  have htrace : s.stackTrace = n.trace := by
    rw [hf.stackTrace rfl hroot, htakes.transition, htakes.node, htakes.trace]
    rfl
  refine ⟨p, below, x, t, n, p', rfl, htakes, hfail, ?_⟩
  rw [Search.report_core, htrace]
  exact ⟨rfl, rfl, rfl, hf.truncated⟩

theorem Tracks.advance (hdet : drv.Deterministic view) (hroot : root.trace = []) {s s' : Search σ κ}
    {p : Spot σ κ} {below : List (Spot σ κ)} {visited : VisitedSet κ}
    {truncated : Option (List Transition)}
    (ht : Tracks drv view o root s.core ⟨p :: below, visited, truncated⟩)
    (hwithin : o.withinDepth below.length = true) {a : ActorId} (hnext : p.state.next? = some a)
    (h : Search.advance drv o s p.frame (below.map Spot.frame) a = (none, s')) :
    (∃ T, Turned drv view o ⟨p :: below, visited, truncated⟩ T ∧ Tracks drv view o root s'.core T) ∨
      Reports drv o ⟨p :: below, visited, truncated⟩ s'.core := by
  unfold Search.advance at h
  split at h
  · split at h <;> cases h
  · rename_i r state m hexec
    dsimp only at h
    split at h
    · cases h
    · rename_i clock hclock
      have hclock : o.reduction = .dpor →
          Race.clockOf r.transition (below.map Spot.frame) = .ok clock :=
        fun ho => by simpa only [ho] using hclock
      obtain ⟨x, n, htakes, hview, hviolation, hsucc⟩ := ht.takes hdet hwithin hnext hexec hclock
      have hleft := ht.left htakes m
      generalize hs₁ : Search.log _ _ = s₁ at h
      have hcore : s₁.core = { s.core with
          machine := m, stack := (p.left state clock :: below).map Spot.frame, nextNum := s.nextNum + 1 } := by
        rw [← hs₁]
        rfl
      have hf : Follows drv view o root s₁.core ⟨p.left state clock :: below, visited, truncated⟩ := hcore ▸ hleft
      have hnum : s₁.nextNum = s.nextNum + 1 := congrArg Core.nextNum hcore
      -- The state that is built from the marks is the one that the execution has led to.
      rw [show s₁.nextNum - 1 = s.nextNum by omega, hsucc] at h
      split at h
      · rename_i v hv
        have hblame : v = blame n := by simp [blame, hviolation, hv]
        cases h
        exact .inr (hblame ▸ htakes.reports hroot hf (.inl (by simp [hviolation, hv])) _)
      · rename_i hv
        split_ifs at h with hdead
        · have hblame : Search.deadlock { n.state with num := s.nextNum } = blame n := by
            simp only [blame, hviolation, hv]
            rfl
          rw [hblame] at h
          cases h
          exact .inr (htakes.reports hroot hf (.inr hdead) _)
        · have hn : ¬ n.Failing := by
            rintro (hfail | hfail)
            · simp [hviolation, hv] at hfail
            · exact hdead hfail
          refine .inl (htakes.arrive_simulates hdet ht.sound hn hf ?_ ⟨?_, ?_⟩ ?_ h)
          · rw [show s₁.phase = s.phase from congrArg Core.phase hcore]
            exact ht.phase
          · exact (List.forall_mem_cons.mp ht.nums).1
          · omega
          · rw [show s₁.machine = m from congrArg Core.machine hcore]
            exact hview

theorem Tracks.turn (hdet : drv.Deterministic view) (hroot : root.trace = []) {s s' : Search σ κ}
    {T : Trail σ κ} (ht : Tracks drv view o root s.core T) (hspots : T.spots ≠ [])
    (h : Search.turn drv o s = (none, s')) :
    (∃ T', Turned drv view o T T' ∧ Tracks drv view o root s'.core T') ∨ Reports drv o T s'.core := by
  obtain ⟨spots, visited, truncated⟩ := T
  cases spots with
  | nil => exact absurd rfl hspots
  | cons p below =>
    have hstack : s.stack = p.frame :: below.map Spot.frame := ht.stack
    unfold Search.turn at h
    split at h
    · cases h
    · rw [hstack] at h
      dsimp only at h
      rw [List.length_map] at h
      split_ifs at h with hbound htodo
      · have hbound : o.withinDepth below.length = false := by simpa using hbound
        -- A frame beyond the bound has not been left, so the whole stack trace leads to it.
        have htransition : p.state.transition = none := (ht.sound.fits.untouched hbound).1
        have hcut : Retreat drv view o ⟨p :: below, visited, truncated⟩
            ⟨p :: below, visited, some (truncated.getD p.node.trace)⟩ := ⟨.cut _ _ hbound htodo, le_rfl⟩
        have hf : Follows drv view o root (s.cut p.frame).core
            ⟨p :: below, visited, some (truncated.getD p.node.trace)⟩ := by
          rw [Search.cut_core, ht.stackTrace rfl hroot, htransition]
          refine ⟨ht.stack, ht.visited, ?_, ht.violation, ht.sound, ht.nums⟩
          rw [show s.truncated = truncated from ht.truncated]
          simp
        have hover : p.state.todoCount = 0 ∨ (o.withinDepth below.length = false ∧
            (some (truncated.getD p.node.trace)).isSome = true) := .inr ⟨hbound, rfl⟩
        obtain ⟨T, hunwinds, htracks⟩ := hf.backtrack hdet hover h
        exact .inl ⟨T, .retreated (.tail (.single hcut) (hunwinds.retreat hover)), htracks⟩
      · have htodo : p.state.todoCount = 0 := Nat.eq_zero_of_not_pos htodo
        obtain ⟨T, hunwinds, htracks⟩ := ht.toFollows.backtrack hdet (.inl htodo) h
        exact .inl ⟨T, .retreated (.single (hunwinds.retreat (.inl htodo))), htracks⟩
      · have hwithin : o.withinDepth below.length = true := by simpa using hbound
        split at h
        · rename_i hnext
          have htodo := State.next?_eq_none_iff.mp hnext
          obtain ⟨T, hunwinds, htracks⟩ := ht.toFollows.backtrack hdet (.inl htodo) h
          exact .inl ⟨T, .retreated (.single (hunwinds.retreat (.inl htodo))), htracks⟩
        · rename_i a hnext
          exact ht.advance hdet hroot hwithin hnext h

end Turn

end Trail

end Interleave
