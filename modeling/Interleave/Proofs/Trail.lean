import Interleave.Proofs.Execution
import Interleave.Proofs.Scheduling

/-! A search as a machine over its stack alone. A trail holds every frame together with the execution that
leads to it; a shift is what one turn of the search does to it. Driver, log, counters and graph are left out,
so what a search explores can be read off its shifts. -/

namespace Interleave

variable {σ κ π : Type}

def Driver.Captures (drv : Driver σ κ) (view : σ → π) (k : κ) (m : σ) : Prop :=
  ∃ m', view m' = view m ∧ (drv.snapshot m').1 = .ok (some k)

/-- A frame with the execution that leads to it. -/
structure Spot (σ κ : Type) where
  frame : Frame κ
  node : Node σ

namespace Spot

def entered (o : Options) (num : Int) (snapshot : Option κ) (node : Tree.Path) (n : Node σ) : Spot σ κ :=
  ⟨{ state := Search.consider o { n.state with num := num }, snapshot, clock := [], node }, n⟩

def left (p : Spot σ κ) (state : State) (clock : Clock) : Spot σ κ := ⟨{ p.frame with state, clock }, p.node⟩

abbrev state (p : Spot σ κ) : State := p.frame.state

def outgoing (p : Spot σ κ) : Option Step := p.state.transition.map Transition.step

structure Fits (drv : Driver σ κ) (view : σ → π) (o : Options) (depth : Nat) (p : Spot σ κ) : Prop where
  profile : p.state.profile = p.node.state.profile
  wellFormed : p.state.WellFormed
  fresh : p.node.state.Fresh
  notFailing : ¬ p.node.Failing
  snapshot : ∀ k, p.frame.snapshot = some k → drv.Captures view k p.node.machine
  untouched : o.withinDepth depth = false → p.state.transition = none ∧ ∀ x, ¬ p.state.Tried x

structure Remarked (p q : Spot σ κ) : Prop where
  frame : p.frame.Remarked q.frame
  node : q.node = p.node

theorem Remarked.state {p q : Spot σ κ} (h : p.Remarked q) : p.state.Remarked q.state := h.frame.state

theorem Remarked.outgoing {p q : Spot σ κ} (h : p.Remarked q) : q.outgoing = p.outgoing := by
  rw [Spot.outgoing, Spot.outgoing, h.state.transition]

theorem Remarked.fits {drv : Driver σ κ} {view : σ → π} {o : Options} {depth : Nat} {p q : Spot σ κ}
    (h : p.Remarked q) (hp : p.Fits drv view o depth) : q.Fits drv view o depth where
  profile := by rw [h.state.profile, hp.profile, h.node]
  wellFormed := h.state.wellFormed hp.wellFormed
  fresh := h.node ▸ hp.fresh
  notFailing := h.node ▸ hp.notFailing
  snapshot := by
    rw [h.frame.snapshot, h.node]
    exact hp.snapshot
  untouched := by
    intro hbound
    obtain ⟨htransition, htried⟩ := hp.untouched hbound
    exact ⟨h.state.transition.trans htransition, fun x => (h.state.tried_iff x).not.mpr (htried x)⟩

end Spot

/-- The spots from the top of the stack to its bottom, with the visited set and the first path cut. -/
structure Trail (σ κ : Type) where
  spots : List (Spot σ κ)
  visited : VisitedSet κ
  truncated : Option (List Transition)

namespace Trail

variable (drv : Driver σ κ) (view : σ → π) (o : Options) (root : Node σ)

/-- The spots follow one execution from the root: each one is reached from the one below by its outgoing
transition, and their numbers ascend. -/
inductive Sound : List (Spot σ κ) → Prop
  | empty : Sound []
  | root {p : Spot σ κ} (hp : p.Fits drv view o 0) (hnode : p.node = root) : Sound [p]
  | link {q p : Spot σ κ} {below : List (Spot σ κ)} {t : Transition} (hbelow : Sound (p :: below))
      (hq : q.Fits drv view o (below.length + 1)) (hout : p.state.transition = some t)
      (hadv : drv.advance? p.node t.step = some q.node) (htrace : q.node.trace = p.node.trace ++ [t])
      (hnum : p.state.num < q.state.num) : Sound (q :: p :: below)

variable {drv view o root}

theorem Sound.fits {p : Spot σ κ} {below : List (Spot σ κ)} (h : Sound drv view o root (p :: below)) :
    p.Fits drv view o below.length := by
  cases h with
  | root hp _ => exact hp
  | link _ hq _ _ _ _ => exact hq

theorem Sound.tail {p : Spot σ κ} {below : List (Spot σ κ)} (h : Sound drv view o root (p :: below)) :
    Sound drv view o root below := by
  cases h with
  | root _ _ => exact .empty
  | link hbelow _ _ _ _ _ => exact hbelow

theorem Sound.wellFormed {spots : List (Spot σ κ)} (h : Sound drv view o root spots) :
    ∀ f ∈ spots.map Spot.frame, f.state.WellFormed := by
  induction h with
  | empty => simp
  | root hp _ => simpa using hp.wellFormed
  | link _ hq _ _ _ _ ih =>
    rw [List.map_cons, List.forall_mem_cons]
    exact ⟨hq.wellFormed, ih⟩

theorem Sound.remarked {spots spots' : List (Spot σ κ)} (h : Sound drv view o root spots)
    (hr : List.Forall₂ Spot.Remarked spots spots') : Sound drv view o root spots' := by
  induction h generalizing spots' with
  | empty =>
    cases hr
    exact .empty
  | root hp hnode =>
    cases hr with
    | cons hq hnil =>
      cases hnil
      exact .root (hq.fits hp) (hq.node.trans hnode)
  | link _ hq hout hadv htrace hnum ih =>
    cases hr with
    | cons hq' hrest =>
      have hbelow := ih hrest
      cases hrest with
      | cons hp' hrest =>
        refine .link hbelow (hrest.length_eq ▸ hq'.fits hq) (hp'.state.transition.trans hout) ?_ ?_ ?_
        · rw [hp'.node, hq'.node, hadv]
        · rw [hp'.node, hq'.node, htrace]
        · rw [hp'.state.num, hq'.state.num]
          exact hnum

theorem Sound.trace_eq {p : Spot σ κ} {below : List (Spot σ κ)}
    (h : Sound drv view o root (p :: below)) (hroot : root.trace = []) :
    ((p :: below).map Spot.frame).reverse.filterMap (·.state.transition) =
      p.node.trace ++ p.state.transition.toList := by
  have hone (q : Spot σ κ) :
      [q.frame].filterMap (·.state.transition) = q.state.transition.toList := by
    cases ht : q.frame.state.transition <;> simp [ht]
  induction below generalizing p with
  | nil =>
    cases h with
    | root _ hnode => rw [hnode, hroot, List.nil_append, ← hone p]; rfl
  | cons q below ih =>
    cases h with
    | link hbelow _ hout _ htrace _ =>
      rw [List.map_cons, List.reverse_cons, List.filterMap_append, ih hbelow, hone, hout, htrace]
      rfl

def path : List (Spot σ κ) → List Step
  | [] => []
  | p :: below => path below ++ p.outgoing.toList

theorem Sound.walk_path {p : Spot σ κ} {below : List (Spot σ κ)}
    (h : Sound drv view o root (p :: below)) : drv.walk? root (path below) = some p.node := by
  induction below generalizing p with
  | nil =>
    cases h with
    | root _ hnode => rw [hnode]; rfl
  | cons q below ih =>
    cases h with
    | link hbelow _ hout hadv _ _ =>
      rw [path, Spot.outgoing, hout, Option.map_some, Option.toList_some, Driver.walk?_snoc, ih hbelow]
      exact hadv

theorem Sound.length_path {p : Spot σ κ} {below : List (Spot σ κ)}
    (h : Sound drv view o root (p :: below)) : (path below).length = below.length := by
  induction below generalizing p with
  | nil => rfl
  | cons q below ih =>
    cases h with
    | link hbelow _ hout _ _ _ =>
      rw [path, Spot.outgoing, hout, List.length_append, ih hbelow]
      rfl

structure Settles (o : Options) (p : Spot σ κ) (below below' : List (Spot σ κ)) : Prop where
  frames : ∃ es, Search.settle o p.frame (below.map Spot.frame) = .ok (below'.map Spot.frame, es)
  nodes : below'.map Spot.node = below.map Spot.node

theorem forall₂_remarked {below below' : List (Spot σ κ)}
    (hframes : List.Forall₂ Frame.Remarked (below.map Spot.frame) (below'.map Spot.frame))
    (hnodes : below'.map Spot.node = below.map Spot.node) : List.Forall₂ Spot.Remarked below below' := by
  induction below generalizing below' with
  | nil =>
    cases below' with
    | nil => exact .nil
    | cons q below' => cases hframes
  | cons p below ih =>
    cases below' with
    | nil => cases hframes
    | cons q below' =>
      simp only [List.map_cons, List.cons.injEq] at hframes hnodes
      cases hframes with
      | cons hf hrest => exact .cons ⟨hf, hnodes.1⟩ (ih hrest hnodes.2)

theorem Settles.remarked {p : Spot σ κ} {below below' : List (Spot σ κ)} (h : Settles o p below below')
    (hs : Sound drv view o root below) : List.Forall₂ Spot.Remarked below below' := by
  obtain ⟨es, hsettle⟩ := h.frames
  exact forall₂_remarked (Search.settle_remarked hs.wellFormed hsettle) h.nodes

theorem Settles.length_eq {p : Spot σ κ} {below below' : List (Spot σ κ)} (h : Settles o p below below') :
    below'.length = below.length := by
  simpa using congrArg List.length h.nodes

theorem Settles.sound {p : Spot σ κ} {below below' : List (Spot σ κ)} (h : Settles o p below below')
    (hs : Sound drv view o root (p :: below)) : Sound drv view o root (p :: below') :=
  hs.remarked (.cons ⟨.refl _, rfl⟩ (h.remarked hs.tail))

theorem Settles.eq_of_none {p : Spot σ κ} {below below' : List (Spot σ κ)} (h : Settles o p below below')
    (ho : o.reduction = .none) : below' = below := by
  obtain ⟨⟨es, hsettle⟩, hnodes⟩ := h
  rw [Search.settle_of_none ho] at hsettle
  simp only [Except.ok.injEq, Prod.mk.injEq] at hsettle
  replace hsettle := hsettle.1
  clear ho
  induction below generalizing below' with
  | nil => simpa using hsettle.symm
  | cons q below ih =>
    cases below' with
    | nil => simp at hsettle
    | cons q' below' =>
      simp only [List.map_cons, List.cons.injEq] at hsettle hnodes
      obtain ⟨frame, node⟩ := q
      obtain ⟨frame', node'⟩ := q'
      cases hsettle.1
      cases hnodes.1
      rw [ih hnodes.2 hsettle.2]

/-- Backtracking: spots are dropped until one with actors left to try is found. -/
inductive Unwinds (o : Options) : Trail σ κ → Trail σ κ → Prop
  | emptied (visited : VisitedSet κ) (truncated : Option (List Transition)) :
      Unwinds o ⟨[], visited, truncated⟩ ⟨[], visited, truncated⟩
  | resumed {p : Spot σ κ} {below below' : List (Spot σ κ)} (visited : VisitedSet κ)
      (truncated : Option (List Transition)) (hsettle : Settles o p below below')
      (htodo : 0 < p.state.todoCount) (hwithin : o.withinDepth below.length = true) :
      Unwinds o ⟨p :: below, visited, truncated⟩ ⟨p :: below', visited, truncated⟩
  | dropped {p : Spot σ κ} {below below' : List (Spot σ κ)} {visited : VisitedSet κ}
      {truncated : Option (List Transition)} {T : Trail σ κ} (hsettle : Settles o p below below')
      (hover : p.state.todoCount = 0 ∨ (o.withinDepth below.length = false ∧ truncated.isSome = true))
      (hrest : Unwinds o ⟨below', visited, truncated⟩ T) : Unwinds o ⟨p :: below, visited, truncated⟩ T

/-- The next actor to try from `p` takes the step `x`, reported as `t`, to `n`; `p` becomes `p'`. -/
structure Takes (drv : Driver σ κ) (o : Options) (p : Spot σ κ) (below : List (Spot σ κ)) (x : Step)
    (t : Transition) (n : Node σ) (p' : Spot σ κ) : Prop where
  within : o.withinDepth below.length = true
  next : p.state.next? = some x.actor
  take : ∃ taken, p.state.take x.actor = .ok (x.outcome, taken) ∧
    p'.state = { taken with transition := some t }
  step : t.step = x
  advance : drv.advance? p.node x = some n
  trace : n.trace = p.node.trace ++ [t]
  clock : o.reduction = .dpor → Race.clockOf t (below.map Spot.frame) = .ok p'.frame.clock
  node : p'.node = p.node
  snapshot : p'.frame.snapshot = p.frame.snapshot

def Adds [Snapshot κ] (drv : Driver σ κ) (view : σ → π) (n : Node σ) (num : Int)
    (visited visited' : VisitedSet κ) (k : κ) (addition : Addition κ) : Prop :=
  drv.Captures view k n.machine ∧ ∃ compared, visited.add num k = (visited', addition, compared)

/-- One turn of the search, or a part of one. -/
inductive Shift [Snapshot κ] (drv : Driver σ κ) (view : σ → π) (o : Options) :
    Trail σ κ → Trail σ κ → Prop
  | entered {p p' q : Spot σ κ} {below : List (Spot σ κ)} {visited visited' : VisitedSet κ} {x : Step}
      {t : Transition} {n : Node σ} {num : Int} (truncated : Option (List Transition))
      (htakes : Takes drv o p below x t n p') (hn : ¬ n.Failing) (hnode : q.node = n)
      (hstate : q.state = Search.consider o { n.state with num := num }) (hnum : p.state.num < num)
      (hsnapshot : ∀ k, q.frame.snapshot = some k → drv.Captures view k n.machine)
      (hvisited : (o.maxVisited = 0 ∧ visited' = visited) ∨ ∃ k total gone,
        Adds drv view n num visited visited' k (.inserted total gone)) :
      Shift drv view o ⟨p :: below, visited, truncated⟩ ⟨q :: p' :: below, visited', truncated⟩
  | skipped {p p' : Spot σ κ} {below : List (Spot σ κ)} {visited visited' : VisitedSet κ} {x : Step}
      {t : Transition} {n : Node σ} {num : Int} {k : κ} {old : VisitedEntry κ}
      (truncated : Option (List Transition)) (htakes : Takes drv o p below x t n p')
      (hn : ¬ n.Failing) (hpositive : 0 < o.maxVisited)
      (hadds : Adds drv view n num visited visited' k (.duplicate old)) :
      Shift drv view o ⟨p :: below, visited, truncated⟩ ⟨p' :: below, visited', truncated⟩
  | cut {p : Spot σ κ} {below : List (Spot σ κ)} (visited : VisitedSet κ)
      (truncated : Option (List Transition)) (hbound : o.withinDepth below.length = false)
      (htodo : 0 < p.state.todoCount) :
      Shift drv view o ⟨p :: below, visited, truncated⟩
        ⟨p :: below, visited, some (truncated.getD p.node.trace)⟩
  | unwound {p : Spot σ κ} {below : List (Spot σ κ)} {visited : VisitedSet κ}
      {truncated : Option (List Transition)} {T : Trail σ κ}
      (hover : p.state.todoCount = 0 ∨ (o.withinDepth below.length = false ∧ truncated.isSome = true))
      (hunwinds : Unwinds o ⟨p :: below, visited, truncated⟩ T) :
      Shift drv view o ⟨p :: below, visited, truncated⟩ T

namespace Takes

variable {p p' : Spot σ κ} {below : List (Spot σ κ)} {x : Step} {t : Transition} {n : Node σ}
  (h : Takes drv o p below x t n p')

include h

theorem transition : p'.state.transition = some t := by
  obtain ⟨taken, -, hstate⟩ := h.take
  rw [hstate]

theorem outgoing : p'.outgoing = some x := by
  rw [Spot.outgoing, h.transition, Option.map_some, h.step]

theorem num : p'.state.num = p.state.num := by
  obtain ⟨taken, htake, hstate⟩ := h.take
  have hkeep := State.take_num htake
  rwa [hstate]

theorem profile (hw : p.state.WellFormed) : p'.state.profile = p.state.profile := by
  obtain ⟨taken, htake, hstate⟩ := h.take
  have hkeep := State.take_profile htake hw
  rwa [hstate]

theorem wellFormed (hw : p.state.WellFormed) : p'.state.WellFormed := by
  obtain ⟨taken, htake, hstate⟩ := h.take
  rw [hstate]
  exact ⟨(State.take_wellFormed htake hw).ascending, (State.take_wellFormed htake hw).tallied⟩

theorem tried_iff (hw : p.state.WellFormed) (y : Step) :
    p'.state.Tried y ↔ p.state.Tried y ∨ y = x := by
  obtain ⟨taken, htake, hstate⟩ := h.take
  rw [hstate]
  exact State.tried_take htake hw y

theorem marked {a : ActorId} (ha : p.state.Marked a) : p'.state.Marked a := by
  obtain ⟨taken, htake, hstate⟩ := h.take
  rw [hstate]
  exact State.take_marked htake ha

theorem allMarked (hw : p.state.WellFormed) (hp : p.state.AllMarked) : p'.state.AllMarked := by
  intro a ha
  rw [State.isEnabled_congr (h.profile hw)] at ha
  exact h.marked (hp a ha)

theorem heeds (hw : p.state.WellFormed) {a : ActorId} (ha : p.state.Heeds a) : p'.state.Heeds a := by
  rcases ha with ⟨hen, hm⟩ | hall
  · exact .inl ⟨(State.isEnabled_congr (h.profile hw) a).trans hen, h.marked hm⟩
  · exact .inr (h.allMarked hw hall)

theorem fits (hp : p.Fits drv view o below.length) : p'.Fits drv view o below.length where
  profile := by rw [h.profile hp.wellFormed, hp.profile, h.node]
  wellFormed := h.wellFormed hp.wellFormed
  fresh := h.node ▸ hp.fresh
  notFailing := h.node ▸ hp.notFailing
  snapshot := by
    rw [h.snapshot, h.node]
    exact hp.snapshot
  untouched := fun hbound => absurd h.within (by simp [hbound])

theorem sound (hs : Sound drv view o root (p :: below)) : Sound drv view o root (p' :: below) := by
  have hfits := h.fits hs.fits
  cases hs with
  | root hp hnode => exact .root hfits (h.node.trans hnode)
  | link hbelow hq hout hadv htrace hnum =>
    exact .link hbelow hfits hout (h.node ▸ hadv) (h.node ▸ htrace) (h.num ▸ hnum)

end Takes

theorem consider_remarked (o : Options) (st : State) : st.Remarked (Search.consider o st) := by
  unfold Search.consider
  split
  · exact st.considerOne_remarked
  · exact st.considerAll_remarked

theorem consider_allMarked (ho : o.reduction = .none) (st : State) :
    (Search.consider o st).AllMarked := by
  rw [Search.consider, ho]
  exact st.considerAll_allMarked

theorem Takes.enter {p p' q : Spot σ κ} {below : List (Spot σ κ)} {x : Step} {t : Transition}
    {n : Node σ} {num : Int} (h : Takes drv o p below x t n p')
    (hs : Sound drv view o root (p :: below)) (hn : ¬ n.Failing) (hnode : q.node = n)
    (hstate : q.state = Search.consider o { n.state with num := num }) (hnum : p.state.num < num)
    (hsnapshot : ∀ k, q.frame.snapshot = some k → drv.Captures view k n.machine) :
    Sound drv view o root (q :: p' :: below) := by
  have hfresh : n.state.Fresh := Driver.advance?_fresh hs.fits.fresh h.advance
  have hmarks : State.Remarked { n.state with num := num } q.state := hstate ▸ consider_remarked o _
  refine .link (h.sound hs) ⟨?_, ?_, ?_, ?_, ?_, ?_⟩ h.transition ?_ ?_ ?_
  · rw [hmarks.profile, hnode]
    rfl
  · exact hmarks.wellFormed (hfresh.renumbered num).wellFormed
  · exact hnode ▸ hfresh
  · exact hnode ▸ hn
  · exact hnode ▸ hsnapshot
  · exact fun _ => ⟨hmarks.transition.trans hfresh.transition, fun y hy =>
      hfresh.not_tried y ((hmarks.tried_iff y).mp hy)⟩
  · rw [h.step, h.node, hnode, h.advance]
  · rw [h.node, hnode, h.trace]
  · rw [h.num, hmarks.num]
    exact hnum

theorem Unwinds.sound {T T' : Trail σ κ} (h : Unwinds o T T') (hs : Sound drv view o root T.spots) :
    Sound drv view o root T'.spots := by
  induction h with
  | emptied => exact hs
  | resumed _ _ hsettle _ _ => exact hsettle.sound hs
  | dropped hsettle _ _ ih => exact ih (hsettle.sound hs).tail

theorem Unwinds.truncated_eq {T T' : Trail σ κ} (h : Unwinds o T T') : T'.truncated = T.truncated := by
  induction h with
  | emptied => rfl
  | resumed => rfl
  | dropped _ _ _ ih => exact ih

theorem Shift.sound [Snapshot κ] {T T' : Trail σ κ} (h : Shift drv view o T T')
    (hs : Sound drv view o root T.spots) : Sound drv view o root T'.spots := by
  cases h with
  | entered _ htakes hn hnode hstate hnum hsnapshot _ =>
    exact htakes.enter hs hn hnode hstate hnum hsnapshot
  | skipped _ htakes _ _ _ => exact htakes.sound hs
  | cut => exact hs
  | unwound _ hunwinds => exact hunwinds.sound hs

theorem Shift.truncated_eq_none [Snapshot κ] {T T' : Trail σ κ} (h : Shift drv view o T T')
    (hT' : T'.truncated = none) : T.truncated = none := by
  cases h with
  | entered => exact hT'
  | skipped => exact hT'
  | cut => cases hT'
  | unwound _ hunwinds => rw [← hunwinds.truncated_eq, hT']

end Trail

end Interleave
