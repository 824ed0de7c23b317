import Interleave.Proofs.Conversation
import Interleave.Proofs.PushedPaths

/-! What a search does, one operation at a time: the calls of the driver that go well, the changes of the stack and the
counting. Every run is a sequence of such operations that is cut short by at most one last one: a call that goes wrong, a
cancellation, a breach of the bookkeeping, or a violation. Nothing is assumed of the driver. -/

namespace Interleave

variable {σ κ : Type}

inductive Tick where
  | backtrack | duplicate | cut | restore
deriving DecidableEq

def Event.tick? : Event → Option Tick
  | .backtracked _ => some .backtrack
  | .pruned _ _ => some .duplicate
  | .depthReached _ _ => some .cut
  | .restored _ _ _ => some .restore
  | _ => none

/-- The stack that a search works on: its states are well-formed, and every frame below the top has been left. -/
structure Upright (fs : List (Frame κ)) : Prop where
  wellFormed : ∀ f ∈ fs, f.state.WellFormed
  left : ∀ f ∈ fs.tail, f.state.transition.isSome = true

namespace Upright

variable {f f' : Frame κ} {fs fs' : List (Frame κ)}

theorem nil : Upright ([] : List (Frame κ)) where
  wellFormed := fun _ hf => by cases hf
  left := fun _ hf => by cases hf

theorem tail (h : Upright (f :: fs)) : Upright fs where
  wellFormed := fun g hg => h.wellFormed g (List.mem_cons_of_mem f hg)
  left := fun g hg => h.left g (List.mem_of_mem_tail hg)

theorem retop (h : Upright (f :: fs)) (hw : f'.state.WellFormed) : Upright (f' :: fs) where
  wellFormed := List.forall_mem_cons.mpr ⟨hw, h.tail.wellFormed⟩
  left := h.left

theorem push (h : Upright fs) (hw : f.state.WellFormed)
    (hleft : ∀ g ∈ fs.head?, g.state.transition.isSome = true) : Upright (f :: fs) where
  wellFormed := List.forall_mem_cons.mpr ⟨hw, h.wellFormed⟩
  left := by
    cases fs with
    | nil => exact h.left
    | cons g fs => exact List.forall_mem_cons.mpr ⟨hleft g rfl, h.left⟩

theorem remarked (h : Upright fs) (hmarks : List.Forall₂ Frame.Remarked fs fs') : Upright fs' where
  wellFormed := Frame.wellFormed_remarked h.wellFormed hmarks
  left := by
    have hleft : ∀ {gs gs' : List (Frame κ)}, List.Forall₂ Frame.Remarked gs gs' →
        (∀ g ∈ gs, g.state.transition.isSome = true) → ∀ g ∈ gs', g.state.transition.isSome = true := by
      intro gs gs' hgs hall
      induction hgs with
      | nil => exact hall
      | cons hg _ ih =>
        obtain ⟨hfirst, hrest⟩ := List.forall_mem_cons.mp hall
        exact List.forall_mem_cons.mpr ⟨hg.state.transition ▸ hfirst, ih hrest⟩
    cases hmarks with
    | nil => exact h.left
    | cons _ hrest => exact hleft hrest h.left

end Upright

theorem Orderly.upright {drv : Driver σ κ} {o : Options} {graph : Option Graph} {fs : List (Frame κ)}
    (h : Orderly drv o graph fs) : Upright fs where
  wellFormed := h.wellFormed
  left := by
    cases fs with
    | nil => exact fun _ hf => by cases hf
    | cons f fs => exact h.left

namespace Search

def ticks (s : Search σ κ) : List Tick := s.events.toList.filterMap Event.tick?

structure Annotates (s s' : Search σ κ) : Prop where
  machine : s'.machine = s.machine
  stack : s'.stack = s.stack
  stats : s'.stats = s.stats
  violation : s'.violation = s.violation
  truncated : s'.truncated = s.truncated
  nextNum : s'.nextNum = s.nextNum
  ticks : s'.ticks = s.ticks

/-- One operation of a search, where nothing goes wrong. -/
inductive Act (drv : Driver σ κ) (o : Options) (s : Search σ κ) : Search σ κ → Prop
  | note {s' : Search σ κ} (h : s.Annotates s') : Act drv o s s'
  | initialActors {actors : List Actor} {m : σ} (h : drv.initialActors s.machine = (.ok actors, m)) :
      Act drv o s { s with machine := m, nextNum := s.nextNum + 1 }
  | snapshot {answer : Option κ} {m : σ} (h : drv.snapshot s.machine = (.ok answer, m)) :
      Act drv o s { s with machine := m }
  | restore {top base : Frame κ} {below above : List (Frame κ)} {k : κ} {m₁ m : σ}
      (hstack : s.stack = top :: below) (hnear : nearestSnapshot s.stack = some (above, base, k))
      (hrestore : drv.restore k s.machine = (.ok (), m₁))
      (hsteps : Replay.steps drv 0 (stepsToTop above base) m₁ = (none, m)) :
      Act drv o s ({ s with machine := m }.log
        (.restored top.state.num base.state.num (stepsToTop above base).length))
  | execute {top : Frame κ} {below : List (Frame κ)} {a : ActorId} {r : StepResult} {state : State} {m : σ}
      {clock : Clock} (hstack : s.stack = top :: below)
      (hexec : top.state.execute drv.execute a s.machine = (.ok r, state, m)) (hclean : r.violation = none)
      (hclock : o.reduction = .dpor → Race.clockOf r.transition below = .ok clock) :
      Act drv o s ({ s with
        machine := m
        stack := { top with state, clock } :: below
        nextNum := s.nextNum + 1 }.log (.executed state.num below.length r.transition))
  | enter {f : Frame κ} (hnum : f.state.num = s.nextNum - 1) (hw : f.state.WellFormed)
      (hnew : f.state.transition = none) (hleft : ∀ g ∈ s.stack.head?, g.state.transition.isSome = true) :
      Act drv o s (s.push f)
  | cut (top : Frame κ) : Act drv o s (s.cut top)
  | prune (num equal : Int) (graph : Option Graph) :
      Act drv o s ({ s with
        stats := { s.stats with duplicates := s.stats.duplicates + 1 }, graph }.log (.pruned num equal))
  | backtrack :
      Act drv o s ({ s with
        phase := .backtracking
        stats := { s.stats with backtracks := s.stats.backtracks + 1 } }.log
          (.backtracked (s.stack.length - 1 : Int)))
  | pop {f : Frame κ} {below below' : List (Frame κ)} {es : List Event} (hstack : s.stack = f :: below)
      (hsettle : settle o f below = .ok (below', es)) :
      Act drv o s (({ s with stack := below' }.logAll es).log (.deleted f.state.num below'.length))
  | resume {f : Frame κ} {below below' : List (Frame κ)} {es : List Event} (hstack : s.stack = f :: below)
      (hsettle : settle o f below = .ok (below', es)) :
      Act drv o s (({ s with stack := below' }.logAll es).push f)

abbrev Acts (drv : Driver σ κ) (o : Options) : Search σ κ → Search σ κ → Prop :=
  Relation.ReflTransGen (Act drv o)

inductive Mishap (drv : Driver σ κ) (m : σ) : Abort → σ → Prop
  | initialActors {e : Failure} {m' : σ} (h : drv.initialActors m = (.error e, m')) :
      Mishap drv m (.initialActors e) m'
  | initialSnapshot {e : Failure} {m' : σ} (h : drv.snapshot m = (.error e, m')) :
      Mishap drv m (.initialSnapshot e) m'
  | snapshot {e : Failure} {m' : σ} (num : Int) (h : drv.snapshot m = (.error e, m')) :
      Mishap drv m (.snapshot num e) m'
  | checkpoint {e : Failure} {m' : σ} (num : Int) (h : drv.snapshot m = (.error e, m')) :
      Mishap drv m (.checkpoint num e) m'
  | execute {a : ActorId} {outcome : Int} {e : Failure} {m' : σ} (num : Int)
      (h : drv.execute a outcome m = (.error e, m')) : Mishap drv m (.execute a num e) m'
  | wrongActor {a : ActorId} {outcome : Int} {r : StepResult} {m' : σ} (num : Int)
      (h : drv.execute a outcome m = (.ok r, m')) (hactor : r.transition.actor ≠ a) :
      Mishap drv m (.fault (.wrongActor num a r.transition.actor)) m'
  | restore {k : κ} {e : Failure} {m' : σ} (num : Int) (h : drv.restore k m = (.error e, m')) :
      Mishap drv m (.restore num e) m'
  | replay {k : κ} {xs : List Step} {e : ReplayError} {m₁ m' : σ} (num : Int)
      (hrestore : drv.restore k m = (.ok (), m₁)) (hsteps : Replay.steps drv 0 xs m₁ = (some e, m')) :
      Mishap drv m (.replay num e) m'

/-- The operation that ends a run. -/
inductive Final (drv : Driver σ κ) (o : Options) (s : Search σ κ) : Option Abort × Search σ κ → Prop
  | mishap {a : Abort} {m : σ} (h : Mishap drv s.machine a m) (stack : List (Frame κ)) :
      Final drv o s (some a, { s with machine := m, stack })
  | interrupted {cause : Interruption} (h : drv.interrupted s.machine = some cause) :
      Final drv o s (some (.interrupted cause), s)
  | fault (f : Fault) (stack : List (Frame κ)) : Final drv o s (some (.fault f), { s with stack })
  | crash {m : σ} (hvisited : 0 < o.maxVisited) (h : drv.snapshot m = (.ok none, s.machine)) :
      Final drv o s (some .crash, s)
  | deadlocked (v : Violation) (num : Int) : Final drv o s (none, s.report v num)
  | violated {top : Frame κ} {below : List (Frame κ)} {a : ActorId} {r : StepResult} {state : State} {m : σ}
      {clock : Clock} {v : Violation} (hexec : top.state.execute drv.execute a s.machine = (.ok r, state, m))
      (hviolation : r.violation = some v) (num : Int) :
      Final drv o s (none, ({ s with
        machine := m
        stack := { top with state, clock } :: below
        nextNum := s.nextNum + 1 }.log (.executed state.num below.length r.transition)).report v num)

/-- From one search to another by operations, the last of which may end the run. -/
inductive Conducts (drv : Driver σ κ) (o : Options) (s : Search σ κ) : Option Abort × Search σ κ → Prop
  | proceeds {s' : Search σ κ} (h : Acts drv o s s') : Conducts drv o s (none, s')
  | ends {s₁ : Search σ κ} {r : Option Abort × Search σ κ} (h : Acts drv o s s₁) (hfinal : Final drv o s₁ r) :
      Conducts drv o s r

variable {drv : Driver σ κ} {o : Options} {s s' s₁ : Search σ κ} {r : Option Abort × Search σ κ}

theorem Conducts.head (h : Acts drv o s s₁) (hr : Conducts drv o s₁ r) : Conducts drv o s r := by
  cases hr with
  | proceeds hrest => exact .proceeds (h.trans hrest)
  | ends hrest hfinal => exact .ends (h.trans hrest) hfinal

theorem logAll_events (s : Search σ κ) (es : List Event) : s.logAll es = { s with events := s.events ++ es } := by
  induction es generalizing s with
  | nil => simp [logAll]
  | cons e es ih =>
    refine (ih (s.log e)).trans ?_
    simp [log]

theorem Act.upright (h : Act drv o s s') (hs : Upright s.stack) : Upright s'.stack := by
  cases h with
  | note hnote => exact hnote.stack ▸ hs
  | execute hstack hexec _ _ =>
    rw [hstack] at hs
    exact hs.retop (State.execute_wellFormed (hs.wellFormed _ List.mem_cons_self) hexec).1
  | enter _ hw _ hleft => exact hs.push hw hleft
  | @pop f below below' es hstack hsettle =>
    rw [hstack] at hs
    rw [logAll_events]
    exact hs.tail.remarked (settle_remarked hs.tail.wellFormed hsettle)
  | @resume f below below' es hstack hsettle =>
    rw [hstack] at hs
    rw [logAll_events]
    exact hs.remarked (.cons (.refl f) (settle_remarked hs.tail.wellFormed hsettle))
  | _ => exact hs

theorem Acts.upright (h : Acts drv o s s') (hs : Upright s.stack) : Upright s'.stack := by
  induction h with
  | refl => exact hs
  | tail _ hact ih => exact hact.upright ih

theorem ticks_log (s : Search σ κ) {e : Event} (he : e.tick? = none) : (s.log e).ticks = s.ticks := by
  simp [ticks, log, he]

theorem log_acts (s : Search σ κ) {e : Event} (he : e.tick? = none) : Act drv o s (s.log e) :=
  .note ⟨rfl, rfl, rfl, rfl, rfl, rfl, ticks_log s he⟩

theorem logAll_acts (s : Search σ κ) {es : List Event} (hes : ∀ e ∈ es, e.tick? = none) :
    Act drv o s (s.logAll es) := by
  have hnone : es.filterMap Event.tick? = [] := List.filterMap_eq_nil_iff.mpr hes
  rw [logAll_events]
  exact .note ⟨rfl, rfl, rfl, rfl, rfl, rfl, by simp [ticks, hnone]⟩

theorem restoreTop_acts (h : restoreTop drv s = (none, s')) : Act drv o s s' := by
  obtain ⟨top, below, above, base, k, m₁, m, hstack, hnear, hrestore, hsteps, rfl⟩ := restoreTop_eq_none h
  exact .restore hstack hnear hrestore hsteps

theorem restoreTop_conducts (drv : Driver σ κ) (o : Options) (s : Search σ κ) :
    Conducts drv o s (restoreTop drv s) := by
  unfold restoreTop
  split
  · rename_i top below above base k hstack hnear
    split
    · rename_i e m hrestore
      exact .ends .refl (.mishap (.restore _ hrestore) s.stack)
    · rename_i m₁ hrestore
      dsimp only
      split
      · rename_i e m hsteps
        exact .ends .refl (.mishap (.replay _ hrestore hsteps) s.stack)
      · rename_i m hsteps
        exact .proceeds (.single (.restore hstack hnear hrestore hsteps))
  · exact .ends .refl (.fault .noSnapshot s.stack)

theorem unwind_conducts (count : Nat) (hs : Upright s.stack) : Conducts drv o s (unwind drv o count s) := by
  induction count generalizing s with
  | zero => exact .proceeds .refl
  | succ count ih =>
    cases hstack : s.stack with
    | nil =>
      rw [unwind, hstack]
      exact .proceeds .refl
    | cons f below =>
      have hleft : ∀ g ∈ below, g.state.transition.isSome = true := by
        have hleft := hs.left
        rwa [hstack] at hleft
      obtain ⟨⟨below', es⟩, hsettle⟩ := settle_ok o f hleft
      rw [Trail.unwind_succ count hstack, hsettle]
      dsimp only
      split_ifs
      · have hresumed : Act drv o s (({ s with stack := below' }.logAll es).push f) := .resume hstack hsettle
        split
        · rename_i s₂ hrestore
          have hrestored : Act drv o _ s₂ := restoreTop_acts hrestore
          exact .proceeds (.tail (.tail (.single hresumed) hrestored) (.note ⟨rfl, rfl, rfl, rfl, rfl, rfl, rfl⟩))
        · rename_i a s₂ hrestore
          have hstopped := restoreTop_conducts drv o (({ s with stack := below' }.logAll es).push f)
          rw [hrestore] at hstopped
          exact .head (.single hresumed) hstopped
      · have hpopped : Act drv o s _ := .pop hstack hsettle
        exact .head (.single hpopped) (ih (hpopped.upright hs))

theorem backtrack_conducts (hs : Upright s.stack) : Conducts drv o s (backtrack drv o s) := by
  have hbacktracked : Act drv o s _ := .backtrack
  exact .head (.single hbacktracked) (unwind_conducts _ hs)

theorem addNode_acts (s : Search σ κ) (path : Tree.Path) (n : GraphNode) : Act drv o s (s.addNode path n).2 := by
  obtain ⟨graph, hkeeps⟩ := addNode_keeps s path n
  rw [hkeeps]
  exact .note ⟨rfl, rfl, rfl, rfl, rfl, rfl, rfl⟩

theorem skip_conducts (hs : Upright s.stack) (top : Frame κ) (next : State) (old : VisitedEntry κ) :
    Conducts drv o s (skip drv o s top next old) := by
  unfold skip
  dsimp only
  generalize hs₁ : Search.log _ (.pruned _ _) = s₁
  have hpruned : Acts drv o s s₁ := by
    have hvisited : Act drv o s (s.log (.visited next.num old.num old.first)) := log_acts s rfl
    obtain ⟨graph, hnode⟩ := addNode_keeps
      { s.log (.visited next.num old.num old.first) with
        stats := { s.stats with duplicates := s.stats.duplicates + 1 } } top.node
      { GraphNode.explored next.num top.state.transition with equalTo := old.first }
    have hcounted : Act drv o (s.log (.visited next.num old.num old.first)) s₁ := by
      have heq := congrArg (·.log (.pruned next.num old.num)) hnode
      rw [← hs₁]
      exact heq ▸ Act.prune next.num old.num graph
    exact .tail (.single hvisited) hcounted
  have hs₁ : Upright s₁.stack := Acts.upright hpruned hs
  split_ifs
  · exact .head hpruned (backtrack_conducts hs₁)
  · exact .head hpruned (restoreTop_conducts drv o s₁)

theorem enter_acts {top : Frame κ} {below : List (Frame κ)} (hstack : s.stack = top :: below)
    (hleft : top.state.transition.isSome = true) {next : State} (hnext : next.Fresh)
    (hnum : next.num = s.nextNum - 1) (snapshot : Option κ) : Acts drv o s (s.enter o top next snapshot) := by
  have hmarks := Trail.consider_remarked o next
  have hnoted : Act drv o s _ := addNode_acts s top.node (GraphNode.explored next.num top.state.transition)
  refine .tail (.single hnoted) (.enter ?_ ?_ ?_ ?_)
  · obtain ⟨graph, hkeeps⟩ := addNode_keeps s top.node (GraphNode.explored next.num top.state.transition)
    rw [hkeeps]
    exact hmarks.num.trans hnum
  · exact hmarks.wellFormed hnext.wellFormed
  · exact hmarks.transition.trans hnext.transition
  · rw [addNode_stack, hstack]
    rintro _ ⟨⟩
    exact hleft

variable [Snapshot κ]

theorem arrive_conducts {top : Frame κ} {below : List (Frame κ)} (hs : Upright s.stack)
    (hstack : s.stack = top :: below) (hleft : top.state.transition.isSome = true) {next : State}
    (hnext : next.Fresh) (hnum : next.num = s.nextNum - 1) : Conducts drv o s (arrive drv o s top next) := by
  unfold arrive
  split_ifs with hvisited
  · split
    · rename_i e m hsnap
      exact .ends .refl (.mishap (.snapshot _ hsnap) s.stack)
    · rename_i m hsnap
      have hsnapped : Act drv o s { s with machine := m } := .snapshot hsnap
      exact .ends (.single hsnapped) (.crash hvisited hsnap)
    · rename_i k m hsnap
      have hsnapped : Act drv o s { s with machine := m } := .snapshot hsnap
      have hrecorded : Act drv o { s with machine := m }
          { s with machine := m, visited := (s.visited.add next.num k).1 } := .note ⟨rfl, rfl, rfl, rfl, rfl, rfl, rfl⟩
      have hkept := Relation.ReflTransGen.tail (.single hsnapped) hrecorded
      dsimp only
      split
      · exact .ends hkept (.fault .insertedTwice s.stack)
      · exact .head hkept (skip_conducts (Acts.upright hkept hs) top next _)
      · rename_i total gone _
        have hinserted : Act drv o { s with machine := m, visited := (s.visited.add next.num k).1 } _ :=
          log_acts _ (e := .inserted next.num total) rfl
        generalize hs₁ : Search.log _ (.inserted _ _) = s₁ at hinserted
        have hevicted : Act drv o s₁ (s₁.logAll (gone.map .evicted)) := by
          refine logAll_acts s₁ fun e he => ?_
          obtain ⟨num, -, rfl⟩ := List.mem_map.mp he
          rfl
        have hstack₁ : (s₁.logAll (gone.map .evicted)).stack = top :: below := by
          rw [logAll_stack, ← hs₁]
          exact hstack
        have hnum₁ : next.num = (s₁.logAll (gone.map .evicted)).nextNum - 1 := by
          rw [logAll_events, ← hs₁]
          exact hnum
        exact .proceeds (((hkept.tail hinserted).tail hevicted).trans (enter_acts hstack₁ hleft hnext hnum₁ _))
  · split
    · rename_i e m hsnap
      exact .ends .refl (.mishap (.checkpoint _ hsnap) s.stack)
    · rename_i snapshot m hsnap
      have hsnapped : Act drv o s { s with machine := m } := .snapshot hsnap
      exact .proceeds (.head hsnapped (enter_acts (s := { s with machine := m }) hstack hleft hnext hnum snapshot))
  · exact .proceeds (enter_acts hstack hleft hnext hnum none)

theorem advance_conducts {top : Frame κ} {below : List (Frame κ)} (hs : Upright s.stack)
    (hstack : s.stack = top :: below) (a : ActorId) : Conducts drv o s (advance drv o s top below a) := by
  have hupright : Upright (top :: below) := hstack ▸ hs
  have hw := hupright.wellFormed top List.mem_cons_self
  unfold advance
  split
  · rename_i e state m hexec
    unfold State.execute at hexec
    split at hexec
    · cases hexec
      exact .ends .refl (.fault _ _)
    · rename_i outcome taken htake
      split at hexec
      · rename_i e m hcall
        cases hexec
        exact .ends .refl (.mishap (.execute _ hcall) _)
      · rename_i r m hcall
        split_ifs at hexec with hactor
        · cases hexec
        · cases hexec
          exact .ends .refl (.mishap (.wrongActor _ hcall hactor) _)
  · rename_i r state m hexec
    have hstate := (State.execute_wellFormed hw hexec).1
    -- Every frame below has been left, so there is a clock.
    obtain ⟨c, hc⟩ : ∃ c, Race.clockOf r.transition below = .ok c := Race.clockOf_ok hupright.left r.transition
    dsimp only
    split
    · rename_i fault hclock
      cases ho : o.reduction <;> simp [ho, hc] at hclock
    · rename_i clock hclock
      have hclock : o.reduction = .dpor → Race.clockOf r.transition below = .ok clock := by
        intro ho
        simpa only [ho] using hclock
      split
      · rename_i v hviolation
        exact .ends .refl (.violated hexec hviolation _)
      · rename_i hclean
        have hexecuted := Act.execute (o := o) hstack hexec hclean hclock
        generalize hs₁ : Search.log _ (.executed _ _ _) = s₁ at hexecuted
        have hstack₁ : s₁.stack = { top with state, clock } :: below := by
          rw [← hs₁]
          rfl
        have hleft : state.transition.isSome = true := by
          obtain ⟨outcome, taken, -, -, -, rfl⟩ := State.execute_eq_ok hexec
          rfl
        split_ifs
        · exact .ends (.single hexecuted) (.deadlocked _ _)
        · have hfresh := State.successor_fresh hstate.ascending (s₁.nextNum - 1) r
          exact .head (.single hexecuted) (arrive_conducts (hexecuted.upright hs) hstack₁ hleft hfresh rfl)

theorem turn_conducts (hs : Upright s.stack) : Conducts drv o s (turn drv o s) := by
  unfold turn
  split
  · rename_i cause hcause
    exact .ends .refl (.interrupted hcause)
  · split
    · exact .proceeds .refl
    · rename_i top below hstack
      split_ifs
      · have hcut : Act drv o s (s.cut top) := .cut top
        exact .head (.single hcut) (backtrack_conducts (hcut.upright hs))
      · exact backtrack_conducts hs
      · split
        · exact backtrack_conducts hs
        · exact advance_conducts hs hstack _

theorem start_conducts (m : σ) : Conducts drv o (new o m) (start drv o (new o m)) := by
  unfold start
  split
  · rename_i e m₁ hinit
    exact .ends .refl (.mishap (.initialActors hinit) [])
  · rename_i actors m₁ hinit
    have hinitial : Act drv o (new o m) _ := .initialActors hinit
    dsimp only
    split
    · rename_i e m₂ hsnap
      exact .ends (.single hinitial) (.mishap (.initialSnapshot hsnap) [])
    · rename_i snapshot m₂ hsnap
      have hsnapped : Act drv o _ _ := .snapshot (s := { (new o m : Search σ κ) with machine := m₁, nextNum := 1 }) hsnap
      have hcalled := Relation.ReflTransGen.tail (.single hinitial) hsnapped
      split
      · rename_i hentered
        split_ifs at hentered with hvisited
        cases snapshot with
        | none => exact .ends hcalled (.crash hvisited hsnap)
        | some k => cases hentered
      · rename_i s₁ hentered
        have hmarks := Trail.consider_remarked o (State.new 0 actors)
        have hrecorded : Act drv o { (new o m : Search σ κ) with machine := m₂, nextNum := 1 } s₁ ∧
            s₁.stack = [] ∧ s₁.nextNum = 1 := by
          split_ifs at hentered
          · cases snapshot with
            | none => cases hentered
            | some k =>
              cases hentered
              exact ⟨.note ⟨rfl, rfl, rfl, rfl, rfl, rfl, rfl⟩, rfl, rfl⟩
          · cases hentered
            exact ⟨.note ⟨rfl, rfl, rfl, rfl, rfl, rfl, rfl⟩, rfl, rfl⟩
        obtain ⟨hrecorded, hempty, hnext⟩ := hrecorded
        generalize hgraph : (if o.graph = true then some _ else none : Option Graph) = graph
        have hdrawn : Act drv o s₁ { s₁ with graph } := .note ⟨rfl, rfl, rfl, rfl, rfl, rfl, rfl⟩
        generalize hf : Frame.mk _ _ _ _ = f
        have hpushed : Act drv o { s₁ with graph } ({ s₁ with graph }.push f) := by
          rw [← hf]
          refine .enter ?_ (hmarks.wellFormed (State.new_fresh 0 actors).wellFormed) hmarks.transition ?_
          · rw [show Search.nextNum _ = 1 from hnext]
            exact hmarks.num
          · rw [show Search.stack _ = [] from hempty]
            rintro _ ⟨⟩
        generalize hs₂ : Search.log _ _ = s₂
        have hstarted : Act drv o ({ s₁ with graph }.push f) { s₂ with phase := .running } := by
          rw [← hs₂]
          exact .note ⟨rfl, rfl, rfl, rfl, rfl, rfl, ticks_log _ rfl⟩
        have hacts := (((hcalled.tail hrecorded).tail hdrawn).tail hpushed).tail hstarted
        split_ifs
        · exact .ends hacts (.deadlocked _ _)
        · exact .proceeds hacts

omit [Snapshot κ] in
theorem Conducts.acts (h : Conducts drv o s (none, s')) (hphase : s'.phase ≠ .done) : Acts drv o s s' := by
  cases h with
  | proceeds hacts => exact hacts
  | ends _ hfinal =>
    cases hfinal with
    | deadlocked => exact absurd rfl hphase
    | violated => exact absurd rfl hphase

omit [Snapshot κ] in
theorem Conducts.acts_of_open (h : Conducts drv o s (none, s')) (hopen : s'.finished = false) : Acts drv o s s' := by
  apply h.acts
  intro hdone
  rw [Trail.finished_iff.mpr (.inr hdone)] at hopen
  cases hopen

theorem Reached.conducts {m : σ} (h : Reached drv o m s) : Conducts drv o (new o m) (none, s) := by
  induction h with
  | start h => exact h ▸ start_conducts m
  | turn hs hopen h ih => exact .head (ih.acts_of_open hopen) (h ▸ turn_conducts hs.orderly.upright)

theorem loop_conducts {m : σ} {fuel : Nat} (hs : Reached drv o m s) (h : loop drv o fuel s = some r) :
    Conducts drv o (new o m) r := by
  induction fuel generalizing s with
  | zero =>
    simp only [loop] at h
    split_ifs at h
    cases h
    exact hs.conducts
  | succ fuel ih =>
    simp only [loop] at h
    split_ifs at h with hfin
    · cases h
      exact hs.conducts
    · have hopen : s.finished = false := by simpa using hfin
      split at h
      · rename_i a s₁ hturn
        cases h
        exact .head (hs.conducts.acts_of_open hopen) (hturn ▸ turn_conducts hs.orderly.upright)
      · rename_i s₁ hturn
        exact ih (.turn hs hopen hturn) h

/-- A run is a sequence of operations, closed at its end. -/
theorem run_conducts {m : σ} {fuel : Nat} (h : run drv o fuel m = some r) :
    ∃ ended, Conducts drv o (new o m) ended ∧ r = close ended := by
  unfold run at h
  split at h
  · rename_i a s₀ hstart
    cases h
    exact ⟨_, hstart ▸ start_conducts m, rfl⟩
  · rename_i s₀ hstart
    obtain ⟨ended, hloop, rfl⟩ := Option.map_eq_some_iff.mp h
    exact ⟨ended, loop_conducts (.start hstart) hloop, rfl⟩

omit [Snapshot κ] in
theorem Conducts.crash (h : Conducts drv o s (some .crash, s')) :
    0 < o.maxVisited ∧ ∃ m, drv.snapshot m = (.ok none, s'.machine) := by
  cases h with
  | ends _ hfinal =>
    cases hfinal with
    | mishap hmishap => cases hmishap
    | crash hvisited hsnap => exact ⟨hvisited, _, hsnap⟩

theorem run_crash {m : σ} {fuel : Nat} (h : run drv o fuel m = some (some .crash, s)) :
    0 < o.maxVisited ∧ ∃ m', drv.snapshot m' = (.ok none, s.machine) := by
  obtain ⟨⟨abort, s₀⟩, hconducts, hclose⟩ := run_conducts h
  have habort : some .crash = abort := (congrArg Prod.fst hclose).trans (close_keeps _).1
  subst habort
  cases hclose
  exact hconducts.crash

end Search

theorem Explorer.run_returned [Snapshot κ] {drv : Driver σ κ} (hgives : drv.GivesSnapshots) {o : Options} {fuel : Nat}
    {m : σ} {ending : Ending σ κ} (h : run drv fuel (.ofPlan ⟨.depthFirst, o⟩ m) = some ending) :
    ∃ error result e, ending = .returned error (some result) e := by
  rw [run_ofPlan] at h
  obtain ⟨⟨abort, s⟩, hrun, rfl⟩ := Option.map_eq_some_iff.mp h
  by_cases hcrash : abort = some .crash
  · subst hcrash
    obtain ⟨-, m', hsnap⟩ := Search.run_crash hrun
    exact absurd (congrArg Prod.fst hsnap) (hgives m')
  · exact ⟨_, _, _, conclude_of_ne o hcrash⟩

end Interleave
