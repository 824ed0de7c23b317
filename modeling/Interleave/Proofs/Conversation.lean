import Interleave.Exploration.Plan
import Interleave.Proofs.Simulation

/-! The calls that a search makes, with their answers. A driver that keeps a log of them answers as the driver itself
does, so a search does not notice the log: what is said of the calls of a logged search holds of the search. -/

namespace Interleave

variable {σ τ κ : Type}

inductive Exchange (κ : Type) where
  | initialActors (answer : Except Failure (List Actor))
  | execute (actor : ActorId) (outcome : Int) (answer : Except Failure StepResult)
  | snapshot (answer : Except Failure (Option κ))
  | restore (snapshot : κ) (answer : Except Failure Unit)

namespace Exchange

def failure? : Exchange κ → Option Failure
  | initialActors (.error e) | execute _ _ (.error e) | snapshot (.error e) | restore _ (.error e) => some e
  | _ => none

def impostor? : Exchange κ → Option (ActorId × ActorId)
  | execute a _ (.ok r) => if r.transition.actor = a then none else some (a, r.transition.actor)
  | _ => none

def violation? : Exchange κ → Option Violation
  | execute _ _ (.ok r) => r.violation
  | _ => none

structure Clean (x : Exchange κ) : Prop where
  failure : x.failure? = none
  impostor : x.impostor? = none
  violation : x.violation? = none

def restores : Exchange κ → Bool
  | restore _ (.ok _) => true
  | _ => false

end Exchange

structure Logged (σ κ : Type) where
  machine : σ
  calls : List (Exchange κ)

def Logged.call {α : Type} (exchange : Except Failure α → Exchange κ) (action : Action σ α) :
    Action (Logged σ κ) α := fun m =>
  ((action m.machine).1, ⟨(action m.machine).2, m.calls ++ [exchange (action m.machine).1]⟩)

def Driver.logged (drv : Driver σ κ) : Driver (Logged σ κ) κ where
  initialActors := Logged.call .initialActors drv.initialActors
  execute a outcome := Logged.call (.execute a outcome) (drv.execute a outcome)
  snapshot := Logged.call .snapshot drv.snapshot
  restore k := Logged.call (.restore k) (drv.restore k)
  interrupted m := drv.interrupted m.machine

/-- The second driver is the first one seen through a map of machines. -/
structure Driver.Projects (f : τ → σ) (drv' : Driver τ κ) (drv : Driver σ κ) : Prop where
  initialActors : ∀ m, drv.initialActors (f m) = Prod.map id f (drv'.initialActors m)
  execute : ∀ a outcome m, drv.execute a outcome (f m) = Prod.map id f (drv'.execute a outcome m)
  snapshot : ∀ m, drv.snapshot (f m) = Prod.map id f (drv'.snapshot m)
  restore : ∀ k m, drv.restore k (f m) = Prod.map id f (drv'.restore k m)
  interrupted : ∀ m, drv.interrupted (f m) = drv'.interrupted m

theorem Driver.logged_projects (drv : Driver σ κ) : Projects Logged.machine drv.logged drv where
  initialActors := fun _ => rfl
  execute := fun _ _ _ => rfl
  snapshot := fun _ => rfl
  restore := fun _ _ => rfl
  interrupted := fun _ => rfl

def Search.onMachine (f : τ → σ) (s : Search τ κ) : Search σ κ := { s with machine := f s.machine }

def Explorer.onMachine (f : τ → σ) : Explorer τ κ → Explorer σ κ
  | depthFirst o s => depthFirst o (s.onMachine f)
  | unfolding m events => unfolding (f m) events

def Ending.onMachine (f : τ → σ) : Ending τ κ → Ending σ κ
  | returned error result after => returned error result (after.onMachine f)
  | crashed after => crashed (after.onMachine f)

theorem Explorer.conclude_of_ne (o : Options) {r : Option Abort × Search σ κ} (h : r.1 ≠ some .crash) :
    conclude o r = .returned (r.1.map .aborted) (some r.2.result) (depthFirst o r.2) := by
  obtain ⟨_ | a, s⟩ := r
  · rfl
  · cases a with
    | crash => exact absurd rfl h
    | _ => rfl

theorem Explorer.run_ofPlan [Snapshot κ] (drv : Driver σ κ) (o : Options) (fuel : Nat) (m : σ) :
    run drv fuel (.ofPlan ⟨.depthFirst, o⟩ m) =
      (Search.run drv o fuel m).map (conclude o) := by
  dsimp only [ofPlan, run]
  exact if_neg (not_not.mpr rfl)

namespace Search

variable (f : τ → σ) (s : Search τ κ)

theorem log_onMachine (e : Event) : (s.onMachine f).log e = (s.log e).onMachine f := rfl

theorem push_onMachine (fr : Frame κ) : (s.onMachine f).push fr = (s.push fr).onMachine f := rfl

theorem logAll_onMachine (es : List Event) : (s.onMachine f).logAll es = (s.logAll es).onMachine f := by
  induction es generalizing s with
  | nil => rfl
  | cons e es ih => exact ih (s.log e)

theorem addNode_onMachine (path : Tree.Path) (n : GraphNode) :
    (s.onMachine f).addNode path n = Prod.map id (onMachine f) (s.addNode path n) := by
  unfold addNode
  rw [show (s.onMachine f).graph = s.graph from rfl]
  cases s.graph <;> rfl

theorem report_onMachine (v : Violation) (num : Int) :
    (s.onMachine f).report v num = (s.report v num).onMachine f := by
  have htrace : (s.onMachine f).stackTrace = s.stackTrace := rfl
  unfold report
  dsimp only
  rw [htrace]
  cases hstack : s.stack with
  | nil => simp [onMachine, log, hstack]
  | cons top below =>
    cases hleft : top.state.transition with
    | none => simp [onMachine, log, updateNode, hstack, hleft]
    | some t => cases hgraph : s.graph <;> simp [onMachine, log, addNode, hstack, hleft, hgraph]

theorem enter_onMachine (o : Options) (top : Frame κ) (next : State) (snapshot : Option κ) :
    (s.onMachine f).enter o top next snapshot = (s.enter o top next snapshot).onMachine f := by
  unfold enter
  dsimp only
  rw [addNode_onMachine]
  rfl

end Search

namespace Driver.Projects

open Search

variable {f : τ → σ} {drv' : Driver τ κ} {drv : Driver σ κ} (h : Projects f drv' drv)

include h

theorem stateExecute (st : State) (a : ActorId) (m : τ) :
    st.execute drv.execute a (f m) = Prod.map id (Prod.map id f) (st.execute drv'.execute a m) := by
  unfold State.execute
  cases st.take a with
  | error fault => rfl
  | ok taken =>
    dsimp only
    rw [h.execute]
    obtain ⟨answer, m'⟩ := drv'.execute a taken.1 m
    cases answer with
    | error e => rfl
    | ok r =>
      dsimp only [Prod.map, id]
      split_ifs <;> rfl

theorem replaySteps (index : Nat) (path : List Step) (m : τ) :
    Replay.steps drv index path (f m) = Prod.map id f (Replay.steps drv' index path m) := by
  induction path generalizing index m with
  | nil => rfl
  | cons step rest ih =>
    rw [Replay.steps, Replay.steps, Replay.executeStep, Replay.executeStep, h.execute]
    obtain ⟨answer, m'⟩ := drv'.execute step.actor step.outcome m
    cases answer with
    | error e => rfl
    | ok r =>
      dsimp only [Prod.map, id]
      split_ifs
      · dsimp only
        cases r.violation with
        | none => exact ih (index + 1) m'
        | some v => rfl
      · rfl

theorem restoreTop (s : Search τ κ) :
    Search.restoreTop drv (s.onMachine f) = Prod.map id (onMachine f) (Search.restoreTop drv' s) := by
  obtain ⟨m, phase, stack, _⟩ := s
  unfold Search.restoreTop
  dsimp only [onMachine]
  cases stack with
  | nil => rfl
  | cons top below =>
    cases nearestSnapshot (top :: below) with
    | none => rfl
    | some nearest =>
      obtain ⟨above, base, k⟩ := nearest
      dsimp only
      rw [h.restore]
      obtain ⟨answer, m₁⟩ := drv'.restore k m
      cases answer with
      | error e => rfl
      | ok r =>
        dsimp only [Prod.map, id]
        rw [h.replaySteps]
        obtain ⟨failed, m₂⟩ := Replay.steps drv' 0 (stepsToTop above base) m₁
        cases failed <;> rfl

theorem unwind (o : Options) (count : Nat) (s : Search τ κ) :
    Search.unwind drv o count (s.onMachine f) = Prod.map id (onMachine f) (Search.unwind drv' o count s) := by
  induction count generalizing s with
  | zero => rfl
  | succ count ih =>
    cases hstack : s.stack with
    | nil =>
      have hstack' : (s.onMachine f).stack = [] := hstack
      rw [Search.unwind, Search.unwind, hstack, hstack']
      rfl
    | cons fr below =>
      have hstack' : (s.onMachine f).stack = fr :: below := hstack
      rw [Trail.unwind_succ count hstack, Trail.unwind_succ count hstack']
      cases settle o fr below with
      | error fault => rfl
      | ok settled =>
        obtain ⟨below', es⟩ := settled
        dsimp only
        have hlogged := logAll_onMachine f { s with stack := below' } es
        rw [show { s.onMachine f with stack := below' } = ({ s with stack := below' } : Search τ κ).onMachine f from rfl,
          hlogged]
        split_ifs
        · rw [push_onMachine, h.restoreTop]
          generalize Search.restoreTop drv' _ = restored
          obtain ⟨aborted, s₂⟩ := restored
          cases aborted <;> rfl
        · rw [log_onMachine]
          exact ih _

theorem backtrack (o : Options) (s : Search τ κ) :
    Search.backtrack drv o (s.onMachine f) = Prod.map id (onMachine f) (Search.backtrack drv' o s) := by
  unfold Search.backtrack
  exact h.unwind o s.stack.length (Search.log { s with
    phase := .backtracking
    stats := { s.stats with backtracks := s.stats.backtracks + 1 } } (.backtracked (s.stack.length - 1 : Int)))

theorem skip (o : Options) (s : Search τ κ) (top : Frame κ) (next : State) (old : VisitedEntry κ) :
    Search.skip drv o (s.onMachine f) top next old = Prod.map id (onMachine f) (Search.skip drv' o s top next old) := by
  have hgoes : ∀ (s₁ : Search τ κ) (s₂ : Search σ κ), s₂ = s₁.onMachine f →
      (if top.state.todoCount = 0 then Search.backtrack drv o s₂ else Search.restoreTop drv s₂) =
        Prod.map id (onMachine f)
          (if top.state.todoCount = 0 then Search.backtrack drv' o s₁ else Search.restoreTop drv' s₁) := by
    rintro s₁ _ rfl
    split_ifs
    · exact h.backtrack o s₁
    · exact h.restoreTop s₁
  have hnode := addNode_onMachine f
    { s.log (.visited next.num old.num old.first) with
      stats := { s.stats with duplicates := s.stats.duplicates + 1 } } top.node
    { GraphNode.explored next.num top.state.transition with equalTo := old.first }
  exact hgoes _ _ (congrArg (fun r => r.2.log (.pruned next.num old.num)) hnode)

variable [Snapshot κ]

theorem arrive (o : Options) (s : Search τ κ) (top : Frame κ) (next : State) :
    Search.arrive drv o (s.onMachine f) top next = Prod.map id (onMachine f) (Search.arrive drv' o s top next) := by
  unfold Search.arrive
  split_ifs
  · rw [show (s.onMachine f).machine = f s.machine from rfl, h.snapshot]
    obtain ⟨answer, m⟩ := drv'.snapshot s.machine
    cases answer with
    | error e => rfl
    | ok snapshot =>
      cases snapshot with
      | none => rfl
      | some k =>
        dsimp only [Prod.map, id]
        rw [show (s.onMachine f).visited = s.visited from rfl]
        obtain ⟨visited, addition, old⟩ := s.visited.add next.num k
        cases addition with
        | repeated => rfl
        | duplicate old => exact h.skip o { s with machine := m, visited } top next old
        | inserted total gone =>
          have hlogged := logAll_onMachine f ({ s with machine := m, visited }.log (.inserted next.num total))
            (gone.map .evicted)
          exact congrArg (Prod.mk none) ((congrArg (enter o · top next (some k)) hlogged).trans
            (enter_onMachine f _ o top next (some k)))
  · rw [show (s.onMachine f).machine = f s.machine from rfl, h.snapshot]
    obtain ⟨answer, m⟩ := drv'.snapshot s.machine
    cases answer with
    | error e => rfl
    | ok snapshot => exact congrArg (Prod.mk none) (enter_onMachine f { s with machine := m } o top next snapshot)
  · exact congrArg (Prod.mk none) (enter_onMachine f s o top next none)

theorem advance (o : Options) (s : Search τ κ) (top : Frame κ) (below : List (Frame κ)) (a : ActorId) :
    Search.advance drv o (s.onMachine f) top below a =
      Prod.map id (onMachine f) (Search.advance drv' o s top below a) := by
  unfold Search.advance
  rw [show (s.onMachine f).machine = f s.machine from rfl, h.stateExecute]
  obtain ⟨answer, state, m⟩ := top.state.execute drv'.execute a s.machine
  cases answer with
  | error e => cases e <;> rfl
  | ok r =>
    dsimp only [Prod.map_apply, id]
    split
    · rfl
    · rename_i clock _
      generalize hs₁ : Search.log { s with
        machine := m, stack := { top with state, clock } :: below, nextNum := s.nextNum + 1 }
        (.executed state.num below.length r.transition) = s₁
      have hexecuted : Search.log { s.onMachine f with
          machine := f m, stack := { top with state, clock } :: below, nextNum := (s.onMachine f).nextNum + 1 }
          (.executed state.num below.length r.transition) = s₁.onMachine f := by
        rw [← hs₁]
        rfl
      dsimp only at hexecuted
      rw [hexecuted]
      cases r.violation with
      | some v => exact congrArg (Prod.mk none) (report_onMachine f s₁ v _)
      | none =>
        dsimp only
        rw [show (s₁.onMachine f).nextNum = s₁.nextNum from rfl]
        split_ifs
        · exact congrArg (Prod.mk none) (report_onMachine f s₁ _ _)
        · exact h.arrive o s₁ _ _

theorem turn (o : Options) (s : Search τ κ) :
    Search.turn drv o (s.onMachine f) = Prod.map id (onMachine f) (Search.turn drv' o s) := by
  unfold Search.turn
  rw [show (s.onMachine f).machine = f s.machine from rfl, h.interrupted,
    show (s.onMachine f).stack = s.stack from rfl]
  cases drv'.interrupted s.machine with
  | some cause => rfl
  | none =>
    cases s.stack with
    | nil => rfl
    | cons top below =>
      dsimp only
      split_ifs
      · exact h.backtrack o (s.cut top)
      · exact h.backtrack o s
      · cases top.state.next? with
        | none => exact h.backtrack o s
        | some a => exact h.advance o s top below a

theorem start (o : Options) (m : τ) :
    Search.start drv o (new o (f m)) = Prod.map id (onMachine f) (Search.start drv' o (new o m)) := by
  have hopens : ∀ (b : Bool) (v : Violation) (num : Int) (s₁ : Search τ κ) (s₂ : Search σ κ), s₂ = s₁.onMachine f →
      ((none, if b then s₂.report v num else s₂) : Option Abort × Search σ κ) =
        Prod.map id (onMachine f) (none, if b then s₁.report v num else s₁) := by
    rintro b v num s₁ _ rfl
    cases b
    · rfl
    · exact congrArg (Prod.mk none) (report_onMachine f s₁ v num)
  unfold Search.start
  dsimp only [new]
  rw [h.initialActors]
  obtain ⟨answer, m₁⟩ := drv'.initialActors m
  cases answer with
  | error e => rfl
  | ok actors =>
    dsimp only [Prod.map_apply, id]
    rw [h.snapshot]
    obtain ⟨answer, m₂⟩ := drv'.snapshot m₁
    cases answer with
    | error e => rfl
    | ok snapshot =>
      dsimp only [Prod.map_apply, id]
      by_cases hvisited : 0 < o.maxVisited
      · rw [if_pos hvisited, if_pos hvisited]
        cases snapshot with
        | none => rfl
        | some k => exact hopens _ _ _ _ _ rfl
      · rw [if_neg hvisited, if_neg hvisited]
        exact hopens _ _ _ _ _ rfl

theorem loop (o : Options) (fuel : Nat) (s : Search τ κ) :
    Search.loop drv o fuel (s.onMachine f) = (Search.loop drv' o fuel s).map (Prod.map id (onMachine f)) := by
  induction fuel generalizing s with
  | zero =>
    rw [Search.loop, Search.loop, show (s.onMachine f).finished = s.finished from rfl]
    split_ifs <;> rfl
  | succ fuel ih =>
    rw [Search.loop, Search.loop, show (s.onMachine f).finished = s.finished from rfl, h.turn]
    split_ifs
    · rfl
    · obtain ⟨aborted, s'⟩ := Search.turn drv' o s
      cases aborted with
      | none => exact ih s'
      | some a => rfl

theorem run (o : Options) (fuel : Nat) (m : τ) :
    Search.run drv o fuel (f m) = (Search.run drv' o fuel m).map (Prod.map id (onMachine f)) := by
  have hclose : ∀ r : Option Abort × Search τ κ,
      close (Prod.map id (onMachine f) r) = Prod.map id (onMachine f) (close r) := by
    rintro ⟨_ | a, s⟩
    · rfl
    · cases a <;> rfl
  unfold Search.run
  rw [h.start]
  obtain ⟨aborted, s⟩ := Search.start drv' o (new o m)
  cases aborted with
  | some a => exact congrArg some (hclose (some a, s))
  | none =>
    dsimp only [Prod.map, id]
    rw [h.loop, Option.map_map, Option.map_map]
    exact congrArg (Option.map · _) (funext hclose)

theorem explore (o : Options) (fuel : Nat) (m : τ) :
    Explorer.run drv fuel (.ofPlan ⟨.depthFirst, o⟩ (f m)) =
      (Explorer.run drv' fuel (.ofPlan ⟨.depthFirst, o⟩ m)).map (Ending.onMachine f) := by
  have hconclude : ∀ r : Option Abort × Search τ κ,
      Explorer.conclude o (Prod.map id (onMachine f) r) = (Explorer.conclude o r).onMachine f := by
    rintro ⟨_ | a, s⟩
    · rfl
    · cases a <;> rfl
  rw [Explorer.run_ofPlan, Explorer.run_ofPlan, h.run, Option.map_map, Option.map_map]
  exact congrArg (Option.map · _) (funext hconclude)

end Driver.Projects

end Interleave
