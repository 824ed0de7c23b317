import Interleave.Proofs.StackPath
import Interleave.Proofs.VisitedSet

/-! The moves of a search: what it does to its stack, its visited set, its log and its driver comes down to a few
kinds of change. An invariant of the moves holds at the end of every run, whatever the driver answers. -/

namespace Interleave

variable {σ κ : Type}

namespace Event

def explored? : Event → Option Step
  | .executed _ _ t => some t.step
  | _ => none

def replayed? : Event → Option Nat
  | .restored _ _ n => some n
  | _ => none

def Quiet (e : Event) : Prop := e.explored? = none ∧ e.replayed? = none

end Event

/-- A search without what it has found: phase, counters, graph and the paths reported are left out. -/
structure Ledger (σ κ : Type) where
  machine : σ
  stack : List (Frame κ)
  visited : VisitedSet κ
  nextNum : Int
  events : Array Event

inductive Move [Snapshot κ] (drv : Driver σ κ) (o : Options) : Ledger σ κ → Ledger σ κ → Prop
  | initial {l : Ledger σ κ} {actors : List Actor} {m : σ}
      (hinit : drv.initialActors l.machine = (.ok actors, m)) :
      Move drv o l { l with machine := m, nextNum := l.nextNum + 1 }
  | note {l : Ledger σ κ} {e : Event} (hquiet : e.Quiet) : Move drv o l { l with events := l.events.push e }
  | settle {l : Ledger σ κ} {f : Frame κ} {below below' : List (Frame κ)} {es : List Event}
      (hstack : l.stack = f :: below) (hsettle : Search.settle o f below = .ok (below', es)) :
      Move drv o l { l with stack := f :: below', events := l.events ++ es }
  | drop {l : Ledger σ κ} {f : Frame κ} {below : List (Frame κ)} (hstack : l.stack = f :: below) :
      Move drv o l { l with stack := below }
  | restore {l : Ledger σ κ} {top base : Frame κ} {below above : List (Frame κ)} {k : κ} {m₁ m : σ}
      (hstack : l.stack = top :: below) (hnear : Search.nearestSnapshot l.stack = some (above, base, k))
      (hrestore : drv.restore k l.machine = (.ok (), m₁))
      (hsteps : Replay.steps drv 0 (Search.stepsToTop above base) m₁ = (none, m)) :
      Move drv o l { l with
        machine := m
        events := l.events.push
          (.restored top.state.num base.state.num (Search.stepsToTop above base).length) }
  | execute {l : Ledger σ κ} {top : Frame κ} {below : List (Frame κ)} {a : ActorId} {r : StepResult}
      {state : State} {m : σ} {clock : Clock} (hstack : l.stack = top :: below)
      (hexec : top.state.execute drv.execute a l.machine = (.ok r, state, m)) :
      Move drv o l { l with
        machine := m
        stack := { top with state, clock } :: below
        nextNum := l.nextNum + 1
        events := l.events.push (.executed state.num below.length r.transition) }
  | snapshot {l : Ledger σ κ} {answer : Option κ} {m : σ} (hsnap : drv.snapshot l.machine = (.ok answer, m)) :
      Move drv o l { l with machine := m }
  | record {l : Ledger σ κ} (k : κ) :
      Move drv o l { l with visited := (l.visited.add (l.nextNum - 1) k).1 }
  | enter {l : Ledger σ κ} {f : Frame κ} (hsnapshot : (∃ m, (drv.snapshot m).1 = .ok f.snapshot) ∨
        (f.snapshot = none ∧ ¬ (0 < o.checkpoint ∧ f.state.num % o.checkpoint = 0))) :
      Move drv o l { l with stack := f :: l.stack }

abbrev Moves [Snapshot κ] (drv : Driver σ κ) (o : Options) : Ledger σ κ → Ledger σ κ → Prop :=
  Relation.ReflTransGen (Move drv o)

namespace Search

def ledger (s : Search σ κ) : Ledger σ κ :=
  { machine := s.machine, stack := s.stack, visited := s.visited, nextNum := s.nextNum, events := s.events }

theorem logAll_ledger (s : Search σ κ) (es : List Event) :
    (s.logAll es).ledger = { s.ledger with events := s.events ++ es } := by
  induction es generalizing s with
  | nil => simp [logAll, ledger]
  | cons e es ih =>
    refine (ih (s.log e)).trans ?_
    simp [ledger, log]

theorem addNode_ledger (s : Search σ κ) (path : Tree.Path) (n : GraphNode) :
    (s.addNode path n).2.ledger = s.ledger := by
  unfold addNode
  cases s.graph <;> rfl

theorem push_ledger (s : Search σ κ) (f : Frame κ) :
    (s.push f).ledger = { s.ledger with stack := f :: s.ledger.stack } := rfl

theorem report_ledger (s : Search σ κ) (v : Violation) (num : Int) :
    (s.report v num).ledger =
      { s.ledger with events := s.events.push (.violated v (RecordTrace.ofTransitions s.stackTrace)) } := by
  have hlogged : ∀ {s' : Search σ κ} (e : Event), s'.ledger = s.ledger →
      { s'.log e with phase := .done }.ledger = { s.ledger with events := s.events.push e } := by
    intro s' e h
    show { s'.ledger with events := s'.ledger.events.push e } = _
    rw [h]
    rfl
  unfold report
  apply hlogged
  split
  · rfl
  · split
    · rfl
    · exact addNode_ledger _ _ _

theorem enter_ledger (o : Options) (s : Search σ κ) (top : Frame κ) (next : State) (snapshot : Option κ) :
    ∃ node, (s.enter o top next snapshot).ledger = { s.ledger with
      stack := { state := consider o next, snapshot, clock := [], node } :: s.ledger.stack } := by
  refine ⟨(s.addNode top.node (GraphNode.explored next.num top.state.transition)).1, ?_⟩
  unfold enter
  dsimp only
  rw [push_ledger, addNode_ledger]

variable [Snapshot κ] {drv : Driver σ κ} {o : Options} {s s' : Search σ κ}

theorem log_moves {l : Ledger σ κ} (hs : s.ledger = l) {e : Event} (hquiet : e.Quiet) :
    Move drv o l (s.log e).ledger := by
  subst hs
  exact .note hquiet

theorem report_moves {l : Ledger σ κ} (hs : s.ledger = l) (v : Violation) (num : Int) :
    Move drv o l (s.report v num).ledger := by
  subst hs
  rw [report_ledger]
  exact .note ⟨rfl, rfl⟩

theorem logAll_moves (s : Search σ κ) {es : List Event} (hquiet : ∀ e ∈ es, e.Quiet) :
    Moves drv o s.ledger (s.logAll es).ledger := by
  induction es generalizing s with
  | nil => exact .refl
  | cons e es ih =>
    rw [List.forall_mem_cons] at hquiet
    exact .head (log_moves rfl hquiet.1) (ih (s.log e) hquiet.2)

theorem restoreTop_moves (h : restoreTop drv s = (none, s')) : Move drv o s.ledger s'.ledger := by
  obtain ⟨top, below, above, base, k, m₁, m, hstack, hnear, hrestore, hsteps, rfl⟩ := restoreTop_eq_none h
  exact .restore hstack hnear hrestore hsteps

theorem unwind_moves {count : Nat} (h : unwind drv o count s = (none, s')) :
    Moves drv o s.ledger s'.ledger := by
  induction count generalizing s with
  | zero =>
    cases h
    exact .refl
  | succ count ih =>
    cases hstack : s.stack with
    | nil =>
      rw [unwind, hstack] at h
      cases h
      exact .refl
    | cons f below =>
      rw [Trail.unwind_succ count hstack] at h
      split at h
      · cases h
      · rename_i below' es hsettle
        dsimp only at h
        -- Race analysis runs below the frame, which is put back or dropped afterwards.
        have hsettled : Move drv o s.ledger (({ s with stack := below' }.logAll es).push f).ledger := by
          rw [push_ledger, logAll_ledger]
          exact .settle hstack hsettle
        split_ifs at h
        · split at h
          · rename_i s₂ hrestore
            cases h
            have hrestored : Move drv o _ s₂.ledger := restoreTop_moves hrestore
            exact .tail (.single hsettled) hrestored
          · cases h
        · have hdropped := (ih h).head (log_moves rfl ⟨rfl, rfl⟩)
          exact .head hsettled (.head (.drop rfl) hdropped)

theorem backtrack_moves (h : backtrack drv o s = (none, s')) : Moves drv o s.ledger s'.ledger := by
  unfold backtrack at h
  exact (unwind_moves h).head (log_moves rfl ⟨rfl, rfl⟩)

theorem skip_moves {top : Frame κ} {next : State} {old : VisitedEntry κ}
    (h : skip drv o s top next old = (none, s')) : Moves drv o s.ledger s'.ledger := by
  unfold skip at h
  dsimp only at h
  generalize hs₁ : Search.log _ _ = s₁ at h
  have hlogged : Moves drv o s.ledger s₁.ledger := by
    have hvisited : (Event.visited next.num old.num old.first).Quiet := ⟨rfl, rfl⟩
    rw [← hs₁]
    refine .head (log_moves (s := s) rfl hvisited) (.single (log_moves ?_ ⟨rfl, rfl⟩))
    rw [addNode_ledger]
    rfl
  split_ifs at h
  · exact hlogged.trans (backtrack_moves h)
  · exact hlogged.tail (restoreTop_moves h)

theorem enter_moves {top : Frame κ} {next : State} {snapshot : Option κ}
    (hsnapshot : (∃ m, (drv.snapshot m).1 = .ok snapshot) ∨
      (snapshot = none ∧ ¬ (0 < o.checkpoint ∧ next.num % o.checkpoint = 0))) :
    Move drv o s.ledger (s.enter o top next snapshot).ledger := by
  obtain ⟨node, hledger⟩ := enter_ledger o s top next snapshot
  have hnum : (consider o next).num = next.num := (Trail.consider_remarked o next).num
  rw [hledger]
  refine .enter ?_
  show _ ∨ (_ ∧ ¬ (_ ∧ (consider o next).num % _ = 0))
  rwa [hnum]

theorem arrive_moves {top : Frame κ} {next : State} (hnum : next.num = s.nextNum - 1)
    (h : arrive drv o s top next = (none, s')) : Moves drv o s.ledger s'.ledger := by
  unfold arrive at h
  split_ifs at h with hpositive hdue
  · split at h
    · cases h
    · cases h
    · rename_i k m hsnap
      have hsnapped : Move drv o s.ledger { s.ledger with machine := m } := .snapshot hsnap
      have hrecorded : Move drv o { s.ledger with machine := m }
          { s.ledger with machine := m, visited := (s.visited.add next.num k).1 } := by
        rw [hnum]
        exact .record k
      have hkept : Moves drv o s.ledger _ := .head hsnapped (.single hrecorded)
      dsimp only at h
      split at h
      · cases h
      · exact hkept.trans (skip_moves h)
      · rename_i total gone _
        generalize hs₁ : Search.logAll _ _ = s₁ at h
        have hgone : ∀ e ∈ gone.map Event.evicted, e.Quiet := by
          intro e he
          obtain ⟨num, -, rfl⟩ := List.mem_map.mp he
          exact ⟨rfl, rfl⟩
        have hlogged : Moves drv o s.ledger s₁.ledger := by
          rw [← hs₁]
          exact (hkept.tail (log_moves (by rfl) ⟨rfl, rfl⟩)).trans (logAll_moves _ hgone)
        cases h
        exact hlogged.tail (enter_moves (.inl ⟨_, congrArg Prod.fst hsnap⟩))
  · split at h
    · cases h
    · rename_i snapshot m hsnap
      cases h
      have hentered : Move drv o _ ({ s with machine := m }.enter o top next snapshot).ledger :=
        enter_moves (.inl ⟨_, congrArg Prod.fst hsnap⟩)
      exact .head (.snapshot hsnap) (.single hentered)
  · cases h
    exact .single (enter_moves (.inr ⟨rfl, hdue⟩))

theorem advance_moves {top : Frame κ} {below : List (Frame κ)} {a : ActorId} (hstack : s.stack = top :: below)
    (h : advance drv o s top below a = (none, s')) : Moves drv o s.ledger s'.ledger := by
  unfold advance at h
  split at h
  · split at h <;> cases h
  · rename_i r state m hexec
    dsimp only at h
    split at h
    · cases h
    · generalize hs₁ : Search.log _ _ = s₁ at h
      have hexecuted : Move drv o s.ledger s₁.ledger := by
        rw [← hs₁]
        exact .execute hstack hexec
      split at h
      · cases h
        exact .head hexecuted (.single (report_moves rfl _ _))
      · split_ifs at h
        · cases h
          exact .head hexecuted (.single (report_moves rfl _ _))
        · exact (arrive_moves rfl h).head hexecuted

theorem turn_moves (h : turn drv o s = (none, s')) : Moves drv o s.ledger s'.ledger := by
  unfold turn at h
  split at h
  · cases h
  · split at h
    · cases h
      exact .refl
    · rename_i top below hstack
      split_ifs at h
      · exact (backtrack_moves h).head (log_moves (e := .depthReached _ _) rfl ⟨rfl, rfl⟩)
      · exact backtrack_moves h
      · split at h
        · exact backtrack_moves h
        · exact advance_moves hstack h

theorem start_moves {m : σ} (h : start drv o (new o m) = (none, s)) :
    Moves drv o (new o m : Search σ κ).ledger s.ledger := by
  obtain ⟨actors, m₁, snapshot, m₂, visited, events, f, hinit, hsnap, hbegins, rfl, rfl⟩ := start_eq_none h
  have hsnapped : Moves drv o (new o m : Search σ κ).ledger
      { (new o m : Search σ κ).ledger with machine := m₂, nextNum := 1 } :=
    .head (.initial hinit) (.single (.snapshot hsnap))
  have hbegun : Moves drv o { (new o m : Search σ κ).ledger with machine := m₂, nextNum := 1 }
      { (new o m : Search σ κ) with machine := m₂, nextNum := 1, visited, events }.ledger := by
    cases hbegins with
    | off => exact .refl
    | @kept k _ => exact .head (.record k) (.single (.note (e := .inserted 0 0) ⟨rfl, rfl⟩))
  have hopened : Moves drv o { (new o m : Search σ κ) with machine := m₂, nextNum := 1, visited, events }.ledger
      (opened o m₂ visited events { state := consider o (State.new 0 actors), snapshot, clock := [], node := [] }).ledger :=
    .head (.enter (.inl ⟨m₁, congrArg Prod.fst hsnap⟩)) (.single (.note (e := .started _ _ _) ⟨rfl, rfl⟩))
  refine (hsnapped.trans hbegun).trans (hopened.trans ?_)
  split_ifs
  · exact .single (report_moves (by rfl) _ _)
  · exact .refl

theorem Reached.moves {m : σ} (h : Reached drv o m s) : Moves drv o (new o m : Search σ κ).ledger s.ledger := by
  induction h with
  | start h => exact start_moves h
  | turn _ _ h ih => exact ih.trans (turn_moves h)

theorem run_moves {m : σ} {fuel : Nat} (h : run drv o fuel m = some (none, s)) :
    Moves drv o (new o m : Search σ κ).ledger s.ledger := by
  obtain ⟨s₁, hreached, -, rfl⟩ := Trail.run_closes h
  exact hreached.moves.tail (log_moves (s := s₁) rfl ⟨rfl, rfl⟩)

end Search

def Ledger.Numbered (l : Ledger σ κ) : Prop := ∀ e ∈ l.visited.entries, e.num < l.nextNum

variable [Snapshot κ] {drv : Driver σ κ} {o : Options}

theorem Move.numbered {l l' : Ledger σ κ} (h : Move drv o l l') (hl : l.Numbered) : l'.Numbered := by
  cases h with
  | initial _ => exact fun e he => (hl e he).trans (lt_add_one _)
  | execute _ _ => exact fun e he => (hl e he).trans (lt_add_one _)
  | record k =>
    intro e he
    rcases VisitedSet.mem_add he with hold | ⟨hnum, -⟩
    · exact hl e hold
    · exact hnum ▸ sub_one_lt l.nextNum
  | _ => exact hl

theorem Moves.induction {P : Ledger σ κ → Prop} {l l' : Ledger σ κ} (h : Moves drv o l l') (hl : P l)
    (hmove : ∀ l l', P l → Move drv o l l' → P l') : P l' := by
  induction h with
  | refl => exact hl
  | tail _ hstep ih => exact hmove _ _ ih hstep

theorem Search.Reached.numbered {m : σ} {s : Search σ κ} (h : Reached drv o m s) : s.ledger.Numbered :=
  h.moves.induction (fun _ he => by cases he) fun _ _ hl hmove => hmove.numbered hl

end Interleave
