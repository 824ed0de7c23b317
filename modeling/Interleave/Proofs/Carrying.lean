import Interleave.Proofs.Conversation
import Interleave.Proofs.Recasting

/-! A search sees snapshots only through their counts, their sizes and their equality. Where two drivers share their
machine and answer alike up to a map of snapshots that keeps these, every search of one is the other's search with the
snapshots mapped. -/

namespace Interleave

variable {σ κ κ' α β : Type}

structure Snapshot.Keeps [Snapshot κ] [Snapshot κ'] (f : κ → κ') : Prop where
  actorCount : ∀ k, actorCount (f k) = actorCount k
  heapBytes : ∀ k, heapBytes (f k) = heapBytes k
  same : ∀ k l, same (f k) (f l) = same k l

inductive AnswersAlike (g : α → β) : Except Failure α × σ → Except Failure β × σ → Prop
  | ok (a : α) (m : σ) : AnswersAlike g (.ok a, m) (.ok (g a), m)
  | error (e e' : Failure) (m : σ) : AnswersAlike g (.error e, m) (.error e', m)

theorem AnswersAlike.exists_answer {g : α → β} {x : Except Failure α × σ} {y : Except Failure β × σ}
    (h : AnswersAlike g x y) : (∃ a m, x = (.ok a, m) ∧ y = (.ok (g a), m)) ∨
      ∃ e e' m, x = (.error e, m) ∧ y = (.error e', m) := by
  cases h with
  | ok a m => exact .inl ⟨a, m, rfl, rfl⟩
  | error e e' m => exact .inr ⟨e, e', m, rfl, rfl⟩

/-- The second driver answers as the first one does, with its snapshots mapped. -/
structure Driver.Carries (f : κ → κ') (drv : Driver σ κ) (drv' : Driver σ κ') : Prop where
  initialActors : ∀ m, AnswersAlike id (drv.initialActors m) (drv'.initialActors m)
  execute : ∀ a outcome m, AnswersAlike id (drv.execute a outcome m) (drv'.execute a outcome m)
  snapshot : ∀ m, AnswersAlike (Option.map f) (drv.snapshot m) (drv'.snapshot m)
  restore : ∀ k m, AnswersAlike id (drv.restore k m) (drv'.restore (f k) m)
  interrupted : ∀ m, drv'.interrupted m = drv.interrupted m

def VisitedEntry.carry (f : κ → κ') (e : VisitedEntry κ) : VisitedEntry κ' := { e with snapshot := f e.snapshot }

def Lookup.carry (f : κ → κ') : Lookup κ → Lookup κ'
  | repeated => repeated
  | found front old back => found (front.map (.carry f)) (old.carry f) (back.map (.carry f))
  | novel => novel

def Addition.carry (f : κ → κ') : Addition κ → Addition κ'
  | repeated => repeated
  | duplicate old => duplicate (old.carry f)
  | inserted total evicted => inserted total evicted

theorem bisect_map {γ δ : Type} (p : δ → Bool) (h : γ → δ) (l : List γ) :
    bisect p (l.map h) = ((bisect (p ∘ h) l).1.map h, (bisect (p ∘ h) l).2.map h) := by
  simp only [bisect, List.splitAt_eq, List.map_take, List.map_drop, List.length_map, List.getElem?_map, Option.all_map,
    Function.comp_def]

namespace VisitedSet

def carry (f : κ → κ') (s : VisitedSet κ) : VisitedSet κ' := { s with entries := s.entries.map (.carry f) }

variable (f : κ → κ')

theorem partitionAt_carry (e : VisitedEntry κ) (entries : List (VisitedEntry κ)) :
    partitionAt (e.carry f) (entries.map (.carry f)) =
      ((partitionAt e entries).1.map (.carry f), (partitionAt e entries).2.1.map (.carry f),
        (partitionAt e entries).2.2.map (.carry f)) := by
  simp only [partitionAt, bisect_map]
  rfl

theorem oldest_carry (entries : List (VisitedEntry κ)) : oldest (entries.map (.carry f)) = oldest entries := by
  induction entries with
  | nil => rfl
  | cons e es ih =>
    rw [List.map_cons, oldest, oldest, ih]
    rfl

theorem evict_carry (num : Int) (entries : List (VisitedEntry κ)) :
    evict num (entries.map (.carry f)) = (evict num entries).map (.carry f) := by
  rw [evict, evict, List.eraseP_map]
  rfl

theorem evictOldest_carry (count : Nat) (entries : List (VisitedEntry κ)) :
    evictOldest count (entries.map (.carry f)) =
      ((evictOldest count entries).1.map (.carry f), (evictOldest count entries).2) := by
  induction count generalizing entries with
  | zero => rfl
  | succ count ih =>
    rw [evictOldest, evictOldest, oldest_carry]
    cases oldest entries with
    | none => rfl
    | some num => simp only [evict_carry, ih]

variable {f} [Snapshot κ] [Snapshot κ'] (hf : Snapshot.Keeps f)

include hf

theorem lookup_carry (e : VisitedEntry κ) (block : List (VisitedEntry κ)) :
    lookup (e.carry f) (block.map (.carry f)) =
      ((lookup e block).1.carry f, (lookup e block).2.map (.carry f)) := by
  induction block with
  | nil => rfl
  | cons old block ih =>
    rw [List.map_cons, lookup, lookup, ih]
    simp only [VisitedEntry.carry, hf.same]
    split_ifs
    · rfl
    · rfl
    · cases (lookup e block).1 <;> rfl

theorem add_carry (s : VisitedSet κ) (num : Int) (k : κ) :
    (s.carry f).add num (f k) =
      ((s.add num k).1.carry f, (s.add num k).2.1.carry f, (s.add num k).2.2.map (.carry f)) := by
  have hentry : VisitedEntry.ofSnapshot num (f k) = (VisitedEntry.ofSnapshot num k).carry f := by
    simp only [VisitedEntry.ofSnapshot, VisitedEntry.carry, hf.actorCount, hf.heapBytes]
  unfold add
  simp only [hentry, carry, partitionAt_carry, lookup_carry hf]
  obtain ⟨result, compared⟩ := lookup (VisitedEntry.ofSnapshot num k)
    (partitionAt (VisitedEntry.ofSnapshot num k) s.entries).2.1
  cases result with
  | repeated => rfl
  | found front old back => simp [Lookup.carry, Addition.carry, VisitedEntry.carry, VisitedEntry.first]
  | novel =>
    simp only [Lookup.carry]
    rw [← List.map_cons, ← List.map_append, ← List.map_append, evictOldest_carry, List.length_map]
    simp [Addition.carry, size]

end VisitedSet

def Frame.carry (f : κ → κ') (fr : Frame κ) : Frame κ' := { fr with snapshot := fr.snapshot.map f }

theorem Frame.recasts_carry (f : κ → κ') : Recasts (Frame.carry f) := ⟨fun _ => rfl, fun _ => rfl, fun _ _ => rfl⟩

namespace Search

def carry (f : κ → κ') (s : Search σ κ) : Search σ κ' :=
  { s with
    stack := s.stack.map (Frame.carry f)
    visited := s.visited.carry f }

variable (f : κ → κ') (s : Search σ κ)

@[simp] theorem stack_carry : (s.carry f).stack = s.stack.map (Frame.carry f) := rfl

@[simp] theorem machine_carry : (s.carry f).machine = s.machine := rfl

theorem finished_carry : (s.carry f).finished = s.finished := by
  rw [finished, finished, stack_carry, List.isEmpty_map]
  rfl

theorem logAll_carry (es : List Event) : (s.logAll es).carry f = (s.carry f).logAll es := by
  induction es generalizing s with
  | nil => rfl
  | cons e es ih => exact ih (s.log e)

theorem push_carry (fr : Frame κ) : (s.push fr).carry f = (s.carry f).push (fr.carry f) := by
  simp only [carry, push, List.map_cons, List.length_map]
  rfl

theorem addNode_carry (path : Tree.Path) (n : GraphNode) :
    (s.carry f).addNode path n = ((s.addNode path n).1, (s.addNode path n).2.carry f) := by
  cases hgraph : s.graph <;> simp [addNode, carry, hgraph]

theorem stackTrace_carry : (s.carry f).stackTrace = s.stackTrace := by
  simp only [stackTrace, carry, ← List.map_reverse, List.filterMap_map]
  rfl

theorem report_carry (v : Violation) (num : Int) : (s.report v num).carry f = (s.carry f).report v num := by
  unfold report
  dsimp only
  rw [stackTrace_carry]
  cases hstack : s.stack with
  | nil => simp [carry, hstack, log]
  | cons top below =>
    cases hleft : top.state.transition with
    | none => simp [carry, Frame.carry, log, updateNode, hstack, hleft]
    | some t => cases hgraph : s.graph <;> simp [carry, Frame.carry, log, addNode, hstack, hleft, hgraph]

theorem cut_carry (top : Frame κ) : (s.cut top).carry f = (s.carry f).cut (top.carry f) := by
  unfold cut
  dsimp only
  rw [stackTrace_carry]
  simp [carry, Frame.carry, log, updateNode, depth]

theorem enter_carry (o : Options) (top : Frame κ) (next : State) (snapshot : Option κ) :
    (s.enter o top next snapshot).carry f = (s.carry f).enter o (top.carry f) next (snapshot.map f) := by
  simp only [enter, push_carry]
  rw [show (top.carry f).node = top.node from rfl, show (top.carry f).state = top.state from rfl, addNode_carry]
  rfl

theorem nearestSnapshot_carry (frames : List (Frame κ)) : nearestSnapshot (frames.map (Frame.carry f)) =
    (nearestSnapshot frames).map fun r => (r.1.map (Frame.carry f), r.2.1.carry f, f r.2.2) := by
  induction frames with
  | nil => rfl
  | cons fr below ih =>
    rw [List.map_cons, nearestSnapshot, nearestSnapshot, ih]
    cases hsnapshot : fr.snapshot with
    | none => cases hnearest : nearestSnapshot below <;> simp [Frame.carry, hsnapshot]
    | some k => simp [Frame.carry, hsnapshot]

theorem stepsToTop_carry (above : List (Frame κ)) (base : Frame κ) :
    stepsToTop (above.map (Frame.carry f)) (base.carry f) = stepsToTop above base := by
  unfold stepsToTop
  rw [show above.map (Frame.carry f) ++ [base.carry f] = (above ++ [base]).map (Frame.carry f) by simp,
    ← List.map_drop, ← List.map_reverse, List.filterMap_map]
  rfl

end Search

inductive Search.Carried (f : κ → κ') : Option Abort × Search σ κ → Option Abort × Search σ κ' → Prop
  | ongoing {s : Search σ κ} {s' : Search σ κ'} (h : s' = s.carry f) : Carried f (none, s) (none, s')
  | aborted {s : Search σ κ} {s' : Search σ κ'} (a a' : Abort) (h : s' = s.carry f)
    (hcrash : a = .crash ↔ a' = .crash := by simp) : Carried f (some a, s) (some a', s')

theorem Search.Carried.exists_search {f : κ → κ'} {x : Option Abort × Search σ κ} {y : Option Abort × Search σ κ'}
    (h : Carried f x y) : (∃ s, x = (none, s) ∧ y = (none, s.carry f)) ∨
      ∃ a a' s, x = (some a, s) ∧ y = (some a', s.carry f) ∧ (a = .crash ↔ a' = .crash) := by
  cases h with
  | ongoing h => exact .inl ⟨_, rfl, by rw [h]⟩
  | aborted a a' h hcrash => exact .inr ⟨a, a', _, rfl, by rw [h], hcrash⟩

def Ending.conclusion : Ending σ κ → Option (Bool × Option Result × Option Graph)
  | returned error result after => some (error.isSome, result, after.graph?)
  | crashed _ => none

theorem Search.close_eq {r : Option Abort × Search σ κ} (h : r.1 ≠ some .crash) :
    ∃ events, close r = (r.1, { r.2 with events, phase := .done }) := by
  obtain ⟨_ | a, s⟩ := r
  · exact ⟨_, rfl⟩
  · cases a with
    | crash => exact absurd rfl h
    | _ => exact ⟨_, rfl⟩

theorem Explorer.conclude_close (o : Options) {r : Option Abort × Search σ κ} (h : r.1 ≠ some .crash) :
    (conclude o (Search.close r)).conclusion =
      some (r.1.isSome, some { r.2 with phase := .done }.result, r.2.graph) := by
  obtain ⟨events, hr⟩ := Search.close_eq h
  have hcalm : (Search.close r).1 ≠ some .crash := by rwa [hr]
  rw [conclude_of_ne o hcalm, hr]
  simp [Ending.conclusion, graph?, Search.result, Search.outcome, Search.reportedTrace]

theorem Search.Carried.conclusion {f : κ → κ'} {x : Option Abort × Search σ κ} {y : Option Abort × Search σ κ'}
    (h : Carried f x y) (o : Options) :
    (Explorer.conclude o (close y)).conclusion = (Explorer.conclude o (close x)).conclusion := by
  cases h with
  | ongoing h =>
    rw [h]
    rfl
  | aborted a a' h hcrash =>
    by_cases ha : a = .crash
    · rw [ha, hcrash.mp ha]
      rfl
    · have ha' : a' ≠ .crash := fun ha' => ha (hcrash.mpr ha')
      rw [h, Explorer.conclude_close o (by simpa using ha'), Explorer.conclude_close o (by simpa using ha)]
      rfl

theorem State.execute_alike {drv : Driver σ κ} {drv' : Driver σ κ'} {f : κ → κ'} (hc : drv.Carries f drv') (st : State)
    (a : ActorId) (m : σ) : st.execute drv'.execute a m = st.execute drv.execute a m ∨ ∃ e e' st' m',
      st.execute drv.execute a m = (.error (.driver e), st', m') ∧
        st.execute drv'.execute a m = (.error (.driver e'), st', m') := by
  unfold State.execute
  cases st.take a with
  | error fault => exact .inl rfl
  | ok taken =>
    obtain ⟨r, m', hrun, hrun'⟩ | ⟨e, e', m', hrun, hrun'⟩ := (hc.execute a taken.1 m).exists_answer
    · left
      simp only [hrun, hrun', id]
    · right
      simp only [hrun, hrun']
      exact ⟨e, e', _, _, rfl, rfl⟩

namespace Driver.Carries

open Search

variable {f : κ → κ'} {drv : Driver σ κ} {drv' : Driver σ κ'} (hc : drv.Carries f drv')

include hc

theorem steps (index : Nat) (path : List Step) (m : σ) :
    (Replay.steps drv' index path m).1.isSome = (Replay.steps drv index path m).1.isSome ∧
      (Replay.steps drv' index path m).2 = (Replay.steps drv index path m).2 := by
  induction path generalizing index m with
  | nil => exact ⟨rfl, rfl⟩
  | cons step rest ih =>
    rw [Replay.steps, Replay.steps, Replay.executeStep, Replay.executeStep]
    obtain ⟨r, m', hrun, hrun'⟩ | ⟨e, e', m', hrun, hrun'⟩ := (hc.execute step.actor step.outcome m).exists_answer
    · rw [hrun, hrun']
      dsimp only [id]
      split_ifs
      · dsimp only
        cases r.violation with
        | none => exact ih (index + 1) m'
        | some v => exact ⟨rfl, rfl⟩
      · exact ⟨rfl, rfl⟩
    · rw [hrun, hrun']
      exact ⟨rfl, rfl⟩

theorem restoreTop (s : Search σ κ) : Carried f (Search.restoreTop drv s) (Search.restoreTop drv' (s.carry f)) := by
  unfold Search.restoreTop
  simp only [stack_carry, machine_carry, nearestSnapshot_carry]
  cases s.stack with
  | nil => exact .aborted _ _ rfl
  | cons top below =>
    cases nearestSnapshot (top :: below) with
    | none => exact .aborted _ _ rfl
    | some nearest =>
      obtain ⟨above, base, k⟩ := nearest
      obtain ⟨r, m, hrestore, hrestore'⟩ | ⟨e, e', m, hrestore, hrestore'⟩ := (hc.restore k s.machine).exists_answer
      · simp only [List.map_cons, Option.map_some, hrestore, hrestore', id, stepsToTop_carry]
        obtain ⟨hsome, hmachine⟩ := hc.steps 0 (stepsToTop above base) m
        revert hsome hmachine
        generalize Replay.steps drv 0 (stepsToTop above base) m = x
        generalize Replay.steps drv' 0 (stepsToTop above base) m = y
        intro hsome hmachine
        obtain ⟨_ | e, m₁⟩ := x <;> obtain ⟨_ | e', m₂⟩ := y <;> cases hmachine
        · exact .ongoing rfl
        · cases hsome
        · cases hsome
        · exact .aborted _ _ rfl
      · simp only [List.map_cons, Option.map_some, hrestore, hrestore']
        exact .aborted _ _ rfl

theorem unwind (o : Options) (count : Nat) (s : Search σ κ) :
    Carried f (Search.unwind drv o count s) (Search.unwind drv' o count (s.carry f)) := by
  induction count generalizing s with
  | zero => exact .ongoing rfl
  | succ count ih =>
    cases hstack : s.stack with
    | nil =>
      rw [Search.unwind, Search.unwind, stack_carry, hstack]
      exact .ongoing rfl
    | cons fr below =>
      have hstack' : (s.carry f).stack = fr.carry f :: below.map (Frame.carry f) := by
        rw [stack_carry, hstack, List.map_cons]
      rw [Trail.unwind_succ count hstack, Trail.unwind_succ count hstack', (Frame.recasts_carry f).settle]
      cases settle o fr below with
      | error fault => exact .aborted _ _ rfl
      | ok settled =>
        obtain ⟨below', events⟩ := settled
        have hcleared : { s.carry f with stack := below'.map (Frame.carry f) }.logAll events =
            ({ s with stack := below' }.logAll events).carry f := 
              (logAll_carry f { s with stack := below' } events).symm
        simp only [Except.map, List.length_map, hcleared, show (fr.carry f).state = fr.state from rfl]
        split_ifs
        · rw [← push_carry]
          obtain ⟨t, hx, hy⟩ | ⟨a, a', t, hx, hy, hcrash⟩ :=
            (hc.restoreTop (({ s with stack := below' }.logAll events).push fr)).exists_search
          · rw [hx, hy]
            exact .ongoing rfl
          · rw [hx, hy]
            exact .aborted a a' rfl hcrash
        · exact ih _

theorem backtrack (o : Options) (s : Search σ κ) :
    Carried f (Search.backtrack drv o s) (Search.backtrack drv' o (s.carry f)) := by
  unfold Search.backtrack
  dsimp only
  rw [stack_carry, List.length_map]
  exact hc.unwind o s.stack.length _

theorem skip (o : Options) (s : Search σ κ) (top : Frame κ) (next : State) (old : VisitedEntry κ) :
    Carried f (Search.skip drv o s top next old) (Search.skip drv' o (s.carry f) (top.carry f) next (old.carry f)) := by
  unfold Search.skip
  dsimp only
  have hpruned := addNode_carry f
    { s.log (.visited next.num old.num old.first) with stats := { s.stats with duplicates := s.stats.duplicates + 1 } }
    top.node { GraphNode.explored next.num top.state.transition with equalTo := old.first }
  generalize hleft : (Search.log (Prod.snd (addNode _ top.node _)) _ : Search σ κ) = left
  generalize hleft' : (Search.log (Prod.snd (addNode _ (top.carry f).node _)) _ : Search σ κ') = left'
  have hcarried : left' = left.carry f := by
    rw [← hleft, ← hleft']
    exact congrArg (fun r : Tree.Path × Search σ κ' => r.2.log (.pruned next.num old.num)) hpruned
  rw [hcarried, show (top.carry f).state = top.state from rfl]
  split_ifs
  · exact hc.backtrack o left
  · exact hc.restoreTop left

variable [Snapshot κ] [Snapshot κ'] (hf : Snapshot.Keeps f)

include hf

theorem arrive (o : Options) (s : Search σ κ) (top : Frame κ) (next : State) :
    Carried f (Search.arrive drv o s top next) (Search.arrive drv' o (s.carry f) (top.carry f) next) := by
  unfold Search.arrive
  rw [machine_carry]
  split_ifs
  · obtain ⟨_ | k, m, hsnapshot, hsnapshot'⟩ | ⟨e, e', m, hsnapshot, hsnapshot'⟩ :=
      (hc.snapshot s.machine).exists_answer
    · rw [hsnapshot, hsnapshot']
      exact .aborted _ _ rfl
    · rw [hsnapshot, hsnapshot']
      dsimp only [Option.map_some]
      rw [show (s.carry f).visited = s.visited.carry f from rfl, VisitedSet.add_carry hf]
      obtain ⟨visited, addition, compared⟩ := s.visited.add next.num k
      cases addition with
      | repeated => exact .aborted _ _ rfl
      | duplicate old => exact hc.skip o { s with machine := m, visited } top next old
      | inserted total gone =>
        refine .ongoing ?_
        rw [enter_carry, logAll_carry]
        rfl
    · rw [hsnapshot, hsnapshot']
      exact .aborted _ _ rfl
  · obtain ⟨snapshot, m, hsnapshot, hsnapshot'⟩ | ⟨e, e', m, hsnapshot, hsnapshot'⟩ :=
      (hc.snapshot s.machine).exists_answer
    · rw [hsnapshot, hsnapshot']
      exact .ongoing (enter_carry f { s with machine := m } o top next snapshot).symm
    · rw [hsnapshot, hsnapshot']
      exact .aborted _ _ rfl
  · exact .ongoing (enter_carry f s o top next none).symm

theorem advance (o : Options) (s : Search σ κ) (top : Frame κ) (below : List (Frame κ)) (a : ActorId) :
    Carried f (Search.advance drv o s top below a)
      (Search.advance drv' o (s.carry f) (top.carry f) (below.map (Frame.carry f)) a) := by
  unfold Search.advance
  rw [machine_carry, show (top.carry f).state = top.state from rfl]
  obtain hsame | ⟨e, e', state, m, hexecute, hexecute'⟩ := top.state.execute_alike hc a s.machine
  · rw [hsame]
    obtain ⟨answer, state, m⟩ := top.state.execute drv.execute a s.machine
    cases answer with
    | error e => cases e <;> exact .aborted _ _ rfl
    | ok r =>
      dsimp only
      rw [(Frame.recasts_carry f).clockOf, List.length_map]
      split
      · exact .aborted _ _ rfl
      · rename_i clock _
        generalize hmoved : (Search.log _ _ : Search σ κ) = moved
        generalize hmoved' : (Search.log _ _ : Search σ κ') = moved'
        have hcarried : moved' = moved.carry f := by
          rw [← hmoved, ← hmoved']
          rfl
        rw [hcarried, show (moved.carry f).nextNum = moved.nextNum from rfl]
        split
        · exact .ongoing (report_carry f moved _ _).symm
        · split_ifs
          · exact .ongoing (report_carry f moved _ _).symm
          · exact hc.arrive hf o moved { top with state, clock } _
  · rw [hexecute, hexecute']
    exact .aborted _ _ rfl

theorem turn (o : Options) (s : Search σ κ) : Carried f (Search.turn drv o s) (Search.turn drv' o (s.carry f)) := by
  unfold Search.turn
  rw [machine_carry, hc.interrupted, stack_carry]
  cases drv.interrupted s.machine with
  | some cause => exact .aborted _ _ rfl
  | none =>
    cases s.stack with
    | nil => exact .ongoing rfl
    | cons top below =>
      simp only [List.map_cons, List.length_map]
      rw [show (top.carry f).state = top.state from rfl]
      split_ifs
      · rw [← cut_carry]
        exact hc.backtrack o _
      · exact hc.backtrack o s
      · cases top.state.next? with
        | none => exact hc.backtrack o s
        | some a => exact hc.advance hf o s top below a

theorem start (o : Options) (s : Search σ κ) : Carried f (Search.start drv o s) (Search.start drv' o (s.carry f)) := by
  unfold Search.start
  rw [machine_carry]
  obtain ⟨actors, m, hactors, hactors'⟩ | ⟨e, e', m, hactors, hactors'⟩ := (hc.initialActors s.machine).exists_answer
  · rw [hactors, hactors']
    dsimp only [id]
    obtain ⟨snapshot, m', hsnapshot, hsnapshot'⟩ | ⟨e, e', m', hsnapshot, hsnapshot'⟩ := (hc.snapshot m).exists_answer
    · rw [hsnapshot, hsnapshot']
      dsimp only
      generalize hentered : (ite (0 < o.maxVisited) _ _ : Option (Search σ κ)) = entered
      generalize hentered' : (ite (0 < o.maxVisited) _ _ : Option (Search σ κ')) = entered'
      have hcarried : entered' = entered.map (carry f) := by
        rw [← hentered, ← hentered']
        split_ifs
        · cases snapshot with
          | none => rfl
          | some k =>
            simp only [Option.map_some, show (s.carry f).visited = s.visited.carry f from rfl, VisitedSet.add_carry hf]
            rfl
        · rfl
      rw [hcarried]
      cases entered with
      | none => exact .aborted _ _ rfl
      | some entered =>
        refine .ongoing ?_
        dsimp only [Option.map]
        generalize hpushed : (Search.push _ _ : Search σ κ) = pushed
        generalize hpushed' : (Search.push _ _ : Search σ κ') = pushed'
        have hcarried : pushed' = pushed.carry f := by
          rw [← hpushed, ← hpushed', push_carry]
          rfl
        rw [hcarried, apply_ite (carry f), report_carry]
        rfl
    · rw [hsnapshot, hsnapshot']
      exact .aborted _ _ rfl
  · rw [hactors, hactors']
    exact .aborted _ _ rfl

theorem loop (o : Options) (fuel : Nat) (s : Search σ κ) :
    Option.Rel (Carried f) (Search.loop drv o fuel s) (Search.loop drv' o fuel (s.carry f)) := by
  induction fuel generalizing s with
  | zero =>
    rw [Search.loop, Search.loop, finished_carry]
    split_ifs
    · exact .some (.ongoing rfl)
    · exact .none
  | succ fuel ih =>
    rw [Search.loop, Search.loop, finished_carry]
    split_ifs
    · exact .some (.ongoing rfl)
    · obtain ⟨t, hx, hy⟩ | ⟨a, a', t, hx, hy, hcrash⟩ := (hc.turn hf o s).exists_search
      · rw [hx, hy]
        exact ih t
      · rw [hx, hy]
        exact .some (.aborted a a' rfl hcrash)

theorem explore (o : Options) (fuel : Nat) (m : σ) :
    (Explorer.run drv' fuel (.ofPlan ⟨.depthFirst, o⟩ m)).map Ending.conclusion =
      (Explorer.run drv fuel (.ofPlan ⟨.depthFirst, o⟩ m)).map Ending.conclusion := by
  rw [Explorer.run_ofPlan, Explorer.run_ofPlan, Option.map_map, Option.map_map]
  unfold Search.run
  obtain ⟨s, hx, hy⟩ | ⟨a, a', s, hx, hy, hcrash⟩ := (hc.start hf o (.new o m)).exists_search
  · rw [hx, show Search.new o m = (Search.new o m).carry f from rfl, hy]
    dsimp only
    have hloop := hc.loop hf o fuel s
    revert hloop
    generalize Search.loop drv o fuel s = ended
    generalize Search.loop drv' o fuel (s.carry f) = ended'
    intro hloop
    cases hloop with
    | none => rfl
    | some h => exact congrArg some (h.conclusion o)
  · rw [hx, show Search.new o m = (Search.new o m).carry f from rfl, hy]
    exact congrArg some ((Carried.aborted a a' rfl hcrash).conclusion o)

end Driver.Carries

end Interleave
