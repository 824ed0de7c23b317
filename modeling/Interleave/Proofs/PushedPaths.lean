import Interleave.Proofs.Checkpoints
import Interleave.Proofs.FullSearch
import Interleave.Proofs.RecordedGraph
import Mathlib.Data.List.Perm.Subperm
import Mathlib.Data.Nat.Cast.Order.Ring

/-! The states that a search pushes, named by the steps that lead to them from the initial state. No search pushes two
states of the same path, and a search without reduction and visited set pushes a state for every execution within its
depth bound. So whatever a reduction does, it only drops paths. -/

namespace Interleave

variable {σ κ π : Type}

namespace Search

/-- The path of the state that a turn from `s` to `s'` pushes. A frame that is put back while backtracking leaves the
stack no longer than it was. -/
def pushedBy (s s' : Search σ κ) : List (List Step) :=
  if s.stack.length < s'.stack.length then [s'.stackTrace.map Transition.step] else []

variable [Snapshot κ]

def pushedFrom (drv : Driver σ κ) (o : Options) : Nat → Search σ κ → List (List Step)
  | 0, _ => []
  | fuel + 1, s =>
    if s.finished || (turn drv o s).1.isSome then []
    else s.pushedBy (turn drv o s).2 ++ pushedFrom drv o fuel (turn drv o s).2

/-- The paths of the states that a run pushes, in order. -/
def pushedPaths (drv : Driver σ κ) (o : Options) (fuel : Nat) (m : σ) : List (List Step) :=
  if (start drv o (new o m)).1.isSome then []
  else [] :: pushedFrom drv o fuel (start drv o (new o m)).2

def deepest (paths : List (List Step)) : Nat := (paths.map List.length).foldr max 0

inductive Pushes (drv : Driver σ κ) (o : Options) (m : σ) : List (List Step) → Search σ κ → Prop
  | start {s : Search σ κ} (h : start drv o (new o m) = (none, s)) : Pushes drv o m [[]] s
  | turn {paths : List (List Step)} {s s' : Search σ κ} (hs : Pushes drv o m paths s) (hopen : s.finished = false)
      (h : turn drv o s = (none, s')) : Pushes drv o m (paths ++ s.pushedBy s') s'

structure Idle (s : Search σ κ) (r : Option Abort × Search σ κ) : Prop where
  expanded : r.2.stats.expanded = s.stats.expanded
  stack : r.2.stack.length ≤ s.stack.length
  phase : r.1 = none → r.2.stack ≠ [] → r.2.phase ≠ .backtracking
  violation : r.1.isSome = true → r.2.violation = s.violation
  depth : (s.stack.length : Int) ≤ s.stats.maxDepth + 1 → r.2.stats.maxDepth = s.stats.maxDepth

section Counting

variable {drv : Driver σ κ} {o : Options} {s s' : Search σ κ}

omit [Snapshot κ] in
theorem Idle.of_eq {r : Option Abort × Search σ κ} (h : Idle s' r) (hexpanded : s'.stats.expanded = s.stats.expanded)
    (hstack : s'.stack.length ≤ s.stack.length) (hviolation : s'.violation = s.violation)
    (hdepth : s'.stats.maxDepth = s.stats.maxDepth) : Idle s r where
  expanded := h.expanded.trans hexpanded
  stack := h.stack.trans hstack
  phase := h.phase
  violation := fun habort => (h.violation habort).trans hviolation
  depth := by
    intro hdeep
    have hdeep' : (s'.stack.length : Int) ≤ s'.stats.maxDepth + 1 := by omega
    exact (h.depth hdeep').trans hdepth

omit [Snapshot κ] in
theorem restoreTop_keeps (drv : Driver σ κ) (s : Search σ κ) :
    ∃ m events, (restoreTop drv s).2 = { s with machine := m, events } := by
  unfold restoreTop
  split
  · split
    · exact ⟨_, _, rfl⟩
    · dsimp only
      split <;> exact ⟨_, _, rfl⟩
  · exact ⟨_, _, rfl⟩

omit [Snapshot κ] in
theorem restoreTop_idle (hphase : s.phase ≠ .backtracking) : Idle s (restoreTop drv s) := by
  obtain ⟨m, events, hkeeps⟩ := restoreTop_keeps drv s
  exact ⟨by rw [hkeeps], by rw [hkeeps], fun _ _ => by rwa [hkeeps], fun _ => by rw [hkeeps], fun _ => by rw [hkeeps]⟩

omit [Snapshot κ] in
theorem addNode_keeps (s : Search σ κ) (path : Tree.Path) (n : GraphNode) :
    ∃ graph, (s.addNode path n).2 = { s with graph } := by
  unfold addNode
  split <;> exact ⟨_, rfl⟩

omit [Snapshot κ] in
theorem report_keeps (s : Search σ κ) (v : Violation) (num : Int) :
    (s.report v num).stats = s.stats ∧ (s.report v num).stack = s.stack ∧ (s.report v num).phase = .done := by
  refine ⟨?_, report_stack s v num, rfl⟩
  have hresult := congrArg Result.stats (report_result s v num)
  exact hresult

omit [Snapshot κ] in
theorem unwind_idle {count : Nat} (hphase : s.phase = .backtracking) (hcount : s.stack.length ≤ count) :
    Idle s (unwind drv o count s) := by
  have hempty : ∀ {s : Search σ κ}, s.stack = [] → Idle s (none, s) := fun hnil =>
    ⟨rfl, le_rfl, fun _ hne => absurd hnil hne, by rintro ⟨⟩, fun _ => rfl⟩
  induction count generalizing s with
  | zero => exact hempty (List.length_eq_zero_iff.mp (Nat.le_zero.mp hcount))
  | succ count ih =>
    cases hstack : s.stack with
    | nil =>
      rw [unwind, hstack]
      exact hempty hstack
    | cons f below =>
      rw [hstack, List.length_cons] at hcount
      rw [Trail.unwind_succ count hstack]
      split
      · exact ⟨rfl, by simp [hstack], by rintro ⟨⟩, fun _ => rfl, fun _ => rfl⟩
      · rename_i below' es hsettle
        have hlength := settle_length hsettle
        obtain ⟨events, hlogged⟩ := logAll_eq { s with stack := below' } es
        rw [hlogged]
        dsimp only
        split_ifs
        · -- The frame that is put back is not counted again.
          obtain ⟨m, events', hkeeps⟩ := restoreTop_keeps drv ({ s with stack := below', events }.push f)
          have hexpanded : ({ s with stack := below', events }.push f).stats.expanded = s.stats.expanded := by
            simp [push, hphase]
          have hdepth : (s.stack.length : Int) ≤ s.stats.maxDepth + 1 →
              ({ s with stack := below', events }.push f).stats.maxDepth = s.stats.maxDepth := by
            intro hdeep
            rw [hstack, List.length_cons, ← hlength] at hdeep
            exact max_eq_left (by push_cast at hdeep; exact Int.le_of_add_le_add_right hdeep)
          split
          · rename_i s₂ hrestore
            rw [hrestore] at hkeeps
            obtain rfl := hkeeps
            exact ⟨hexpanded, by simp [push, hstack, hlength], by rintro - - ⟨⟩, by rintro ⟨⟩, hdepth⟩
          · rename_i a s₂ hrestore
            rw [hrestore] at hkeeps
            obtain rfl := hkeeps
            exact ⟨hexpanded, by simp [push, hstack, hlength], by rintro ⟨⟩, fun _ => rfl, hdepth⟩
        · refine Idle.of_eq (ih ?_ ?_) rfl ?_ rfl rfl
          · exact hphase
          · show below'.length ≤ count
            omega
          · show below'.length ≤ s.stack.length
            simp [hstack, hlength]

omit [Snapshot κ] in
theorem backtrack_idle (s : Search σ κ) : Idle s (backtrack drv o s) := by
  unfold backtrack
  exact (unwind_idle (by rfl) (by rfl)).of_eq rfl le_rfl rfl rfl

omit [Snapshot κ] in
theorem skip_idle (hphase : s.phase ≠ .backtracking) (top : Frame κ) (next : State) (old : VisitedEntry κ) :
    Idle s (skip drv o s top next old) := by
  unfold skip
  dsimp only
  generalize hs₁ : Search.log _ (.pruned _ _) = s₁
  have hkeeps : ∃ duplicates graph events,
      s₁ = { s with stats := { s.stats with duplicates }, graph, events } := by
    obtain ⟨graph, hnode⟩ := addNode_keeps
      { s.log (.visited next.num old.num old.first) with
        stats := { s.stats with duplicates := s.stats.duplicates + 1 } } top.node
      { GraphNode.explored next.num top.state.transition with equalTo := old.first }
    rw [← hs₁]
    exact ⟨_, _, _, congrArg (·.log (.pruned next.num old.num)) hnode⟩
  obtain ⟨duplicates, graph, events, rfl⟩ := hkeeps
  split_ifs
  · exact (backtrack_idle _).of_eq rfl le_rfl rfl rfl
  · exact Idle.of_eq (restoreTop_idle (by exact hphase)) rfl le_rfl rfl rfl

omit [Snapshot κ] in
theorem enter_counts (hphase : s.phase ≠ .backtracking) (top : Frame κ) (next : State) (snapshot : Option κ) :
    (s.enter o top next snapshot).stats.expanded = s.stats.expanded + 1 ∧
      (s.enter o top next snapshot).stats.maxDepth = max s.stats.maxDepth s.stack.length ∧
      (s.enter o top next snapshot).stack.length = s.stack.length + 1 ∧
      (∀ f ∈ (s.enter o top next snapshot).stack.head?, f.state.transition = next.transition) ∧
      (s.enter o top next snapshot).phase ≠ .backtracking := by
  unfold enter
  obtain ⟨graph, hkeeps⟩ := addNode_keeps s top.node (GraphNode.explored next.num top.state.transition)
  dsimp only
  rw [hkeeps]
  refine ⟨by simp [push, hphase], rfl, rfl, ?_, hphase⟩
  rintro _ ⟨⟩
  exact (Trail.consider_remarked o next).transition

inductive Counts (s : Search σ κ) (r : Option Abort × Search σ κ) : Prop
  | idle (h : Idle s r)
  | pushed (hok : r.1 = none) (hexpanded : r.2.stats.expanded = s.stats.expanded + 1)
      (hstack : r.2.stack.length = s.stack.length + 1) (hphase : r.2.phase ≠ .backtracking)
      (hdepth : r.2.stats.maxDepth = max s.stats.maxDepth s.stack.length)
      (hnew : ∀ f ∈ r.2.stack.head?, f.state.transition = none)

omit [Snapshot κ] in
theorem Counts.of_eq {r : Option Abort × Search σ κ} (h : Counts s' r) (hstats : s'.stats = s.stats)
    (hstack : s'.stack.length = s.stack.length) (hviolation : s'.violation = s.violation) : Counts s r := by
  cases h with
  | idle hidle => exact .idle (hidle.of_eq (by rw [hstats]) hstack.le hviolation (by rw [hstats]))
  | pushed hok hexpanded hlonger hphase hdepth hnew =>
    exact .pushed hok (hstats ▸ hexpanded) (hstack ▸ hlonger) hphase (hstats ▸ hstack ▸ hdepth) hnew

theorem arrive_counts (hphase : s.phase ≠ .backtracking) (top : Frame κ) {next : State}
    (hnext : next.transition = none) : Counts s (arrive drv o s top next) := by
  have hentered : ∀ {s₁ : Search σ κ} (snapshot : Option κ), s₁.phase = s.phase → s₁.stats = s.stats →
      s₁.stack = s.stack → Counts s (none, s₁.enter o top next snapshot) := by
    intro s₁ snapshot hphase₁ hstats hstack
    obtain ⟨hexpanded, hdepth, hlength, hnew, hrunning⟩ := enter_counts (o := o) (hphase₁ ▸ hphase) top next snapshot
    exact .pushed rfl (hstats ▸ hexpanded) (hstack ▸ hlength) hrunning (hstats ▸ hstack ▸ hdepth)
      fun f hf => (hnew f hf).trans hnext
  have hfailed : ∀ (a : Abort) (m : σ) (visited : VisitedSet κ),
      Counts s (some a, { s with machine := m, visited }) := fun a m visited =>
    .idle ⟨rfl, le_rfl, by rintro ⟨⟩, fun _ => rfl, fun _ => rfl⟩
  unfold arrive
  split_ifs
  · split
    · exact hfailed _ _ _
    · exact hfailed _ _ _
    · rename_i k m _
      dsimp only
      split
      · exact hfailed _ _ _
      · exact .idle ((skip_idle (by exact hphase) _ _ _).of_eq rfl le_rfl rfl rfl)
      · rename_i total gone _
        obtain ⟨events, hlogged⟩ := logAll_eq (Search.log
          { s with machine := m, visited := (s.visited.add next.num k).1 } (.inserted next.num total))
          (gone.map .evicted)
        rw [hlogged]
        exact hentered _ rfl rfl rfl
  · split
    · exact hfailed _ _ _
    · exact hentered _ rfl rfl rfl
  · exact hentered _ rfl rfl rfl

theorem advance_counts (hphase : s.phase ≠ .backtracking) {top : Frame κ} {below : List (Frame κ)}
    (hstack : s.stack = top :: below) (a : ActorId) : Counts s (advance drv o s top below a) := by
  have hlength : s.stack.length = below.length + 1 := by rw [hstack]; rfl
  have hfailed : ∀ (e : Abort) (m : σ) (f : Frame κ),
      Counts s (some e, { s with machine := m, stack := f :: below }) := fun e m f =>
    .idle ⟨rfl, hlength.ge, by rintro ⟨⟩, fun _ => rfl, fun _ => rfl⟩
  have hreported : ∀ {s₁ : Search σ κ} (v : Violation) (num : Int), s₁.stats = s.stats →
      s₁.stack.length = s.stack.length → Counts s (none, s₁.report v num) := by
    intro s₁ v num hstats hsame
    obtain ⟨hstats₁, hstack₁, hdone⟩ := report_keeps s₁ v num
    refine .idle ⟨?_, ?_, fun _ _ => ?_, by rintro ⟨⟩, fun _ => by rw [hstats₁, hstats]⟩
    · rw [hstats₁, hstats]
    · rw [hstack₁, hsame]
    · rw [hdone]
      rintro ⟨⟩
  unfold advance
  split
  · split <;> exact hfailed _ _ _
  · rename_i r state m _
    dsimp only
    split
    · exact hfailed _ _ _
    · rename_i clock _
      split
      · exact hreported _ _ rfl hlength.symm
      · split_ifs
        · exact hreported _ _ rfl hlength.symm
        · generalize hs₁ : Search.log _ _ = s₁
          have hstats : s₁.stats = s.stats := by rw [← hs₁]; rfl
          have hsame : s₁.stack.length = s.stack.length := by rw [← hs₁]; exact hlength.symm
          have hviolation : s₁.violation = s.violation := by rw [← hs₁]; rfl
          have hphase₁ : s₁.phase ≠ .backtracking := by rw [← hs₁]; exact hphase
          exact (arrive_counts hphase₁ _ (by rfl)).of_eq hstats hsame hviolation

theorem turn_counts (hphase : s.stack ≠ [] → s.phase ≠ .backtracking) : Counts s (turn drv o s) := by
  unfold turn
  split
  · exact .idle ⟨rfl, le_rfl, by rintro ⟨⟩, fun _ => rfl, fun _ => rfl⟩
  · split
    · rename_i hnil
      exact .idle ⟨rfl, le_rfl, fun _ hne => absurd hnil hne, by rintro ⟨⟩, fun _ => rfl⟩
    · rename_i top below hstack
      have hrunning := hphase (hstack ▸ List.cons_ne_nil top below)
      split_ifs
      · exact .idle ((backtrack_idle (s.cut top)).of_eq rfl le_rfl rfl rfl)
      · exact .idle (backtrack_idle s)
      · split
        · exact .idle (backtrack_idle s)
        · exact advance_counts hrunning hstack _

theorem start_counts {m : σ} (h : start drv o (new o m) = (none, s)) :
    s.stats.expanded = 1 ∧ s.stats.maxDepth = 0 ∧ s.stack.length = 1 ∧ s.phase ≠ .backtracking := by
  obtain ⟨actors, m₁, snapshot, m₂, visited, events, f, -, -, -, -, rfl⟩ := start_eq_none h
  split_ifs
  · obtain ⟨hstats, hstack, hdone⟩ := report_keeps (opened o m₂ visited events f) (deadlock f.state) f.state.num
    rw [hstats, hstack, hdone]
    exact ⟨rfl, rfl, rfl, by rintro ⟨⟩⟩
  · exact ⟨rfl, rfl, rfl, by rintro ⟨⟩⟩

theorem start_failed {m : σ} {a : Abort} (h : start drv o (new o m) = (some a, s)) :
    s.stats = .zero ∧ s.violation = none := by
  unfold start at h
  split at h
  · cases h
    exact ⟨rfl, rfl⟩
  · dsimp only at h
    split at h
    · cases h
      exact ⟨rfl, rfl⟩
    · split at h <;> cases h
      exact ⟨rfl, rfl⟩

theorem Pushes.counts {m : σ} {paths : List (List Step)} (h : Pushes drv o m paths s) :
    s.stats.expanded = paths.length ∧ (s.stack ≠ [] → s.phase ≠ .backtracking) := by
  induction h with
  | start h => exact ⟨(start_counts h).1, fun _ => (start_counts h).2.2.2⟩
  | @turn paths s s' _ _ h ih =>
    have hturn : Counts s (Search.turn drv o s) := turn_counts ih.2
    rw [h] at hturn
    cases hturn with
    | idle hidle =>
      have hnone : s.pushedBy s' = [] := if_neg (Nat.not_lt.mpr hidle.stack)
      rw [hnone, List.append_nil]
      exact ⟨hidle.expanded.trans ih.1, hidle.phase rfl⟩
    | pushed _ hexpanded hstack hphase _ _ =>
      have hlonger : s.stack.length < s'.stack.length := by
        rw [show s'.stack.length = s.stack.length + 1 from hstack]
        exact Nat.lt_succ_self _
      rw [pushedBy, if_pos hlonger, List.length_append]
      refine ⟨?_, fun _ => hphase⟩
      rw [show s'.stats.expanded = s.stats.expanded + 1 from hexpanded, ih.1]
      rfl

theorem Pushes.reached {m : σ} {paths : List (List Step)} (h : Pushes drv o m paths s) : Reached drv o m s := by
  induction h with
  | start h => exact .start h
  | turn _ hopen h ih => exact .turn ih hopen h

theorem deepest_append (paths : List (List Step)) (path : List Step) :
    deepest (paths ++ [path]) = max (deepest paths) path.length := by
  induction paths with
  | nil => simp [deepest]
  | cons p paths ih =>
    show max p.length (deepest (paths ++ [path])) = max (max p.length (deepest paths)) path.length
    rw [ih, max_assoc]

theorem Pushes.depth {m : σ} {paths : List (List Step)} (h : Pushes drv o m paths s) :
    s.stats.maxDepth = deepest paths ∧ (s.stack.length : Int) ≤ s.stats.maxDepth + 1 := by
  induction h with
  | start h =>
    obtain ⟨-, hdepth, hlength, -⟩ := start_counts h
    exact ⟨hdepth, by omega⟩
  | @turn paths s s' hs hopen h ih =>
    have hturn : Counts s (Search.turn drv o s) := turn_counts hs.counts.2
    have hreached : Reached drv o m s' := .turn hs.reached hopen h
    rw [h] at hturn
    cases hturn with
    | idle hidle =>
      have hnone : s.pushedBy s' = [] := if_neg (Nat.not_lt.mpr hidle.stack)
      have hdepth := hidle.depth ih.2
      have hstack := hidle.stack
      dsimp only at hdepth hstack
      rw [hnone, List.append_nil]
      exact ⟨hdepth.trans ih.1, by omega⟩
    | pushed _ _ hstack _ hdepth hnew =>
      dsimp only at hstack hdepth hnew
      have hlonger : s.stack.length < s'.stack.length := by omega
      obtain ⟨f, below, hpushed⟩ := List.exists_cons_of_length_pos (Nat.zero_lt_of_lt hlonger)
      have hlength : s'.stackTrace.length = s.stack.length := by
        have hleft : ∀ g ∈ below, g.state.transition.isSome = true := (hpushed ▸ hreached.orderly).left
        have hall : (below.reverse.filterMap (·.state.transition)).length = below.length := by
          rw [List.filterMap_length_eq_length.mpr, List.length_reverse]
          exact fun g hg => hleft g (List.mem_reverse.mp hg)
        rw [Mapped.stackTrace_eq hpushed, hnew f (by rw [hpushed]; rfl), Option.toList_none, List.append_nil, hall]
        rw [hpushed, List.length_cons] at hstack
        omega
      rw [pushedBy, if_pos hlonger, deepest_append, List.length_map, hlength, hdepth, ih.1]
      refine ⟨(Nat.cast_max _ _).symm, ?_⟩
      rw [hstack]
      push_cast
      omega

theorem loop_pushes {m : σ} {paths : List (List Step)} (fuel : Nat) (hs : Pushes drv o m paths s) :
    ∃ s₁, Pushes drv o m (paths ++ pushedFrom drv o fuel s) s₁ ∧
      ∀ abort s', loop drv o fuel s = some (abort, s') → s'.violation = s₁.violation ∧
        s'.stats.expanded = s₁.stats.expanded ∧ s'.stats.maxDepth = s₁.stats.maxDepth ∧
        (abort = none → s₁.finished = true) := by
  induction fuel generalizing s paths with
  | zero =>
    rw [pushedFrom, List.append_nil]
    refine ⟨s, hs, fun abort s' hloop => ?_⟩
    simp only [loop] at hloop
    split_ifs at hloop with hfin
    cases hloop
    exact ⟨rfl, rfl, rfl, fun _ => hfin⟩
  | succ fuel ih =>
    rw [pushedFrom]
    simp only [loop]
    by_cases hfin : s.finished = true
    · rw [if_pos (by simp [hfin]), List.append_nil]
      refine ⟨s, hs, fun abort s' hloop => ?_⟩
      rw [if_pos hfin] at hloop
      cases hloop
      exact ⟨rfl, rfl, rfl, fun _ => hfin⟩
    · rw [if_neg hfin]
      have hcounts : Counts s (turn drv o s) := turn_counts hs.counts.2
      obtain ⟨⟨abort₁, s₂⟩, hturn⟩ : ∃ r, turn drv o s = r := ⟨_, rfl⟩
      rw [hturn] at hcounts ⊢
      cases abort₁ with
      | some a =>
        -- A turn that fails has pushed nothing.
        rw [if_pos (by simp), List.append_nil]
        refine ⟨s, hs, ?_⟩
        rintro _ _ ⟨⟩
        cases hcounts with
        | idle hidle => exact ⟨hidle.violation rfl, hidle.expanded, hidle.depth hs.depth.2, by rintro ⟨⟩⟩
        | pushed hok => cases hok
      | none =>
        rw [if_neg (by simp [hfin]), ← List.append_assoc]
        exact ih (.turn hs (by simpa using hfin) hturn)

omit [Snapshot κ] in
theorem close_keeps (ended : Option Abort × Search σ κ) : (close ended).1 = ended.1 ∧
    (close ended).2.violation = ended.2.violation ∧ (close ended).2.stats = ended.2.stats := by
  obtain ⟨_ | a, s⟩ := ended
  · exact ⟨rfl, rfl, rfl⟩
  · cases a <;> exact ⟨rfl, rfl, rfl⟩

theorem run_depth {fuel : Nat} {m : σ} {ended : Option Abort × Search σ κ} (h : run drv o fuel m = some ended) :
    ended.2.stats.maxDepth = deepest (pushedPaths drv o fuel m) := by
  unfold run at h
  unfold pushedPaths
  obtain ⟨⟨abort₀, s₀⟩, hstart⟩ : ∃ r, start drv o (new o m) = r := ⟨_, rfl⟩
  rw [hstart] at h ⊢
  cases abort₀ with
  | some a =>
    cases h
    rw [(close_keeps _).2.2]
    exact congrArg Stats.maxDepth (start_failed hstart).1
  | none =>
    obtain ⟨s₁, hs₁, hloop⟩ := loop_pushes fuel (.start hstart)
    obtain ⟨⟨abort₁, s₂⟩, hended, rfl⟩ := Option.map_eq_some_iff.mp h
    obtain ⟨-, -, hdepth, -⟩ := hloop abort₁ s₂ hended
    rw [(close_keeps _).2.2]
    exact hdepth.trans hs₁.depth.1

theorem run_pushes (drv : Driver σ κ) (o : Options) (fuel : Nat) (m : σ) :
    (pushedPaths drv o fuel m = [] ∧ ∀ abort s', run drv o fuel m = some (abort, s') →
        abort.isSome = true ∧ s'.violation = none ∧ s'.stats.expanded = 0) ∨
      ∃ s₁, Pushes drv o m (pushedPaths drv o fuel m) s₁ ∧
        ∀ abort s', run drv o fuel m = some (abort, s') → s'.violation = s₁.violation ∧
          s'.stats.expanded = s₁.stats.expanded ∧ (abort = none → s₁.finished = true) := by
  unfold run pushedPaths
  obtain ⟨⟨abort₀, s₀⟩, hstart⟩ : ∃ r, start drv o (new o m) = r := ⟨_, rfl⟩
  rw [hstart]
  cases abort₀ with
  | some a =>
    obtain ⟨hzero, hclean⟩ := start_failed hstart
    refine .inl ⟨rfl, fun abort s' hrun => ?_⟩
    obtain ⟨habort, hviolation, hstats⟩ := close_keeps (some a, s₀)
    rw [Option.some.inj hrun] at habort hviolation hstats
    exact ⟨congrArg Option.isSome habort, hviolation.trans hclean, congrArg Stats.expanded (hstats.trans hzero)⟩
  | none =>
    obtain ⟨s₁, hs₁, hloop⟩ := loop_pushes fuel (.start hstart)
    refine .inr ⟨s₁, hs₁, fun abort s' hrun => ?_⟩
    obtain ⟨⟨abort₁, s₂⟩, hended, hclose⟩ := Option.map_eq_some_iff.mp hrun
    obtain ⟨habort, hviolation, hstats⟩ := close_keeps (abort₁, s₂)
    rw [hclose] at habort hviolation hstats
    obtain ⟨hviolation₂, hexpanded₂, -, hfinished⟩ := hloop abort₁ s₂ hended
    exact ⟨hviolation.trans hviolation₂, (congrArg Stats.expanded hstats).trans hexpanded₂,
      fun hnone => hfinished (habort.symm.trans hnone)⟩

theorem run_expanded {fuel : Nat} {m : σ} {ended : Option Abort × Search σ κ} (h : run drv o fuel m = some ended) :
    ended.2.stats.expanded = (pushedPaths drv o fuel m).length := by
  rcases run_pushes drv o fuel m with ⟨hnil, hfailed⟩ | ⟨s₁, hpushes, hended⟩
  · rw [hnil, (hfailed _ _ h).2.2]
    rfl
  · exact (hended _ _ h).2.1.trans hpushes.counts.1

end Counting

end Search

namespace Trail

variable {drv : Driver σ κ} {view : σ → π} {o : Options} {root : Node σ} {paths : List (List Step)}
  {p p' q : Spot σ κ} {below spots spots' : List (Spot σ κ)} {x : Step} {t : Transition} {n : Node σ}

theorem path_remarked (h : List.Forall₂ Spot.Remarked spots spots') : path spots' = path spots := by
  induction h with
  | nil => rfl
  | cons hp _ ih => rw [path, path, hp.outgoing, ih]

theorem steps_eq_path (spots : List (Spot σ κ)) :
    ((spots.map Spot.frame).reverse.filterMap (·.state.transition)).map Transition.step = path spots := by
  induction spots with
  | nil => rfl
  | cons p below ih =>
    rw [List.map_cons, List.reverse_cons, List.filterMap_append, List.map_append, ih, path, Spot.outgoing]
    cases htransition : p.frame.state.transition <;> simp [htransition]

theorem Follows.steps {s : Search σ κ} {T : Trail σ κ} (h : Follows drv view o root s.core T) :
    s.stackTrace.map Transition.step = path T.spots := by
  have hstack : s.stack = T.spots.map Spot.frame := h.stack
  rw [Search.stackTrace, hstack]
  exact steps_eq_path T.spots

theorem Takes.path_eq (h : Takes drv o p below x t n p') : path (p' :: below) = path below ++ [x] := by
  rw [path, h.outgoing]
  rfl

def Accounts (paths : List (List Step)) : List (Spot σ κ) → Prop
  | [] => True
  | p :: below => path below ∈ paths ∧ (∀ x rest, path below ++ x :: rest ∈ paths → p.state.Tried x) ∧
      Accounts paths below

theorem Accounts.remarked (h : Accounts paths spots) (hr : List.Forall₂ Spot.Remarked spots spots') :
    Accounts paths spots' := by
  induction hr with
  | nil => trivial
  | cons hp hrest ih =>
    obtain ⟨hway, htried, hbelow⟩ := h
    have hpath := path_remarked hrest
    exact ⟨hpath ▸ hway, fun x rest hmem => (hp.state.tried_iff x).mpr (htried x rest (hpath ▸ hmem)), ih hbelow⟩

theorem Takes.accounts (h : Takes drv o p below x t n p') (hw : p.state.WellFormed)
    (hp : Accounts paths (p :: below)) : Accounts paths (p' :: below) := by
  obtain ⟨hway, htried, hbelow⟩ := hp
  exact ⟨hway, fun y rest hmem => (h.tried_iff hw y).mpr (.inl (htried y rest hmem)), hbelow⟩

theorem Accounts.extend (hs : Sound drv view o root (p :: below)) (hway : path below ∈ paths)
    (h : Accounts paths below) (rest : List Step) : Accounts (paths ++ [path below ++ rest]) below := by
  induction below generalizing p rest with
  | nil => trivial
  | cons r below ih =>
    obtain ⟨hway', htried, hbelow⟩ := h
    cases hs with
    | @link _ _ _ t hsound _ hout _ _ _ =>
      have hpath : path (r :: below) = path below ++ [t.step] := by
        rw [path, Spot.outgoing, hout]
        rfl
      have hnew : path (r :: below) ++ rest = path below ++ t.step :: rest := by rw [hpath]; simp
      rw [hpath] at hway
      rw [hnew]
      refine ⟨List.mem_append_left _ hway', fun y rest' hmem => ?_, ih hsound hway' hbelow _⟩
      rcases List.mem_append.mp hmem with hold | hmem
      · exact htried y rest' hold
      · have heq := List.append_cancel_left (List.mem_singleton.mp hmem)
        obtain ⟨rfl, -⟩ := List.cons.inj heq
        exact htried _ [] hway

theorem Takes.new (h : Takes drv o p below x t n p') (hp : Accounts paths (p :: below)) :
    path below ++ [x] ∉ paths := by
  -- An outcome is handed out once, so the path that it leads to is new.
  intro hmem
  obtain ⟨taken, htake, -⟩ := h.take
  exact State.not_tried_take htake (hp.2.1 x [] hmem)

theorem Takes.accounts_entered (h : Takes drv o p below x t n p') (hs : Sound drv view o root (p :: below))
    (hp : Accounts paths (p :: below)) (q : Spot σ κ) :
    Accounts (paths ++ [path below ++ [x]]) (q :: p' :: below) := by
  have hp' := h.accounts hs.fits.wellFormed hp
  obtain ⟨hway, htried, hbelow⟩ := hp'
  refine ⟨?_, ?_, List.mem_append_left _ hway, ?_, hbelow.extend hs hway [x]⟩
  · rw [h.path_eq]
    simp
  · -- A path beyond the new state would go on by the step that has just been tried for the first time.
    intro y rest hmem
    rw [h.path_eq] at hmem
    rcases List.mem_append.mp hmem with hold | hnew
    · rw [List.append_assoc] at hold
      obtain ⟨taken, htake, -⟩ := h.take
      exact absurd (hp.2.1 x _ hold) (State.not_tried_take htake)
    · have hlength := congrArg List.length (List.mem_singleton.mp hnew)
      simp at hlength
  · intro y rest hmem
    rcases List.mem_append.mp hmem with hold | hnew
    · exact htried y rest hold
    · have heq := List.append_cancel_left (List.mem_singleton.mp hnew)
      obtain ⟨rfl, -⟩ := List.cons.inj heq
      exact (h.tried_iff hs.fits.wellFormed y).mpr (.inr rfl)

theorem Unwinds.accounts {T T' : Trail σ κ} (h : Unwinds o T T') (hs : Sound drv view o root T.spots)
    (hT : Accounts paths T.spots) : Accounts paths T'.spots := by
  induction h with
  | emptied => exact hT
  | resumed _ _ hsettle _ _ => exact hT.remarked (.cons ⟨.refl _, rfl⟩ (hsettle.remarked hs.tail))
  | dropped hsettle _ _ ih => exact ih (hsettle.sound hs).tail (hT.2.2.remarked (hsettle.remarked hs.tail))

def ways : List (Spot σ κ) → List (List Step)
  | [] => []
  | _ :: below => path below :: ways below

def Pursued (paths : List (List Step)) : List (Spot σ κ) → Prop
  | [] => True
  | p :: below => p.state.AllMarked ∧ (∀ x, p.state.Tried x → path below ++ [x] ∈ paths) ∧ Pursued paths below

def ClosedAt (drv : Driver σ κ) (o : Options) (root : Node σ) (paths : List (List Step)) (way : List Step) : Prop :=
  ∀ x n, drv.walk? root (way ++ [x]) = some n → o.Admits (way.length + 1) → way ++ [x] ∈ paths

/-- What a full search keeps from turn to turn: only the paths on the stack may still go on. -/
structure Thorough (drv : Driver σ κ) (o : Options) (root : Node σ) (paths : List (List Step))
    (spots : List (Spot σ κ)) : Prop where
  pursued : Pursued paths spots
  closed : ∀ way ∈ paths, way ∈ ways spots ∨ ClosedAt drv o root paths way

theorem Pursued.mono {paths' : List (List Step)} (h : Pursued paths spots) (hsub : paths ⊆ paths') :
    Pursued paths' spots := by
  induction spots with
  | nil => trivial
  | cons p below ih => exact ⟨h.1, fun x hx => hsub (h.2.1 x hx), ih h.2.2⟩

theorem ClosedAt.mono {paths' : List (List Step)} {way : List Step} (h : ClosedAt drv o root paths way)
    (hsub : paths ⊆ paths') : ClosedAt drv o root paths' way :=
  fun x n hwalk hadmits => hsub (h x n hwalk hadmits)

theorem Thorough.tail (h : Thorough drv o root paths (p :: below)) (hs : Sound drv view o root (p :: below))
    (hover : p.state.todoCount = 0 ∨ o.withinDepth below.length = false) : Thorough drv o root paths below := by
  refine ⟨h.pursued.2.2, fun way hway => ?_⟩
  rcases h.closed way hway with hopen | hclosed
  · rcases List.mem_cons.mp hopen with rfl | hbelow
    · refine .inr fun x n hwalk hadmits => ?_
      rw [hs.length_path] at hadmits
      have hwithin := Options.admits_succ_iff.mp hadmits
      have htodo : p.state.todoCount = 0 := hover.resolve_right (by simp [hwithin])
      rw [Driver.walk?_snoc, hs.walk_path, Option.bind_some] at hwalk
      have hoff : p.state.offers x = true := by
        rw [State.offers_congr hs.fits.profile]
        exact (Driver.advance?_eq_some hwalk).1
      have hmarked := h.pursued.1 _ (State.isEnabled_of_offers hoff)
      exact h.pursued.2.1 x (State.tried_of_exhausted hs.fits.wellFormed htodo hmarked hoff)
    · exact .inl hbelow
  · exact .inr hclosed

theorem Unwinds.thorough {T T' : Trail σ κ} (h : Unwinds o T T') (ho : o.reduction = .none)
    (hs : Sound drv view o root T.spots) (hT : Thorough drv o root paths T.spots) :
    Thorough drv o root paths T'.spots := by
  induction h with
  | emptied => exact hT
  | resumed _ _ hsettle _ _ =>
    cases hsettle.eq_of_none ho
    exact hT
  | dropped hsettle hover _ ih =>
    cases hsettle.eq_of_none ho
    exact ih hs.tail (hT.tail hs (hover.imp_right And.left))

theorem Takes.thorough (h : Takes drv o p below x t n p') (hs : Sound drv view o root (p :: below))
    (hp : Thorough drv o root paths (p :: below)) (hmarked : q.state.AllMarked) (hfresh : ∀ y, ¬ q.state.Tried y) :
    Thorough drv o root (paths ++ [path below ++ [x]]) (q :: p' :: below) := by
  have hw := hs.fits.wellFormed
  have hsub : paths ⊆ paths ++ [path below ++ [x]] := List.subset_append_left _ _
  refine ⟨⟨hmarked, fun y hy => absurd hy (hfresh y), h.allMarked hw hp.pursued.1, fun y hy => ?_,
    hp.pursued.2.2.mono hsub⟩, fun way hway => ?_⟩
  · rcases (h.tried_iff hw y).mp hy with hold | rfl
    · exact hsub (hp.pursued.2.1 y hold)
    · simp
  · rcases List.mem_append.mp hway with hold | hnew
    · rcases hp.closed way hold with hopen | hclosed
      · exact .inl (List.mem_cons_of_mem _ hopen)
      · exact .inr (hclosed.mono hsub)
    · obtain rfl := List.mem_singleton.mp hnew
      exact .inl (List.mem_cons.mpr (.inl h.path_eq.symm))

theorem Thorough.complete (h : Thorough drv o root paths ([] : List (Spot σ κ))) (hroot : [] ∈ paths)
    {way : List Step} (hwalk : drv.walk? root way = some n) (hadmits : o.Admits way.length) : way ∈ paths := by
  induction way using List.reverseRecOn generalizing n with
  | nil => exact hroot
  | append_singleton way x ih =>
    have hwalk' := hwalk
    rw [Driver.walk?_snoc] at hwalk'
    obtain ⟨n', hbefore, -⟩ := Option.bind_eq_some_iff.mp hwalk'
    rw [List.length_append, List.length_singleton] at hadmits
    have hway := ih hbefore (hadmits.mono (Nat.le_succ _))
    exact ((h.closed way hway).resolve_left (by rintro ⟨⟩)) x n hwalk hadmits

structure Lists (drv : Driver σ κ) (o : Options) (root : Node σ) (paths : List (List Step)) (T : Trail σ κ) :
    Prop where
  nodup : paths.Nodup
  initial : [] ∈ paths
  accounts : Accounts paths T.spots
  executions : ∀ way ∈ paths, o.Admits way.length ∧ ∃ n, drv.walk? root way = some n ∧ ¬ n.Failing
  thorough : o.reduction = .none → o.maxVisited = 0 → Thorough drv o root paths T.spots

variable [Snapshot κ] {T T' : Trail σ κ}

theorem Starts.lists (h : Starts drv view o root T) (hfresh : root.state.Fresh) (hroot : ¬ root.Failing) :
    Lists drv o root [[]] T := by
  obtain ⟨p, hspots, -, hstate, -⟩ := h.spots
  have hmarks : root.state.Remarked p.state := hstate ▸ consider_remarked o _
  have huntried : ∀ x, ¬ p.state.Tried x := fun x hx => hfresh.not_tried x ((hmarks.tried_iff x).mp hx)
  have hsound := hspots ▸ h.sound hfresh hroot
  refine ⟨List.nodup_singleton _, List.mem_singleton_self _, ?_, ?_, fun ho _ => ?_⟩
  · rw [hspots]
    exact ⟨List.mem_singleton_self _, by simp, trivial⟩
  · intro way hway
    obtain rfl := List.mem_singleton.mp hway
    exact ⟨hsound.admits, root, rfl, hroot⟩
  · rw [hspots]
    refine ⟨⟨?_, fun x hx => absurd hx (huntried x), trivial⟩, fun way hway => .inl ?_⟩
    · rw [hstate]
      exact consider_allMarked ho _
    · exact hway

theorem Shift.lists (h : Shift drv view o T T') (hdeeper : T'.spots.length = T.spots.length + 1)
    (hs : Sound drv view o root T.spots) (hT : Lists drv o root paths T) :
    Lists drv o root (paths ++ [path T'.spots]) T' := by
  have hs' := h.sound hs
  cases h with
  | @entered p p' q below _ _ x t n num _ htakes hn hnode hstate _ _ _ =>
    have hfresh := (Driver.advance?_fresh hs.fits.fresh htakes.advance).renumbered num
    have hmarks : State.Remarked { n.state with num := num } q.state := hstate ▸ consider_remarked o _
    have hpath : path (q :: p' :: below) = path below ++ [x] := by
      rw [path, htakes.path_eq, Spot.outgoing, hmarks.transition, hfresh.transition]
      simp
    show Lists drv o root (paths ++ [path (q :: p' :: below)]) _
    rw [hpath]
    refine ⟨?_, List.mem_append_left _ hT.initial, htakes.accounts_entered hs hT.accounts q, ?_, ?_⟩
    · exact List.nodup_append.mpr ⟨hT.nodup, List.nodup_singleton _, fun way hway _ hnew =>
        fun heq => htakes.new hT.accounts ((List.mem_singleton.mp hnew) ▸ heq ▸ hway)⟩
    · intro way hway
      rcases List.mem_append.mp hway with hold | hnew
      · exact hT.executions way hold
      · obtain rfl := List.mem_singleton.mp hnew
        refine ⟨?_, n, ?_, hn⟩
        · rw [← htakes.path_eq, hs'.length_path]
          exact hs'.admits
        · rw [Driver.walk?_snoc, hs.walk_path]
          exact htakes.advance
    · intro ho hnone
      refine htakes.thorough hs (hT.thorough ho hnone) ?_ fun y hy => ?_
      · rw [hstate]
        exact consider_allMarked ho _
      · exact hfresh.not_tried y ((hmarks.tried_iff y).mp hy)
  | skipped => simp at hdeeper
  | cut => simp at hdeeper
  | unwound _ hunwinds =>
    have hlength := hunwinds.length_le
    omega

theorem Retreat.lists (h : Retreat drv view o T T') (hs : Sound drv view o root T.spots)
    (hT : Lists drv o root paths T) : Lists drv o root paths T' := by
  obtain ⟨hshift, hlength⟩ := h
  cases hshift with
  | entered => simp at hlength
  | skipped _ htakes _ hpositive _ =>
    exact { hT with
      accounts := htakes.accounts hs.fits.wellFormed hT.accounts
      thorough := fun _ hnone => absurd hpositive (by simp [hnone]) }
  | cut => exact { hT with }
  | unwound _ hunwinds =>
    exact { hT with
      accounts := hunwinds.accounts hs hT.accounts
      thorough := fun ho hnone => hunwinds.thorough ho hs (hT.thorough ho hnone) }

theorem retreats_lists (h : Relation.TransGen (Retreat drv view o) T T') (hs : Sound drv view o root T.spots)
    (hT : Lists drv o root paths T) : Lists drv o root paths T' ∧ T'.spots.length ≤ T.spots.length := by
  have hall : Sound drv view o root T'.spots ∧ Lists drv o root paths T' ∧ T'.spots.length ≤ T.spots.length := by
    induction h with
    | single h => exact ⟨h.1.sound hs, h.lists hs hT, h.2⟩
    | tail _ h ih => exact ⟨h.1.sound ih.1, h.lists ih.1 ih.2.1, h.2.trans ih.2.2⟩
  exact hall.2

theorem lists_of_pushes (hdet : drv.Deterministic view) {m : σ} {s : Search σ κ} (h : Search.Pushes drv o m paths s) :
    ∃ root, drv.root? m = some root ∧
      ((∃ T, Tracks drv view o root s.core T ∧ Lists drv o root paths T) ∨
        (s.phase = .done ∧ s.violation.isSome = true ∧ ∃ way, FailsAt drv o root way)) := by
  induction h with
  | start h =>
    obtain ⟨root, hroot, ⟨hok, T, hstarts, htracks⟩ | ⟨hfail, hphase, hviolation, -⟩⟩ := start_simulates hdet h
    · exact ⟨root, hroot, .inl ⟨T, htracks, hstarts.lists (Driver.root?_fresh hroot) hok⟩⟩
    · have hadmits : o.Admits 0 := by
        simp only [Options.Admits]
        omega
      exact ⟨root, hroot, .inr ⟨hphase, Option.isSome_iff_exists.mpr ⟨_, hviolation⟩, [], hadmits, root, rfl, hfail⟩⟩
  | @turn paths s s' _ hopen h ih =>
    obtain ⟨root, hroot, ⟨T, htracks, hlists⟩ | ⟨hdone, -⟩⟩ := ih
    · obtain ⟨-, -, -, htrace, -⟩ := Driver.root?_eq_some hroot
      have hlength : s.stack.length = T.spots.length := by
        rw [show s.stack = T.spots.map Spot.frame from htracks.stack, List.length_map]
      have hspots : T.spots ≠ [] := by
        intro hnil
        rw [hnil] at hlength
        exact absurd (finished_iff.mpr (.inl (List.length_eq_zero_iff.mp hlength))) (by simp [hopen])
      refine ⟨root, hroot, ?_⟩
      rcases htracks.turn hdet htrace hspots h with ⟨T', hturned, htracks'⟩ | hreports
      · have hlength' : s'.stack.length = T'.spots.length := by
          rw [show s'.stack = T'.spots.map Spot.frame from htracks'.stack, List.length_map]
        refine .inl ⟨T', htracks', ?_⟩
        rw [Search.pushedBy, hlength, hlength']
        -- The stack has grown by the state that was pushed, or nothing was pushed.
        cases hturned with
        | entered hshift hdeeper =>
          rw [if_pos (by omega), htracks'.steps]
          exact hshift.lists hdeeper htracks.sound hlists
        | retreated hshifts =>
          obtain ⟨hlists', hshorter⟩ := retreats_lists hshifts htracks.sound hlists
          rw [if_neg (by omega), List.append_nil]
          exact hlists'
      · obtain ⟨p, below, x, t, n, p', hp, htakes, hfail, hphase, hviolation, -⟩ := hreports
        have hs := hp ▸ htracks.sound
        refine .inr ⟨hphase, Option.isSome_iff_exists.mpr ⟨_, hviolation⟩, path below ++ [x], ?_, n, ?_, hfail⟩
        · rw [List.length_append, hs.length_path]
          exact Options.admits_succ_iff.mpr htakes.within
        · rw [Driver.walk?_snoc, hs.walk_path]
          exact htakes.advance
    · exact absurd (finished_iff.mpr (.inr hdone)) (by simp [hopen])

theorem full_pushes (hdet : drv.Deterministic view) (ho : o.reduction = .none) (hnone : o.maxVisited = 0)
    {m : σ} {fuel : Nat} {s : Search σ κ} (hrun : Search.run drv o fuel m = some (none, s))
    (hclean : s.violation = none) :
    ∃ root, drv.root? m = some root ∧ ∀ way n, drv.walk? root way = some n → o.Admits way.length →
      way ∈ Search.pushedPaths drv o fuel m ∧ ¬ n.Failing := by
  rcases Search.run_pushes drv o fuel m with ⟨-, hfailed⟩ | ⟨s₁, hpushes, hended⟩
  · cases (hfailed _ _ hrun).1
  · obtain ⟨hviolation, -, hfinished⟩ := hended _ _ hrun
    obtain ⟨root, hroot, ⟨T, htracks, hlists⟩ | ⟨-, hsome, -⟩⟩ := lists_of_pushes hdet hpushes
    · have hspots : T.spots = [] := by
        have hstack : s₁.core.stack = [] := (finished_iff.mp (hfinished rfl)).resolve_right htracks.phase
        rwa [htracks.stack, List.map_eq_nil_iff] at hstack
      refine ⟨root, hroot, fun way n hwalk hadmits => ?_⟩
      have hthorough := hlists.thorough ho hnone
      rw [hspots] at hthorough
      have hway := hthorough.complete hlists.initial hwalk hadmits
      obtain ⟨-, n', hwalk', hok⟩ := hlists.executions way hway
      obtain rfl := Option.some.inj (hwalk'.symm.trans hwalk)
      exact ⟨hway, hok⟩
    · rw [← hviolation, hclean] at hsome
      cases hsome

end Trail

/-- Reductions only drop paths. If a search without reduction and visited set finds no violation, then any search of the
same driver to the same depth, whatever it reduces, visits or checkpoints, pushes states of pairwise distinct paths,
each of which the full search has pushed, at every moment of its run. So it reports no violation and expands no more
states, whether or not an error ends it. -/
theorem reductions_only_drop_paths [Snapshot κ] {drv : Driver σ κ} {view : σ → π} (hdet : drv.Deterministic view)
    {full : Options} (hreduction : full.reduction = .none) (hvisited : full.maxVisited = 0) {m : σ} {fuel : Nat}
    {s : Search σ κ} (hrun : Search.run drv full fuel m = some (none, s)) (hclean : s.result.violation = none)
    (reduced : Options) (hdepth : reduced.maxDepth = full.maxDepth) (fuel' : Nat) :
    (Search.pushedPaths drv reduced fuel' m).Nodup ∧
      (∀ path ∈ Search.pushedPaths drv reduced fuel' m, path ∈ Search.pushedPaths drv full fuel m) ∧
      ∀ abort s', Search.run drv reduced fuel' m = some (abort, s') →
        s'.result.violation = none ∧
          s'.result.stats.expanded = (Search.pushedPaths drv reduced fuel' m).length ∧
          s'.result.stats.expanded ≤ s.result.stats.expanded := by
  obtain ⟨root, hroot, hall⟩ := Trail.full_pushes hdet hreduction hvisited hrun hclean
  have hadmits : ∀ length, reduced.Admits length → full.Admits length := by
    simp only [Options.Admits, hdepth]
    exact fun _ h => h
  have hcount : s.stats.expanded = (Search.pushedPaths drv full fuel m).length := by
    rcases Search.run_pushes drv full fuel m with ⟨-, hfailed⟩ | ⟨s₁, hpushes, hended⟩
    · cases (hfailed _ _ hrun).1
    · exact (hended _ _ hrun).2.1.trans hpushes.counts.1
  rcases Search.run_pushes drv reduced fuel' m with ⟨hnil, hfailed⟩ | ⟨s₁, hpushes, hended⟩
  · rw [hnil]
    refine ⟨List.nodup_nil, by rintro _ ⟨⟩, fun abort s' hrun' => ?_⟩
    obtain ⟨-, hviolation, hzero⟩ := hfailed abort s' hrun'
    refine ⟨hviolation, hzero, ?_⟩
    show s'.stats.expanded ≤ s.stats.expanded
    rw [hzero, hcount]
    exact Int.natCast_nonneg _
  · obtain ⟨root', hroot', hcases⟩ := Trail.lists_of_pushes hdet hpushes
    obtain rfl := Option.some.inj (hroot.symm.trans hroot')
    rcases hcases with ⟨T, htracks, hlists⟩ | ⟨-, -, way, hbound, n, hwalk, hfail⟩
    · have hsubset : Search.pushedPaths drv reduced fuel' m ⊆ Search.pushedPaths drv full fuel m := by
        intro way hway
        obtain ⟨hbound, n, hwalk, -⟩ := hlists.executions way hway
        exact (hall way n hwalk (hadmits _ hbound)).1
      refine ⟨hlists.nodup, hsubset, fun abort s' hrun' => ?_⟩
      obtain ⟨hviolation, hexpanded, -⟩ := hended abort s' hrun'
      have hlength : s'.stats.expanded = (Search.pushedPaths drv reduced fuel' m).length :=
        hexpanded.trans hpushes.counts.1
      refine ⟨hviolation.trans htracks.violation, hlength, ?_⟩
      show s'.stats.expanded ≤ s.stats.expanded
      rw [hlength, hcount]
      exact Int.ofNat_le.mpr (hlists.nodup.subperm hsubset).length_le
    · exact absurd hfail (hall way n hwalk (hadmits _ hbound)).2

theorem reductions_only_drop_paths_unevenCounters : ∃ s s₁ s₂,
    Search.run Program.unevenCounters.driver ⟨0, .none, 0, 0, false⟩ 40 Program.unevenCounters.initial =
        some (none, s) ∧ s.result.violation = none ∧ s.result.stats.expanded = 9 ∧
      Search.run Program.unevenCounters.driver ⟨0, .dpor, 0, 0, false⟩ 40 Program.unevenCounters.initial =
        some (none, s₁) ∧ s₁.result.violation = none ∧
      (Search.pushedPaths Program.unevenCounters.driver ⟨0, .dpor, 0, 0, false⟩ 40
        Program.unevenCounters.initial).length = 4 ∧
      Search.run Program.unevenCounters.driver ⟨0, .none, 10, 0, false⟩ 40 Program.unevenCounters.initial =
        some (none, s₂) ∧ s₂.result.violation = none ∧
      (Search.pushedPaths Program.unevenCounters.driver ⟨0, .none, 10, 0, false⟩ 40
        Program.unevenCounters.initial).length = 6 := by
  obtain ⟨s, hrun, hclean, hnine⟩ : ∃ s,
      Search.run Program.unevenCounters.driver ⟨0, .none, 0, 0, false⟩ 40 Program.unevenCounters.initial =
        some (none, s) ∧ s.result.violation = none ∧ s.result.stats.expanded = 9 := ⟨_, rfl, rfl, rfl⟩
  obtain ⟨s₁, hrun₁, hfour⟩ : ∃ s₁,
      Search.run Program.unevenCounters.driver ⟨0, .dpor, 0, 0, false⟩ 40 Program.unevenCounters.initial =
        some (none, s₁) ∧ s₁.result.stats.expanded = 4 := ⟨_, rfl, rfl⟩
  obtain ⟨s₂, hrun₂, hsix⟩ : ∃ s₂,
      Search.run Program.unevenCounters.driver ⟨0, .none, 10, 0, false⟩ 40 Program.unevenCounters.initial =
        some (none, s₂) ∧ s₂.result.stats.expanded = 6 := ⟨_, rfl, rfl⟩
  have hdet := Program.unevenCounters.driver_deterministic
  obtain ⟨-, -, hreduced⟩ := reductions_only_drop_paths hdet rfl rfl hrun hclean
    ⟨0, .dpor, 0, 0, false⟩ rfl 40
  obtain ⟨-, -, hpruned⟩ := reductions_only_drop_paths hdet rfl rfl hrun hclean
    ⟨0, .none, 10, 0, false⟩ rfl 40
  obtain ⟨hclean₁, hlength₁, -⟩ := hreduced none s₁ hrun₁
  obtain ⟨hclean₂, hlength₂, -⟩ := hpruned none s₂ hrun₂
  exact ⟨s, s₁, s₂, hrun, hclean, hnine, hrun₁, hclean₁, Int.ofNat.inj (hlength₁.symm.trans hfour),
    hrun₂, hclean₂, Int.ofNat.inj (hlength₂.symm.trans hsix)⟩

end Interleave
