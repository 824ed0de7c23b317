import Interleave.Proofs.PushedPaths
import Interleave.Proofs.Recency

/-! The states that a search leaves because it has visited an equal one. The recorded graph shows such a duplicate with
the number of the first state it was found equal to. An entry of the visited set may be replaced by a copy, by a copy
of the copy, or be evicted and made anew; the number it passes on is always that of a state that was explored. -/

namespace Interleave

variable {σ κ π : Type}

def Driver.SnapshotAfter (drv : Driver σ κ) (m : σ) (xs : List Step) (k : κ) : Prop :=
  ∃ n, drv.execution? m xs = some n ∧ (drv.snapshot n.machine).1 = .ok (some k)

namespace Graph

def steps (g : Graph) (path : Tree.Path) : List Step := ((g.way path).filterMap id).map Transition.step

abbrev Retains (g g' : Graph) : Prop := Tree.Grows (fun n : GraphNode => (n.num, n.via, n.equalTo)) g g'

variable {g g' sub : Graph} {path : Tree.Path}

theorem Retains.steps_eq (h : g.Retains g') (hget : g.get? path = some sub) : g'.steps path = g.steps path := by
  have hwiden : g.Widens g' := by
    intro path sub hget
    obtain ⟨sub', hget', hkey⟩ := h path sub hget
    exact ⟨sub', hget', (Prod.mk.inj hkey).2⟩
  rw [steps, steps, hwiden.way hget]

theorem Retains.payload_eq {sub' : Graph} (h : g.Retains g') (hget : g.get? path = some sub)
    (hget' : g'.get? path = some sub') :
    sub'.payload.num = sub.payload.num ∧ sub'.payload.equalTo = sub.payload.equalTo := by
  obtain ⟨found, hfound, hkey⟩ := h path sub hget
  obtain rfl := Option.some.inj (hfound.symm.trans hget')
  simp only [Prod.mk.injEq] at hkey
  exact ⟨hkey.1, hkey.2.2⟩

theorem steps_nextChild (hget : g.get? path = some sub) {n : GraphNode} {t : Transition} (hvia : n.via = some t) :
    steps (g.addChild path n) (g.nextChild path) = g.steps path ++ [t.step] := by
  rw [steps, steps, way_nextChild hget, hvia, List.filterMap_append, List.map_append]
  rfl

variable [Snapshot κ] {drv : Driver σ κ} {m : σ} {paths paths' : List (List Step)} {visited : VisitedSet κ}
  {num : Int} {k k' : κ}

/-- The graph has a node with this number that is no duplicate; it was pushed, and its snapshot equals `k`. -/
def Original (drv : Driver σ κ) (m : σ) (paths : List (List Step)) (g : Graph) (num : Int) (k : κ) : Prop :=
  ∃ path sub k', g.get? path = some sub ∧ sub.payload.num = num ∧ sub.payload.equalTo = -1 ∧
    g.steps path ∈ paths ∧ drv.SnapshotAfter m (g.steps path) k' ∧ Snapshot.same k' k = true

/-- The first states of the entries of a visited set, and those that the duplicates of a graph are equal to, are
originals. -/
structure Grounded (drv : Driver σ κ) (m : σ) (paths : List (List Step)) (visited : VisitedSet κ) (g : Graph) :
    Prop where
  entries : ∀ e ∈ visited.entries, e.first ≤ e.num ∧ g.Original drv m paths e.first e.snapshot
  duplicates : ∀ path sub, g.get? path = some sub → 0 ≤ sub.payload.equalTo →
    sub.payload.equalTo < sub.payload.num ∧
      ∃ k, drv.SnapshotAfter m (g.steps path) k ∧ g.Original drv m paths sub.payload.equalTo k

theorem Original.retain (h : g.Original drv m paths num k) (hkeeps : g.Retains g') (hpaths : paths ⊆ paths') :
    g'.Original drv m paths' num k := by
  obtain ⟨path, sub, k', hget, hnum, hexplored, hpushed, hsnapshot, hsame⟩ := h
  obtain ⟨sub', hget', -⟩ := hkeeps path sub hget
  obtain ⟨hnum', hexplored'⟩ := hkeeps.payload_eq hget hget'
  refine ⟨path, sub', k', hget', hnum'.trans hnum, hexplored'.trans hexplored, ?_, ?_, hsame⟩
  · rw [hkeeps.steps_eq hget]
    exact hpaths hpushed
  · rw [hkeeps.steps_eq hget]
    exact hsnapshot

theorem Original.same (h : g.Original drv m paths num k) (hlaw : Snapshot.Lawful κ)
    (hsame : Snapshot.same k k' = true) : g.Original drv m paths num k' := by
  obtain ⟨path, sub, k₀, hget, hnum, hexplored, hpushed, hsnapshot, hsame₀⟩ := h
  exact ⟨path, sub, k₀, hget, hnum, hexplored, hpushed, hsnapshot, hlaw.trans hsame₀ hsame⟩

namespace Grounded

theorem leaf (hlaw : Snapshot.Lawful κ) {n : GraphNode} (hnum : n.num = 0) (hvia : n.via = none)
    (hexplored : n.equalTo = -1) (hsnapshot : drv.SnapshotAfter m [] k) (hpushed : [] ∈ paths) (size : Nat) :
    Grounded drv m paths ((VisitedSet.empty size).add 0 k).1 (.leaf n) := by
  have hsteps : steps (.leaf n) [] = [] := by
    show ([n.via].filterMap id).map Transition.step = []
    rw [hvia]
    rfl
  have horiginal : Original drv m paths (.leaf n) 0 k :=
    ⟨[], .leaf n, k, rfl, hnum, hexplored, hsteps.symm ▸ hpushed, hsteps.symm ▸ hsnapshot, hlaw.refl k⟩
  have hempty : VisitedSet.Sorted (VisitedSet.empty size : VisitedSet κ).entries := .nil
  refine ⟨fun e he => ?_, fun path sub hget hduplicate => ?_⟩
  · rcases VisitedSet.entry_of_add hempty he with hold | ⟨-, rfl⟩ | ⟨old, hold, -⟩
    · cases hold
    · exact ⟨le_rfl, horiginal⟩
    · cases (VisitedSet.add_duplicate hold).1
  · obtain ⟨-, rfl⟩ := Tree.get?_leaf hget
    rw [show (Tree.leaf n).payload.equalTo = -1 from hexplored] at hduplicate
    cases hduplicate

theorem entry_retain (h : g.Grounded drv m paths visited) (hkeeps : g.Retains g') (hpaths : paths ⊆ paths')
    {e : VisitedEntry κ} (he : e ∈ visited.entries) :
    e.first ≤ e.num ∧ g'.Original drv m paths' e.first e.snapshot := by
  obtain ⟨hfirst, horiginal⟩ := h.entries e he
  exact ⟨hfirst, horiginal.retain hkeeps hpaths⟩

theorem duplicate_retain {sub' : Graph} (h : g.Grounded drv m paths visited) (hkeeps : g.Retains g')
    (hpaths : paths ⊆ paths') (hget : g.get? path = some sub) (hget' : g'.get? path = some sub')
    (hduplicate : 0 ≤ sub'.payload.equalTo) :
    sub'.payload.equalTo < sub'.payload.num ∧
      ∃ k, drv.SnapshotAfter m (g'.steps path) k ∧ g'.Original drv m paths' sub'.payload.equalTo k := by
  obtain ⟨hnum, hequal⟩ := hkeeps.payload_eq hget hget'
  rw [hequal] at hduplicate
  obtain ⟨hsmaller, k, hsnapshot, horiginal⟩ := h.duplicates path sub hget hduplicate
  rw [hnum, hequal, hkeeps.steps_eq hget]
  exact ⟨hsmaller, k, hsnapshot, horiginal.retain hkeeps hpaths⟩

theorem retain (h : g.Grounded drv m paths visited) (hkeeps : g.Retains g') (hpaths : paths ⊆ paths')
    (hold : ∀ path sub', g'.get? path = some sub' → 0 ≤ sub'.payload.equalTo → ∃ sub, g.get? path = some sub) :
    g'.Grounded drv m paths' visited := by
  refine ⟨fun e he => h.entry_retain hkeeps hpaths he, fun path sub' hget' hduplicate => ?_⟩
  obtain ⟨sub, hget⟩ := hold path sub' hget' hduplicate
  exact h.duplicate_retain hkeeps hpaths hget hget' hduplicate

theorem addChild_explored (h : g.Grounded drv m paths visited) (hpaths : paths ⊆ paths')
    (hget : g.get? path = some sub) {n : GraphNode} (hexplored : n.equalTo = -1) :
    Grounded drv m paths' visited (g.addChild path n) := by
  refine h.retain (Tree.addChild_grows path n g) hpaths fun path' sub' hget' hduplicate => ?_
  rcases Tree.get?_addChild hget hget' with ⟨-, rfl⟩ | ⟨old, hold, -, -⟩
  · rw [show (Tree.leaf n).payload.equalTo = -1 from hexplored] at hduplicate
    cases hduplicate
  · exact ⟨old, hold⟩

theorem insert (h : g.Grounded drv m paths visited) (hlaw : Snapshot.Lawful κ)
    (hsorted : VisitedSet.Sorted visited.entries) (hpaths : paths ⊆ paths') (hget : g.get? path = some sub)
    {n : GraphNode} {total : Nat} {gone : List Int} (hinserted : (visited.add n.num k).2.1 = .inserted total gone)
    (hexplored : n.equalTo = -1) (hsnapshot : drv.SnapshotAfter m (steps (g.addChild path n) (g.nextChild path)) k)
    (hpushed : steps (g.addChild path n) (g.nextChild path) ∈ paths') :
    Grounded drv m paths' (visited.add n.num k).1 (g.addChild path n) := by
  have hgrown := h.addChild_explored hpaths hget hexplored
  refine ⟨fun e he => ?_, hgrown.duplicates⟩
  rcases VisitedSet.entry_of_add hsorted he with hold | ⟨-, rfl⟩ | ⟨old, hduplicate, -⟩
  · exact hgrown.entries e hold
  · exact ⟨le_rfl, g.nextChild path, .leaf n, k, Tree.get?_nextChild hget n, rfl, hexplored, hpushed, hsnapshot,
      hlaw.refl k⟩
  · rw [hinserted] at hduplicate
    cases hduplicate

theorem replace (h : g.Grounded drv m paths visited) (hlaw : Snapshot.Lawful κ)
    (hsorted : VisitedSet.Sorted visited.entries) (hfirsts : ∀ e ∈ visited.entries, 0 ≤ e.first)
    (hpaths : paths ⊆ paths') (hget : g.get? path = some sub) {n : GraphNode}
    (hnums : ∀ e ∈ visited.entries, e.num < n.num) {old : VisitedEntry κ}
    (hfound : (visited.add n.num k).2.1 = .duplicate old) (hequal : n.equalTo = old.first)
    (hsnapshot : drv.SnapshotAfter m (steps (g.addChild path n) (g.nextChild path)) k) :
    Grounded drv m paths' (visited.add n.num k).1 (g.addChild path n) := by
  have hkeeps : g.Retains (g.addChild path n) := Tree.addChild_grows path n g
  obtain ⟨hmem, hsame⟩ := VisitedSet.add_duplicate hfound
  obtain ⟨hfirst, hentry⟩ := h.entries old hmem
  have hsmaller : old.first < n.num := hfirst.trans_lt (hnums old hmem)
  have horiginal : Original drv m paths' (g.addChild path n) old.first k :=
    (hentry.same hlaw hsame).retain hkeeps hpaths
  refine ⟨fun e he => ?_, fun path' sub' hget' hduplicate => ?_⟩
  · rcases VisitedSet.entry_of_add hsorted he with hold | ⟨⟨_, _, hinserted⟩, -⟩ | ⟨old', hfound', rfl⟩
    · exact h.entry_retain hkeeps hpaths hold
    · rw [hfound] at hinserted
      cases hinserted
    · cases hfound.symm.trans hfound'
      -- The number that stands for no first state is negative.
      have hpassed : ({ VisitedEntry.ofSnapshot n.num k with firstNum := old.first } : VisitedEntry κ).first =
          old.first := by
        have hnonneg := hfirsts old hmem
        exact if_neg (by show old.first ≠ -1; omega)
      rw [hpassed]
      exact ⟨hsmaller.le, horiginal⟩
  · rcases Tree.get?_addChild hget hget' with ⟨rfl, rfl⟩ | ⟨sub₀, hget₀, -, -⟩
    · rw [show (Tree.leaf n).payload.equalTo = old.first from hequal]
      exact ⟨hsmaller, k, hsnapshot, horiginal⟩
    · exact h.duplicate_retain hkeeps hpaths hget₀ hget' hduplicate

end Grounded

end Graph

theorem Mapped.steps_nextChild {s : Search σ κ} {g : Graph} {pending : Int} {top : Frame κ} {below : List (Frame κ)}
    (h : Mapped s g pending) (hstack : s.stack = top :: below) {t : Transition}
    (htop : top.state.transition = some t) {n : GraphNode} (hvia : n.via = some t) :
    Graph.steps (g.addChild top.node n) (g.nextChild top.node) = s.stackTrace.map Transition.step := by
  obtain ⟨sub, hget⟩ := (h.last_top hstack).exists_get?
  rw [Graph.steps_nextChild hget hvia, Mapped.stackTrace_eq hstack, htop, Graph.steps, h.way_top hstack]
  simp

theorem Trail.Takes.snapshotAfter {drv : Driver σ κ} {view : σ → π} {o : Options} {root n : Node σ} {m m₁ : σ}
    {p p' : Spot σ κ} {spots : List (Spot σ κ)} {x : Step} {t : Transition} {k : κ}
    (h : Takes drv o p spots x t n p') (hdet : drv.Deterministic view) (hroot : drv.root? m = some root)
    (hsound : Sound drv view o root (p :: spots)) (hview : view m₁ = view n.machine)
    (hk : (drv.snapshot m₁).1 = .ok (some k)) : drv.SnapshotAfter m (path spots ++ [x]) k := by
  refine ⟨n, ?_, (hdet.snapshot hview).1.symm.trans hk⟩
  rw [Driver.execution?_of_root? hroot, Driver.walk?_snoc, hsound.walk_path]
  exact h.advance

namespace Search

variable {drv : Driver σ κ} {view : σ → π} {o : Options} {s s' : Search σ κ} {g : Graph} {top : Frame κ}
  {below : List (Frame κ)} {m : σ} {paths : List (List Step)}

theorem unwind_keeps (drv : Driver σ κ) (o : Options) (count : Nat) (s : Search σ κ) :
    (unwind drv o count s).2.graph = s.graph ∧ (unwind drv o count s).2.visited = s.visited := by
  induction count generalizing s with
  | zero => exact ⟨rfl, rfl⟩
  | succ count ih =>
    cases hstack : s.stack with
    | nil =>
      rw [unwind, hstack]
      exact ⟨rfl, rfl⟩
    | cons f below =>
      rw [Trail.unwind_succ count hstack]
      split
      · exact ⟨rfl, rfl⟩
      · rename_i below' es _
        obtain ⟨events, hlogged⟩ := logAll_eq { s with stack := below' } es
        rw [hlogged]
        dsimp only
        split_ifs
        · obtain ⟨m, events', hkeeps⟩ := restoreTop_keeps drv ({ s with stack := below', events }.push f)
          split
          · rename_i s₂ hrestore
            rw [hrestore] at hkeeps
            obtain rfl := hkeeps
            exact ⟨rfl, rfl⟩
          · rename_i a s₂ hrestore
            rw [hrestore] at hkeeps
            obtain rfl := hkeeps
            exact ⟨rfl, rfl⟩
        · exact ih _

variable [Snapshot κ]

def Grounded (drv : Driver σ κ) (m : σ) (paths : List (List Step)) (s : Search σ κ) : Prop :=
  ∃ g, s.graph = some g ∧ g.Grounded drv m paths s.visited

theorem Grounded.of_eq (h : Grounded drv m paths s) (hgraph : s'.graph = s.graph) (hvisited : s'.visited = s.visited) :
    Grounded drv m paths s' := by
  obtain ⟨g, hg, hgrounded⟩ := h
  exact ⟨g, hgraph.trans hg, hvisited ▸ hgrounded⟩

theorem Grounded.backtrack (h : Grounded drv m paths s) (hback : backtrack drv o s = (none, s')) :
    Grounded drv m paths s' := by
  obtain ⟨hgraph, hvisited⟩ := unwind_keeps drv o s.stack.length ({ s with
      phase := .backtracking, stats := { s.stats with backtracks := s.stats.backtracks + 1 } }.log
        (.backtracked (s.stack.length - 1 : Int)))
  have hended := congrArg Prod.snd hback
  rw [← show _ = s' from hended]
  exact h.of_eq hgraph hvisited

theorem Grounded.restoreTop (h : Grounded drv m paths s) (hrestore : restoreTop drv s = (none, s')) :
    Grounded drv m paths s' := by
  obtain ⟨m', events, hkeeps⟩ := restoreTop_keeps drv s
  rw [hrestore] at hkeeps
  obtain rfl := hkeeps
  exact h

theorem skip_grounded (hgraph : s.graph = some g) {next : State} {old : VisitedEntry κ}
    (hg : Graph.Grounded drv m paths s.visited (g.addChild top.node
      { GraphNode.explored next.num top.state.transition with equalTo := old.first }))
    (hskip : skip drv o s top next old = (none, s')) : Grounded drv m paths s' := by
  unfold skip at hskip
  dsimp only at hskip
  generalize hs₁ : Search.log _ _ = s₁ at hskip
  rw [addNode_eq (g := g) (by exact hgraph)] at hs₁
  have hskipped : Grounded drv m paths s₁ := by
    rw [← hs₁]
    exact ⟨_, rfl, hg⟩
  split_ifs at hskip
  · exact hskipped.backtrack hskip
  · exact hskipped.restoreTop hskip

theorem enter_grounded {s₁ : Search σ κ} (hstack : s₁.stack = s.stack) (hgraph : s₁.graph = some g) {next : State}
    (hfresh : next.transition = none) (snapshot : Option κ)
    (hg : Graph.Grounded drv m (paths ++ [s.stackTrace.map Transition.step]) s₁.visited
      (g.addChild top.node (GraphNode.explored next.num top.state.transition))) :
    Grounded drv m (paths ++ s.pushedBy (s₁.enter o top next snapshot)) (s₁.enter o top next snapshot) := by
  obtain ⟨node, hledger⟩ := enter_ledger o s₁ top next snapshot
  have hpushed : (s₁.enter o top next snapshot).stack =
      { state := consider o next, snapshot, clock := [], node } :: s₁.stack := congrArg Ledger.stack hledger
  have hlonger : s.stack.length < (s₁.enter o top next snapshot).stack.length := by
    rw [hpushed, hstack]
    exact Nat.lt_succ_self _
  have hnew : (consider o next).transition = none := (Trail.consider_remarked o next).transition.trans hfresh
  -- The new frame has not been left, so the transitions below it lead to it.
  have htrace : (s₁.enter o top next snapshot).stackTrace = s.stackTrace := by
    rw [Mapped.stackTrace_eq hpushed, hnew, hstack, Option.toList_none, List.append_nil]
    rfl
  rw [pushedBy, if_pos hlonger, htrace]
  refine ⟨g.addChild top.node (GraphNode.explored next.num top.state.transition), ?_, ?_⟩
  · unfold enter
    rw [addNode_eq hgraph]
    rfl
  · rw [show (s₁.enter o top next snapshot).visited = s₁.visited from congrArg Ledger.visited hledger]
    exact hg

theorem arrive_grounded (hlaw : Snapshot.Lawful κ) (hvisited : 0 < o.maxVisited) (h : Mapped s g 1)
    (hg : g.Grounded drv m paths s.visited) (hstack : s.stack = top :: below) {t : Transition}
    (htop : top.state.transition = some t) {next : State} (hnums : ∀ e ∈ s.visited.entries, e.num < next.num)
    (hfresh : next.transition = none)
    (hsnapshots : ∀ k, (drv.snapshot s.machine).1 = .ok (some k) →
      drv.SnapshotAfter m (s.stackTrace.map Transition.step) k)
    (harrive : arrive drv o s top next = (none, s')) : Grounded drv m (paths ++ s.pushedBy s') s' := by
  obtain ⟨sub, hget⟩ := (h.last_top hstack).exists_get?
  have hsteps : ∀ n : GraphNode, n.via = top.state.transition →
      Graph.steps (g.addChild top.node n) (g.nextChild top.node) = s.stackTrace.map Transition.step :=
    fun n hvia => h.steps_nextChild hstack htop (hvia.trans htop)
  unfold arrive at harrive
  rw [if_pos hvisited] at harrive
  split at harrive
  · cases harrive
  · cases harrive
  · rename_i k m' hsnap
    have hsnapshot := hsnapshots k (congrArg Prod.fst hsnap)
    dsimp only at harrive
    split at harrive
    · cases harrive
    · rename_i old hfound
      let n := { GraphNode.explored next.num top.state.transition with equalTo := old.first }
      have hreplaced := hg.replace hlaw h.sorted h.firsts (List.subset_append_left paths (s.pushedBy s')) hget
        (n := n) hnums hfound rfl
        (hsteps n rfl ▸ hsnapshot)
      exact skip_grounded (by exact h.graph) hreplaced harrive
    · rename_i total gone hinserted
      let n := GraphNode.explored next.num top.state.transition
      have hentered := hg.insert hlaw h.sorted (List.subset_append_left paths [s.stackTrace.map Transition.step]) hget
        (n := n) hinserted rfl (hsteps n rfl ▸ hsnapshot) (by rw [hsteps n rfl]; simp)
      obtain ⟨events, hlogged⟩ := logAll_eq
        ({ s with machine := m', visited := (s.visited.add next.num k).1 }.log (.inserted next.num total))
        (gone.map .evicted)
      generalize Search.logAll _ _ = s₁ at harrive hlogged
      subst hlogged
      cases harrive
      exact enter_grounded (by rfl) (by exact h.graph) hfresh (some k) hentered

theorem report_grounded (h : Mapped s g 1) (hg : g.Grounded drv m paths s.visited) (hstack : s.stack = top :: below)
    {t : Transition} (htop : top.state.transition = some t) (v : Violation) (num : Int) {paths' : List (List Step)}
    (hpaths : paths ⊆ paths') : Grounded drv m paths' (s.report v num) := by
  obtain ⟨sub, hget⟩ := (h.last_top hstack).exists_get?
  refine ⟨_, report_graph h.graph hstack htop v num, ?_⟩
  rw [show (s.report v num).visited = s.visited from congrArg Ledger.visited (report_ledger s v num)]
  exact hg.addChild_explored hpaths hget rfl

theorem cut_grounded (hgraph : s.graph = some g) (hg : g.Grounded drv m paths s.visited) (top : Frame κ) :
    Grounded drv m paths (s.cut top) := by
  refine ⟨g.update top.node fun n => { n with truncated := true }, ?_, ?_⟩
  · show Option.map _ s.graph = _
    rw [hgraph]
    rfl
  · have hkeeps : g.Retains (g.update top.node fun n => { n with truncated := true }) := by
      apply Tree.update_grows
      exact fun _ => rfl
    refine hg.retain hkeeps (List.Subset.refl paths) fun path sub' hget' _ => ?_
    obtain ⟨sub, hget, -⟩ := Tree.get?_update hget'
    exact ⟨sub, hget⟩

theorem advance_grounded (hdet : drv.Deterministic view) (hlaw : Snapshot.Lawful κ) (hvisited : 0 < o.maxVisited)
    {root : Node σ} (hroot : drv.root? m = some root) {p : Spot σ κ} {spots : List (Spot σ κ)}
    {visited : VisitedSet κ} {truncated : Option (List Transition)}
    (ht : Trail.Tracks drv view o root s.core ⟨p :: spots, visited, truncated⟩)
    (hwithin : o.withinDepth spots.length = true) {a : ActorId} (hnext : p.state.next? = some a) (h : Mapped s g 0)
    (hg : g.Grounded drv m paths s.visited) (hnums : ∀ e ∈ s.visited.entries, e.num < s.nextNum)
    (hadvance : advance drv o s p.frame (spots.map Spot.frame) a = (none, s')) :
    Grounded drv m (paths ++ s.pushedBy s') s' := by
  have hstack : s.stack = p.frame :: spots.map Spot.frame := ht.stack
  have hpaths : paths ⊆ paths ++ s.pushedBy s' := List.subset_append_left _ _
  unfold advance at hadvance
  split at hadvance
  · split at hadvance <;> cases hadvance
  · rename_i r state m₁ hexec
    dsimp only at hadvance
    split at hadvance
    · cases hadvance
    · rename_i clock hclock
      have hclock : o.reduction = .dpor → Race.clockOf r.transition (spots.map Spot.frame) = .ok clock :=
        fun ho => by simpa only [ho] using hclock
      obtain ⟨x, n, htakes, hview, -, -⟩ := ht.takes hdet hwithin hnext hexec hclock
      have hexecuted : Mapped ({ s with
          machine := m₁, stack := { p.frame with state, clock } :: spots.map Spot.frame, nextNum := s.nextNum + 1 }.log
            (.executed state.num (spots.map Spot.frame).length r.transition)) g 1 := by
        exact h.executed hstack (by rfl) m₁ _
      have hleft : state.transition = some r.transition := htakes.transition
      split at hadvance
      · cases hadvance
        exact report_grounded hexecuted hg rfl hleft _ _ hpaths
      · split_ifs at hadvance
        · cases hadvance
          exact report_grounded hexecuted hg rfl hleft _ _ hpaths
        · generalize hs₁ : Search.log _ _ = s₁ at hadvance hexecuted
          -- The top frame has just been left, so the stack leads to the new state.
          have hpath : s₁.stackTrace.map Transition.step = Trail.path spots ++ [x] := by
            rw [← hs₁, ← htakes.path_eq]
            exact Trail.steps_eq_path ((⟨{ p.frame with state, clock }, p.node⟩ : Spot σ κ) :: spots)
          have hsame : s₁.pushedBy s' = s.pushedBy s' := by
            rw [pushedBy, pushedBy, hstack, ← hs₁]
            rfl
          rw [← hsame]
          refine arrive_grounded hlaw hvisited hexecuted ?_ (by rw [← hs₁]; rfl) hleft ?_ rfl ?_ hadvance
          · rw [← hs₁]
            exact hg
          · rw [← hs₁]
            intro e he
            exact (hnums e he).trans_eq (add_sub_cancel_right _ _).symm
          · rw [hpath, ← hs₁]
            exact fun k hk => htakes.snapshotAfter hdet hroot ht.sound hview hk

theorem turn_grounded (hdet : drv.Deterministic view) (hlaw : Snapshot.Lawful κ) (hvisited : 0 < o.maxVisited)
    {root : Node σ} (hroot : drv.root? m = some root) {T : Trail σ κ} (ht : Trail.Tracks drv view o root s.core T)
    (h : Mapped s g 0) (hg : g.Grounded drv m paths s.visited) (hnums : ∀ e ∈ s.visited.entries, e.num < s.nextNum)
    (hturn : turn drv o s = (none, s')) : Grounded drv m (paths ++ s.pushedBy s') s' := by
  have hpaths : paths ⊆ paths ++ s.pushedBy s' := List.subset_append_left _ _
  have hwider : g.Grounded drv m (paths ++ s.pushedBy s') s.visited :=
    hg.retain (.refl g) hpaths fun _ sub hget _ => ⟨sub, hget⟩
  obtain ⟨spots, visited, truncated⟩ := T
  have hstack : s.stack = spots.map Spot.frame := ht.stack
  unfold turn at hturn
  split at hturn
  · cases hturn
  · cases spots with
    | nil =>
      rw [hstack] at hturn
      cases hturn
      exact ⟨g, h.graph, hwider⟩
    | cons p spots =>
      rw [hstack, List.map_cons] at hturn
      dsimp only at hturn
      rw [List.length_map] at hturn
      split_ifs at hturn with hbeyond
      · exact (cut_grounded h.graph hwider p.frame).backtrack hturn
      · exact Grounded.backtrack ⟨g, h.graph, hwider⟩ hturn
      · split at hturn
        · exact Grounded.backtrack ⟨g, h.graph, hwider⟩ hturn
        · rename_i a hnext
          exact advance_grounded hdet hlaw hvisited hroot ht (by simpa using hbeyond) hnext h hg hnums hturn

theorem start_grounded (hlaw : Snapshot.Lawful κ) (hvisited : 0 < o.maxVisited) (hgraph : o.graph = true)
    (hstart : start drv o (new o m) = (none, s)) : Grounded drv m [[]] s := by
  obtain ⟨actors, m₁, snapshot, m₂, visited, events, f, hinit, hsnap, hbegins, hf, rfl⟩ := start_eq_none hstart
  cases hbegins with
  | off hnone => exact absurd hnone hvisited.ne'
  | @kept k _ =>
    have hmarks := Trail.consider_remarked o (State.new 0 actors)
    have hsnapshot : drv.SnapshotAfter m [] k := by
      refine ⟨.initial actors m₁, ?_, congrArg Prod.fst hsnap⟩
      rw [Driver.execution?, Driver.root?, hinit]
      rfl
    have hdrawn := opened_graph hgraph m₂ ((VisitedSet.empty o.maxVisited).add 0 k).1 #[.inserted 0 0]
      (show f.state.num = 0 from hf ▸ hmarks.num)
    have hpushed : ([] : List Step) ∈ [([] : List Step)] := List.mem_singleton_self _
    split_ifs
    · refine ⟨_, report_root_graph hdrawn rfl (hf ▸ rfl) (hf ▸ hmarks.transition) _ _, ?_⟩
      rw [show (report _ _ _).visited = _ from congrArg Ledger.visited (report_ledger _ _ _)]
      exact .leaf hlaw rfl rfl rfl hsnapshot hpushed o.maxVisited
    · exact ⟨_, hdrawn, .leaf hlaw rfl rfl rfl hsnapshot hpushed o.maxVisited⟩

theorem loop_pushed {fuel : Nat} (hs : Pushes drv o m paths s) (h : loop drv o fuel s = some (none, s')) :
    Pushes drv o m (paths ++ pushedFrom drv o fuel s) s' := by
  induction fuel generalizing s paths with
  | zero =>
    simp only [loop] at h
    split_ifs at h
    cases h
    rw [pushedFrom, List.append_nil]
    exact hs
  | succ fuel ih =>
    simp only [loop] at h
    rw [pushedFrom]
    split_ifs at h with hfinished
    · cases h
      rw [if_pos (by simp [hfinished]), List.append_nil]
      exact hs
    · split at h
      · cases h
      · rename_i s₁ hturn
        rw [if_neg (by simp [hfinished, hturn]), ← List.append_assoc, hturn]
        exact ih (.turn hs (by simpa using hfinished) hturn) h

theorem run_pushed {fuel : Nat} (h : run drv o fuel m = some (none, s)) :
    ∃ s₁, Pushes drv o m (pushedPaths drv o fuel m) s₁ ∧ s.graph = s₁.graph := by
  unfold run at h
  split at h
  · rename_i a s₀ hstart
    cases a <;> cases h
  · rename_i s₀ hstart
    obtain ⟨⟨abort, s₁⟩, hloop, hclose⟩ := Option.map_eq_some_iff.mp h
    cases abort with
    | some a => cases a <;> cases hclose
    | none =>
      cases hclose
      refine ⟨s₁, ?_, rfl⟩
      rw [pushedPaths, hstart, if_neg (by simp)]
      exact loop_pushed (.start hstart) hloop

theorem Pushes.grounded (hdet : drv.Deterministic view) (hlaw : Snapshot.Lawful κ) (hvisited : 0 < o.maxVisited)
    (hgraph : o.graph = true) (h : Pushes drv o m paths s) : Grounded drv m paths s := by
  induction h with
  | start h => exact start_grounded hlaw hvisited hgraph h
  | turn hs hopen h ih =>
    obtain ⟨g, hg, hgrounded⟩ := ih
    obtain ⟨root, T, -, -, hroot, -, ht, -⟩ := Trail.tracks_of_open hdet hs.reached hopen
    rcases hs.reached.charts hgraph with ⟨g', hheading⟩ | ⟨hdone, -⟩
    · obtain rfl := Option.some.inj (hheading.graph.symm.trans hg)
      exact turn_grounded hdet hlaw hvisited hroot ht hheading.toMapped hgrounded hs.reached.numbered h
    · exact absurd (Trail.finished_iff.mpr (.inr hdone)) (by simp [hopen])

end Search

/-- Duplicates point at what was explored. Take a deterministic driver whose snapshots are compared by an equivalence
that respects their counts, and any run with a visited set that ends without an error. Wherever the recorded graph shows
a state as equal to the one numbered `e`, the graph has a node numbered `e`. That number is smaller, the node is no
duplicate itself but was pushed for exploration, and the snapshots of the two states are equal. -/
theorem duplicates_point_at_explored_states [Snapshot κ] {drv : Driver σ κ} {view : σ → π}
    (hdet : drv.Deterministic view) (hlaw : Snapshot.Lawful κ) {o : Options} (hvisited : 0 < o.maxVisited)
    (hgraph : o.graph = true) {fuel : Nat} {m : σ} {s : Search σ κ} (hrun : Search.run drv o fuel m = some (none, s)) :
    ∃ g, s.graph = some g ∧ ∀ path sub, g.get? path = some sub → 0 ≤ sub.payload.equalTo →
      sub.payload.equalTo < sub.payload.num ∧ ∃ k, drv.SnapshotAfter m (g.steps path) k ∧
        g.Original drv m (Search.pushedPaths drv o fuel m) sub.payload.equalTo k := by
  obtain ⟨s₁, hpushes, hsame⟩ := Search.run_pushed hrun
  obtain ⟨g, hg, hgrounded⟩ := hpushes.grounded hdet hlaw hvisited hgraph
  exact ⟨g, hsame.trans hg, hgrounded.duplicates⟩

def Program.threeCounters : Program := ⟨.empty, [[.incr "x"], [.incr "y"], [.incr "z"]], none⟩

theorem duplicates_point_at_explored_states_threeCounters : ∃ s g sub,
    Search.run Program.threeCounters.driver ⟨0, .none, 3, 0, true⟩ 40 Program.threeCounters.initial = some (none, s) ∧
      s.graph = some g ∧ g.get? [2, 1, 0] = some sub ∧ sub.payload.num = 15 ∧ sub.payload.equalTo = 3 ∧
      ∃ k, Program.threeCounters.driver.SnapshotAfter Program.threeCounters.initial (g.steps [2, 1, 0]) k ∧
        g.Original Program.threeCounters.driver Program.threeCounters.initial
          (Search.pushedPaths Program.threeCounters.driver ⟨0, .none, 3, 0, true⟩ 40 Program.threeCounters.initial) 3
          k := by
  have hended : (Search.run Program.threeCounters.driver ⟨0, .none, 3, 0, true⟩ 40 Program.threeCounters.initial).map
      (fun r => (r.1, (r.2.graph.bind (·.get? [2, 1, 0])).map fun sub => (sub.payload.num, sub.payload.equalTo))) =
        some (none, some (15, 3)) := by decide +kernel
  obtain ⟨⟨abort, s⟩, hrun, hshown⟩ := Option.map_eq_some_iff.mp hended
  obtain ⟨rfl, hshown⟩ := Prod.mk.inj hshown
  obtain ⟨sub, hsub, hpayload⟩ := Option.map_eq_some_iff.mp hshown
  obtain ⟨g, hg, hget⟩ := Option.bind_eq_some_iff.mp hsub
  obtain ⟨hnum, hequal⟩ := Prod.mk.inj hpayload
  obtain ⟨g', hg', hduplicates⟩ := duplicates_point_at_explored_states Program.threeCounters.driver_deterministic
    Program.captured_lawful (by decide) rfl hrun
  obtain rfl := Option.some.inj (hg'.symm.trans hg)
  obtain ⟨-, hpoints⟩ := hduplicates [2, 1, 0] sub hget (by rw [hequal]; decide)
  rw [hequal] at hpoints
  exact ⟨s, g', sub, hrun, hg, hget, hnum, hequal, hpoints⟩

end Interleave
