import Interleave.Proofs.Recasting
import Interleave.Proofs.StackPath

/-! Searches that differ in their checkpoints only stay in lockstep. What two such searches share is their bare
search: machine and snapshots are taken off, and a restore is logged without the snapshot it started from. -/

namespace Interleave

variable {σ κ π : Type}

def Event.bare : Event → Event
  | .restored state _ _ => .restored state 0 0
  | e => e

def Frame.bare (graph : Bool) (f : Frame κ) : Frame κ :=
  { f with snapshot := none, node := if graph then f.node else [] }

theorem Frame.state_eq_of_bare {g : Bool} {f f' : Frame κ} (h : f.bare g = f'.bare g) : f.state = f'.state := by
  simpa only [Frame.bare] using congrArg Frame.state h

namespace Search

def bare (graph : Bool) (s : Search σ κ) : Search Unit κ :=
  { s with
    machine := ()
    stack := s.stack.map (Frame.bare graph)
    graph := if graph then s.graph else none
    events := s.events.map Event.bare }

variable (g : Bool) (s : Search σ κ)

theorem log_bare (e : Event) : (s.log e).bare g = (s.bare g).log e.bare := by
  simp [bare, log]

theorem logAll_bare (es : List Event) : (s.logAll es).bare g = (s.bare g).logAll (es.map Event.bare) := by
  induction es generalizing s with
  | nil => rfl
  | cons e es ih =>
    have hlog := log_bare g s e
    exact (ih (s.log e)).trans (congrArg (logAll · (es.map Event.bare)) hlog)

theorem push_bare (f : Frame κ) : (s.push f).bare g = (s.bare g).push (f.bare g) := by
  simp only [bare, push, List.map_cons, List.length_map]
  rfl

theorem addNode_bare (path : Tree.Path) (n : GraphNode) :
    (s.addNode path n).2.bare g = ((s.bare g).addNode (if g then path else []) n).2 := by
  cases g <;> cases hgraph : s.graph <;> simp [addNode, bare, hgraph]

theorem addNode_path_bare (path : Tree.Path) (n : GraphNode) :
    (if g then (s.addNode path n).1 else []) = ((s.bare g).addNode (if g then path else []) n).1 := by
  cases g <;> cases hgraph : s.graph <;> simp [addNode, bare, hgraph]

theorem updateNode_bare (path : Tree.Path) (f : GraphNode → GraphNode) :
    (s.updateNode path f).bare g = (s.bare g).updateNode (if g then path else []) f := by
  cases g <;> simp [updateNode, bare]

theorem stackTrace_bare : (s.bare g).stackTrace = s.stackTrace := by
  simp only [stackTrace, bare, ← List.map_reverse, List.filterMap_map]
  rfl

theorem report_bare (v : Violation) (num : Int) : (s.report v num).bare g = (s.bare g).report v num := by
  have htrace := stackTrace_bare g s
  unfold report
  dsimp only
  rw [htrace]
  cases hstack : s.stack with
  | nil => simp [bare, log, Event.bare, hstack]
  | cons top below =>
    cases hleft : top.state.transition with
    | none => cases g <;> simp [bare, Frame.bare, log, Event.bare, updateNode, hstack, hleft]
    | some t =>
      cases g <;> cases hgraph : s.graph <;>
        simp [bare, Frame.bare, log, Event.bare, addNode, hstack, hleft, hgraph]

theorem cut_bare (top : Frame κ) : (s.cut top).bare g = (s.bare g).cut (top.bare g) := by
  have htrace := stackTrace_bare g s
  unfold cut
  dsimp only
  rw [htrace, log_bare, updateNode_bare]
  simp [bare, Frame.bare, Event.bare, updateNode, depth]

theorem enter_bare (o : Options) (top : Frame κ) (next : State) (snapshot : Option κ) :
    (s.enter o top next snapshot).bare g = (s.bare g).enter o (top.bare g) next none := by
  unfold enter
  dsimp only
  rw [push_bare, addNode_bare, Frame.bare]
  dsimp only
  rw [addNode_path_bare]
  rfl

end Search

theorem Frame.recasts_bare (g : Bool) : Recasts (Frame.bare g : Frame κ → Frame κ) :=
  ⟨fun _ => rfl, fun _ => rfl, fun _ _ => rfl⟩

theorem Driver.Agree.exists_answer {α : Type} {view : σ → π} {x y : Except Failure α × σ}
    (h : Agree view x y) : ∃ answer m₁ m₂, x = (answer, m₁) ∧ y = (answer, m₂) ∧ view m₁ = view m₂ :=
  ⟨x.1, x.2, y.2, rfl, Prod.ext h.1.symm rfl, h.2⟩

theorem State.execute_agree {drv : Driver σ κ} {view : σ → π} (hdet : drv.Deterministic view) (st : State)
    (a : ActorId) {m₁ m₂ : σ} (hview : view m₁ = view m₂) :
    ∃ answer st' m₁' m₂', st.execute drv.execute a m₁ = (answer, st', m₁') ∧
      st.execute drv.execute a m₂ = (answer, st', m₂') ∧ view m₁' = view m₂' := by
  unfold State.execute
  cases st.take a with
  | error f => exact ⟨_, _, _, _, rfl, rfl, hview⟩
  | ok taken =>
    obtain ⟨answer, m₁', m₂', hrun₁, hrun₂, hview'⟩ := (hdet.execute a taken.1 hview).exists_answer
    simp only [hrun₁, hrun₂]
    cases answer with
    | error e => exact ⟨_, _, _, _, rfl, rfl, hview'⟩
    | ok r =>
      dsimp only
      split_ifs <;> exact ⟨_, _, _, _, rfl, rfl, hview'⟩

/-- The options agree on all but checkpoints and the graph. -/
structure Options.Alike (o o' : Options) : Prop where
  maxDepth : o.maxDepth = o'.maxDepth
  reduction : o.reduction = o'.reduction
  maxVisited : o.maxVisited = o'.maxVisited

namespace Options.Alike

variable {o o' : Options} (h : o.Alike o')

include h

theorem withinDepth (depth : Nat) : o.withinDepth depth = o'.withinDepth depth := by
  rw [Options.withinDepth, Options.withinDepth, h.maxDepth]

theorem settle (f : Frame κ) (below : List (Frame κ)) : Search.settle o f below = Search.settle o' f below := by
  rw [Search.settle, Search.settle, h.reduction]

theorem consider (st : State) : Search.consider o st = Search.consider o' st := by
  rw [Search.consider, Search.consider, h.reduction]

theorem enter (s : Search σ κ) (top : Frame κ) (next : State) (snapshot : Option κ) :
    s.enter o top next snapshot = s.enter o' top next snapshot := by
  rw [Search.enter, Search.enter, h.consider]

end Options.Alike

namespace Search

def InStep (g : Bool) (x y : Option Abort × Search σ κ) : Prop :=
  x.1 = none → y.1 = none → x.2.bare g = y.2.bare g

variable {drv : Driver σ κ} {g : Bool} {o₁ o₂ : Options} {s₁ s₂ : Search σ κ}

theorem InStep.of_left {a : Abort} {y : Option Abort × Search σ κ} : InStep g (some a, s₁) y := by
  intro hx
  cases hx

theorem InStep.of_right {a : Abort} {x : Option Abort × Search σ κ} : InStep g x (some a, s₂) := by
  intro _ hy
  cases hy

theorem InStep.of_eq (h : s₁.bare g = s₂.bare g) : InStep g (none, s₁) (none, s₂) := fun _ _ => h

theorem stack_bare_eq (h : s₁.bare g = s₂.bare g) :
    s₁.stack.map (Frame.bare g) = s₂.stack.map (Frame.bare g) := congrArg Search.stack h

theorem stack_cases (h : s₁.bare g = s₂.bare g) : (s₁.stack = [] ∧ s₂.stack = []) ∨
    ∃ f₁ below₁ f₂ below₂, s₁.stack = f₁ :: below₁ ∧ s₂.stack = f₂ :: below₂ ∧ f₁.bare g = f₂.bare g ∧
      below₁.map (Frame.bare g) = below₂.map (Frame.bare g) := by
  have hstack := stack_bare_eq h
  cases hstack₁ : s₁.stack with
  | nil =>
    rw [hstack₁, List.map_nil, eq_comm, List.map_eq_nil_iff] at hstack
    exact .inl ⟨rfl, hstack⟩
  | cons f₁ below₁ =>
    rw [hstack₁, List.map_cons, eq_comm] at hstack
    obtain ⟨f₂, below₂, hstack₂, hf, hbelow⟩ := List.map_eq_cons_iff.mp hstack
    exact .inr ⟨f₁, below₁, f₂, below₂, rfl, hstack₂, hf.symm, hbelow.symm⟩

theorem length_eq_of_bare (h : s₁.bare g = s₂.bare g) : s₁.stack.length = s₂.stack.length := by
  simpa using congrArg List.length (stack_bare_eq h)

theorem restoreTop_bare {s s' : Search σ κ} {top : Frame κ} {below : List (Frame κ)}
    (hstack : s.stack = top :: below) (h : restoreTop drv s = (none, s')) :
    s'.bare g = (s.bare g).log (.restored top.state.num 0 0) := by
  obtain ⟨top', below', above, base, k, m₁, m, hstack', -, -, -, rfl⟩ := restoreTop_eq_none h
  cases hstack.symm.trans hstack'
  exact log_bare g _ _

theorem restoreTop_inStep (h : s₁.bare g = s₂.bare g) : InStep g (restoreTop drv s₁) (restoreTop drv s₂) := by
  intro h₁ h₂
  have h₁ : restoreTop drv s₁ = (none, (restoreTop drv s₁).2) := Prod.ext h₁ rfl
  have h₂ : restoreTop drv s₂ = (none, (restoreTop drv s₂).2) := Prod.ext h₂ rfl
  obtain ⟨top₁, below₁, -, -, -, -, -, hstack₁, -⟩ := restoreTop_eq_none h₁
  obtain ⟨top₂, below₂, -, -, -, -, -, hstack₂, -⟩ := restoreTop_eq_none h₂
  have hstack := stack_bare_eq h
  rw [hstack₁, hstack₂, List.map_cons, List.map_cons, List.cons.injEq] at hstack
  rw [restoreTop_bare hstack₁ h₁, restoreTop_bare hstack₂ h₂, h, Frame.state_eq_of_bare hstack.1]

theorem settle_eq_of_bare (ho : o₁.Alike o₂) {f₁ f₂ : Frame κ} {below₁ below₂ fs₁ fs₂ : List (Frame κ)}
    {es₁ es₂ : List Event} (hf : f₁.bare g = f₂.bare g)
    (hbelow : below₁.map (Frame.bare g) = below₂.map (Frame.bare g))
    (h₁ : settle o₁ f₁ below₁ = .ok (fs₁, es₁)) (h₂ : settle o₂ f₂ below₂ = .ok (fs₂, es₂)) :
    fs₁.map (Frame.bare g) = fs₂.map (Frame.bare g) ∧ es₁.map Event.bare = es₂.map Event.bare := by
  have hsettle := (Frame.recasts_bare g).settle o₁ f₁ below₁
  rw [hf, hbelow, ho.settle, (Frame.recasts_bare g).settle, h₁, h₂] at hsettle
  simp only [Except.map, Except.ok.injEq, Prod.mk.injEq] at hsettle
  exact ⟨hsettle.1.symm, by rw [hsettle.2]⟩

theorem unwind_inStep (ho : o₁.Alike o₂) (count : Nat) (h : s₁.bare g = s₂.bare g) :
    InStep g (unwind drv o₁ count s₁) (unwind drv o₂ count s₂) := by
  induction count generalizing s₁ s₂ with
  | zero => exact .of_eq h
  | succ count ih =>
    obtain ⟨hnil₁, hnil₂⟩ | ⟨f₁, below₁, f₂, below₂, hstack₁, hstack₂, hf, hbelow⟩ := stack_cases h
    · rw [unwind, unwind, hnil₁, hnil₂]
      exact .of_eq h
    · rw [Trail.unwind_succ count hstack₁, Trail.unwind_succ count hstack₂, Frame.state_eq_of_bare hf]
      cases hsettle₁ : settle o₁ f₁ below₁ with
      | error fault => exact .of_left
      | ok r₁ =>
        cases hsettle₂ : settle o₂ f₂ below₂ with
        | error fault => exact .of_right
        | ok r₂ =>
          obtain ⟨fs₁, es₁⟩ := r₁
          obtain ⟨fs₂, es₂⟩ := r₂
          obtain ⟨hfs, hes⟩ := settle_eq_of_bare ho hf hbelow hsettle₁ hsettle₂
          have hlength : fs₁.length = fs₂.length := by simpa using congrArg List.length hfs
          have hcleared : ({ s₁ with stack := fs₁ }.logAll es₁).bare g =
              ({ s₂ with stack := fs₂ }.logAll es₂).bare g := by
            rw [logAll_bare, logAll_bare, hes]
            show logAll { s₁.bare g with stack := fs₁.map (Frame.bare g) } _ =
              logAll { s₂.bare g with stack := fs₂.map (Frame.bare g) } _
            rw [h, hfs]
          dsimp only
          rw [hlength, ho.withinDepth]
          -- Both searches put the frame back, or both drop it.
          split_ifs
          · have hpushed : (({ s₁ with stack := fs₁ }.logAll es₁).push f₁).bare g =
                (({ s₂ with stack := fs₂ }.logAll es₂).push f₂).bare g := by
              rw [push_bare, push_bare, hcleared, hf]
            have hrestored : InStep g (restoreTop drv _) (restoreTop drv _) := restoreTop_inStep hpushed
            revert hrestored
            generalize restoreTop drv _ = x
            generalize restoreTop drv _ = y
            intro hrestored
            obtain ⟨a₁, s₁'⟩ := x
            obtain ⟨a₂, s₂'⟩ := y
            cases a₁ with
            | some a => exact .of_left
            | none =>
              cases a₂ with
              | some a => exact .of_right
              | none => exact .of_eq (congrArg (fun s : Search Unit κ => { s with phase := .running })
                  (hrestored rfl rfl))
          · refine ih ?_
            rw [log_bare, log_bare, hcleared]

theorem backtrack_inStep (ho : o₁.Alike o₂) (h : s₁.bare g = s₂.bare g) :
    InStep g (backtrack drv o₁ s₁) (backtrack drv o₂ s₂) := by
  unfold backtrack
  dsimp only
  rw [length_eq_of_bare h]
  refine unwind_inStep ho _ ?_
  rw [log_bare, log_bare]
  exact congrArg (fun s : Search Unit κ => Search.log { s with
    phase := .backtracking
    stats := { s.stats with backtracks := s.stats.backtracks + 1 } } _) h

theorem skip_inStep (ho : o₁.Alike o₂) (h : s₁.bare g = s₂.bare g) {top₁ top₂ : Frame κ}
    (htop : top₁.bare g = top₂.bare g) (next : State) (old : VisitedEntry κ) :
    InStep g (skip drv o₁ s₁ top₁ next old) (skip drv o₂ s₂ top₂ next old) := by
  have hstate := Frame.state_eq_of_bare htop
  have hnode : (if g then top₁.node else []) = if g then top₂.node else [] := congrArg Frame.node htop
  unfold skip
  dsimp only
  rw [hstate]
  generalize hs₁' : Search.log (Prod.snd (addNode _ top₁.node _)) _ = s₁'
  generalize hs₂' : Search.log (Prod.snd (addNode _ top₂.node _)) _ = s₂'
  have hbare : s₁'.bare g = s₂'.bare g := by
    rw [← hs₁', ← hs₂', log_bare, log_bare, addNode_bare, addNode_bare, hnode]
    have hlogged : (s₁.log (.visited next.num old.num old.first)).bare g =
        (s₂.log (.visited next.num old.num old.first)).bare g := by
      rw [log_bare, log_bare, h]
    exact congrArg (fun s : Search Unit κ => Search.log (Prod.snd (addNode { s with
      stats := { s.stats with duplicates := s.stats.duplicates + 1 } } _ _)) _) hlogged
  split_ifs
  · exact backtrack_inStep ho hbare
  · exact restoreTop_inStep hbare

variable [Snapshot κ]

theorem arrive_bare {o : Options} (hnone : ¬ 0 < o.maxVisited) {s : Search σ κ} {top : Frame κ} {next : State}
    (h : (arrive drv o s top next).1 = none) :
    (arrive drv o s top next).2.bare g = (s.bare g).enter o (top.bare g) next none := by
  unfold arrive at h ⊢
  rw [if_neg hnone] at h ⊢
  split_ifs at h ⊢
  · split at h
    · cases h
    · exact enter_bare g _ o top next _
  · exact enter_bare g s o top next none

variable {view : σ → π}

theorem arrive_inStep (hdet : drv.Deterministic view) (ho : o₁.Alike o₂) (h : s₁.bare g = s₂.bare g)
    (hview : view s₁.machine = view s₂.machine) {top₁ top₂ : Frame κ} (htop : top₁.bare g = top₂.bare g)
    (next : State) : InStep g (arrive drv o₁ s₁ top₁ next) (arrive drv o₂ s₂ top₂ next) := by
  by_cases hpositive : 0 < o₁.maxVisited
  · have hvisited : s₁.visited = s₂.visited := by simpa only [bare] using congrArg Search.visited h
    obtain ⟨answer, m₁, m₂, hsnap₁, hsnap₂, -⟩ := (hdet.snapshot hview).exists_answer
    unfold arrive
    rw [if_pos hpositive, if_pos (ho.maxVisited ▸ hpositive), hvisited, hsnap₁, hsnap₂]
    rcases answer with e | _ | k
    · exact .of_left
    · exact .of_left
    · dsimp only
      obtain ⟨visited, addition, compared⟩ := s₂.visited.add next.num k
      have hadded : { s₁ with machine := m₁, visited := visited }.bare g =
          { s₂ with machine := m₂, visited := visited }.bare g :=
        congrArg (fun s : Search Unit κ => { s with visited := visited }) h
      cases addition with
      | repeated => exact .of_left
      | duplicate old => exact skip_inStep ho hadded htop next old
      | inserted total gone =>
        refine .of_eq ?_
        rw [enter_bare, enter_bare, logAll_bare, logAll_bare, log_bare, log_bare, hadded, htop, ho.enter]
  · intro h₁ h₂
    rw [arrive_bare hpositive h₁, arrive_bare (ho.maxVisited ▸ hpositive) h₂, h, htop, ho.enter]

theorem advance_inStep (hdet : drv.Deterministic view) (ho : o₁.Alike o₂) (h : s₁.bare g = s₂.bare g)
    (hview : view s₁.machine = view s₂.machine) {top₁ top₂ : Frame κ} (htop : top₁.bare g = top₂.bare g)
    {below₁ below₂ : List (Frame κ)}
    (hbelow : below₁.map (Frame.bare g) = below₂.map (Frame.bare g)) (a : ActorId) :
    InStep g (advance drv o₁ s₁ top₁ below₁ a) (advance drv o₂ s₂ top₂ below₂ a) := by
  have hstate := Frame.state_eq_of_bare htop
  have hnum : s₁.nextNum = s₂.nextNum := by simpa only [bare] using congrArg Search.nextNum h
  have hlength : below₁.length = below₂.length := by simpa using congrArg List.length hbelow
  obtain ⟨answer, state, m₁, m₂, hexec₁, hexec₂, hview'⟩ := top₂.state.execute_agree hdet a hview
  unfold advance
  rw [hstate, hexec₁, hexec₂]
  cases answer with
  | error e => cases e <;> exact .of_left
  | ok r =>
    dsimp only
    rw [ho.reduction, ← (Frame.recasts_bare g).clockOf _ below₁, hbelow,
      (Frame.recasts_bare g).clockOf]
    split
    · exact .of_left
    · rename_i clock _
      have htop' : Frame.bare g { top₁ with state, clock } = Frame.bare g { top₂ with state, clock } :=
        congrArg (fun f : Frame κ => { f with state, clock }) htop
      rw [hlength, hnum]
      generalize hs₁' : Search.log _ _ = s₁'
      generalize hs₂' : Search.log _ _ = s₂'
      have hbare : s₁'.bare g = s₂'.bare g := by
        rw [← hs₁', ← hs₂', log_bare, log_bare]
        show Search.log { s₁.bare g with
            stack := Frame.bare g { top₁ with state, clock } :: below₁.map (Frame.bare g)
            nextNum := s₂.nextNum + 1 } _ = Search.log { s₂.bare g with
            stack := Frame.bare g { top₂ with state, clock } :: below₂.map (Frame.bare g)
            nextNum := s₂.nextNum + 1 } _
        rw [h, htop', hbelow]
      have hnum' : s₁'.nextNum = s₂'.nextNum := by rw [← hs₁', ← hs₂']; rfl
      have hview'' : view s₁'.machine = view s₂'.machine := by
        rw [← hs₁', ← hs₂']
        exact hview'
      rw [hnum']
      split
      · refine .of_eq ?_
        rw [report_bare, report_bare, hbare]
      · split_ifs
        · refine .of_eq ?_
          rw [report_bare, report_bare, hbare]
        · exact arrive_inStep hdet ho hbare hview'' htop' _

theorem turn_inStep (hdet : drv.Deterministic view) (ho : o₁.Alike o₂) (h : s₁.bare g = s₂.bare g)
    (hview : view s₁.machine = view s₂.machine) : InStep g (turn drv o₁ s₁) (turn drv o₂ s₂) := by
  unfold turn
  cases drv.interrupted s₁.machine with
  | some cause => exact .of_left
  | none =>
    cases drv.interrupted s₂.machine with
    | some cause => exact .of_right
    | none =>
      obtain ⟨hnil₁, hnil₂⟩ | ⟨top₁, below₁, top₂, below₂, hstack₁, hstack₂, htop, hbelow⟩ := stack_cases h
      · rw [hnil₁, hnil₂]
        exact .of_eq h
      · have hlength : below₁.length = below₂.length := by simpa using congrArg List.length hbelow
        rw [hstack₁, hstack₂]
        dsimp only
        rw [hlength, ho.withinDepth, Frame.state_eq_of_bare htop]
        split_ifs
        · refine backtrack_inStep ho ?_
          rw [cut_bare, cut_bare, h, htop]
        · exact backtrack_inStep ho h
        · split
          · exact backtrack_inStep ho h
          · exact advance_inStep hdet ho h hview htop hbelow _

theorem start_inStep (ho : o₁.Alike o₂) (hgraph : g = true → o₁.graph = o₂.graph) (m : σ) :
    InStep g (start drv o₁ (new o₁ m)) (start drv o₂ (new o₂ m)) := by
  unfold start
  dsimp only [new]
  rw [ho.maxVisited, ho.reduction, ho.maxDepth]
  obtain ⟨answer, m₁⟩ := drv.initialActors m
  cases answer with
  | error e => exact .of_left
  | ok actors =>
    dsimp only
    obtain ⟨snapped, m₂⟩ := drv.snapshot m₁
    cases snapped with
    | error e => exact .of_left
    | ok snapshot =>
      dsimp only
      split
      · exact .of_left
      · rename_i s _
        have hrooted : ∀ n : GraphNode,
            { s with graph := if o₁.graph = true then some (Tree.leaf n) else none }.bare g =
              { s with graph := if o₂.graph = true then some (Tree.leaf n) else none }.bare g := by
          intro n
          cases g with
          | false => rfl
          | true => rw [hgraph rfl]
        rw [ho.consider]
        generalize hs₁ : Search.log _ _ = s₁
        generalize hs₂ : Search.log _ _ = s₂
        have hbare : s₁.bare g = s₂.bare g := by
          rw [← hs₁, ← hs₂, log_bare, log_bare, push_bare, push_bare, hrooted]
        have hrunning : { s₁ with phase := .running }.bare g = { s₂ with phase := .running }.bare g :=
          congrArg (fun s : Search Unit κ => { s with phase := .running }) hbare
        refine .of_eq ?_
        split_ifs
        · rw [report_bare, report_bare, hrunning]
        · exact hrunning

end Search

namespace Trail

variable {drv : Driver σ κ} {view : σ → π} {g : Bool}

theorem path_eq_of_bare {below₁ below₂ : List (Spot σ κ)}
    (h : (below₁.map Spot.frame).map (Frame.bare g) = (below₂.map Spot.frame).map (Frame.bare g)) :
    path below₁ = path below₂ := by
  induction below₁ generalizing below₂ with
  | nil =>
    cases below₂ with
    | nil => rfl
    | cons q below₂ => cases h
  | cons p below₁ ih =>
    cases below₂ with
    | nil => cases h
    | cons q below₂ =>
      simp only [List.map_cons, List.cons.injEq] at h
      have hstate : p.state = q.state := Frame.state_eq_of_bare h.1
      rw [path, path, ih h.2, Spot.outgoing, Spot.outgoing, hstate]

end Trail

namespace Search

variable [Snapshot κ] {drv : Driver σ κ} {view : σ → π} {g : Bool} {o₁ o₂ : Options} {m : σ} {s₁ s₂ : Search σ κ}

omit [Snapshot κ] in
theorem finished_eq_of_bare (h : s₁.bare g = s₂.bare g) : s₁.finished = s₂.finished := by
  have hphase : s₁.phase = s₂.phase := by simpa only [bare] using congrArg Search.phase h
  obtain ⟨hnil₁, hnil₂⟩ | ⟨f₁, below₁, f₂, below₂, hstack₁, hstack₂, -⟩ := stack_cases h
  · simp [finished, hnil₁, hnil₂]
  · simp [finished, hstack₁, hstack₂, hphase]

theorem Reached.view_eq (hdet : drv.Deterministic view) (h₁ : Reached drv o₁ m s₁) (h₂ : Reached drv o₂ m s₂)
    (h : s₁.bare g = s₂.bare g) (hopen : s₁.finished = false) : view s₁.machine = view s₂.machine := by
  -- The stacks of searches that agree are the same path, so their drivers stand at the same program state.
  have hopen₂ : s₂.finished = false := finished_eq_of_bare h ▸ hopen
  obtain ⟨root, T₁, p₁, below₁, hroot₁, -, ht₁, hspots₁⟩ := Trail.tracks_of_open hdet h₁ hopen
  obtain ⟨root₂, T₂, p₂, below₂, hroot₂, -, ht₂, hspots₂⟩ := Trail.tracks_of_open hdet h₂ hopen₂
  cases hroot₁.symm.trans hroot₂
  have hstack := stack_bare_eq h
  rw [show s₁.stack = T₁.spots.map Spot.frame from ht₁.stack,
    show s₂.stack = T₂.spots.map Spot.frame from ht₂.stack, hspots₁, hspots₂] at hstack
  simp only [List.map_cons, List.cons.injEq] at hstack
  have hwalk₁ := (hspots₁ ▸ ht₁.sound).walk_path
  have hwalk₂ := (hspots₂ ▸ ht₂.sound).walk_path
  rw [Trail.path_eq_of_bare hstack.2, hwalk₂] at hwalk₁
  have hnode : p₂.node = p₁.node := Option.some.inj hwalk₁
  calc view s₁.machine = view p₁.node.machine := ht₁.position p₁ below₁ hspots₁
    _ = view p₂.node.machine := by rw [hnode]
    _ = view s₂.machine := (ht₂.position p₂ below₂ hspots₂).symm

/-- Both runs go on, or both end without an error, in searches that agree. -/
def Abreast (g : Bool) (x y : Option (Option Abort × Search σ κ)) : Prop :=
  Option.Rel (fun x y => x.1 = none ∧ y.1 = none ∧ x.2.bare g = y.2.bare g) x y

omit [Snapshot κ] in
theorem Abreast.relates {R : Option Abort × Search σ κ → Option Abort × Search σ κ → Prop}
    {x y : Option (Option Abort × Search σ κ)} (h : Abreast g x y)
    (hR : ∀ s₁ s₂, x = some (none, s₁) → y = some (none, s₂) → s₁.bare g = s₂.bare g →
      R (none, s₁) (none, s₂)) : Option.Rel R x y := by
  cases h with
  | none => exact .none
  | @some x y h =>
    obtain ⟨a₁, s₁⟩ := x
    obtain ⟨a₂, s₂⟩ := y
    obtain ⟨rfl, rfl, h⟩ : a₁ = none ∧ a₂ = none ∧ s₁.bare g = s₂.bare g := h
    exact .some (hR s₁ s₂ rfl rfl h)

def Unaborted (ended : Option (Option Abort × Search σ κ)) : Prop := ∀ a s, ended ≠ some (some a, s)

theorem loop_abreast (hdet : drv.Deterministic view) (ho : o₁.Alike o₂) (fuel : Nat)
    (h₁ : Reached drv o₁ m s₁) (h₂ : Reached drv o₂ m s₂) (h : s₁.bare g = s₂.bare g)
    (hend₁ : Unaborted (loop drv o₁ fuel s₁)) (hend₂ : Unaborted (loop drv o₂ fuel s₂)) :
    Abreast g (loop drv o₁ fuel s₁) (loop drv o₂ fuel s₂) := by
  induction fuel generalizing s₁ s₂ with
  | zero =>
    rw [loop, loop, finished_eq_of_bare h]
    split_ifs
    · exact .some ⟨rfl, rfl, h⟩
    · exact .none
  | succ fuel ih =>
    rw [loop, finished_eq_of_bare h] at hend₁ ⊢
    rw [loop] at hend₂ ⊢
    split_ifs at hend₁ hend₂ ⊢ with hfin
    · exact .some ⟨rfl, rfl, h⟩
    · have hfin : s₂.finished = false := by simpa using hfin
      have hopen : s₁.finished = false := (finished_eq_of_bare h).trans hfin
      have hturn := turn_inStep hdet ho h (h₁.view_eq hdet h₂ h hopen)
      rcases hturn₁ : turn drv o₁ s₁ with ⟨_ | a, s₁'⟩
      · rcases hturn₂ : turn drv o₂ s₂ with ⟨_ | a, s₂'⟩
        · rw [hturn₁] at hend₁ hturn
          rw [hturn₂] at hend₂ hturn
          exact ih (.turn h₁ hopen hturn₁) (.turn h₂ hfin hturn₂) (hturn rfl rfl) hend₁ hend₂
        · exact absurd (by rw [hturn₂]) (hend₂ a s₂')
      · exact absurd (by rw [hturn₁]) (hend₁ a s₁')

omit [Snapshot κ] in
theorem close_abreast {x y : Option (Option Abort × Search σ κ)} (h : Abreast g x y) :
    Abreast g (x.map close) (y.map close) := by
  cases h with
  | none => exact .none
  | @some x y h =>
    obtain ⟨a₁, s₁⟩ := x
    obtain ⟨a₂, s₂⟩ := y
    obtain ⟨rfl, rfl, h⟩ : a₁ = none ∧ a₂ = none ∧ s₁.bare g = s₂.bare g := h
    have houtcome : s₁.outcome = s₂.outcome := congrArg (fun s : Search Unit κ => s.outcome) h
    have hstats : s₁.stats = s₂.stats := by simpa only [bare] using congrArg Search.stats h
    have hlogged : (s₁.log (.finished s₁.outcome s₁.stats)).bare g =
        (s₂.log (.finished s₂.outcome s₂.stats)).bare g := by
      rw [log_bare, log_bare, h, houtcome, hstats]
    exact .some ⟨rfl, rfl, congrArg (fun s : Search Unit κ => { s with phase := .done }) hlogged⟩

theorem run_abreast (hdet : drv.Deterministic view) (ho : o₁.Alike o₂)
    (hgraph : g = true → o₁.graph = o₂.graph) (fuel : Nat) (hend₁ : Unaborted (run drv o₁ fuel m))
    (hend₂ : Unaborted (run drv o₂ fuel m)) : Abreast g (run drv o₁ fuel m) (run drv o₂ fuel m) := by
  have hstart : InStep g (start drv o₁ (new o₁ m)) (start drv o₂ (new o₂ m)) := start_inStep ho hgraph m
  have hclosed : ∀ ended : Option (Option Abort × Search σ κ), Unaborted (ended.map close) → Unaborted ended := by
    rintro _ h a s rfl
    cases a <;> exact h _ _ rfl
  unfold run at hend₁ hend₂ ⊢
  rcases hstart₁ : start drv o₁ (new o₁ m) with ⟨_ | a, s₁⟩
  · rcases hstart₂ : start drv o₂ (new o₂ m) with ⟨_ | a, s₂⟩
    · rw [hstart₁] at hend₁ hstart
      rw [hstart₂] at hend₂ hstart
      exact close_abreast (loop_abreast hdet ho fuel (.start hstart₁) (.start hstart₂) (hstart rfl rfl)
        (hclosed _ hend₁) (hclosed _ hend₂))
    · rw [hstart₂] at hend₂
      exact absurd hend₂ (by cases a <;> exact fun h => h _ _ rfl)
  · rw [hstart₁] at hend₁
    exact absurd hend₁ (by cases a <;> exact fun h => h _ _ rfl)

end Search

end Interleave
