import Interleave.Proofs.Progress
import Interleave.Proofs.TreePaths

/-! The bookkeeping of a search holds together whatever the driver answers: answers may depend on all earlier
calls, actors may come and go, and going back may fail to bring anything back. A breach of it can only come from a
driver that reports a transition of an actor it was not asked to run, or that has no snapshot to give. -/

namespace Interleave

variable {σ κ : Type}

def Driver.Echoes (drv : Driver σ κ) : Prop :=
  ∀ a outcome m r, (drv.execute a outcome m).1 = .ok r → r.transition.actor = a

def Frame.Noded (graph : Option Graph) (f : Frame κ) : Prop :=
  ∃ g t, graph = some g ∧ g.get? f.node = some t ∧ t.payload.num = f.state.num

/-- The frames of a stack, from the top to the bottom, are in order: each state is well-formed and has its node in
the graph if one is recorded, each frame below the top has been left, and there is a snapshot of the bottom frame if
the driver has snapshots to give. -/
inductive Orderly (drv : Driver σ κ) (o : Options) (graph : Option Graph) : List (Frame κ) → Prop
  | nil : Orderly drv o graph []
  | cons {f : Frame κ} {below : List (Frame κ)} (hbelow : Orderly drv o graph below)
      (wellFormed : f.state.WellFormed) (left : ∀ g ∈ below.head?, g.state.transition.isSome = true)
      (grounded : drv.GivesSnapshots → below = [] → f.snapshot.isSome = true)
      (noded : o.graph = true → f.Noded graph) : Orderly drv o graph (f :: below)

namespace Orderly

variable {drv : Driver σ κ} {o : Options} {graph graph' : Option Graph} {f f' : Frame κ}
  {below fs fs' : List (Frame κ)}

theorem tail (h : Orderly drv o graph (f :: below)) : Orderly drv o graph below := by
  cases h with
  | cons hbelow => exact hbelow

theorem wellFormed (h : Orderly drv o graph fs) : ∀ f ∈ fs, f.state.WellFormed := by
  induction h with
  | nil => exact fun _ hf => by cases hf
  | cons _ hw _ _ _ ih => exact List.forall_mem_cons.mpr ⟨hw, ih⟩

theorem noded (h : Orderly drv o graph fs) (hgraph : o.graph = true) : ∀ f ∈ fs, f.Noded graph := by
  induction h with
  | nil => exact fun _ hf => by cases hf
  | cons _ _ _ _ hnoded ih => exact List.forall_mem_cons.mpr ⟨hnoded hgraph, ih⟩

theorem left (h : Orderly drv o graph (f :: below)) : ∀ g ∈ below, g.state.transition.isSome = true := by
  induction below generalizing f with
  | nil => exact fun _ hg => by cases hg
  | cons g below ih =>
    cases h with
    | cons hbelow _ hleft => exact List.forall_mem_cons.mpr ⟨hleft g rfl, ih hbelow⟩

theorem nearestSnapshot (h : Orderly drv o graph fs) (hgives : drv.GivesSnapshots) (hne : fs ≠ []) :
    (Search.nearestSnapshot fs).isSome = true := by
  induction h with
  | nil => exact absurd rfl hne
  | @cons f below _ _ _ hgrounded _ ih =>
    rw [Search.nearestSnapshot]
    cases hsnapshot : f.snapshot with
    | some k => rfl
    | none =>
      have hbelow : below ≠ [] := by
        intro hnil
        have hsome := hgrounded hgives hnil
        rw [hsnapshot] at hsome
        cases hsome
      simpa using ih hbelow

theorem retop (h : Orderly drv o graph (f :: below)) (hw : f'.state.WellFormed)
    (hnum : f'.state.num = f.state.num) (hsnapshot : f'.snapshot = f.snapshot) (hnode : f'.node = f.node) :
    Orderly drv o graph (f' :: below) := by
  cases h with
  | cons hbelow _ hleft hgrounded hnoded =>
    refine .cons hbelow hw hleft (hsnapshot ▸ hgrounded) fun hgraph => ?_
    rw [Frame.Noded, hnum, hnode]
    exact hnoded hgraph

theorem remarked (h : Orderly drv o graph fs) (hmarks : List.Forall₂ Frame.Remarked fs fs') :
    Orderly drv o graph fs' := by
  induction hmarks with
  | nil => exact h
  | @cons f f' below below' hf hbelow ih =>
    have hleft : ∀ g ∈ below'.head?, g.state.transition.isSome = true := by
      intro g' hg'
      cases hbelow with
      | nil => cases hg'
      | cons hg _ =>
        cases hg'
        rw [hg.state.transition]
        exact h.left _ List.mem_cons_self
    have hlength := hbelow.length_eq
    cases h with
    | cons hrest hw _ hgrounded hnoded =>
      refine .cons (ih hrest) (hf.state.wellFormed hw) hleft ?_ fun hgraph => ?_
      · rintro hgives rfl
        rw [hf.snapshot]
        exact hgrounded hgives (List.length_eq_zero_iff.mp hlength)
      · rw [Frame.Noded, hf.state.num, hf.node]
        exact hnoded hgraph

end Orderly

def Graph.Extends (graph graph' : Option Graph) : Prop :=
  ∀ g, graph = some g → ∃ g', graph' = some g' ∧ Tree.Grows GraphNode.num g g'

theorem Graph.Extends.refl (graph : Option Graph) : Graph.Extends graph graph := fun g h => ⟨g, h, .refl g⟩

theorem Orderly.extend {drv : Driver σ κ} {o : Options} {graph graph' : Option Graph} {fs : List (Frame κ)}
    (h : Orderly drv o graph fs) (hext : Graph.Extends graph graph') : Orderly drv o graph' fs := by
  induction h with
  | nil => exact .nil
  | cons _ hw hleft hgrounded hnoded ih =>
    refine .cons ih hw hleft hgrounded fun hgraph => ?_
    obtain ⟨g, t, hg, hget, hnum⟩ := hnoded hgraph
    obtain ⟨g', hg', hgrows⟩ := hext g hg
    obtain ⟨t', hget', hnum'⟩ := hgrows _ t hget
    exact ⟨g', t', hg', hget', hnum'.trans hnum⟩

namespace Search

variable {drv : Driver σ κ} {o : Options} {s : Search σ κ}

theorem logAll_graph (s : Search σ κ) (es : List Event) : (s.logAll es).graph = s.graph := by
  induction es generalizing s with
  | nil => rfl
  | cons e es ih => exact ih (s.log e)

theorem logAll_stack (s : Search σ κ) (es : List Event) : (s.logAll es).stack = s.stack :=
  congrArg Ledger.stack (logAll_ledger s es)

theorem addNode_stack (s : Search σ κ) (path : Tree.Path) (n : GraphNode) :
    (s.addNode path n).2.stack = s.stack := congrArg Ledger.stack (addNode_ledger s path n)

theorem addNode_extends {graph : Option Graph} (hs : s.graph = graph) (path : Tree.Path) (n : GraphNode) :
    Graph.Extends graph (s.addNode path n).2.graph := by
  intro g hg
  refine ⟨g.addChild path n, ?_, Tree.addChild_grows path n g⟩
  rw [addNode, hs, hg]

theorem addNode_noded {f : Frame κ} (h : f.Noded s.graph) (n : GraphNode) :
    ∃ g, (s.addNode f.node n).2.graph = some g ∧ g.get? (s.addNode f.node n).1 = some (Tree.leaf n) := by
  obtain ⟨g, t, hg, hget, -⟩ := h
  refine ⟨g.addChild f.node n, ?_, ?_⟩
  · rw [addNode, hg]
  · rw [addNode, hg]
    exact Tree.get?_nextChild hget n

theorem updateNode_extends (s : Search σ κ) (path : Tree.Path) {f : GraphNode → GraphNode}
    (hf : ∀ n, (f n).num = n.num) : Graph.Extends s.graph (s.updateNode path f).graph := by
  intro g hg
  refine ⟨g.update path f, ?_, Tree.update_grows hf path g⟩
  rw [updateNode, hg]
  rfl

theorem cut_extends (s : Search σ κ) (top : Frame κ) : Graph.Extends s.graph (s.cut top).graph :=
  updateNode_extends _ top.node fun _ => rfl

theorem report_stack (s : Search σ κ) (v : Violation) (num : Int) : (s.report v num).stack = s.stack :=
  congrArg Ledger.stack (report_ledger s v num)

theorem report_extends (s : Search σ κ) (v : Violation) (num : Int) :
    Graph.Extends s.graph (s.report v num).graph := by
  unfold report
  dsimp only
  split
  · exact .refl _
  · split
    · exact updateNode_extends _ _ fun _ => rfl
    · exact addNode_extends (by rfl) _ _

theorem report_orderly {graph : Option Graph} {fs : List (Frame κ)} (h : Orderly drv o graph fs)
    (hgraph : s.graph = graph) (hstack : s.stack = fs) (v : Violation) (num : Int) :
    Orderly drv o (s.report v num).graph (s.report v num).stack := by
  rw [report_stack, hstack]
  exact h.extend (hgraph ▸ report_extends s v num)

end Search

namespace State

variable {s s' : State} {drv : Driver σ κ} {a : ActorId} {m m' : σ}

theorem execute_wellFormed {answer : Except ExecuteError StepResult} (hw : s.WellFormed)
    (h : s.execute drv.execute a m = (answer, s', m')) : s'.WellFormed ∧ s'.num = s.num := by
  unfold execute at h
  split at h
  · cases h
    exact ⟨hw, rfl⟩
  · rename_i outcome taken htake
    have htaken : taken.WellFormed ∧ taken.num = s.num := ⟨take_wellFormed htake hw, take_num htake⟩
    split at h
    · cases h
      exact htaken
    · split_ifs at h
      · cases h
        exact ⟨⟨htaken.1.ascending, htaken.1.tallied⟩, htaken.2⟩
      · cases h
        exact htaken

theorem execute_fault (hw : s.WellFormed) (hnext : s.next? = some a) {f : Fault}
    (h : s.execute drv.execute a m = (.error (.fault f), s', m')) : ¬ drv.Echoes := by
  -- The actor tried next is known and can run, so only the reported transition can be wrong.
  obtain ⟨outcome, taken, htake⟩ := take_ok hw hnext
  unfold execute at h
  rw [htake] at h
  dsimp only at h
  split at h
  · cases h
  · rename_i r m₁ hrun
    split_ifs at h with hactor
    · cases h
    · intro hecho
      exact hactor (hecho a outcome m r (congrArg Prod.fst hrun))

end State

def Abort.isPanic : Abort → Bool
  | fault _ | crash => true
  | _ => false

structure Proper (drv : Driver σ κ) (o : Options) (r : Option Abort × Search σ κ) : Prop where
  orderly : Orderly drv o r.2.graph r.2.stack
  blame : ∀ a, r.1 = some a → a.isPanic = true → ¬ (drv.Echoes ∧ drv.GivesSnapshots) := by rintro _ ⟨⟩ ⟨⟩

namespace Search

variable {drv : Driver σ κ} {o : Options} {s : Search σ κ}

theorem restoreTop_proper (h : Orderly drv o s.graph s.stack) (hne : s.stack ≠ []) :
    Proper drv o (restoreTop drv s) := by
  unfold restoreTop
  split
  · split
    · exact { orderly := h }
    · dsimp only
      split
      · exact { orderly := h }
      · exact { orderly := h }
  · rename_i hmissing
    refine ⟨h, fun _ _ _ hgood => ?_⟩
    obtain ⟨top, below, hstack⟩ := List.exists_cons_of_ne_nil hne
    obtain ⟨⟨above, base, k⟩, hnear⟩ := Option.isSome_iff_exists.mp (h.nearestSnapshot hgood.2 hne)
    exact hmissing top below above base k hstack hnear

theorem unwind_proper (count : Nat) (h : Orderly drv o s.graph s.stack) :
    Proper drv o (unwind drv o count s) := by
  induction count generalizing s with
  | zero => exact { orderly := h }
  | succ count ih =>
    cases hstack : s.stack with
    | nil =>
      rw [unwind, hstack]
      exact { orderly := h }
    | cons f below =>
      rw [hstack] at h
      -- Every frame below has been left, so the analysis cannot miss a transition.
      obtain ⟨⟨below', es⟩, hsettle⟩ := settle_ok o f h.left
      have hmarks := settle_remarked h.tail.wellFormed hsettle
      have hsettled : Orderly drv o s.graph (f :: below') := h.remarked (.cons (.refl f) hmarks)
      rw [Trail.unwind_succ count hstack, hsettle]
      dsimp only
      generalize hs₁ : Search.logAll _ es = s₁
      have hgraph : s₁.graph = s.graph := hs₁ ▸ logAll_graph _ es
      have hbelow : s₁.stack = below' := hs₁ ▸ logAll_stack _ es
      rw [← hgraph, ← hbelow] at hsettled
      split_ifs
      · have hrestored : Proper drv o (restoreTop drv (s₁.push f)) :=
          restoreTop_proper hsettled (List.cons_ne_nil f s₁.stack)
        split
        · rename_i s₂ hrestore
          rw [hrestore] at hrestored
          exact { orderly := hrestored.orderly }
        · rename_i a s₂ hrestore
          rw [hrestore] at hrestored
          exact hrestored
      · exact ih (s := s₁.log _) hsettled.tail

theorem backtrack_proper (h : Orderly drv o s.graph s.stack) : Proper drv o (backtrack drv o s) :=
  unwind_proper _ h

theorem skip_proper (h : Orderly drv o s.graph s.stack) (hne : s.stack ≠ []) (top : Frame κ) (next : State)
    (old : VisitedEntry κ) : Proper drv o (skip drv o s top next old) := by
  unfold skip
  dsimp only
  generalize hs₁ : Search.log _ _ = s₁
  have hstack : s₁.stack = s.stack := by
    rw [← hs₁]
    exact addNode_stack _ _ _
  have h₁ : Orderly drv o s₁.graph s₁.stack := by
    rw [hstack]
    refine h.extend ?_
    rw [← hs₁]
    exact addNode_extends (by rfl) _ _
  split_ifs
  · exact backtrack_proper h₁
  · exact restoreTop_proper h₁ (hstack ▸ hne)

theorem enter_orderly {top : Frame κ} {below : List (Frame κ)} (h : Orderly drv o s.graph s.stack)
    (hstack : s.stack = top :: below) (hleft : top.state.transition.isSome = true) {next : State}
    (hnext : next.WellFormed) (snapshot : Option κ) :
    Orderly drv o (s.enter o top next snapshot).graph (s.enter o top next snapshot).stack := by
  have hmarks := Trail.consider_remarked o next
  unfold enter
  dsimp only
  generalize hn : GraphNode.explored next.num top.state.transition = n
  have hrest : Orderly drv o (s.addNode top.node n).2.graph (s.addNode top.node n).2.stack := by
    rw [addNode_stack]
    exact h.extend (addNode_extends rfl top.node n)
  refine .cons hrest (hmarks.wellFormed hnext) ?_ ?_ ?_
  · rw [addNode_stack, hstack]
    rintro _ ⟨⟩
    exact hleft
  · intro _ hnil
    rw [addNode_stack, hstack] at hnil
    cases hnil
  · intro hgraph
    have htop : top.Noded s.graph := h.noded hgraph top (hstack ▸ List.mem_cons_self)
    obtain ⟨g, hg, hget⟩ := addNode_noded htop n
    refine ⟨g, Tree.leaf n, hg, hget, ?_⟩
    show n.num = (consider o next).num
    rw [hmarks.num, ← hn]
    rfl

variable [Snapshot κ]

theorem arrive_proper {top : Frame κ} {below : List (Frame κ)} (h : Orderly drv o s.graph s.stack)
    (hstack : s.stack = top :: below) (hleft : top.state.transition.isSome = true) {next : State}
    (hnext : next.WellFormed) (hnum : ∀ e ∈ s.visited.entries, e.num < next.num) :
    Proper drv o (arrive drv o s top next) := by
  unfold arrive
  split_ifs
  · split
    · exact { orderly := h }
    · rename_i m hsnap
      exact ⟨h, fun _ _ _ hgood => hgood.2 s.machine (congrArg Prod.fst hsnap)⟩
    · rename_i k m hsnap
      dsimp only
      split
      · rename_i hrepeated
        exact absurd hrepeated (VisitedSet.add_ne_repeated hnum)
      · refine skip_proper ?_ ?_ top next _
        · exact h
        · exact hstack ▸ List.cons_ne_nil top below
      · rename_i total gone _
        generalize hs₁ : Search.logAll _ _ = s₁
        have hstack₁ : s₁.stack = s.stack := hs₁ ▸ logAll_stack _ _
        have hgraph₁ : s₁.graph = s.graph := hs₁ ▸ logAll_graph _ _
        rw [← hgraph₁, ← hstack₁] at h
        exact { orderly := enter_orderly h (hstack₁.trans hstack) hleft hnext _ }
  · split
    · exact { orderly := h }
    · rename_i snapshot m hsnap
      exact { orderly := enter_orderly (s := { s with machine := m }) h hstack hleft hnext snapshot }
  · exact { orderly := enter_orderly h hstack hleft hnext none }

theorem advance_proper {top : Frame κ} {below : List (Frame κ)} {a : ActorId}
    (h : Orderly drv o s.graph (top :: below)) (hnum : s.ledger.Numbered) (hnext : top.state.next? = some a) :
    Proper drv o (advance drv o s top below a) := by
  have hw : top.state.WellFormed := h.wellFormed top List.mem_cons_self
  unfold advance
  split
  · rename_i e state m hexec
    obtain ⟨hstate, hstateNum⟩ := State.execute_wellFormed hw hexec
    have hretop : Orderly drv o s.graph ({ top with state } :: below) := h.retop hstate hstateNum rfl rfl
    cases e with
    | fault f => exact ⟨hretop, fun _ _ _ hgood => State.execute_fault hw hnext hexec hgood.1⟩
    | driver e => exact { orderly := hretop }
  · rename_i r state m hexec
    obtain ⟨hstate, hstateNum⟩ := State.execute_wellFormed hw hexec
    dsimp only
    split
    · rename_i fault hclock
      obtain ⟨clock, hok⟩ := Race.clockOf_ok h.left r.transition
      cases ho : o.reduction <;> simp [ho, hok] at hclock
    · rename_i clock hclock
      have hretop : Orderly drv o s.graph ({ top with state, clock } :: below) := h.retop hstate hstateNum rfl rfl
      split
      · exact { orderly := report_orderly hretop (by rfl) (by rfl) _ _ }
      · split_ifs
        · exact { orderly := report_orderly hretop (by rfl) (by rfl) _ _ }
        · have hleft : state.transition.isSome = true := by
            obtain ⟨outcome, taken, -, -, -, rfl⟩ := State.execute_eq_ok hexec
            rfl
          have hfresh := State.successor_fresh hstate.ascending (s.nextNum + 1 - 1) r
          apply arrive_proper hretop rfl hleft hfresh.wellFormed
          -- The new state is numbered after all that have been visited.
          intro e he
          have hlt : e.num < s.nextNum := hnum e he
          show e.num < s.nextNum + 1 - 1
          omega

theorem turn_proper (h : Orderly drv o s.graph s.stack) (hnum : s.ledger.Numbered) :
    Proper drv o (turn drv o s) := by
  unfold turn
  split
  · exact { orderly := h }
  · split
    · exact { orderly := h }
    · rename_i top below hstack
      split_ifs
      · exact backtrack_proper (s := s.cut top) (h.extend (cut_extends s top))
      · exact backtrack_proper h
      · split
        · exact backtrack_proper h
        · rename_i a hnext
          rw [hstack] at h
          exact advance_proper h hnum hnext

theorem start_proper (m : σ) : Proper drv o (start drv o (new o m)) := by
  unfold start
  split
  · exact { orderly := .nil }
  · rename_i actors m₁ hinit
    dsimp only
    split
    · exact { orderly := .nil }
    · rename_i snapshot m₂ hsnap
      have hsnapshot : drv.GivesSnapshots → snapshot.isSome = true := by
        intro hgives
        refine Option.isSome_iff_ne_none.mpr fun hnone => ?_
        exact hgives m₁ (hnone ▸ congrArg Prod.fst hsnap)
      split
      · rename_i hentered
        refine ⟨.nil, fun _ _ _ hgood => ?_⟩
        obtain ⟨k, rfl⟩ := Option.isSome_iff_exists.mp (hsnapshot hgood.2)
        split_ifs at hentered
      · rename_i s₁ hentered
        have hempty : s₁.stack = [] := by
          split_ifs at hentered
          · cases snapshot with
            | none => cases hentered
            | some k =>
              cases hentered
              rfl
          · cases hentered
            rfl
        have hmarks := Trail.consider_remarked o (State.new 0 actors)
        generalize hs₂ : Search.log _ _ = s₂
        have hroot : Orderly drv o s₂.graph s₂.stack := by
          rw [← hs₂]
          refine .cons (hempty ▸ .nil) (hmarks.wellFormed (State.new_fresh 0 actors).wellFormed) ?_ ?_ ?_
          · rw [show Search.stack _ = [] from hempty]
            rintro _ ⟨⟩
          · exact fun hgives _ => hsnapshot hgives
          · intro hgraph
            exact ⟨_, _, if_pos hgraph, rfl, rfl⟩
        refine { orderly := ?_ }
        dsimp only
        split_ifs
        · exact report_orderly hroot (by rfl) (by rfl) _ _
        · exact hroot

theorem Reached.orderly {m : σ} (h : Reached drv o m s) : Orderly drv o s.graph s.stack := by
  induction h with
  | start h =>
    have hproper : Proper drv o _ := start_proper m
    rw [h] at hproper
    exact hproper.orderly
  | turn hs _ h ih =>
    have hproper := turn_proper ih hs.numbered
    rw [h] at hproper
    exact hproper.orderly

omit [Snapshot κ] in
theorem close_proper {r : Option Abort × Search σ κ} (h : Proper drv o r) : Proper drv o (close r) := by
  unfold close
  split
  · exact ⟨h.orderly, h.blame⟩
  · exact ⟨h.orderly, h.blame⟩
  · exact ⟨h.orderly, h.blame⟩
  · exact ⟨h.orderly, h.blame⟩

theorem loop_proper {m : σ} {fuel : Nat} {r : Option Abort × Search σ κ} (h : Reached drv o m s)
    (hloop : loop drv o fuel s = some r) : Proper drv o r := by
  induction fuel generalizing s with
  | zero =>
    simp only [loop] at hloop
    split_ifs at hloop
    cases hloop
    exact { orderly := h.orderly }
  | succ fuel ih =>
    simp only [loop] at hloop
    split_ifs at hloop with hfin
    · cases hloop
      exact { orderly := h.orderly }
    · have hturn := turn_proper h.orderly h.numbered
      split at hloop
      · rename_i a s₁ hstep
        cases hloop
        rwa [hstep] at hturn
      · rename_i s₁ hstep
        exact ih (.turn h (by simpa using hfin) hstep) hloop

theorem run_proper {m : σ} {fuel : Nat} {r : Option Abort × Search σ κ} (h : run drv o fuel m = some r) :
    Proper drv o r := by
  have hstarted : Proper drv o (start drv o (new o m)) := start_proper m
  unfold run at h
  split at h
  · rename_i a s₀ hstart
    cases h
    exact close_proper (hstart ▸ hstarted)
  · rename_i s₀ hstart
    obtain ⟨r₁, hloop, rfl⟩ := Option.map_eq_some_iff.mp h
    exact close_proper (loop_proper (.start hstart) hloop)

end Search

/-- Neither a crash nor a breach of the bookkeeping ends a search of a driver that echoes the executed actors and gives
snapshots, whatever else it answers. Wherever the search stands, at the head of an iteration or when it has ended, every frame
below the top has been left by a transition, there is a snapshot to go back to, and every frame has its node in the
recorded graph. -/
theorem bookkeeping_never_faults [Snapshot κ] {drv : Driver σ κ} (hecho : drv.Echoes)
    (hgives : drv.GivesSnapshots) (o : Options) (m : σ) :
    (∀ fuel a s, Search.run drv o fuel m = some (some a, s) → a ≠ .crash ∧ ∀ f, a ≠ .fault f) ∧
      ∀ s, (Search.Reached drv o m s ∨ ∃ fuel ended, Search.run drv o fuel m = some (ended, s)) →
        (∀ f ∈ s.stack.tail, f.state.transition.isSome = true) ∧
        (s.stack ≠ [] → (Search.nearestSnapshot s.stack).isSome = true) ∧
        (o.graph = true → ∀ f ∈ s.stack, f.Noded s.graph) := by
  refine ⟨fun fuel a s hrun => ?_, fun s hs => ?_⟩
  · have hcalm : a.isPanic ≠ true := fun hpanic => (Search.run_proper hrun).blame a rfl hpanic ⟨hecho, hgives⟩
    constructor
    · rintro rfl
      exact hcalm rfl
    · rintro f rfl
      exact hcalm rfl
  · have horderly : Orderly drv o s.graph s.stack := by
      rcases hs with hreached | ⟨fuel, ended, hrun⟩
      · exact hreached.orderly
      · exact (Search.run_proper hrun).orderly
    refine ⟨?_, horderly.nearestSnapshot hgives, horderly.noded⟩
    generalize s.stack = fs at horderly
    cases fs with
    | nil => exact fun _ hf => by cases hf
    | cons f below => exact horderly.left

structure Moment where
  calls : Nat
deriving DecidableEq

instance : Snapshot Moment where
  actorCount k := k.calls % 2
  heapBytes _ := 0
  same k k' := (k.calls + k'.calls) % 3 == 0

/-- A driver whose answers depend on the number of calls made so far: actors come and go, going back brings nothing
back, and after twenty calls it fails. -/
def Driver.erratic : Driver Nat Moment where
  initialActors calls := (.ok [⟨1, true, 2⟩, ⟨2, true, 1⟩], calls + 1)
  execute a outcome calls :=
    (.ok
      { transition := { actor := a, kind := .write, resource := "x", outcome, args := "", guarded := false }
        enabled := if calls % 2 = 0 then [⟨calls, true, 2⟩] else []
        disabled := if calls % 3 = 0 then [1] else []
        finished := if calls % 4 = 3 then [a, 7] else []
        violation := none },
      calls + 1)
  snapshot calls := (.ok (some ⟨calls⟩), calls + 1)
  restore _ calls := (if calls < 20 then .ok () else .error (.reported "lost"), calls + 1)
  interrupted _ := none

theorem Driver.erratic_echoes : Driver.erratic.Echoes := by
  intro a outcome m r h
  cases h
  rfl

theorem Driver.erratic_givesSnapshots : Driver.erratic.GivesSnapshots := by
  intro m h
  cases h

theorem bookkeeping_never_faults_erratic :
    Driver.erratic.Echoes ∧ Driver.erratic.GivesSnapshots ∧
      ∃ a s, Search.run Driver.erratic ⟨3, .dpor, 0, 2, true⟩ 20 0 = some (some a, s) ∧
        s.stack.map (·.state.ids) = [[1, 2, 20], [1, 2]] ∧ (a ≠ .crash ∧ ∀ f, a ≠ .fault f) ∧
        (∀ f ∈ s.stack.tail, f.state.transition.isSome = true) ∧
        (Search.nearestSnapshot s.stack).isSome = true ∧ ∀ f ∈ s.stack, f.Noded s.graph := by
  obtain ⟨a, s, hrun, hids⟩ : ∃ a s, Search.run Driver.erratic ⟨3, .dpor, 0, 2, true⟩ 20 0 = some (some a, s) ∧
      s.stack.map (·.state.ids) = [[1, 2, 20], [1, 2]] := ⟨_, _, rfl, rfl⟩
  have hne : s.stack ≠ [] := by
    intro hnil
    rw [hnil] at hids
    cases hids
  obtain ⟨hfaults, hstands⟩ := bookkeeping_never_faults Driver.erratic_echoes Driver.erratic_givesSnapshots
    ⟨3, .dpor, 0, 2, true⟩ 0
  obtain ⟨hleft, hnear, hnoded⟩ := hstands s (.inr ⟨20, some a, hrun⟩)
  exact ⟨Driver.erratic_echoes, Driver.erratic_givesSnapshots, a, s, hrun, hids, hfaults 20 a s hrun, hleft,
    hnear hne, hnoded rfl⟩

end Interleave
