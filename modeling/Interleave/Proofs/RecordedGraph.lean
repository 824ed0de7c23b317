import Interleave.Proofs.Bookkeeping
import Interleave.Proofs.TreeOrder
import Mathlib.Data.List.Range
import Mathlib.Tactic.Ring

/-! The recorded graph is the exploration. The stack is always the last way down the graph, so every state is added at
the end of the depth first order and gets the position there as its number. This holds for every driver: which states
are duplicates or cut, and where the search goes on, makes no difference to it. -/

namespace Interleave

variable {σ κ : Type}

open Interleave.Tree (Last)

def GraphNode.isDuplicate (n : GraphNode) : Bool := 0 ≤ n.equalTo

namespace Graph

def way (g : Graph) (path : Tree.Path) : List (Option Transition) := (g.trail path).map (·.via)

/-- `truncated` is the way to the first node, in depth first order, that was cut at the depth bound. -/
inductive FirstCut (g : Graph) : Option (List Transition) → Prop
  | none (hfind : g.find? (·.truncated) [] = none) : FirstCut g none
  | some {path : Tree.Path} {sub : Graph} {trace : List Transition}
      (hfind : g.find? (·.truncated) [] = some path) (hget : g.get? path = some sub)
      (hway : g.way path = Option.none :: trace.map Option.some) : FirstCut g (some trace)

structure Kept (g : Graph) (duplicates hits : Int) (truncated : Option (List Transition)) : Prop where
  initial : g.payload.via = none ∧ g.payload.equalTo = -1
  nums : g.preorder.map (·.num) = (List.range g.size).map Int.ofNat
  duplicates : (g.preorder.countP (·.isDuplicate) : Int) = duplicates
  hits : (g.preorder.countP (·.truncated) : Int) = hits
  leaves : ∀ path sub, g.get? path = some sub → sub.payload.isDuplicate = true → sub.isLeaf = true
  firstCut : FirstCut g truncated

abbrev Widens (g g' : Graph) : Prop := Tree.Grows (fun n : GraphNode => (n.via, n.equalTo)) g g'

theorem Widens.way {g g' : Graph} (h : Widens g g') {path : Tree.Path} {sub : Graph}
    (hget : g.get? path = some sub) : g'.way path = g.way path := by
  have hkeys := congrArg (List.map Prod.fst) (h.trail hget)
  rw [List.map_map, List.map_map] at hkeys
  exact hkeys

theorem way_nextChild {g sub : Graph} {path : Tree.Path} (hget : g.get? path = some sub) (n : GraphNode) :
    way (g.addChild path n) (g.nextChild path) = g.way path ++ [n.via] := by
  have hnew := Tree.get?_nextChild hget n
  have hwiden : Widens g (g.addChild path n) := Tree.addChild_grows path n g
  rw [Tree.nextChild] at hnew ⊢
  rw [way, Tree.trail_concat hnew, List.map_append, ← hwiden.way hget]
  rfl

theorem Widens.initial {g g' : Graph} (h : Widens g g') (hg : g.payload.via = none ∧ g.payload.equalTo = -1) :
    g'.payload.via = none ∧ g'.payload.equalTo = -1 := by
  obtain ⟨sub', hsub', hkey⟩ := h [] g rfl
  obtain rfl := Option.some.inj hsub'
  rw [← hg.1, ← hg.2]
  exact Prod.mk.inj hkey

theorem FirstCut.widen {g g' : Graph} {truncated : Option (List Transition)} (h : FirstCut g truncated)
    (hwiden : Widens g g') (hfind : g'.find? (·.truncated) [] = g.find? (·.truncated) []) :
    FirstCut g' truncated := by
  cases h with
  | none hnone => exact .none (hfind.trans hnone)
  | some hsome hget hway =>
    obtain ⟨sub', hget', -⟩ := hwiden _ _ hget
    exact .some (hfind.trans hsome) hget' ((hwiden.way hget).trans hway)

theorem size_addChild {g : Graph} {path : Tree.Path} (h : Last path g) (n : GraphNode) :
    (g.addChild path n).size = g.size + 1 := by
  rw [← Tree.length_preorder, h.preorder_addChild, List.length_append, Tree.length_preorder]
  rfl

variable {g : Graph} {duplicates hits : Int} {truncated : Option (List Transition)} {path : Tree.Path}

theorem Kept.addChild (h : g.Kept duplicates hits truncated) (hlast : Last path g) {sub : Graph}
    (hget : g.get? path = some sub) (hexplored : sub.payload.equalTo = -1) {n : GraphNode}
    (hnum : n.num = g.size) (hcut : n.truncated = false) :
    Kept (g.addChild path n) (duplicates + if n.isDuplicate then 1 else 0) hits truncated := by
  have hwiden : Widens g (g.addChild path n) := Tree.addChild_grows path n g
  refine ⟨hwiden.initial h.initial, ?_, ?_, ?_, ?_, ?_⟩
  · rw [hlast.preorder_addChild, size_addChild hlast, List.map_append, h.nums, List.range_succ, List.map_append]
    exact congrArg (fun num => _ ++ [num]) hnum
  · rw [hlast.preorder_addChild, List.countP_append, List.countP_singleton, ← h.duplicates]
    split_ifs <;> simp
  · rw [hlast.preorder_addChild, List.countP_append, List.countP_singleton, hcut, ← h.hits]
    simp
  · intro q sub' hq hduplicate
    rcases Tree.get?_addChild hget hq with ⟨-, rfl⟩ | ⟨old, hold, hpayload, hleaf⟩
    · rfl
    · rw [hpayload] at hduplicate
      by_cases hqp : q = path
      · -- Only states that are explored get children.
        subst hqp
        obtain rfl := Option.some.inj (hget.symm.trans hold)
        rw [GraphNode.isDuplicate, hexplored] at hduplicate
        cases hduplicate
      · exact (hleaf hqp).trans (h.leaves q old hold hduplicate)
  · refine h.firstCut.widen hwiden ?_
    rw [Tree.find?_eq_listing, Tree.find?_eq_listing, hlast.listing_addChild, List.find?_append]
    simp [hcut]

theorem Kept.truncate (h : g.Kept duplicates hits truncated) (hlast : Last path g) {n : GraphNode}
    (hleaf : g.get? path = some (.leaf n)) (hcut : n.truncated = false) {trace : List Transition}
    (hway : g.way path = none :: trace.map some) :
    Kept (g.update path fun n => { n with truncated := true }) duplicates (hits + 1)
      (some (truncated.getD trace)) := by
  obtain ⟨front, hlisted, hupdated⟩ := hlast.listing_update hleaf fun n => { n with truncated := true }
  generalize hg' : g.update path (fun n => { n with truncated := true }) = g' at hupdated
  have hwiden : Widens g g' := by
    rw [← hg']
    apply Tree.update_grows
    exact fun _ => rfl
  have hbefore : g.preorder = front.map (·.2) ++ [n] := by
    rw [Tree.preorder_eq_listing [], hlisted, List.map_append]
    rfl
  have hafter : g'.preorder = front.map (·.2) ++ [{ n with truncated := true }] := by
    rw [Tree.preorder_eq_listing [], hupdated, List.map_append]
    rfl
  refine ⟨hwiden.initial h.initial, ?_, ?_, ?_, ?_, ?_⟩
  · rw [← Tree.length_preorder, hafter, ← List.length_map (f := GraphNode.num)]
    have hnums := h.nums
    rw [← Tree.length_preorder, hbefore] at hnums
    simpa using hnums
  · rw [← h.duplicates, hbefore, hafter, List.countP_append, List.countP_append]
    rfl
  · rw [← h.hits, hbefore, hafter, List.countP_append, List.countP_append, List.countP_singleton,
      List.countP_singleton, hcut]
    simp
  · intro q sub' hq hduplicate
    rw [← hg'] at hq
    obtain ⟨old, hold, hsame, hpayload⟩ := Tree.get?_update hq
    have hequal : sub'.payload.equalTo = old.payload.equalTo := by
      rcases hpayload with heq | ⟨-, heq⟩ <;> rw [heq]
    rw [GraphNode.isDuplicate, hequal] at hduplicate
    exact hsame.trans (h.leaves q old hold hduplicate)
  · -- The cut node is the last one: it is the first cut node only if there was none before.
    have hfind : ∀ m : GraphNode, ((front ++ [(path, m)]).find? (·.2.truncated)).map (·.1) =
        ((front.find? (·.2.truncated)).map (·.1)).or (if m.truncated then some path else none) := by
      intro m
      rw [List.find?_append, List.find?_singleton]
      cases front.find? (·.2.truncated) with
      | some x => rfl
      | none => cases m.truncated <;> rfl
    have hold : g.find? (·.truncated) [] = (front.find? (·.2.truncated)).map (·.1) := by
      rw [Tree.find?_eq_listing, hlisted, hfind, hcut]
      simp
    have hnew : g'.find? (·.truncated) [] = ((front.find? (·.2.truncated)).map (·.1)).or (some path) := by
      rw [Tree.find?_eq_listing, hupdated, hfind]
      rfl
    have hfirst := h.firstCut
    cases hfirst with
    | none hnone =>
      rw [hold] at hnone
      obtain ⟨sub', hsub', -⟩ := hwiden _ _ hleaf
      refine .some ?_ hsub' ((hwiden.way hleaf).trans hway)
      rw [hnew, hnone]
      rfl
    | some hsome hget hearlier =>
      rw [hold] at hsome
      obtain ⟨sub', hsub', -⟩ := hwiden _ _ hget
      refine .some ?_ hsub' ((hwiden.way hget).trans hearlier)
      rw [hnew, hsome]
      rfl

end Graph

inductive Charted (g : Graph) : List (Frame κ) → Prop
  | nil : Charted g []
  | root {f : Frame κ} (hnode : f.node = []) : Charted g [f]
  | above {f top : Frame κ} {below : List (Frame κ)} {i : Nat} {t : Transition} {sub : Graph}
      (hbelow : Charted g (top :: below)) (hnode : f.node = top.node ++ [i])
      (hleft : top.state.transition = some t) (hget : g.get? f.node = some sub)
      (hvia : sub.payload.via = some t) (hexplored : sub.payload.equalTo = -1) : Charted g (f :: top :: below)

namespace Charted

variable {g g' : Graph} {f f' : Frame κ} {below fs fs' : List (Frame κ)}

theorem tail (h : Charted g (f :: below)) : Charted g below := by
  cases h with
  | root _ => exact .nil
  | above hbelow => exact hbelow

theorem retop (h : Charted g (f :: below)) (hnode : f'.node = f.node) : Charted g (f' :: below) := by
  cases h with
  | root hroot => exact .root (hnode.trans hroot)
  | above hbelow hsame hleft hget hvia hexplored =>
    exact .above hbelow (hnode.trans hsame) hleft (hnode ▸ hget) hvia hexplored

theorem widen (h : Charted g fs) (hwiden : g.Widens g') : Charted g' fs := by
  induction h with
  | nil => exact .nil
  | root hnode => exact .root hnode
  | above _ hnode hleft hget hvia hexplored ih =>
    obtain ⟨sub', hget', hkey⟩ := hwiden _ _ hget
    obtain ⟨hvia', hexplored'⟩ := Prod.mk.inj hkey
    exact .above ih hnode hleft hget' (hvia'.trans hvia) (hexplored'.trans hexplored)

theorem remarked (h : Charted g fs) (hmarks : List.Forall₂ Frame.Remarked fs fs') : Charted g fs' := by
  induction h generalizing fs' with
  | nil =>
    cases hmarks
    exact .nil
  | root hnode =>
    obtain ⟨f', _, hf, hnil, rfl⟩ := List.forall₂_cons_left_iff.mp hmarks
    cases hnil
    exact .root (hf.node.trans hnode)
  | @above f top below i t sub _ hnode hleft hget hvia hexplored ih =>
    obtain ⟨f', _, hf, hrest, rfl⟩ := List.forall₂_cons_left_iff.mp hmarks
    have hbelow := ih hrest
    obtain ⟨top', below', htop, -, rfl⟩ := List.forall₂_cons_left_iff.mp hrest
    have hnode' : f'.node = top'.node ++ [i] := by rw [hf.node, htop.node, hnode]
    exact .above hbelow hnode' (htop.state.transition.trans hleft) (hf.node ▸ hget) hvia hexplored

theorem explored (h : Charted g (f :: below)) (hroot : g.payload.via = none ∧ g.payload.equalTo = -1) {sub : Graph}
    (hget : g.get? f.node = some sub) : sub.payload.equalTo = -1 := by
  cases h with
  | root hnode =>
    rw [hnode] at hget
    obtain rfl := Option.some.inj hget
    exact hroot.2
  | above _ _ _ hsub _ hexplored =>
    obtain rfl := Option.some.inj (hsub.symm.trans hget)
    exact hexplored

theorem way (h : Charted g (f :: below)) (hroot : g.payload.via = none ∧ g.payload.equalTo = -1) :
    g.way f.node = none :: (below.reverse.filterMap (·.state.transition)).map some := by
  induction below generalizing f with
  | nil =>
    cases h with
    | root hnode =>
      obtain ⟨a, cs⟩ := g
      rw [hnode]
      exact congrArg (fun via => [via]) hroot.1
  | cons top below ih =>
    cases h with
    | above hbelow hnode hleft hget hvia _ =>
      rw [hnode] at hget ⊢
      rw [Graph.way, Tree.trail_concat hget, List.map_append, List.reverse_cons, List.filterMap_append,
        List.map_append, ← List.cons_append, ← ih hbelow]
      simp [Graph.way, hvia, hleft]

theorem last_tail (h : Charted g (f :: below)) (hlast : Last f.node g) : ∀ top ∈ below.head?, Last top.node g := by
  intro top htop
  cases h with
  | root _ => cases htop
  | above _ hnode =>
    cases htop
    rw [hnode] at hlast
    exact hlast.of_append

end Charted

/-- The graph records the search so far; `pending` states have a number but no node yet. -/
structure Mapped (s : Search σ κ) (g : Graph) (pending : Int) : Prop where
  graph : s.graph = some g
  kept : g.Kept s.stats.duplicates s.stats.limitHits s.truncated
  size : (g.size : Int) = s.stats.expanded + s.stats.duplicates
  next : s.nextNum = g.size + pending
  unbroken : ∀ path sub, g.get? path = some sub → sub.payload.violation = none
  violation : s.violation = none
  charted : Charted g s.stack
  last : ∀ f ∈ s.stack.head?, Last f.node g
  sorted : VisitedSet.Sorted s.visited.entries
  firsts : ∀ e ∈ s.visited.entries, 0 ≤ e.first

structure Heading (o : Options) (s : Search σ κ) (g : Graph) : Prop extends Mapped s g 0 where
  running : s.stack ≠ [] → s.phase = .running
  fresh : ∀ top below, s.stack = top :: below → o.withinDepth below.length = false →
    top.state.transition = none ∧ ∃ n, g.get? top.node = some (.leaf n) ∧ n.truncated = false

/-- What the graph of a finished search shows of its result. -/
structure Graph.Depicts (g : Graph) (r : Result) : Prop where
  nums : g.preorder.map (·.num) = (List.range g.size).map Int.ofNat
  drawn : ∀ p ∈ Tree.place none 0 g, p.payload.num = p.id
  size : (g.size : Int) = r.stats.expanded + r.stats.duplicates +
    if r.violation.isSome = true ∧ r.trace ≠ [] then 1 else 0
  duplicates : (g.preorder.countP (·.isDuplicate) : Int) = r.stats.duplicates
  hits : (g.preorder.countP (·.truncated) : Int) = r.stats.limitHits
  leaves : ∀ path sub, g.get? path = some sub →
    sub.payload.isDuplicate = true ∨ sub.payload.violation.isSome = true → sub.isLeaf = true
  violation : ∀ v, r.violation = some v → ∃ path sub, g.get? path = some sub ∧
    sub.payload.violation = some v ∧ g.way path = none :: r.trace.map some ∧
    ∀ path' sub', g.get? path' = some sub' → sub'.payload.violation.isSome = true → path' = path
  nonTermination : r.outcome = .nonTermination → ∃ path, g.find? (·.truncated) [] = some path ∧
    g.way path = none :: r.trace.map some
  noViolation : r.violation = none → ∀ path sub, g.get? path = some sub → sub.payload.violation = none

theorem Graph.drawn_of_nums {g : Graph} (h : g.preorder.map (·.num) = (List.range g.size).map Int.ofNat) :
    ∀ p ∈ Tree.place none 0 g, p.payload.num = p.id := by
  intro p hp
  have hplaced : (p.id, p.payload) ∈ (List.range' 0 g.size).zip g.preorder := by
    rw [← Tree.place_eq none 0 g]
    exact List.mem_map_of_mem hp
  obtain ⟨i, hi⟩ := List.mem_iff_getElem?.mp hplaced
  obtain ⟨hid, hpayload⟩ := List.getElem?_zip_eq_some.mp hi
  have hnum : (g.preorder.map (·.num))[i]? = some p.payload.num := by rw [List.getElem?_map, hpayload]; rfl
  obtain ⟨hlt, hat⟩ := List.getElem?_eq_some_iff.mp hid
  rw [List.length_range'] at hlt
  rw [h, List.getElem?_map, List.getElem?_range hlt] at hnum
  rw [List.getElem_range'_1, Nat.zero_add] at hat
  exact (Option.some.inj hnum).symm.trans (congrArg Int.ofNat hat)

namespace Mapped

variable {s s' : Search σ κ} {g : Graph} {top : Frame κ} {below : List (Frame κ)} {pending : Int}

theorem last_top (h : Mapped s g pending) (hstack : s.stack = top :: below) : Last top.node g :=
  h.last top (by rw [hstack]; rfl)

theorem stackTrace_eq (hstack : s.stack = top :: below) :
    s.stackTrace = below.reverse.filterMap (·.state.transition) ++ top.state.transition.toList := by
  rw [Search.stackTrace, hstack, List.reverse_cons, List.filterMap_append]
  cases htransition : top.state.transition <;> simp [htransition]

theorem way_top (h : Mapped s g pending) (hstack : s.stack = top :: below) :
    g.way top.node = none :: (below.reverse.filterMap (·.state.transition)).map some := by
  have hcharted := h.charted
  rw [hstack] at hcharted
  exact hcharted.way h.kept.initial

theorem addChild (h : Mapped s g 1) (hstack : s.stack = top :: below) {n : GraphNode}
    (hnum : n.num = s.nextNum - 1) (hcut : n.truncated = false) :
    Graph.Kept (g.addChild top.node n) (s.stats.duplicates + if n.isDuplicate then 1 else 0)
        s.stats.limitHits s.truncated ∧
      s.nextNum = (g.addChild top.node n).size ∧ g.Widens (g.addChild top.node n) := by
  have hlast := h.last_top hstack
  have hcharted := h.charted
  rw [hstack] at hcharted
  obtain ⟨sub, hget⟩ := hlast.exists_get?
  have hnext := h.next
  refine ⟨h.kept.addChild hlast hget (hcharted.explored h.kept.initial hget) (by omega) hcut, ?_, ?_⟩
  · rw [Graph.size_addChild hlast]
    push_cast
    exact hnext
  · exact Tree.addChild_grows _ _ _

theorem executed (h : Mapped s g 0) (hstack : s.stack = top :: below) {f : Frame κ} (hnode : f.node = top.node) (m : σ)
    (e : Event) : Mapped ({ s with machine := m, stack := f :: below, nextNum := s.nextNum + 1 }.log e) g 1 :=
  { h with
    next := by
      show s.nextNum + 1 = g.size + 1
      rw [h.next, add_zero]
    charted := (hstack ▸ h.charted : Charted g (top :: below)).retop hnode
    last := by
      rintro _ ⟨⟩
      rw [hnode]
      exact h.last_top hstack }

theorem unbroken_addChild (h : Mapped s g pending) (hstack : s.stack = top :: below) {n : GraphNode}
    (hviolation : n.violation = none) :
    ∀ path sub, (g.addChild top.node n).get? path = some sub → sub.payload.violation = none := by
  intro path sub hsub
  obtain ⟨old, hget⟩ := (h.last_top hstack).exists_get?
  rcases Tree.get?_addChild hget hsub with ⟨-, rfl⟩ | ⟨old', hold', hpayload, -⟩
  · exact hviolation
  · exact hpayload ▸ h.unbroken path old' hold'

end Mapped

namespace Search

variable {drv : Driver σ κ} {o : Options} {s s' : Search σ κ} {g : Graph} {top : Frame κ}
  {below : List (Frame κ)}

theorem logAll_eq (s : Search σ κ) (es : List Event) : ∃ events, s.logAll es = { s with events } := by
  induction es generalizing s with
  | nil => exact ⟨s.events, rfl⟩
  | cons e es ih => exact ih (s.log e)

theorem restoreTop_mapped (h : Mapped s g 0) (hrestore : restoreTop drv s = (none, s')) : Mapped s' g 0 := by
  obtain ⟨_, _, _, _, _, _, m, -, -, -, -, rfl⟩ := restoreTop_eq_none hrestore
  exact { h with }

theorem unwind_mapped {count : Nat} (h : Mapped s g 0) (hphase : s.phase = .backtracking)
    (hw : ∀ f ∈ s.stack, f.state.WellFormed) (hcount : s.stack.length ≤ count)
    (hunwind : unwind drv o count s = (none, s')) : Heading o s' g := by
  induction count generalizing s with
  | zero =>
    have hnil : s.stack = [] := List.length_eq_zero_iff.mp (Nat.le_zero.mp hcount)
    cases hunwind
    exact ⟨h, fun hne => absurd hnil hne, fun top below hcons => by rw [hnil] at hcons; cases hcons⟩
  | succ count ih =>
    cases hstack : s.stack with
    | nil =>
      rw [unwind, hstack] at hunwind
      cases hunwind
      exact ⟨h, fun hne => absurd hstack hne, fun top below hcons => by rw [hstack] at hcons; cases hcons⟩
    | cons f below =>
      rw [hstack] at hw hcount
      have hlast := h.last_top hstack
      have hcharted : Charted g (f :: below) := hstack ▸ h.charted
      rw [Trail.unwind_succ count hstack] at hunwind
      split at hunwind
      · cases hunwind
      · rename_i below' es hsettle
        rw [List.forall_mem_cons] at hw
        have hmarks := settle_remarked hw.2 hsettle
        have hcharted' : Charted g (f :: below') := hcharted.remarked (.cons (.refl f) hmarks)
        obtain ⟨events, hlogged⟩ := logAll_eq { s with stack := below' } es
        rw [hlogged] at hunwind
        dsimp only at hunwind
        split_ifs at hunwind with hresume
        · rw [Bool.and_eq_true] at hresume
          split at hunwind
          · rename_i s₂ hrestore
            cases hunwind
            -- A frame that is put back does not count as expanded again.
            have hpushed : Mapped ({ s with stack := below', events }.push f) g 0 :=
              { h with
                size := by simpa [push, hphase] using h.size
                charted := hcharted'
                last := by rintro _ ⟨⟩; exact hlast }
            have hrestored := restoreTop_mapped hpushed hrestore
            have hstack₂ : s₂.stack = f :: below' := restoreTop_stack hrestore
            refine ⟨{ hrestored with }, fun _ => rfl, fun top rest hcons hbeyond => ?_⟩
            obtain ⟨-, rfl⟩ := List.cons.inj (hstack₂.symm.trans hcons)
            rw [hresume.2] at hbeyond
            cases hbeyond
          · cases hunwind
        · have hdropped : Mapped ({ s with stack := below', events }.log (.deleted f.state.num below'.length)) g 0 :=
            { h with
              charted := hcharted'.tail
              last := hcharted'.last_tail hlast }
          have hlength : below'.length = below.length := settle_length hsettle
          refine ih hdropped hphase (Frame.wellFormed_remarked hw.2 hmarks) ?_ hunwind
          show below'.length ≤ count
          rw [List.length_cons] at hcount
          omega

theorem backtrack_mapped (h : Mapped s g 0) (hw : ∀ f ∈ s.stack, f.state.WellFormed)
    (hback : backtrack drv o s = (none, s')) : Heading o s' g := by
  have hstarted : Mapped ({ s with
      phase := .backtracking, stats := { s.stats with backtracks := s.stats.backtracks + 1 } }.log
        (.backtracked (s.stack.length - 1 : Int))) g 0 := { h with }
  exact unwind_mapped hstarted rfl hw le_rfl hback

theorem cut_mapped (h : Heading o s g) (hstack : s.stack = top :: below)
    (hbeyond : o.withinDepth below.length = false) :
    Mapped (s.cut top) (g.update top.node fun n => { n with truncated := true }) 0 := by
  obtain ⟨htransition, n, hleaf, hcut⟩ := h.fresh top below hstack hbeyond
  have hlast := h.last_top hstack
  have hway : g.way top.node = none :: s.stackTrace.map some := by
    rw [Mapped.stackTrace_eq hstack, htransition, Option.toList_none, List.append_nil]
    exact h.way_top hstack
  have hsize : (g.update top.node fun n => { n with truncated := true }).size = g.size := by
    obtain ⟨front, hlisted, hupdated⟩ := hlast.listing_update hleaf fun n => { n with truncated := true }
    rw [← Tree.length_preorder, ← Tree.length_preorder, Tree.preorder_eq_listing [], hupdated,
      Tree.preorder_eq_listing [], hlisted]
    simp
  have hwiden : g.Widens (g.update top.node fun n => { n with truncated := true }) := by
    apply Tree.update_grows
    exact fun _ => rfl
  refine ⟨?_, h.kept.truncate hlast hleaf hcut hway, ?_, ?_, ?_, h.violation, h.charted.widen hwiden, ?_, h.sorted,
    h.firsts⟩
  · show Option.map _ s.graph = _
    rw [h.graph]
    rfl
  · rw [hsize]
    exact h.size
  · rw [hsize]
    exact h.next
  · intro path sub hsub
    obtain ⟨old, hold, -, hpayload⟩ := Tree.get?_update hsub
    have hunbroken := h.unbroken path old hold
    rcases hpayload with heq | ⟨-, heq⟩ <;> rw [heq] <;> exact hunbroken
  · intro f hf
    have hf : f ∈ s.stack.head? := hf
    rw [hstack] at hf
    cases hf
    exact hlast.modifyAt _

theorem addNode_eq (hgraph : s.graph = some g) (path : Tree.Path) (n : GraphNode) :
    s.addNode path n = (g.nextChild path, { s with graph := some (g.addChild path n) }) := by
  rw [addNode, hgraph]

theorem enter_mapped (h : Mapped s g 1) (hphase : s.phase = .running) (hstack : s.stack = top :: below)
    {t : Transition} (htop : top.state.transition = some t) {next : State} (hnum : next.num = s.nextNum - 1)
    (hfresh : next.transition = none) (snapshot : Option κ) :
    ∃ g', Heading o (s.enter o top next snapshot) g' := by
  have hmarks := Trail.consider_remarked o next
  have hlast := h.last_top hstack
  obtain ⟨old, hget⟩ := hlast.exists_get?
  let n := GraphNode.explored next.num top.state.transition
  obtain ⟨hkept, hnext, hwiden⟩ := h.addChild hstack (n := n) hnum rfl
  have hnew : (g.addChild top.node n).get? (g.nextChild top.node) = some (.leaf n) := Tree.get?_nextChild hget n
  have hsize : ((g.addChild top.node n).size : Int) = s.stats.expanded + 1 + s.stats.duplicates := by
    rw [Graph.size_addChild hlast, Nat.cast_succ, h.size]
    ring
  rw [show n.isDuplicate = false from rfl, if_neg Bool.false_ne_true, add_zero] at hkept
  refine ⟨g.addChild top.node n, ?_⟩
  unfold enter
  rw [addNode_eq h.graph]
  have hcharted : Charted (g.addChild top.node n) (top :: below) := hstack ▸ h.charted.widen hwiden
  refine ⟨⟨rfl, hkept, ?_, ?_, h.unbroken_addChild hstack rfl, h.violation, ?_, ?_, h.sorted, h.firsts⟩,
    fun _ => hphase, ?_⟩
  · simpa [push, hphase] using hsize
  · rw [add_zero]
    exact hnext
  · show Charted _ (_ :: s.stack)
    rw [hstack]
    exact .above hcharted rfl htop hnew htop rfl
  · rintro _ ⟨⟩
    exact hlast.nextChild n
  · rintro _ _ ⟨⟩ -
    exact ⟨hmarks.transition.trans hfresh, n, hnew, rfl⟩

theorem skip_mapped (h : Mapped s g 1) (hphase : s.phase = .running) (hw : ∀ f ∈ s.stack, f.state.WellFormed)
    (hstack : s.stack = top :: below) (hwithin : o.withinDepth below.length = true) {next : State}
    (hnum : next.num = s.nextNum - 1) {old : VisitedEntry κ} (hold : 0 ≤ old.first)
    (hskip : skip drv o s top next old = (none, s')) : ∃ g', Heading o s' g' := by
  have hlast := h.last_top hstack
  let n := { GraphNode.explored next.num top.state.transition with equalTo := old.first }
  obtain ⟨hkept, hnext, hwiden⟩ := h.addChild hstack (n := n) hnum rfl
  have hduplicate : n.isDuplicate = true := decide_eq_true hold
  have hsize : ((g.addChild top.node n).size : Int) = s.stats.expanded + (s.stats.duplicates + 1) := by
    rw [Graph.size_addChild hlast, Nat.cast_succ, h.size]
    ring
  rw [if_pos hduplicate] at hkept
  unfold skip at hskip
  dsimp only at hskip
  generalize hs₁ : Search.log _ _ = s₁ at hskip
  rw [addNode_eq (g := g) (by exact h.graph)] at hs₁
  have hstack₁ : s₁.stack = s.stack := by rw [← hs₁]; rfl
  have hmapped : Mapped s₁ (g.addChild top.node n) 0 := by
    rw [← hs₁]
    refine ⟨rfl, hkept, hsize, ?_, h.unbroken_addChild hstack rfl, h.violation, h.charted.widen hwiden, ?_, h.sorted,
      h.firsts⟩
    · rw [add_zero]
      exact hnext
    · intro f hf
      have hf : f ∈ s.stack.head? := hf
      rw [hstack] at hf
      cases hf
      exact hlast.modifyAt _
  refine ⟨g.addChild top.node n, ?_⟩
  split_ifs at hskip
  · exact backtrack_mapped hmapped (hstack₁ ▸ hw) hskip
  · have hstack' : s'.stack = top :: below := (restoreTop_stack hskip).trans (hstack₁.trans hstack)
    have hphase' : s'.phase = .running := by
      obtain ⟨_, _, _, _, _, _, _, -, -, -, -, rfl⟩ := restoreTop_eq_none hskip
      rw [← hs₁]
      exact hphase
    refine ⟨restoreTop_mapped hmapped hskip, fun _ => hphase', fun top' below' hcons hbeyond => ?_⟩
    obtain ⟨-, rfl⟩ := List.cons.inj (hstack'.symm.trans hcons)
    rw [hwithin] at hbeyond
    cases hbeyond

theorem arrive_mapped [Snapshot κ] (h : Mapped s g 1) (hphase : s.phase = .running)
    (hw : ∀ f ∈ s.stack, f.state.WellFormed) (hstack : s.stack = top :: below)
    (hwithin : o.withinDepth below.length = true) {t : Transition} (htop : top.state.transition = some t)
    {next : State} (hnum : next.num = s.nextNum - 1) (hfresh : next.transition = none)
    (harrive : arrive drv o s top next = (none, s')) : ∃ g', Heading o s' g' := by
  unfold arrive at harrive
  split_ifs at harrive
  · split at harrive
    · cases harrive
    · cases harrive
    · rename_i k m hsnap
      have hnonneg : 0 ≤ next.num := by
        have hnext := h.next
        omega
      have hadded : Mapped { s with machine := m, visited := (s.visited.add next.num k).1 } g 1 :=
        { h with
          sorted := VisitedSet.sorted_add h.sorted next.num k
          firsts := VisitedSet.first_nonneg_add h.sorted h.firsts hnonneg k }
      dsimp only at harrive
      split at harrive
      · cases harrive
      · rename_i old hduplicate
        have hold : 0 ≤ old.first := h.firsts old (VisitedSet.add_duplicate hduplicate).1
        exact skip_mapped hadded hphase hw hstack hwithin hnum hold harrive
      · rename_i total gone _
        obtain ⟨events, hlogged⟩ := logAll_eq
          ({ s with machine := m, visited := (s.visited.add next.num k).1 }.log (.inserted next.num total))
          (gone.map .evicted)
        generalize Search.logAll _ _ = s₁ at harrive hlogged
        subst hlogged
        cases harrive
        exact enter_mapped (s := { s with machine := m, visited := (s.visited.add next.num k).1, events })
          { hadded with } hphase hstack htop hnum hfresh (some k)
  · split at harrive
    · cases harrive
    · rename_i snapshot m hsnap
      cases harrive
      exact enter_mapped (s := { s with machine := m }) { h with } hphase hstack htop hnum hfresh snapshot
  · cases harrive
    exact enter_mapped h hphase hstack htop hnum hfresh none

theorem report_result (s : Search σ κ) (v : Violation) (num : Int) :
    (s.report v num).result =
      { outcome := .violation, violation := some v, trace := s.stackTrace, stats := s.stats } := by
  unfold report
  dsimp only
  split
  · rfl
  · split
    · rfl
    · unfold addNode
      dsimp only
      split <;> rfl

theorem report_graph (hgraph : s.graph = some g) (hstack : s.stack = top :: below) {t : Transition}
    (htop : top.state.transition = some t) (v : Violation) (num : Int) :
    (s.report v num).graph =
      some (g.addChild top.node { GraphNode.explored num (some t) with violation := some v }) := by
  simp only [report, hstack, htop, addNode, hgraph, log]

theorem report_depicts (h : Mapped s g 1) (hstack : s.stack = top :: below) {t : Transition}
    (htop : top.state.transition = some t) (v : Violation) {num : Int} (hnum : num = s.nextNum - 1) :
    ∃ g', (s.report v num).graph = some g' ∧ g'.Depicts (s.report v num).result := by
  have hlast := h.last_top hstack
  obtain ⟨old, hget⟩ := hlast.exists_get?
  let n := { GraphNode.explored num (some t) with violation := some v }
  obtain ⟨hkept, -, -⟩ := h.addChild hstack (n := n) hnum rfl
  rw [show n.isDuplicate = false from rfl, if_neg Bool.false_ne_true, add_zero] at hkept
  have htrace : s.stackTrace = below.reverse.filterMap (·.state.transition) ++ [t] := by
    rw [Mapped.stackTrace_eq hstack, htop]
    rfl
  -- No node carried a violation before.
  have honly : ∀ path sub, (g.addChild top.node n).get? path = some sub → sub.payload.violation.isSome = true →
      path = g.nextChild top.node ∧ sub = .leaf n := by
    intro path sub hsub hviolation
    rcases Tree.get?_addChild hget hsub with hnew | ⟨old', hold', hpayload, -⟩
    · exact hnew
    · rw [hpayload, h.unbroken path old' hold'] at hviolation
      cases hviolation
  have hnew : (g.addChild top.node n).get? (g.nextChild top.node) = some (.leaf n) := Tree.get?_nextChild hget n
  have hway : Graph.way (g.addChild top.node n) (g.nextChild top.node) = none :: s.stackTrace.map some := by
    rw [Graph.way_nextChild hget, h.way_top hstack, htrace, List.map_append]
    rfl
  refine ⟨g.addChild top.node n, report_graph h.graph hstack htop v num, ?_⟩
  rw [report_result]
  refine ⟨hkept.nums, Graph.drawn_of_nums hkept.nums, ?_, hkept.duplicates, hkept.hits, ?_, ?_, by rintro ⟨⟩,
    by rintro ⟨⟩⟩
  · have hne : s.stackTrace ≠ [] := by simp [htrace]
    rw [Graph.size_addChild hlast, if_pos ⟨rfl, hne⟩, ← h.size, Nat.cast_succ]
  · rintro path sub hsub (hduplicate | hviolation)
    · exact hkept.leaves path sub hsub hduplicate
    · obtain ⟨-, rfl⟩ := honly path sub hsub hviolation
      rfl
  · rintro _ ⟨⟩
    exact ⟨g.nextChild top.node, .leaf n, hnew, rfl, hway, fun path' sub' hsub' hviolation =>
      (honly path' sub' hsub' hviolation).1⟩

theorem heading_root {f : Frame κ} (hstack : s.stack = [f]) (hnode : f.node = []) (hleft : f.state.transition = none)
    (hgraph : s.graph = some (.leaf (GraphNode.explored 0 none))) (hphase : s.phase = .running)
    (hnext : s.nextNum = 1) (hexpanded : s.stats.expanded = 1) (hduplicates : s.stats.duplicates = 0)
    (hhits : s.stats.limitHits = 0) (htruncated : s.truncated = none) (hviolation : s.violation = none)
    (hsorted : VisitedSet.Sorted s.visited.entries) (hfirsts : ∀ e ∈ s.visited.entries, 0 ≤ e.first) :
    Heading o s (.leaf (GraphNode.explored 0 none)) := by
  refine ⟨⟨hgraph, ⟨⟨rfl, rfl⟩, rfl, ?_, ?_, ?_, ?_⟩, ?_, ?_, ?_, hviolation, ?_, ?_, hsorted, hfirsts⟩,
    fun _ => hphase, ?_⟩
  · exact hduplicates.symm
  · exact hhits.symm
  · intro path sub hsub _
    obtain ⟨-, rfl⟩ := Tree.get?_leaf hsub
    rfl
  · rw [htruncated]
    exact .none rfl
  · rw [hexpanded, hduplicates]
    rfl
  · exact hnext
  · intro path sub hsub
    obtain ⟨-, rfl⟩ := Tree.get?_leaf hsub
    rfl
  · rw [hstack]
    exact .root hnode
  · rw [hstack]
    rintro _ ⟨⟩
    rw [hnode]
    trivial
  · intro top below hcons _
    obtain ⟨rfl, -⟩ := List.cons.inj (hstack.symm.trans hcons)
    exact ⟨hleft, _, by rw [hnode]; rfl, rfl⟩

theorem report_root_graph {f : Frame κ} (hgraph : s.graph = some (.leaf (GraphNode.explored 0 none)))
    (hstack : s.stack = [f]) (hnode : f.node = []) (hleft : f.state.transition = none) (v : Violation) (num : Int) :
    (s.report v num).graph = some (.leaf { GraphNode.explored 0 none with violation := some v }) := by
  simp only [report, hstack, hleft, hnode, updateNode, hgraph, log]
  rfl

theorem report_root_depicts (h : Heading o s (.leaf (GraphNode.explored 0 none))) {f : Frame κ}
    (hstack : s.stack = [f]) (hnode : f.node = []) (hleft : f.state.transition = none) (v : Violation) (num : Int) :
    ∃ g', (s.report v num).graph = some g' ∧ g'.Depicts (s.report v num).result := by
  let n := { GraphNode.explored 0 none with violation := some v }
  have hgraph : (s.report v num).graph = some (.leaf n) := report_root_graph h.graph hstack hnode hleft v num
  have htrace : s.stackTrace = [] := by
    rw [Mapped.stackTrace_eq hstack, hleft]
    rfl
  refine ⟨.leaf n, hgraph, ?_⟩
  rw [report_result, htrace]
  refine ⟨rfl, Graph.drawn_of_nums rfl, ?_, h.kept.duplicates, h.kept.hits, ?_, ?_, by rintro ⟨⟩, by rintro ⟨⟩⟩
  · rw [if_neg (fun hne => hne.2 rfl), add_zero]
    exact h.size
  · intro path sub hsub _
    obtain ⟨-, rfl⟩ := Tree.get?_leaf hsub
    rfl
  · rintro _ ⟨⟩
    exact ⟨[], .leaf n, rfl, rfl, rfl, fun path' sub' hsub' _ => (Tree.get?_leaf hsub').1⟩

def Charts (o : Options) (s : Search σ κ) : Prop :=
  (∃ g, Heading o s g) ∨ s.phase = .done ∧ ∃ g, s.graph = some g ∧ g.Depicts s.result

theorem report_charts (h : Mapped s g 1) (hstack : s.stack = top :: below) {t : Transition}
    (htop : top.state.transition = some t) (v : Violation) {num : Int} (hnum : num = s.nextNum - 1) :
    Charts o (s.report v num) :=
  .inr ⟨rfl, report_depicts h hstack htop v hnum⟩

variable [Snapshot κ]

theorem advance_charts {a : ActorId} (h : Heading o s g) (hw : ∀ f ∈ s.stack, f.state.WellFormed)
    (hstack : s.stack = top :: below) (hwithin : o.withinDepth below.length = true)
    (hadvance : advance drv o s top below a = (none, s')) : Charts o s' := by
  rw [hstack, List.forall_mem_cons] at hw
  unfold advance at hadvance
  split at hadvance
  · split at hadvance <;> cases hadvance
  · rename_i r state m hexec
    have hstate := (State.execute_wellFormed hw.1 hexec).1
    have hleft : state.transition = some r.transition := by
      obtain ⟨_, _, -, -, -, rfl⟩ := State.execute_eq_ok hexec
      rfl
    dsimp only at hadvance
    split at hadvance
    · cases hadvance
    · rename_i clock _
      have hexecuted : Mapped ({ s with
          machine := m, stack := { top with state, clock } :: below, nextNum := s.nextNum + 1 }.log
            (.executed state.num below.length r.transition)) g 1 := by
        exact h.toMapped.executed hstack (by rfl) m _
      split at hadvance
      · cases hadvance
        exact report_charts hexecuted rfl hleft _ rfl
      · split_ifs at hadvance
        · cases hadvance
          exact report_charts hexecuted rfl hleft _ rfl
        · have hphase : s.phase = .running := h.running (hstack ▸ List.cons_ne_nil top below)
          exact .inl (arrive_mapped hexecuted hphase (List.forall_mem_cons.mpr ⟨hstate, hw.2⟩) rfl hwithin hleft rfl
            rfl hadvance)

theorem turn_charts (h : Heading o s g) (hw : ∀ f ∈ s.stack, f.state.WellFormed)
    (hturn : turn drv o s = (none, s')) : Charts o s' := by
  unfold turn at hturn
  split at hturn
  · cases hturn
  · split at hturn
    · cases hturn
      exact .inl ⟨g, h⟩
    · rename_i top below hstack
      split_ifs at hturn with hbeyond
      · have hcut := cut_mapped h hstack (by simpa using hbeyond)
        exact .inl ⟨_, backtrack_mapped hcut hw hturn⟩
      · exact .inl ⟨g, backtrack_mapped h.toMapped hw hturn⟩
      · split at hturn
        · exact .inl ⟨g, backtrack_mapped h.toMapped hw hturn⟩
        · exact advance_charts h hw hstack (by simpa using hbeyond) hturn

theorem start_charts (hgraph : o.graph = true) {m : σ} (hstart : start drv o (new o m) = (none, s)) :
    Charts o s := by
  obtain ⟨actors, m₁, snapshot, m₂, visited, events, f, -, -, hbegins, hf, rfl⟩ := start_eq_none hstart
  have hentries : VisitedSet.Sorted visited.entries ∧ ∀ e ∈ visited.entries, 0 ≤ e.first := by
    have hsorted : VisitedSet.Sorted (VisitedSet.empty o.maxVisited : VisitedSet κ).entries := .nil
    have hfirsts : ∀ e ∈ (VisitedSet.empty o.maxVisited : VisitedSet κ).entries, 0 ≤ e.first := by
      rintro _ ⟨⟩
    cases hbegins with
    | off => exact ⟨hsorted, hfirsts⟩
    | @kept k _ =>
      exact ⟨VisitedSet.sorted_add hsorted 0 k, VisitedSet.first_nonneg_add hsorted hfirsts le_rfl k⟩
  have hmarks := Trail.consider_remarked o (State.new 0 actors)
  have hleft : f.state.transition = none := hf ▸ hmarks.transition
  have hnode : f.node = [] := hf ▸ rfl
  have hheading : Heading o (opened o m₂ visited events f) (.leaf (GraphNode.explored 0 none)) :=
    heading_root rfl hnode hleft (opened_graph hgraph m₂ visited events (hf ▸ hmarks.num)) rfl rfl rfl rfl rfl rfl rfl
      hentries.1 hentries.2
  split_ifs
  · exact .inr ⟨rfl, report_root_depicts hheading rfl hnode hleft _ _⟩
  · exact .inl ⟨_, hheading⟩

theorem Reached.charts (hgraph : o.graph = true) {m : σ} (h : Reached drv o m s) : Charts o s := by
  induction h with
  | start h => exact start_charts hgraph h
  | turn hs hopen h ih =>
    rcases ih with ⟨g, hg⟩ | ⟨hdone, -⟩
    · exact turn_charts hg hs.orderly.wellFormed h
    · exact absurd (Trail.finished_iff.mpr (.inr hdone)) (by simp [hopen])

end Search

theorem Heading.depicts {o : Options} {s : Search σ κ} {g : Graph} (h : Heading o s g) (e : Event) :
    g.Depicts ({ s.log e with phase := .done } : Search σ κ).result := by
  have hclean : ({ s.log e with phase := .done } : Search σ κ).result.violation = none := h.violation
  refine ⟨h.kept.nums, Graph.drawn_of_nums h.kept.nums, ?_, h.kept.duplicates, h.kept.hits, ?_, ?_, ?_, ?_⟩
  · rw [if_neg (by simp [hclean]), add_zero]
    exact h.size
  · rintro path sub hsub (hduplicate | hviolation)
    · exact h.kept.leaves path sub hsub hduplicate
    · rw [h.unbroken path sub hsub] at hviolation
      cases hviolation
  · intro v hv
    rw [hclean] at hv
    cases hv
  · intro houtcome
    have hcut := h.kept.firstCut
    cases htruncated : s.truncated with
    | none => simp [Search.result, Search.outcome, Search.log, h.violation, htruncated] at houtcome
    | some trace =>
      have htrace : ({ s.log e with phase := .done } : Search σ κ).result.trace = trace := by
        simp [Search.result, Search.reportedTrace, Search.outcome, Search.log, h.violation, htruncated]
      rw [htruncated] at hcut
      cases hcut with
      | some hfind _ hway => exact ⟨_, hfind, htrace ▸ hway⟩
  · exact fun _ => h.unbroken

/-- The recorded graph is the exploration. After any search that ends without an error, whatever the driver answered
and whatever else was asked for, the graph depicts the result: its nodes are numbered in depth first order, their
number is that of the states expanded, the duplicates and the violating state, and the ways to the violation and to
the first path that was cut are the reported traces. -/
theorem recorded_graph_depicts_search [Snapshot κ] {drv : Driver σ κ} {o : Options} (hgraph : o.graph = true)
    {fuel : Nat} {m : σ} {s : Search σ κ} (hrun : Search.run drv o fuel m = some (none, s)) :
    ∃ g, s.graph = some g ∧ g.Depicts s.result := by
  obtain ⟨s₁, hreached, -, rfl⟩ := Trail.run_closes hrun
  rcases hreached.charts hgraph with ⟨g, hg⟩ | ⟨hdone, g, hg, hdepicts⟩
  · exact ⟨g, hg.graph, hg.depicts _⟩
  · have hsame : s₁.result = ({ s₁.log (.finished s₁.outcome s₁.stats) with phase := .done } : Search σ κ).result := by
      simp only [Search.result, Search.reportedTrace, hdone]
      rfl
    exact ⟨g, hg, hsame ▸ hdepicts⟩

theorem recorded_graph_depicts_search_counter : ∃ s g,
    Search.run Program.checkedCounter.driver ⟨0, .none, 0, 2, true⟩ 9 Program.checkedCounter.initial =
        some (none, s) ∧
      s.result.trace.length = 2 ∧ s.graph = some g ∧ g.size = 5 ∧ g.Depicts s.result := by
  obtain ⟨s, hrun, htrace, hviolation, hstats⟩ : ∃ s, Search.run Program.checkedCounter.driver ⟨0, .none, 0, 2, true⟩ 9
      Program.checkedCounter.initial = some (none, s) ∧ s.result.trace.length = 2 ∧
        s.result.violation.isSome = true ∧ s.result.stats.expanded + s.result.stats.duplicates = 4 :=
    ⟨_, rfl, rfl, rfl, rfl⟩
  obtain ⟨g, hg, hdepicts⟩ := recorded_graph_depicts_search rfl hrun
  have hsize := hdepicts.size
  rw [hstats, if_pos ⟨hviolation, List.ne_nil_of_length_pos (htrace ▸ Nat.two_pos)⟩] at hsize
  exact ⟨s, g, hrun, htrace, hg, Int.ofNat.inj hsize, hdepicts⟩

end Interleave
