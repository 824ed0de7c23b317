import Interleave.Proofs.HappensBefore
import Interleave.Proofs.Operations

/-! The clocks and the nodes of the frames, kept beside the stack: the clocks in a list by depth, the nodes in a map by the
number of the state. The clock of a frame is added when it is left, after the list is cut to the frame's depth. Popping a
frame leaves its clock in the list, where nothing reads it before the next cut, and takes its node out of the map. Whatever
a search does, the two tables hold at each frame of the stack what the frame itself carries. -/

namespace Interleave

variable {σ κ : Type}

structure SideTables where
  clocks : List Clock
  nodes : Int → Option Tree.Path

namespace SideTables

def empty : SideTables := ⟨[], fun _ => none⟩

def leave (o : Options) (depth : Nat) (clock : Clock) (t : SideTables) : SideTables :=
  match o.reduction with
  | .dpor => { t with clocks := t.clocks.take depth ++ [clock] }
  | _ => t

def place (f : Frame κ) (t : SideTables) : SideTables :=
  { t with nodes := Function.update t.nodes f.state.num (some f.node) }

def remove (f : Frame κ) (t : SideTables) : SideTables :=
  { t with nodes := Function.update t.nodes f.state.num none }

/-- How the tables are kept as the stack changes. -/
inductive Keeps (o : Options) : List (Frame κ) × SideTables → List (Frame κ) × SideTables → Prop
  | leave {top : Frame κ} {state : State} {clock : Clock} {below : List (Frame κ)} {t : SideTables} :
      Keeps o (top :: below, t) ({ top with state, clock } :: below, t.leave o below.length clock)
  | enter {f : Frame κ} {fs : List (Frame κ)} {t : SideTables} : Keeps o (fs, t) (f :: fs, t.place f)
  | delete {f : Frame κ} {below below' : List (Frame κ)} {t : SideTables}
      (hmarks : List.Forall₂ Frame.Remarked below below') : Keeps o (f :: below, t) (below', t.remove f)
  | remark {fs fs' : List (Frame κ)} {t : SideTables} (hmarks : List.Forall₂ Frame.Remarked fs fs') :
      Keeps o (fs, t) (fs', t)

/-- The tables hold what the frames carry. -/
def Agrees (o : Options) (t : SideTables) : List (Frame κ) → Prop
  | [] => True
  | f :: below =>
    (o.reduction = .dpor → f.state.transition.isSome = true → t.clocks[below.length]? = some f.clock) ∧
      t.nodes f.state.num = some f.node ∧ t.Agrees o below

variable {o : Options} {t : SideTables} {f : Frame κ} {fs fs' : List (Frame κ)}

theorem Agrees.remarked (h : t.Agrees o fs) (hmarks : List.Forall₂ Frame.Remarked fs fs') : t.Agrees o fs' := by
  induction hmarks with
  | nil => trivial
  | @cons f f' below below' hf hrest ih =>
    obtain ⟨hclock, hnode, hbelow⟩ := h
    refine ⟨?_, ?_, ih hbelow⟩
    · rw [hf.state.transition, hf.clock, ← hrest.length_eq]
      exact hclock
    · rw [hf.state.num, hf.node]
      exact hnode

theorem Agrees.length_le (h : t.Agrees o fs) (ho : o.reduction = .dpor)
    (hleft : ∀ f ∈ fs, f.state.transition.isSome = true) : fs.length ≤ t.clocks.length := by
  cases fs with
  | nil => exact Nat.zero_le _
  | cons f below =>
    obtain ⟨hlt, -⟩ := List.getElem?_eq_some_iff.mp (h.1 ho (hleft f List.mem_cons_self))
    exact hlt

theorem Agrees.take {n : Nat} (h : t.Agrees o fs) (hn : fs.length ≤ n) (clock : Clock) :
    ({ t with clocks := t.clocks.take n ++ [clock] } : SideTables).Agrees o fs := by
  induction fs with
  | nil => trivial
  | cons f below ih =>
    obtain ⟨hclock, hnode, hbelow⟩ := h
    refine ⟨fun ho hleft => ?_, hnode, ih hbelow (Nat.le_of_succ_le hn)⟩
    obtain ⟨hlt, -⟩ := List.getElem?_eq_some_iff.mp (hclock ho hleft)
    rw [List.getElem?_append_left (by simpa using ⟨hn, hlt⟩), List.getElem?_take_of_lt hn]
    exact hclock ho hleft

theorem Agrees.update (h : t.Agrees o fs) {num : Int} (hnum : ∀ f ∈ fs, f.state.num ≠ num) (node : Option Tree.Path) :
    ({ t with nodes := Function.update t.nodes num node } : SideTables).Agrees o fs := by
  induction fs with
  | nil => trivial
  | cons f below ih =>
    obtain ⟨hclock, hnode, hbelow⟩ := h
    obtain ⟨hf, hrest⟩ := List.forall_mem_cons.mp hnum
    refine ⟨hclock, ?_, ih hbelow hrest⟩
    exact (Function.update_of_ne hf node t.nodes).trans hnode

theorem Agrees.at_depth (h : t.Agrees o fs) {depth : Nat} (hf : fs.reverse[depth]? = some f) :
    (o.reduction = .dpor → f.state.transition.isSome = true → t.clocks[depth]? = some f.clock) ∧
      t.nodes f.state.num = some f.node := by
  induction fs with
  | nil => cases hf
  | cons g below ih =>
    obtain ⟨hclock, hnode, hbelow⟩ := h
    rcases (getElem?_reverse_cons g below depth f).mp hf with ⟨rfl, rfl⟩ | hf
    · exact ⟨hclock, hnode⟩
    · exact ih hbelow hf

theorem Agrees.leave {top : Frame κ} {below : List (Frame κ)} {state : State} (h : t.Agrees o (top :: below))
    (hleft : ∀ f ∈ below, f.state.transition.isSome = true) (hnum : state.num = top.state.num) (clock : Clock) :
    (t.leave o below.length clock).Agrees o ({ top with state, clock } :: below) := by
  obtain ⟨-, hnode, hbelow⟩ := h
  by_cases ho : o.reduction = .dpor
  · -- Clocks of popped frames may still be in the list; the cut drops them.
    have hlength : (t.clocks.take below.length).length = below.length :=
      List.length_take_of_le (hbelow.length_le ho hleft)
    have hcut : t.leave o below.length clock = { t with clocks := t.clocks.take below.length ++ [clock] } := by
      rw [SideTables.leave, ho]
    rw [hcut]
    refine ⟨fun _ _ => ?_, hnum ▸ hnode, hbelow.take le_rfl clock⟩
    rw [List.getElem?_append_right hlength.le, hlength, Nat.sub_self]
    rfl
  · have hkept : t.leave o below.length clock = t := by
      cases hred : o.reduction <;> simp_all [SideTables.leave]
    rw [hkept]
    exact ⟨fun hdpor => absurd hdpor ho, hnum ▸ hnode, hbelow⟩

theorem Agrees.place (h : t.Agrees o fs) (hnew : f.state.transition = none)
    (hnum : ∀ g ∈ fs, g.state.num ≠ f.state.num) : (t.place f).Agrees o (f :: fs) := by
  refine ⟨fun _ hleft => ?_, Function.update_self .., h.update hnum _⟩
  rw [hnew] at hleft
  cases hleft

end SideTables

def Ascends (bound : Int) : List (Frame κ) → Prop
  | [] => True
  | f :: below => f.state.num < bound ∧ Ascends f.state.num below

namespace Ascends

variable {bound bound' : Int} {f : Frame κ} {fs fs' : List (Frame κ)}

theorem mono (h : Ascends bound fs) (hle : bound ≤ bound') : Ascends bound' fs := by
  cases fs with
  | nil => trivial
  | cons f below => exact ⟨h.1.trans_le hle, h.2⟩

theorem lt (h : Ascends bound fs) : ∀ f ∈ fs, f.state.num < bound := by
  induction fs generalizing bound with
  | nil => exact fun _ hf => by cases hf
  | cons f below ih => exact List.forall_mem_cons.mpr ⟨h.1, fun g hg => (ih h.2 g hg).trans h.1⟩

theorem remarked (h : Ascends bound fs) (hmarks : List.Forall₂ Frame.Remarked fs fs') : Ascends bound fs' := by
  induction hmarks generalizing bound with
  | nil => trivial
  | cons hf _ ih =>
    rw [Ascends, hf.state.num]
    exact ⟨h.1, ih h.2⟩

end Ascends

namespace Search

variable {drv : Driver σ κ} {o : Options} {s s' : Search σ κ}

structure Numbered (s : Search σ κ) : Prop where
  given : Ascends s.nextNum s.stack
  left : (∀ f ∈ s.stack.head?, f.state.transition.isSome = true) → Ascends (s.nextNum - 1) s.stack

theorem Act.numbered (h : Act drv o s s') (hs : Upright s.stack) (hnumbered : s.Numbered) : s'.Numbered := by
  obtain ⟨hgiven, hleft⟩ := hnumbered
  cases h with
  | note hnote => exact ⟨hnote.nextNum ▸ hnote.stack ▸ hgiven, hnote.nextNum ▸ hnote.stack ▸ hleft⟩
  | initialActors h => exact ⟨hgiven.mono (Int.le_add_one le_rfl), fun _ => hgiven.mono (Int.add_sub_cancel s.nextNum 1).ge⟩
  | @execute top below a r state m clock hstack hexec _ _ =>
    rw [hstack] at hs hgiven
    have hnum := (State.execute_wellFormed (hs.wellFormed _ List.mem_cons_self) hexec).2
    have hstays : Ascends s.nextNum ({ top with state, clock } :: below) := by
      rw [Ascends, hnum]
      exact hgiven
    exact ⟨hstays.mono (Int.le_add_one le_rfl), fun _ => hstays.mono (Int.add_sub_cancel s.nextNum 1).ge⟩
  | @enter f hnum _ hnew hhead =>
    -- The last number was given out when the top was left, and no frame has it yet.
    have hlt : f.state.num < s.nextNum := hnum ▸ Int.sub_one_lt_of_le le_rfl
    refine ⟨⟨hlt, hnum ▸ hleft hhead⟩, fun hf => ?_⟩
    have htop := hf f rfl
    rw [hnew] at htop
    cases htop
  | @pop f below below' es hstack hsettle =>
    rw [hstack] at hs hgiven
    have hbelow : Ascends f.state.num below' := hgiven.2.remarked (settle_remarked hs.tail.wellFormed hsettle)
    rw [logAll_events]
    exact ⟨hbelow.mono hgiven.1.le, fun _ => hbelow.mono (Int.le_sub_one_of_lt hgiven.1)⟩
  | @resume f below below' es hstack hsettle =>
    rw [hstack] at hs hgiven hleft
    have hmarks := settle_remarked hs.tail.wellFormed hsettle
    rw [logAll_events]
    exact ⟨hgiven.remarked (.cons (.refl f) hmarks), fun hf => (hleft hf).remarked (.cons (.refl f) hmarks)⟩
  | _ => exact ⟨hgiven, hleft⟩

theorem Acts.numbered (h : Acts drv o s s') (hs : Upright s.stack) (hnumbered : s.Numbered) : s'.Numbered := by
  induction h with
  | refl => exact hnumbered
  | tail hacts hact ih => exact hact.numbered (Acts.upright hacts hs) ih

open SideTables in
theorem Act.keeps_tables (h : Act drv o s s') (hs : Upright s.stack) (hnumbered : s.Numbered) {t : SideTables}
    (ht : t.Agrees o s.stack) : ∃ t', Keeps o (s.stack, t) (s'.stack, t') ∧ t'.Agrees o s'.stack := by
  have hsame : List.Forall₂ Frame.Remarked s.stack s.stack := List.forall₂_same.mpr fun f _ => .refl f
  cases h with
  | note hnote => exact ⟨t, .remark (hnote.stack ▸ hsame), hnote.stack ▸ ht⟩
  | @execute top below a r state m clock hstack hexec _ _ =>
    rw [hstack] at hs ht ⊢
    have hnum := (State.execute_wellFormed (hs.wellFormed _ List.mem_cons_self) hexec).2
    exact ⟨_, .leave, ht.leave hs.left hnum clock⟩
  | @enter f hnum _ hnew hleft =>
    refine ⟨_, .enter, ht.place hnew fun g hg => ?_⟩
    -- The number of the new state is above all those on the stack.
    rw [hnum]
    exact ((hnumbered.left hleft).lt g hg).ne
  | @pop f below below' es hstack hsettle =>
    have hascends := hnumbered.given
    rw [hstack] at hs ht hascends ⊢
    have hmarks := settle_remarked hs.tail.wellFormed hsettle
    rw [logAll_events]
    exact ⟨_, .delete hmarks, (ht.2.2.update (fun g hg => (hascends.2.lt g hg).ne) none).remarked hmarks⟩
  | @resume f below below' es hstack hsettle =>
    rw [hstack] at hs ht ⊢
    have hmarks := List.Forall₂.cons (Frame.Remarked.refl f) (settle_remarked hs.tail.wellFormed hsettle)
    rw [logAll_events]
    exact ⟨t, .remark hmarks, ht.remarked hmarks⟩
  | _ => exact ⟨t, .remark hsame, ht⟩

open SideTables in
theorem Acts.keeps_tables {m : σ} (h : Acts drv o (new o m) s) :
    ∃ t, Relation.ReflTransGen (Keeps o) ([], empty) (s.stack, t) ∧ t.Agrees o s.stack := by
  induction h with
  | refl => exact ⟨empty, .refl, trivial⟩
  | tail hacts hact ih =>
    obtain ⟨t, hkeeps, ht⟩ := ih
    have hnumbered := Acts.numbered hacts .nil ⟨trivial, fun _ => trivial⟩
    obtain ⟨t', hlast, ht'⟩ := hact.keeps_tables (Acts.upright hacts .nil) hnumbered ht
    exact ⟨t', hkeeps.tail hlast, ht'⟩

open SideTables in
/-- At the head of every iteration, what is read from the tables at the depth and the number of a frame is what the frame
carries. -/
theorem Reached.reads_tables [Snapshot κ] {m : σ} (h : Reached drv o m s) (hphase : s.phase ≠ .done) :
    ∃ t, Relation.ReflTransGen (Keeps o) ([], empty) (s.stack, t) ∧
      ∀ (depth : Nat) (f : Frame κ), s.stack.reverse[depth]? = some f →
        (o.reduction = .dpor → f.state.transition.isSome = true → t.clocks[depth]? = some f.clock) ∧
          t.nodes f.state.num = some f.node := by
  obtain ⟨t, hkeeps, ht⟩ := Acts.keeps_tables (h.conducts.acts hphase)
  exact ⟨t, hkeeps, fun depth f hf => ht.at_depth hf⟩

end Search

end Interleave
