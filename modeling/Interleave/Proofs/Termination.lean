import Interleave.Proofs.FullSearch
import Interleave.Proofs.Progress
import Mathlib.Data.Finset.Card
import Mathlib.Data.List.Induction
import Mathlib.Tactic.Positivity

/-! A search ends if executions take finitely many steps and have bounded length. A spot at depth `d` counts
with the number of steps not yet tried from it, times a power that falls with `d`: a step that enters a new
spot lowers the digit below it. -/

namespace Interleave

variable {σ κ π : Type} {drv : Driver σ κ} {view : σ → π} {o : Options} {root : Node σ}

/-- Every step of an execution from the root is among `steps` and comes after fewer than `length` others. -/
def Driver.Bounded (drv : Driver σ κ) (root : Node σ) (steps : Finset Step) (length : Nat) : Prop :=
  ∀ path n x, drv.walk? root path = some n → n.state.offers x = true → x ∈ steps ∧ path.length < length

variable {steps : Finset Step} {length : Nat}

theorem Driver.Bounded.length_le (h : drv.Bounded root steps length) {path : List Step} {n : Node σ}
    (hwalk : drv.walk? root path = some n) : path.length ≤ length := by
  cases path using List.reverseRecOn with
  | nil => exact Nat.zero_le _
  | append_singleton path x =>
    rw [Driver.walk?_snoc, Option.bind_eq_some_iff] at hwalk
    obtain ⟨n₁, hwalk, hadv⟩ := hwalk
    rw [List.length_append]
    exact (h path n₁ x hwalk (Driver.advance?_eq_some hadv).1).2

namespace State

def untried (steps : Finset Step) (s : State) : Nat := (steps.filter fun x => ¬ s.Tried x).card

theorem untried_le (steps : Finset Step) (s : State) : s.untried steps ≤ steps.card :=
  Finset.card_filter_le _ _

theorem Remarked.untried {s s' : State} (h : s.Remarked s') (steps : Finset Step) :
    s'.untried steps = s.untried steps :=
  congrArg Finset.card (Finset.filter_congr fun x _ => (h.tried_iff x).not)

end State

namespace Trail

theorem Takes.untried_lt {p p' : Spot σ κ} {below : List (Spot σ κ)} {x : Step} {t : Transition} {n : Node σ}
    (h : Takes drv o p below x t n p') (hw : p.state.WellFormed) (hx : x ∈ steps) :
    p'.state.untried steps < p.state.untried steps := by
  obtain ⟨taken, htake, -⟩ := h.take
  refine Finset.card_lt_card (Finset.ssubset_iff_of_subset ?_ |>.mpr ⟨x, ?_, ?_⟩)
  · exact Finset.monotone_filter_right _ fun y _ hy hp => hy ((h.tried_iff hw y).mpr (.inl hp))
  · exact Finset.mem_filter.mpr ⟨hx, State.not_tried_take htake⟩
  · exact fun hmem => (Finset.mem_filter.mp hmem).2 ((h.tried_iff hw x).mpr (.inr rfl))

def weight (steps : Finset Step) (length : Nat) : List (Spot σ κ) → Nat
  | [] => 0
  | p :: below => (p.state.untried steps + 1) * (steps.card + 2) ^ (length - below.length) +
      weight steps length below

theorem weight_remarked {spots spots' : List (Spot σ κ)} (h : List.Forall₂ Spot.Remarked spots spots') :
    weight steps length spots' = weight steps length spots := by
  induction h with
  | nil => rfl
  | cons hp hrest ih => rw [weight, weight, ih, hp.state.untried, hrest.length_eq]

theorem weight_tail_lt (p : Spot σ κ) (below : List (Spot σ κ)) :
    weight steps length below < weight steps length (p :: below) := by
  rw [weight]
  have hpos : 0 < (p.state.untried steps + 1) * (steps.card + 2) ^ (length - below.length) := by positivity
  omega

theorem weight_enter_lt {p p' q : Spot σ κ} {below : List (Spot σ κ)}
    (hlt : p'.state.untried steps < p.state.untried steps) (hdepth : below.length < length) :
    weight steps length (q :: p' :: below) < weight steps length (p :: below) := by
  -- Trying one more step from a spot pays for the spot that it leads to.
  obtain ⟨e, he⟩ : ∃ e, length - below.length = e + 1 := ⟨length - below.length - 1, by omega⟩
  have he' : length - (p' :: below).length = e := by
    rw [List.length_cons]
    omega
  simp only [weight, he, he']
  -- The new spot weighs less than one step that is left to try from the spot below.
  have hq : (q.state.untried steps + 1) * (steps.card + 2) ^ e < (steps.card + 2) ^ (e + 1) := by
    rw [pow_succ, mul_comm]
    have := q.state.untried_le steps
    exact Nat.mul_lt_mul_of_pos_left (by omega) (by positivity)
  have hp : (p'.state.untried steps + 1 + 1) * (steps.card + 2) ^ (e + 1) ≤
      (p.state.untried steps + 1) * (steps.card + 2) ^ (e + 1) := Nat.mul_le_mul_right _ (by omega)
  rw [Nat.succ_mul] at hp
  omega

theorem Takes.bounded {p p' : Spot σ κ} {below : List (Spot σ κ)} {x : Step} {t : Transition} {n : Node σ}
    (h : Takes drv o p below x t n p') (hs : Sound drv view o root (p :: below))
    (hbounded : drv.Bounded root steps length) : x ∈ steps ∧ below.length < length := by
  rw [← hs.length_path]
  exact hbounded _ _ x hs.walk_path (Driver.advance?_eq_some h.advance).1

theorem Unwinds.weight_le {T T' : Trail σ κ} (h : Unwinds o T T') (hs : Sound drv view o root T.spots) :
    weight steps length T'.spots ≤ weight steps length T.spots := by
  induction h with
  | emptied => exact le_refl _
  | resumed _ _ hsettle _ _ =>
    exact (weight_remarked (.cons ⟨.refl _, rfl⟩ (hsettle.remarked hs.tail))).le
  | @dropped p below below' _ _ _ hsettle _ _ ih =>
    calc _ ≤ weight steps length below' := ih (hsettle.sound hs).tail
      _ = weight steps length below := weight_remarked (hsettle.remarked hs.tail)
      _ ≤ _ := (weight_tail_lt p below).le

theorem Sound.within {p : Spot σ κ} {below : List (Spot σ κ)} (hs : Sound drv view o root (p :: below))
    (hbounded : drv.Bounded root steps length) (hadmits : o.Admits length) (htodo : 0 < p.state.todoCount) :
    o.withinDepth below.length = true := by
  have hfits := hs.fits
  obtain ⟨a, ha⟩ := List.exists_mem_of_ne_nil _ (State.enabledIds_ne_nil hfits.wellFormed htodo)
  have hoff := hfits.wellFormed.offers_zero ((State.mem_enabledIds hfits.wellFormed).mp ha)
  rw [State.offers_congr hfits.profile] at hoff
  have hlt := (hbounded _ _ _ hs.walk_path hoff).2
  rw [hs.length_path] at hlt
  exact Options.admits_succ_iff.mp (hadmits.mono hlt)

theorem Shift.weight_lt [Snapshot κ] {T T' : Trail σ κ} (h : Shift drv view o T T')
    (hs : Sound drv view o root T.spots) (hbounded : drv.Bounded root steps length)
    (hadmits : o.Admits length) : weight steps length T'.spots < weight steps length T.spots := by
  cases h with
  | entered _ htakes _ _ _ _ _ _ =>
    obtain ⟨hx, hdepth⟩ := htakes.bounded hs hbounded
    exact weight_enter_lt (htakes.untried_lt hs.fits.wellFormed hx) hdepth
  | @skipped p _ _ _ _ _ _ _ _ _ _ _ htakes _ _ _ =>
    obtain ⟨hx, hdepth⟩ := htakes.bounded hs hbounded
    exact (weight_tail_lt p _).trans (weight_enter_lt (htakes.untried_lt hs.fits.wellFormed hx) hdepth)
  | cut _ _ hbound htodo => exact absurd (hs.within hbounded hadmits htodo) (by simp [hbound])
  | @unwound p below _ _ _ hover hunwinds =>
    cases hunwinds with
    | resumed _ _ _ htodo hwithin =>
      -- The search does not go on from a spot that is over.
      rcases hover with hzero | ⟨hbound, -⟩
      · omega
      · simp [hwithin] at hbound
    | @dropped _ _ below' _ _ _ hsettle _ hrest =>
      calc _ ≤ weight steps length below' := hrest.weight_le (hsettle.sound hs).tail
        _ = weight steps length below := weight_remarked (hsettle.remarked hs.tail)
        _ < _ := weight_tail_lt p below

theorem Shift.truncated_none [Snapshot κ] {T T' : Trail σ κ} (h : Shift drv view o T T')
    (hs : Sound drv view o root T.spots) (hbounded : drv.Bounded root steps length)
    (hadmits : o.Admits length) (hT : T.truncated = none) : T'.truncated = none := by
  cases h with
  | entered => exact hT
  | skipped => exact hT
  | cut _ _ hbound htodo => exact absurd (hs.within hbounded hadmits htodo) (by simp [hbound])
  | unwound _ hunwinds => exact hunwinds.truncated_eq.trans hT

section Ends

variable [Snapshot κ] (hdet : drv.Deterministic view) (hrel : drv.Reliable root)
  (hbounded : drv.Bounded root steps length) (hadmits : o.Admits length)

include hbounded hadmits in
theorem Visits.truncated {T : Trail σ κ} (h : Visits drv view o root T) (hroot : root.state.Fresh) :
    T.truncated = none :=
  (h.induction hroot (fun _ hstarts => hstarts.truncated)
    fun _ _ hs hT hshift => hshift.truncated_none hs hbounded hadmits hT).2

include hbounded hadmits in
theorem Visits.shifts {T T' : Trail σ κ} (h : Visits drv view o root T) (hroot : root.state.Fresh)
    (hshift : Relation.TransGen (Shift drv view o) T T') :
    Visits drv view o root T' ∧ weight steps length T'.spots < weight steps length T.spots := by
  obtain ⟨hfail, T₀, hstarts, hrun⟩ := h
  have hsound : ∀ {S}, Relation.ReflTransGen (Shift drv view o) T₀ S → Sound drv view o root S.spots :=
    fun hS => Visits.sound ⟨hfail, T₀, hstarts, hS⟩ hroot
  refine ⟨⟨hfail, T₀, hstarts, hrun.trans hshift.to_reflTransGen⟩, ?_⟩
  induction hshift with
  | single hstep => exact hstep.weight_lt (hsound hrun) hbounded hadmits
  | tail hsteps hstep ih =>
    exact (hstep.weight_lt (hsound (hrun.trans hsteps.to_reflTransGen)) hbounded hadmits).trans ih

theorem loop_of_finished {s : Search σ κ} (h : s.finished = true) (fuel : Nat) :
    Search.loop drv o fuel s = some (none, s) := by
  cases fuel <;> simp [Search.loop, h]

include hdet hrel hbounded hadmits

theorem loop_ends (hnone : o.maxVisited = 0) (hfresh : root.state.Fresh) (htrace : root.trace = [])
    (fuel : Nat) {s : Search σ κ} {T : Trail σ κ} (ht : Tracks drv view o root s.core T)
    (hvisits : Visits drv view o root T) (hfuel : weight steps length T.spots < fuel) :
    ∃ s', Search.loop drv o fuel s = some (none, s') := by
  induction fuel generalizing s T with
  | zero => omega
  | succ fuel ih =>
    by_cases hfin : s.finished = true
    · exact ⟨s, loop_of_finished hfin _⟩
    · have hspots : T.spots ≠ [] := by
        intro hnil
        have hstack := ht.stack
        rw [hnil] at hstack
        exact hfin (finished_iff.mpr (.inl hstack))
      obtain ⟨s₁, hturn⟩ := ht.turn_ok hdet hrel hnone (hvisits.grounded hrel.givesSnapshots hfresh)
      rw [Search.loop, if_neg hfin, hturn]
      rcases ht.turn hdet htrace hspots hturn with ⟨T', hturned, ht'⟩ | hreports
      · obtain ⟨hvisits', hlt⟩ := hvisits.shifts hbounded hadmits hfresh hturned.shifts
        exact ih ht' hvisits' (by omega)
      · have hends : Ends drv view o root s₁.core := .inr ⟨T, hvisits, hreports⟩
        exact ⟨s₁, loop_of_finished (finished_iff.mpr (.inr hends.phase)) _⟩

theorem run_ends (hnone : o.maxVisited = 0) {m : σ} (hroot : drv.root? m = some root) :
    ∃ bound, ∀ fuel, bound ≤ fuel → ∃ s, Search.run drv o fuel m = some (none, s) := by
  obtain ⟨-, -, -, htrace, -⟩ := Driver.root?_eq_some hroot
  obtain ⟨s, hstart⟩ := start_ok hrel hnone hroot
  have hloop : ∃ bound, ∀ fuel, bound ≤ fuel → ∃ s', Search.loop drv o fuel s = some (none, s') := by
    obtain ⟨root', hroot', hends⟩ := start_simulates hdet hstart
    cases hroot.symm.trans hroot'
    rcases hends with ⟨hfail, T, hstarts, htracks⟩ | ⟨-, hdone, -⟩
    · exact ⟨weight steps length T.spots + 1, fun fuel hfuel => loop_ends hdet hrel hbounded hadmits hnone
        (Driver.root?_fresh hroot) htrace fuel htracks ⟨hfail, T, hstarts, .refl⟩ hfuel⟩
    · exact ⟨0, fun fuel _ => ⟨s, loop_of_finished (finished_iff.mpr (.inr hdone)) fuel⟩⟩
  obtain ⟨bound, hbound⟩ := hloop
  refine ⟨bound, fun fuel hfuel => ?_⟩
  obtain ⟨s', hs'⟩ := hbound fuel hfuel
  rw [Search.run, hstart]
  dsimp only
  rw [hs']
  exact ⟨_, rfl⟩

omit hrel in
theorem run_verdict {m : σ} (hroot : drv.root? m = some root) {fuel : Nat} {s : Search σ κ}
    (hrun : Search.run drv o fuel m = some (none, s)) :
    s.result.outcome = .noViolation ∨
      (s.result.outcome = .violation ∧ ∃ path n, drv.walk? root path = some n ∧ n.Failing) := by
  obtain ⟨root', hroot', hends⟩ := run_cases hdet hrun
  cases hroot.symm.trans hroot'
  have hfresh := Driver.root?_fresh hroot
  have hviolated : ∀ {v}, s.violation = some v → s.result.outcome = .violation :=
    fun hv => by simp [Search.result, Search.outcome, hv]
  rcases hends with ⟨T, hvisits, -, hviolation, htruncated⟩ | ⟨hfail, -, hviolation, -⟩ | hreports
  · rw [hvisits.truncated hbounded hadmits hfresh] at htruncated
    exact .inl (by simp [Search.result, Search.outcome, hviolation, htruncated])
  · exact .inr ⟨hviolated hviolation, [], root, rfl, hfail⟩
  · obtain ⟨T, hvisits, p, below, x, t, n, p', hspots, htakes, hfail, -, hviolation, -⟩ := hreports
    have hs := hvisits.sound hfresh
    rw [hspots] at hs
    refine .inr ⟨hviolated hviolation, path below ++ [x], n, ?_, hfail⟩
    rw [Driver.walk?_snoc, hs.walk_path]
    exact htakes.advance

end Ends

end Trail

end Interleave
