import Interleave.Proofs.Completion
import Interleave.Proofs.Mirroring
import Interleave.Proofs.StackPath
import Mathlib.Data.List.Induction

/-! A search under partial order reduction. For every step that it has finished with, all runs after that step
can be completed, and every race of the step and of the transitions below it is heeded on the stack. When the
stack is empty all runs of the program can be completed without violation. -/

namespace Interleave

namespace Trail

open Program (Configuration Captured)

variable {p : Program} {o : Options} {root : Node Configuration}

def Explored (p : Program) (below : List (Frame Captured)) (q : Spot Configuration Captured) (x : Step) :
    Prop :=
  ∀ t v c, t.step = x → p.Fires q.node.machine t v c →
    v = none ∧ p.Completes (fun us => Heeded q.state.Heeds t {t} us ∧ HeededBy below [] (t :: us)) c

def Returned (p : Program) (below : List (Frame Captured)) (q : Spot Configuration Captured) : Prop :=
  ∃ t c, q.state.transition = some t ∧ p.Fires q.node.machine t none c ∧
    p.Completes (fun us => Heeded q.state.Heeds t {t} us ∧ HeededBy below [t] us) c

/-- What the search knows at `q` while the step `current` is being explored. -/
structure Reduced (p : Program) (below : List (Frame Captured)) (current : Option Step)
    (q : Spot Configuration Captured) : Prop where
  mirrors : p.Mirrors q.node.state q.node.machine
  marked : ∀ a, q.state.isEnabled a = true → ∃ b, q.state.Marked b
  explored : ∀ x, q.state.Tried x → some x ≠ current → Explored p below q x

def Reducing (p : Program) : List (Spot Configuration Captured) → Prop
  | [] => True
  | q :: below => Reduced p (below.map Spot.frame) q.outgoing q ∧ Reducing p below

section Remarked

variable {below below' : List (Spot Configuration Captured)} {q q' : Spot Configuration Captured}

theorem forall₂_frames (h : List.Forall₂ Spot.Remarked below below') :
    List.Forall₂ Frame.Remarked (below.map Spot.frame) (below'.map Spot.frame) := by
  rw [List.forall₂_map_left_iff, List.forall₂_map_right_iff]
  exact h.imp fun _ _ => Spot.Remarked.frame

theorem Explored.mono {fs fs' : List (Frame Captured)} {x : Step} (h : Explored p fs q x)
    (hnode : q'.node = q.node) (hheeds : ∀ a, q.state.Heeds a → q'.state.Heeds a)
    (hfs : List.Forall₂ Frame.Remarked fs fs') : Explored p fs' q' x := by
  intro t v c ht hfires
  rw [hnode] at hfires
  obtain ⟨hv, hcompletes⟩ := h t v c ht hfires
  refine ⟨hv, fun us d hrun => ?_⟩
  obtain ⟨vs, e, hclean, he, hheeded, hbelow⟩ := hcompletes us d hrun
  exact ⟨vs, e, hclean, he, hheeded.mono hheeds, hbelow.remarked hfs⟩

theorem Reduced.remarked {fs fs' : List (Frame Captured)} {current : Option Step}
    (h : Reduced p fs current q) (hq : q.Remarked q') (hfs : List.Forall₂ Frame.Remarked fs fs') :
    Reduced p fs' current q' where
  mirrors := hq.node ▸ h.mirrors
  marked := by
    intro a ha
    rw [State.isEnabled_congr hq.state.profile] at ha
    obtain ⟨b, hb⟩ := h.marked a ha
    exact ⟨b, hq.state.marked hb⟩
  explored := fun x hx hne => (h.explored x ((hq.state.tried_iff x).mp hx) hne).mono hq.node
    (fun _ => hq.state.heeds) hfs

theorem Reducing.remarked (h : Reducing p below) (hr : List.Forall₂ Spot.Remarked below below') :
    Reducing p below' := by
  induction hr with
  | nil => trivial
  | cons hq hrest ih =>
    rw [Reducing, hq.outgoing]
    exact ⟨h.1.remarked hq (forall₂_frames hrest), ih h.2⟩

end Remarked

theorem Settles.explored {q : Spot Configuration Captured} {below below' : List (Spot Configuration Captured)}
    (h : Settles o q below below') (ho : o.reduction = .dpor)
    (hs : Sound p.driver id o root (q :: below)) (hclocked : Clocked (below.map Spot.frame))
    (hreturned : Returned p (below.map Spot.frame) q) {x : Step} (hx : some x = q.outgoing) :
    Explored p (below'.map Spot.frame) q x := by
  obtain ⟨t, c, hleft, hfires, hcompletes⟩ := hreturned
  obtain ⟨es, hsettle⟩ := h.frames
  rw [Search.settle_of_dpor ho hleft] at hsettle
  have hraces := Race.analyse_heededBy hs.tail.wellFormed hclocked hsettle
  have hremarked := forall₂_frames (h.remarked hs.tail)
  intro t' v' c' ht' hfires'
  rw [Spot.outgoing, hleft, Option.map_some, Option.some.injEq] at hx
  obtain rfl : t = t' := hfires.eq_of_step hfires' (hx.symm.trans ht'.symm)
  obtain ⟨rfl, rfl⟩ := hfires.unique hfires'
  refine ⟨rfl, fun us d hrun => ?_⟩
  obtain ⟨vs, e, hclean, he, hheeded, hbelow⟩ := hcompletes us d hrun
  exact ⟨vs, e, hclean, he, hheeded, heededBy_cons.mpr ⟨hraces, hbelow.remarked hremarked⟩⟩

theorem Reduced.completes {q : Spot Configuration Captured} {fs : List (Frame Captured)} {depth : Nat}
    (h : Reduced p fs none q) (hp : p.Standard) (hq : q.Fits p.driver id o depth)
    (htodo : q.state.todoCount = 0) : p.Completes (HeededBy fs []) q.node.machine := by
  have hoffers : ∀ t v c, p.Fires q.node.machine t v c → q.state.offers t.step = true := by
    intro t v c hfires
    rw [State.offers_congr hq.profile]
    exact h.mirrors.offers_of_fires hfires
  have hfires : ∀ a, q.state.isEnabled a = true → ∃ t v c, t.actor = a ∧ p.Fires q.node.machine t v c := by
    intro a ha
    have hoff := hq.wellFormed.offers_zero ha
    rw [State.offers_congr hq.profile] at hoff
    obtain ⟨t, v, c, hstep, hfires⟩ := h.mirrors.fires_of_offers hoff
    exact ⟨t, v, c, congrArg Step.actor hstep, hfires⟩
  have hsteps : ∀ t v c, q.state.Marked t.actor → p.Fires q.node.machine t v c → v = none ∧
      p.Completes (fun us => Heeded q.state.Heeds t {t} us ∧ HeededBy fs [] (t :: us)) c := by
    intro t v c hmarked ht
    -- Nothing is left to try, so a marked actor has been tried with every outcome.
    have htried := State.tried_of_exhausted hq.wellFormed htodo (x := t.step) hmarked (hoffers t v c ht)
    exact h.explored t.step htried nofun t v c rfl ht
  have hheeds : ∀ a, q.state.Heeds a →
      (q.state.Marked a ∧ ∃ t v c, t.actor = a ∧ p.Fires q.node.machine t v c) ∨
        ∀ t v c, p.Fires q.node.machine t v c → q.state.Marked t.actor := by
    rintro a (⟨hen, hmarked⟩ | hall)
    · exact .inl ⟨hmarked, hfires a hen⟩
    · exact .inr fun t v c ht => hall _ (State.isEnabled_of_offers (hoffers t v c ht))
  refine Program.completes_of_steps hp (heededBy_swapInvariant fs []) hsteps hheeds (heededBy_nil fs []) ?_ ?_
  · intro t v c ht
    obtain ⟨b, hb⟩ := h.marked _ (State.isEnabled_of_offers (hoffers t v c ht))
    have ⟨st, hst, hen, _⟩ := hb
    obtain ⟨t', v', c', rfl, ht'⟩ := hfires b (State.isEnabled_iff.mpr ⟨st, hst, hen⟩)
    exact ⟨t', v', c', hb, ht'⟩
  · intro hstuck
    by_contra hincomplete
    exact hq.notFailing (.inr ((h.mirrors.isDeadlock_iff hq.fresh.wellFormed).mpr ⟨hincomplete, hstuck⟩))

def Returning (p : Program) (root : Node Configuration) : List (Spot Configuration Captured) → Prop
  | [] => p.Completes (fun _ => True) root.machine
  | q :: below => (Reduced p (below.map Spot.frame) none q ∨
      (Reduced p (below.map Spot.frame) q.outgoing q ∧ Returned p (below.map Spot.frame) q)) ∧
    Reducing p below ∧ Clocked (below.map Spot.frame)

def Resting (p : Program) (root : Node Configuration) : List (Spot Configuration Captured) → Prop
  | [] => p.Completes (fun _ => True) root.machine
  | q :: below => Reduced p (below.map Spot.frame) none q ∧ Reducing p below ∧ Clocked (below.map Spot.frame)

theorem Settles.resting {q : Spot Configuration Captured} {below below' : List (Spot Configuration Captured)}
    (h : Settles o q below below') (ho : o.reduction = .dpor)
    (hs : Sound p.driver id o root (q :: below)) (hT : Returning p root (q :: below)) :
    Resting p root (q :: below') := by
  obtain ⟨hq, hbelow, hclocked⟩ := hT
  have hremarked := h.remarked hs.tail
  have hframes := forall₂_frames hremarked
  refine ⟨?_, hbelow.remarked hremarked, hclocked.remarked hframes⟩
  rcases hq with hq | ⟨hq, hreturned⟩
  · exact hq.remarked ⟨.refl _, rfl⟩ hframes
  · refine ⟨hq.mirrors, hq.marked, fun x hx _ => ?_⟩
    by_cases hcurrent : some x = q.outgoing
    · exact h.explored ho hs hclocked hreturned hcurrent
    · exact (hq.explored x hx hcurrent).mono rfl (fun _ => id) hframes

theorem returning_tail (hp : p.Standard) {q : Spot Configuration Captured}
    {below : List (Spot Configuration Captured)} (hs : Sound p.driver id o root (q :: below))
    (hT : Resting p root (q :: below)) (htodo : q.state.todoCount = 0) : Returning p root below := by
  obtain ⟨hq, hbelow, hclocked⟩ := hT
  have hcompletes := hq.completes hp hs.fits htodo
  have hq' := hs.fits
  cases hs with
  | root _ hnode =>
    rw [hnode] at hcompletes
    intro us d hrun
    obtain ⟨vs, e, hclean, he, -⟩ := hcompletes us d hrun
    exact ⟨vs, e, hclean, he, trivial⟩
  | @link _ r below t hbelow' _ hout hadv htrace _ =>
    obtain ⟨-, t', -, hfires, htrace'⟩ := hbelow.1.mirrors.advance? hbelow'.fits.fresh hadv
    obtain rfl : t = t' := List.singleton_inj.mp (List.append_cancel_left (htrace.symm.trans htrace'))
    have hviolation : q.node.violation = none := by
      by_contra hsome
      exact hq'.notFailing (.inl (Option.isSome_iff_ne_none.mpr hsome))
    rw [hviolation] at hfires
    refine ⟨.inr ⟨hbelow.1, t, _, hout, hfires, ?_⟩, hbelow.2, hclocked.2⟩
    -- What the frames heeded from the top spot on, the spot below heeds after its own transition.
    have hleft : r.frame.left = t := Frame.left_eq hout
    rw [List.map_cons] at hcompletes
    intro us d hrun
    obtain ⟨vs, e, hclean, he, hheeded, hbelow⟩ := hcompletes us d hrun
    rw [hleft] at hheeded hbelow
    exact ⟨vs, e, hclean, he, hheeded, hbelow⟩

theorem Unwinds.resting {T T' : Trail Configuration Captured} (h : Unwinds o T T')
    (ho : o.reduction = .dpor) (hp : p.Standard) (htruncated : T.truncated = none)
    (hs : Sound p.driver id o root T.spots) (hT : Returning p root T.spots) : Resting p root T'.spots := by
  induction h with
  | emptied => exact hT
  | resumed _ _ hsettle _ _ => exact hsettle.resting ho hs hT
  | @dropped q below below' visited truncated T hsettle hover _ ih =>
    obtain rfl : truncated = none := htruncated
    -- No path has been cut, so the spot is over because it has tried all that it was asked to.
    have htodo : q.state.todoCount = 0 := hover.resolve_right (by simp)
    have hs' := hsettle.sound hs
    exact ih rfl hs'.tail (returning_tail hp hs' (hsettle.resting ho hs hT) htodo)

theorem reduced_of_fresh {q : Spot Configuration Captured} {fs : List (Frame Captured)} {st : State}
    (ho : o.reduction = .dpor) (hst : st.Fresh) (hq : q.state = Search.consider o st)
    (hmirrors : p.Mirrors q.node.state q.node.machine) : Reduced p fs none q where
  mirrors := hmirrors
  marked := by
    intro a ha
    have hmarks : st.Remarked q.state := hq ▸ consider_remarked o st
    rw [State.isEnabled_congr hmarks.profile] at ha
    obtain ⟨status, hstatus, hen⟩ := State.isEnabled_iff.mp ha
    rw [hq, Search.consider, ho]
    exact State.considerOne_marked hst.wellFormed hstatus hen (hst.fresh _ (Assoc.mem_of_get? hstatus)).done
  explored := by
    intro x hx _
    have hmarks : st.Remarked q.state := hq ▸ consider_remarked o st
    exact absurd ((hmarks.tried_iff x).mp hx) (hst.not_tried x)

theorem Takes.reducing {q q' : Spot Configuration Captured} {below : List (Spot Configuration Captured)}
    {x : Step} {t : Transition} {n : Node Configuration} (h : Takes p.driver o q below x t n q')
    (ho : o.reduction = .dpor) (hs : Sound p.driver id o root (q :: below))
    (hT : Resting p root (q :: below)) :
    Reducing p (q' :: below) ∧ Clocked ((q' :: below).map Spot.frame) := by
  obtain ⟨hq, hbelow, hclocked⟩ := hT
  have hw := hs.fits.wellFormed
  refine ⟨⟨⟨h.node ▸ hq.mirrors, ?_, ?_⟩, hbelow⟩, Race.clocked_cons hclocked h.transition (h.clock ho)⟩
  · intro a ha
    rw [State.isEnabled_congr (h.profile hw)] at ha
    obtain ⟨b, hb⟩ := hq.marked a ha
    exact ⟨b, h.marked hb⟩
  · intro y hy hne
    rw [h.outgoing] at hne
    have htried : q.state.Tried y := ((h.tried_iff hw y).mp hy).resolve_right fun he => hne (congrArg some he)
    exact (hq.explored y htried nofun).mono h.node (fun _ => h.heeds hw)
      (List.forall₂_same.mpr fun f _ => .refl f)

theorem Starts.resting {T : Trail Configuration Captured} (h : Starts p.driver id o root T)
    (ho : o.reduction = .dpor) (hroot : root.state.Fresh) (hmirrors : p.Mirrors root.state root.machine) :
    Resting p root T.spots := by
  obtain ⟨q, hspots, hnode, hstate, -⟩ := h.spots
  rw [hspots]
  exact ⟨reduced_of_fresh ho hroot hstate (hnode ▸ hmirrors), trivial, trivial⟩

theorem Shift.resting {T T' : Trail Configuration Captured} (h : Shift p.driver id o T T')
    (ho : o.reduction = .dpor) (hnone : o.maxVisited = 0) (hp : p.Standard)
    (hs : Sound p.driver id o root T.spots) (hT : T.truncated = none → Resting p root T.spots)
    (htruncated : T'.truncated = none) : Resting p root T'.spots := by
  replace hT := hT (h.truncated_eq_none htruncated)
  cases h with
  | @entered q q' r below _ _ x t n num _ htakes _ hnode hstate _ _ _ =>
    have hfresh := (Driver.advance?_fresh hs.fits.fresh htakes.advance).renumbered num
    have hmirrors := (hT.1.mirrors.advance? hs.fits.fresh htakes.advance).1
    exact ⟨reduced_of_fresh ho hfresh hstate (hnode ▸ hmirrors), htakes.reducing ho hs hT⟩
  | skipped _ _ _ hpositive _ => exact absurd hpositive (by simp [hnone])
  | cut => cases htruncated
  | unwound _ hunwinds =>
    exact hunwinds.resting ho hp (hunwinds.truncated_eq ▸ htruncated) hs ⟨.inl hT.1, hT.2⟩

theorem Visits.resting {T : Trail Configuration Captured} (h : Visits p.driver id o root T)
    (ho : o.reduction = .dpor) (hnone : o.maxVisited = 0) (hp : p.Standard) (hroot : root.state.Fresh)
    (hmirrors : p.Mirrors root.state root.machine) (htruncated : T.truncated = none) :
    Resting p root T.spots :=
  (h.induction (P := fun T => T.truncated = none → Resting p root T.spots) hroot
    (fun _ hstarts _ => hstarts.resting ho hroot hmirrors)
    fun _ _ hs hT hshift => hshift.resting ho hnone hp hs hT).2 htruncated

end Trail

namespace Program

variable {p : Program}

theorem Mirrors.run {n n' : Node Configuration} {path : List Interleave.Step}
    (hn : p.Mirrors n.state n.machine) (hfresh : n.state.Fresh) (h : p.driver.walk? n path = some n') :
    p.Mirrors n'.state n'.machine ∧
      ∃ us, us.length = path.length ∧ p.Run (fun _ => True) n.machine us n'.machine := by
  induction path generalizing n with
  | nil =>
    cases h
    exact ⟨hn, [], rfl, .nil _⟩
  | cons x path ih =>
    obtain ⟨n₁, hadv, hwalk⟩ := Driver.walk?_cons_eq_some.mp h
    obtain ⟨hn₁, t, -, hfires, -⟩ := hn.advance? hfresh hadv
    obtain ⟨hn', us, hlength, hrun⟩ := ih hn₁ (Driver.advance?_fresh hfresh hadv) hwalk
    exact ⟨hn', t :: us, congrArg Nat.succ hlength, .cons hfires trivial hrun⟩

section Completes

variable {P : List Transition → Prop} {c d d' : Configuration} {us : List Transition} {t : Transition}
  {v : Option Violation} (h : p.Completes P c) (hrun : p.Run (fun _ => True) c us d)

include h hrun

theorem Completes.verdict (hfires : p.Fires d t v d') : v = none := by
  obtain ⟨vs, e, hclean, -⟩ := h (us ++ [t]) d' (hrun.append (.cons hfires trivial (.nil _)))
  rw [List.append_assoc] at hclean
  obtain ⟨d₁, hclean₁, hclean₂⟩ := hclean.split
  obtain rfl := hrun.unique hclean₁
  obtain _ | ⟨hfires', rfl, -⟩ := hclean₂
  exact (hfires.unique hfires').1

theorem Completes.goes_on : p.Complete d ∨ ∃ t v d', p.Fires d t v d' := by
  obtain ⟨vs, e, hclean, he, -⟩ := h us d hrun
  obtain ⟨d₁, hclean₁, hclean₂⟩ := hclean.split
  obtain rfl := hrun.unique hclean₁
  cases hclean₂ with
  | nil => exact .inl he
  | cons hfires _ _ => exact .inr ⟨_, _, _, hfires⟩

end Completes

theorem Completes.not_failing {root n : Node Configuration} {P : List Transition → Prop}
    (h : p.Completes P root.machine) (hmirrors : p.Mirrors root.state root.machine)
    (hfresh : root.state.Fresh) (hroot : root.violation = none) {path : List Interleave.Step}
    (hwalk : p.driver.walk? root path = some n) : ¬ n.Failing := by
  have hfresh' := Driver.walk?_fresh hfresh hwalk
  rintro (hviolation | hdeadlock)
  · cases path using List.reverseRecOn with
    | nil =>
      cases hwalk
      simp [hroot] at hviolation
    | append_singleton path x =>
      rw [Driver.walk?_snoc, Option.bind_eq_some_iff] at hwalk
      obtain ⟨n₁, hwalk, hadv⟩ := hwalk
      obtain ⟨hn₁, us, -, hrun⟩ := hmirrors.run hfresh hwalk
      obtain ⟨-, t, -, hfires, -⟩ := hn₁.advance? (Driver.walk?_fresh hfresh hwalk) hadv
      simp [h.verdict hrun hfires] at hviolation
  · obtain ⟨hn, us, -, hrun⟩ := hmirrors.run hfresh hwalk
    obtain ⟨hincomplete, hstuck⟩ := (hn.isDeadlock_iff hfresh'.wellFormed).mp hdeadlock
    rcases h.goes_on hrun with hcomplete | ⟨t, v, c', hfires⟩
    · exact hincomplete hcomplete
    · exact hstuck t v c' hfires

/-- If a search under partial order reduction finds no violation, all runs can be completed. -/
theorem completes_of_reduced {o : Options} (hp : p.Standard) (ho : o.reduction = .dpor)
    (hnone : o.maxVisited = 0) {c : Configuration} {fuel : Nat} {s : Search Configuration Captured}
    (hrun : Search.run p.driver o fuel c = some (none, s)) (hclean : s.result.outcome = .noViolation) :
    p.Completes (fun _ => True) c := by
  obtain ⟨root, T, hroot, hvisits, hspots, htruncated⟩ := Trail.run_clean p.driver_deterministic hrun hclean
  obtain ⟨hmirrors, rfl⟩ := mirrors_root hroot
  have hresting := hvisits.resting ho hnone hp (Driver.root?_fresh hroot) hmirrors htruncated
  rwa [hspots] at hresting

end Program

end Interleave
