import Interleave.Proofs.Scheduling

/-! Race analysis looks at the states and the clocks of frames only, so it commutes with every map that keeps them. -/

namespace Interleave

variable {κ κ' : Type}

structure Frame.Recasts (h : Frame κ → Frame κ') : Prop where
  state : ∀ f, (h f).state = f.state
  clock : ∀ f, (h f).clock = f.clock
  update : ∀ f state, h { f with state } = { h f with state }

namespace Frame.Recasts

open Race

variable {h : Frame κ → Frame κ'} (hr : Recasts h)

include hr

theorem outgoing (f : Frame κ) : Race.outgoing (h f) = Race.outgoing f := by
  unfold Race.outgoing
  rw [hr.state]

theorem joined (t : Transition) (fs : List (Frame κ)) : Race.joined t (fs.map h) = Race.joined t fs := by
  induction fs with
  | nil => rfl
  | cons f below ih => rw [List.map_cons, Race.joined, Race.joined, ih, hr.outgoing, hr.clock]

theorem clockOf (t : Transition) (fs : List (Frame κ)) : Race.clockOf t (fs.map h) = Race.clockOf t fs := by
  rw [Race.clockOf, Race.clockOf, hr.joined, List.length_map]

theorem latestClock (a : ActorId) (fs : List (Frame κ)) : Race.latestClock a (fs.map h) = Race.latestClock a fs := by
  induction fs with
  | nil => rfl
  | cons f below ih => rw [List.map_cons, Race.latestClock, Race.latestClock, ih, hr.outgoing, hr.clock]

theorem visit (t : Transition) (last : Option Clock) (position : Nat) (f : Frame κ) (earlier : Transition) :
    Race.visit t last position (h f) earlier =
      (h (Race.visit t last position f earlier).1, (Race.visit t last position f earlier).2) := by
  unfold Race.visit
  rw [hr.state]
  split_ifs
  · rfl
  · rfl
  · exact Prod.ext (hr.update f _).symm rfl

theorem visitAll (t : Transition) (last : Option Clock) (fs : List (Frame κ)) :
    Race.visitAll t last (fs.map h) = (Race.visitAll t last fs).map fun r => (r.1.map h, r.2) := by
  induction fs with
  | nil => rfl
  | cons f below ih =>
    rw [List.map_cons, Race.visitAll, Race.visitAll, ih, List.length_map, hr.outgoing]
    cases Race.outgoing f with
    | error fault => rfl
    | ok earlier =>
      simp only [bind, Except.bind, hr.visit]
      cases Race.visitAll t last below with
      | error fault => rfl
      | ok rest => simp [Except.map, pure, Except.pure]

theorem settle (o : Options) (f : Frame κ) (below : List (Frame κ)) :
    Search.settle o (h f) (below.map h) = (Search.settle o f below).map fun r => (r.1.map h, r.2) := by
  unfold Search.settle
  rw [hr.state]
  split
  · unfold Race.analyse
    rw [hr.latestClock]
    cases Race.latestClock _ below with
    | error fault => rfl
    | ok last => exact hr.visitAll _ _ _
  · rfl

end Frame.Recasts

end Interleave
