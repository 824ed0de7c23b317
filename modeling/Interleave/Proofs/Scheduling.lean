import Interleave.Proofs.Marks
import Interleave.Exploration.Run

/-! What race analysis does to the frames of a stack: it only marks actors, and at every frame whose
transition races with the analysed one it marks the right ones. -/

namespace Interleave

variable {κ : Type}

structure Frame.Remarked (f f' : Frame κ) : Prop where
  state : f.state.Remarked f'.state
  snapshot : f'.snapshot = f.snapshot
  clock : f'.clock = f.clock
  node : f'.node = f.node

theorem Frame.Remarked.refl (f : Frame κ) : f.Remarked f := ⟨.refl _, rfl, rfl, rfl⟩

theorem Frame.wellFormed_remarked {fs fs' : List (Frame κ)} (hw : ∀ f ∈ fs, f.state.WellFormed)
    (h : List.Forall₂ Frame.Remarked fs fs') : ∀ f ∈ fs', f.state.WellFormed := by
  induction h with
  | nil => exact hw
  | cons hf _ ih =>
    rw [List.forall_mem_cons] at hw ⊢
    exact ⟨hf.state.wellFormed hw.1, ih hw.2⟩

/-- An actor that is enabled is marked; where it is not, all enabled actors are. -/
def State.Heeds (s : State) (a : ActorId) : Prop :=
  (s.isEnabled a = true ∧ s.Marked a) ∨ s.AllMarked

theorem State.Remarked.allMarked {s s' : State} (h : s.Remarked s') (hs : s.AllMarked) : s'.AllMarked := by
  intro a ha
  rw [State.isEnabled_congr h.profile] at ha
  exact h.marked (hs a ha)

theorem State.Remarked.heeds {s s' : State} (h : s.Remarked s') {a : ActorId} (hs : s.Heeds a) :
    s'.Heeds a := by
  rcases hs with ⟨ha, hm⟩ | hall
  · exact .inl ⟨(State.isEnabled_congr h.profile a).trans ha, h.marked hm⟩
  · exact .inr (h.allMarked hall)

namespace Race

theorem outgoing_eq_ok {f : Frame κ} {t : Transition} :
    outgoing f = .ok t ↔ f.state.transition = some t := by
  unfold outgoing
  cases f.state.transition <;> simp

theorem schedule_remarked {t earlier : Transition} {st : State} (hw : st.WellFormed) :
    st.Remarked (schedule t earlier st).1 := by
  unfold schedule
  split
  · rename_i status hstatus
    split_ifs
    · exact st.considerAll_remarked
    · exact .refl st
    · exact State.setTodo_remarked hw hstatus
  · exact st.considerAll_remarked

theorem schedule_heeds (t earlier : Transition) (st : State) : (schedule t earlier st).1.Heeds t.actor := by
  unfold schedule
  split
  · rename_i status hstatus
    split_ifs with hen hdone
    · exact .inr st.considerAll_allMarked
    · have hen : status.enabled = true := by simpa using hen
      exact .inl ⟨State.isEnabled_iff.mpr ⟨status, hstatus, hen⟩, status, hstatus, hen, .inr hdone⟩
    · have hen : status.enabled = true := by simpa using hen
      obtain ⟨st', hst', hen', hm⟩ := State.setTodo_marked (s := st) (a := t.actor) hen
      exact .inl ⟨State.isEnabled_iff.mpr ⟨st', hst', hen'⟩, st', hst', hen', hm⟩
  · exact .inr st.considerAll_allMarked

theorem visit_remarked {t earlier : Transition} {last : Option Clock} {position : Nat} {f : Frame κ}
    (hw : f.state.WellFormed) : f.Remarked (visit t last position f earlier).1 := by
  unfold visit
  split_ifs
  · exact .refl f
  · exact .refl f
  · exact ⟨schedule_remarked hw, rfl, rfl, rfl⟩

theorem visit_heeds {t earlier : Transition} {last : Option Clock} {position : Nat} {f : Frame κ}
    (hactor : earlier.actor ≠ t.actor) (hdep : t.dependent earlier = true)
    (hcovers : last.any (·.covers earlier.actor position) = false) :
    (visit t last position f earlier).1.state.Heeds t.actor := by
  unfold visit
  simp only [hactor, hdep, hcovers, decide_false, Bool.not_true, Bool.or_self, Bool.false_eq_true,
    if_false]
  exact schedule_heeds t earlier f.state

theorem visitAll_cons_eq_ok {t : Transition} {last : Option Clock} {f : Frame κ}
    {below fs : List (Frame κ)} {es : List Event} (h : visitAll t last (f :: below) = .ok (fs, es)) :
    ∃ earlier below' later, f.state.transition = some earlier ∧
      visitAll t last below = .ok (below', later) ∧
      fs = (visit t last below.length f earlier).1 :: below' ∧
      es = (visit t last below.length f earlier).2 ++ later := by
  simp only [visitAll] at h
  cases hout : outgoing f with
  | error e => simp [hout, bind, Except.bind] at h
  | ok earlier =>
    cases hrest : visitAll t last below with
    | error e => simp [hout, hrest, bind, Except.bind] at h
    | ok rest =>
      simp only [hout, hrest, bind, Except.bind, pure, Except.pure, Except.ok.injEq, Prod.mk.injEq] at h
      exact ⟨earlier, rest.1, rest.2, outgoing_eq_ok.mp hout, rfl, h.1.symm, h.2.symm⟩

theorem visitAll_remarked {t : Transition} {last : Option Clock} {fs fs' : List (Frame κ)}
    {es : List Event} (hw : ∀ f ∈ fs, f.state.WellFormed) (h : visitAll t last fs = .ok (fs', es)) :
    List.Forall₂ Frame.Remarked fs fs' := by
  induction fs generalizing fs' es with
  | nil =>
    cases h
    exact .nil
  | cons f below ih =>
    obtain ⟨earlier, below', later, -, hrest, rfl, -⟩ := visitAll_cons_eq_ok h
    rw [List.forall_mem_cons] at hw
    exact .cons (visit_remarked hw.1) (ih hw.2 hrest)

theorem visitAll_length {t : Transition} {last : Option Clock} {fs fs' : List (Frame κ)} {es : List Event}
    (h : visitAll t last fs = .ok (fs', es)) : fs'.length = fs.length := by
  induction fs generalizing fs' es with
  | nil =>
    cases h
    rfl
  | cons f below ih =>
    obtain ⟨earlier, below', later, -, hrest, rfl, -⟩ := visitAll_cons_eq_ok h
    rw [List.length_cons, List.length_cons, ih hrest]

theorem analyse_eq_ok {t : Transition} {fs fs' : List (Frame κ)} {es : List Event}
    (h : analyse t fs = .ok (fs', es)) :
    ∃ last, latestClock t.actor fs = .ok last ∧ visitAll t last fs = .ok (fs', es) := by
  unfold analyse at h
  cases hlast : latestClock t.actor fs with
  | error e => simp [hlast, bind, Except.bind] at h
  | ok last => exact ⟨last, rfl, by simpa [hlast, bind, Except.bind] using h⟩

end Race

namespace Search

def settle (o : Options) (f : Frame κ) (below : List (Frame κ)) :
    Except Fault (List (Frame κ) × List Event) :=
  match o.reduction, f.state.transition with
  | .dpor, some t => Race.analyse t below
  | _, _ => .ok (below, [])

theorem settle_of_none {o : Options} (ho : o.reduction = .none) (f : Frame κ) (below : List (Frame κ)) :
    settle o f below = .ok (below, []) := by
  simp [settle, ho]

theorem settle_of_dpor {o : Options} (ho : o.reduction = .dpor) {f : Frame κ} {t : Transition}
    (hf : f.state.transition = some t) (below : List (Frame κ)) :
    settle o f below = Race.analyse t below := by
  simp [settle, ho, hf]

theorem settle_remarked {o : Options} {f : Frame κ} {below below' : List (Frame κ)} {es : List Event}
    (hw : ∀ g ∈ below, g.state.WellFormed) (h : settle o f below = .ok (below', es)) :
    List.Forall₂ Frame.Remarked below below' := by
  have hsame : ∀ {fs : List (Frame κ)}, List.Forall₂ Frame.Remarked fs fs :=
    List.forall₂_same.mpr fun g _ => .refl g
  unfold settle at h
  split at h
  · obtain ⟨last, -, hvisit⟩ := Race.analyse_eq_ok h
    exact Race.visitAll_remarked hw hvisit
  · cases h
    exact hsame

theorem settle_length {o : Options} {f : Frame κ} {below below' : List (Frame κ)} {es : List Event}
    (h : settle o f below = .ok (below', es)) : below'.length = below.length := by
  unfold settle at h
  split at h
  · obtain ⟨last, -, hall⟩ := Race.analyse_eq_ok h
    exact Race.visitAll_length hall
  · cases h
    rfl

end Search

end Interleave
