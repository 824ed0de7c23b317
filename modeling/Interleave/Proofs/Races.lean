import Interleave.Proofs.Commutation
import Interleave.Proofs.Scheduling

/-! Races: a later transition races with an earlier one if it depends on it and no other transition of its actor
in between happens after the earlier one. Race analysis heeds every race of the analysed transition, because a
clock covers only what happened before its owner. -/

namespace Interleave

def grow (R : Set Transition) (u : Transition) : Set Transition :=
  {w | w ∈ R ∨ (w = u ∧ ∃ r ∈ R, r.dependent u = true)}

def shadow (R : Set Transition) (us : List Transition) : Set Transition := us.foldl grow R

def Racing (t : Transition) (R : Set Transition) (u : Transition) : Prop :=
  u.dependent t = true ∧ ∀ r ∈ R, r.actor ≠ u.actor

/-- Every transition of the sequence that races with `t` has an actor that is heeded. -/
def Heeded (heeds : ActorId → Prop) (t : Transition) : Set Transition → List Transition → Prop
  | _, [] => True
  | R, u :: us => (Racing t R u → heeds u.actor) ∧ Heeded heeds t (grow R u) us

variable {R S : Set Transition} {a b t u w : Transition} {us vs : List Transition}

section Shadow

theorem subset_grow (R : Set Transition) (u : Transition) : R ⊆ grow R u := fun _ => .inl

theorem grow_mono (h : R ⊆ S) (u : Transition) : grow R u ⊆ grow S u := by
  rintro w (hw | ⟨rfl, r, hr, hdep⟩)
  · exact .inl (h hw)
  · exact .inr ⟨rfl, r, h hr, hdep⟩

theorem grow_comm (h : a.dependent b = false) : grow (grow R a) b = grow (grow R b) a := by
  have h' : b.dependent a = false := (Transition.dependent_comm b a).trans h
  ext w
  constructor
  · rintro ((hw | ⟨rfl, hw⟩) | ⟨rfl, r, hr | ⟨rfl, -⟩, hdep⟩)
    · exact .inl (.inl hw)
    · exact .inr ⟨rfl, hw.choose, .inl hw.choose_spec.1, hw.choose_spec.2⟩
    · exact .inl (.inr ⟨rfl, r, hr, hdep⟩)
    · simp [h] at hdep
  · rintro ((hw | ⟨rfl, hw⟩) | ⟨rfl, r, hr | ⟨rfl, -⟩, hdep⟩)
    · exact .inl (.inl hw)
    · exact .inr ⟨rfl, hw.choose, .inl hw.choose_spec.1, hw.choose_spec.2⟩
    · exact .inl (.inr ⟨rfl, r, hr, hdep⟩)
    · simp [h'] at hdep

theorem grow_of_independent (h : ∀ r ∈ R, r.dependent u = false) : grow R u = R := by
  refine Set.Subset.antisymm ?_ (subset_grow R u)
  rintro w (hw | ⟨-, r, hr, hdep⟩)
  · exact hw
  · simp [h r hr] at hdep

@[simp] theorem shadow_nil (R : Set Transition) : shadow R [] = R := rfl

@[simp] theorem shadow_cons (R : Set Transition) (u : Transition) (us : List Transition) :
    shadow R (u :: us) = shadow (grow R u) us := rfl

theorem shadow_append (R : Set Transition) (us vs : List Transition) :
    shadow R (us ++ vs) = shadow (shadow R us) vs := List.foldl_append

theorem shadow_snoc (R : Set Transition) (us : List Transition) (u : Transition) :
    shadow R (us ++ [u]) = grow (shadow R us) u := by
  rw [shadow_append]
  rfl

theorem shadow_mono (h : R ⊆ S) (us : List Transition) : shadow R us ⊆ shadow S us := by
  induction us generalizing R S with
  | nil => exact h
  | cons u us ih => exact ih (grow_mono h u)

theorem subset_shadow (R : Set Transition) (us : List Transition) : R ⊆ shadow R us := by
  induction us generalizing R with
  | nil => exact Set.Subset.rfl
  | cons u us ih => exact (subset_grow R u).trans (ih _)

theorem mem_or_mem_of_mem_shadow (h : w ∈ shadow R us) : w ∈ R ∨ w ∈ us := by
  induction us generalizing R with
  | nil => exact .inl h
  | cons u us ih =>
    rcases ih h with (hw | ⟨rfl, -⟩) | hw
    · exact .inl hw
    · exact .inr List.mem_cons_self
    · exact .inr (List.mem_cons_of_mem u hw)

theorem shadow_of_independent (h : ∀ u ∈ us, t.dependent u = false) : shadow {t} us = {t} := by
  induction us with
  | nil => rfl
  | cons u us ih =>
    obtain ⟨hu, hus⟩ := List.forall_mem_cons.mp h
    rw [shadow_cons, grow_of_independent (by simpa using hu)]
    exact ih hus

end Shadow

section Heeded

variable {heeds heeds' : ActorId → Prop}

theorem Heeded.mono (h : Heeded heeds t R us) (hmono : ∀ a, heeds a → heeds' a) :
    Heeded heeds' t R us := by
  induction us generalizing R with
  | nil => trivial
  | cons u us ih => exact ⟨fun hr => hmono _ (h.1 hr), ih h.2⟩

theorem Heeded.append_right (h : Heeded heeds t R (us ++ vs)) : Heeded heeds t (shadow R us) vs := by
  induction us generalizing R with
  | nil => exact h
  | cons u us ih => exact ih h.2

theorem Heeded.swap (hind : a.dependent b = false) (h : Heeded heeds t R (us ++ a :: b :: vs)) :
    Heeded heeds t R (us ++ b :: a :: vs) := by
  induction us generalizing R with
  | cons u us ih => exact ⟨h.1, ih h.2⟩
  | nil =>
    obtain ⟨ha, hb, hvs⟩ := h
    -- The shadow that `b` sees first is smaller, but only by `a`, which is of another actor.
    refine ⟨fun hrace => hb ⟨hrace.1, ?_⟩, fun hrace => ha ⟨hrace.1, ?_⟩, grow_comm hind ▸ hvs⟩
    · rintro r (hr | ⟨rfl, -⟩)
      · exact hrace.2 r hr
      · exact Transition.actor_ne_of_independent hind
    · exact fun r hr => hrace.2 r (subset_grow R b hr)

end Heeded

def SwapInvariant (P : List Transition → Prop) : Prop :=
  ∀ us a b vs, a.dependent b = false → P (us ++ a :: b :: vs) → P (us ++ b :: a :: vs)

theorem SwapInvariant.delay {P : List Transition → Prop} (hP : SwapInvariant P)
    (hind : ∀ u ∈ us, t.dependent u = false) (front : List Transition)
    (h : P (front ++ t :: (us ++ vs))) : P (front ++ (us ++ t :: vs)) := by
  induction us generalizing front with
  | nil => exact h
  | cons u us ih =>
    obtain ⟨hu, hus⟩ := List.forall_mem_cons.mp hind
    have hswapped : P ((front ++ [u]) ++ t :: (us ++ vs)) := by
      simpa using hP front t u (us ++ vs) hu h
    simpa using ih hus (front ++ [u]) hswapped

section Stack

variable {κ : Type} {fs fs' : List (Frame κ)} {pre : List Transition}

def Frame.left (f : Frame κ) : Transition := f.state.transition.getD default

theorem Frame.left_eq {f : Frame κ} (h : f.state.transition = some t) : f.left = t := by
  rw [Frame.left, h, Option.getD_some]

theorem Frame.Remarked.left {f f' : Frame κ} (h : f.Remarked f') : f'.left = f.left := by
  rw [Frame.left, Frame.left, h.state.transition]

/-- At every frame the races of its transition with the sequence `us` are heeded; `pre` are the transitions
between the frames and the sequence. -/
def HeededBy : List (Frame κ) → List Transition → List Transition → Prop
  | [], _, _ => True
  | f :: fs, pre, us =>
    Heeded f.state.Heeds f.left (shadow {f.left} pre) us ∧ HeededBy fs (f.left :: pre) us

theorem HeededBy.remarked (h : HeededBy fs pre us) (hr : List.Forall₂ Frame.Remarked fs fs') :
    HeededBy fs' pre us := by
  induction hr generalizing pre with
  | nil => trivial
  | cons hf _ ih =>
    rw [HeededBy, hf.left]
    exact ⟨h.1.mono fun _ => hf.state.heeds, ih h.2⟩

theorem heededBy_swapInvariant (fs : List (Frame κ)) (pre : List Transition) :
    SwapInvariant (HeededBy fs pre) := by
  intro us a b vs hind h
  induction fs generalizing pre with
  | nil => trivial
  | cons f fs ih => exact ⟨h.1.swap hind, ih _ h.2⟩

theorem heededBy_nil (fs : List (Frame κ)) (pre : List Transition) : HeededBy fs pre [] := by
  induction fs generalizing pre with
  | nil => trivial
  | cons f fs ih => exact ⟨trivial, ih _⟩

theorem heededBy_cons : HeededBy fs pre (u :: us) ↔ HeededBy fs pre [u] ∧ HeededBy fs (pre ++ [u]) us := by
  induction fs generalizing pre with
  | nil => simp [HeededBy]
  | cons f fs ih =>
    simp only [HeededBy, Heeded, ih, shadow_snoc, and_true, List.cons_append]
    tauto

def Behind (w : Transition) (b : ActorId) (i : Nat) : List (Frame κ) → List Transition → Prop
  | [], _ => False
  | f :: fs, pre =>
    (fs.length = i ∧ f.left.actor = b ∧ w ∈ shadow {f.left} pre) ∨ Behind w b i fs (f.left :: pre)

def Trails (w : Transition) (b : ActorId) (i : Nat) : List (Frame κ) → List Transition → Prop
  | [], _ => True
  | f :: fs, pre =>
    (f.left.actor = b → fs.length ≤ i → w ∈ shadow {f.left} pre) ∧ Trails w b i fs (f.left :: pre)

variable {b : ActorId} {i : Nat}

theorem Behind.lt_length (h : Behind w b i fs pre) : i < fs.length := by
  induction fs generalizing pre with
  | nil => exact h.elim
  | cons f fs ih =>
    rcases h with ⟨hi, -, -⟩ | h
    · simp [hi]
    · exact (ih h).trans (Nat.lt_succ_self _)

theorem Behind.remarked (h : Behind w b i fs pre) (hr : List.Forall₂ Frame.Remarked fs fs') :
    Behind w b i fs' pre := by
  induction hr generalizing pre with
  | nil => exact h
  | cons hf hrest ih =>
    rw [Behind, hf.left, ← hrest.length_eq]
    exact h.imp_right ih

theorem Behind.append (h : Behind w b i fs pre) (us : List Transition) : Behind w b i fs (pre ++ us) := by
  induction fs generalizing pre with
  | nil => exact h.elim
  | cons f fs ih =>
    rcases h with ⟨hi, hb, hw⟩ | h
    · exact .inl ⟨hi, hb, by rw [shadow_append]; exact subset_shadow _ us hw⟩
    · exact .inr (ih h)

theorem Behind.dependent (h : Behind w b i fs pre) (hdep : w.dependent u = true) :
    Behind u b i fs (pre ++ [u]) := by
  -- What depends on `w` happens after all that `w` happens after.
  induction fs generalizing pre with
  | nil => exact h.elim
  | cons f fs ih =>
    rcases h with ⟨hi, hb, hw⟩ | h
    · exact .inl ⟨hi, hb, by rw [shadow_snoc]; exact .inr ⟨rfl, w, hw, hdep⟩⟩
    · exact .inr (ih h)

theorem trails_of_mem_shadow {e : Transition} (he : e.actor = b) (hw : w ∈ shadow {e} us)
    (pre : List Transition) : Trails w b i fs (pre ++ e :: us) := by
  -- Transitions of one actor happen one after the other.
  induction fs generalizing pre with
  | nil => trivial
  | cons f fs ih =>
    refine ⟨fun hb _ => ?_, ih (f.left :: pre)⟩
    rw [shadow_append, shadow_cons]
    refine shadow_mono (Set.singleton_subset_iff.mpr (.inr ⟨rfl, f.left, ?_, ?_⟩)) us hw
    · exact subset_shadow _ _ rfl
    · exact Transition.dependent_of_actor (hb.trans he.symm)

theorem Behind.trails (h : Behind w b i fs pre) : Trails w b i fs pre := by
  induction fs generalizing pre with
  | nil => trivial
  | cons f fs ih =>
    rcases h with ⟨hi, hb, hw⟩ | h
    · exact ⟨fun _ _ => hw, trails_of_mem_shadow hb hw []⟩
    · exact ⟨fun _ hle => absurd h.lt_length (not_lt.mpr hle), ih h⟩

def Clocked : List (Frame κ) → Prop
  | [] => True
  | f :: fs => (f.state.transition.isSome = true ∧ ∀ e ∈ f.clock, Behind f.left e.1 e.2 (f :: fs) []) ∧
    Clocked fs

theorem Clocked.remarked (h : Clocked fs) (hr : List.Forall₂ Frame.Remarked fs fs') : Clocked fs' := by
  induction hr with
  | nil => trivial
  | cons hf hrest ih =>
    refine ⟨⟨hf.state.transition ▸ h.1.1, ?_⟩, ih h.2⟩
    rw [hf.clock, hf.left]
    exact fun e he => (h.1.2 e he).remarked (.cons hf hrest)

theorem Clock.mem_advance {c : Clock} {b : ActorId} {i : Nat} {e : ActorId × Nat} (h : e ∈ c.advance b i) :
    e ∈ c ∨ e = (b, i) := by
  unfold Clock.advance at h
  split at h
  · split_ifs at h
    · exact (Assoc.mem_insert h).symm
    · exact .inl h
  · exact (Assoc.mem_insert h).symm

theorem Clock.mem_join {c other : Clock} {e : ActorId × Nat} (h : e ∈ c.join other) :
    e ∈ c ∨ e ∈ other := by
  unfold Clock.join at h
  induction other generalizing c with
  | nil => exact .inl h
  | cons d other ih =>
    rcases ih h with hc | hother
    · rcases Clock.mem_advance hc with hc | rfl
      · exact .inl hc
      · exact .inr List.mem_cons_self
    · exact .inr (List.mem_cons_of_mem d hother)

namespace Race

theorem joined_cons_eq_ok {f : Frame κ} {c : Clock} (h : joined t (f :: fs) = .ok c) :
    ∃ earlier c', f.state.transition = some earlier ∧ joined t fs = .ok c' ∧
      c = if earlier.actor = t.actor || t.dependent earlier then c'.join f.clock else c' := by
  simp only [joined] at h
  cases hout : outgoing f with
  | error e => simp [hout, bind, Except.bind] at h
  | ok earlier =>
    cases hrest : joined t fs with
    | error e => simp [hout, hrest, bind, Except.bind] at h
    | ok c' =>
      simp only [hout, hrest, bind, Except.bind, pure, Except.pure, Except.ok.injEq] at h
      exact ⟨earlier, c', outgoing_eq_ok.mp hout, rfl, h.symm⟩

theorem joined_behind {c : Clock} (hfs : Clocked fs) (h : joined t fs = .ok c) {e : ActorId × Nat}
    (he : e ∈ c) (pre : List Transition) : Behind t e.1 e.2 fs (pre ++ [t]) := by
  induction fs generalizing c pre with
  | nil =>
    cases h
    cases he
  | cons f fs ih =>
    obtain ⟨earlier, c', hout, hrest, rfl⟩ := joined_cons_eq_ok h
    split_ifs at he with hdep
    · rcases Clock.mem_join he with he | he
      · exact .inr (ih hfs.2 hrest he (f.left :: pre))
      · have hdep : f.left.dependent t = true := by
          rw [Frame.left_eq hout]
          simp only [Bool.or_eq_true, decide_eq_true_eq] at hdep
          rcases hdep with hactor | hdep
          · exact Transition.dependent_of_actor hactor
          · exact (Transition.dependent_comm _ _).trans hdep
        exact ((hfs.1.2 e he).append pre).dependent hdep
    · exact .inr (ih hfs.2 hrest he (f.left :: pre))

theorem clockOf_eq_ok {c : Clock} (h : clockOf t fs = .ok c) :
    ∃ c', joined t fs = .ok c' ∧ c = Assoc.insert t.actor fs.length c' := by
  unfold clockOf at h
  cases hjoined : joined t fs with
  | error e => simp [hjoined, bind, Except.bind] at h
  | ok c' =>
    simp only [hjoined, bind, Except.bind, pure, Except.pure, Except.ok.injEq] at h
    exact ⟨c', rfl, h.symm⟩

theorem clocked_cons {f : Frame κ} (hfs : Clocked fs) (hf : f.state.transition = some t)
    (h : clockOf t fs = .ok f.clock) : Clocked (f :: fs) := by
  obtain ⟨c', hjoined, hclock⟩ := clockOf_eq_ok h
  refine ⟨⟨Option.isSome_iff_exists.mpr ⟨t, hf⟩, fun e he => ?_⟩, hfs⟩
  rw [hclock] at he
  rw [Behind, Frame.left_eq hf]
  rcases Assoc.mem_insert he with rfl | he
  · exact .inl ⟨rfl, rfl, rfl⟩
  · exact .inr (joined_behind hfs hjoined he [])

theorem latestClock_behind {b : ActorId} {c : Clock} (hfs : Clocked fs)
    (h : latestClock b fs = .ok (some c)) :
    ∃ w : Transition, w.actor = b ∧ ∀ e ∈ c, Behind w e.1 e.2 fs [] := by
  -- The latest transition of an actor happened after all that its clock covers.
  induction fs with
  | nil => cases h
  | cons f fs ih =>
    simp only [latestClock] at h
    cases hout : outgoing f with
    | error e => simp [hout, bind, Except.bind] at h
    | ok t =>
      simp only [hout, bind, Except.bind, pure, Except.pure] at h
      have hleft := Frame.left_eq (outgoing_eq_ok.mp hout)
      split_ifs at h with hactor
      · cases h
        exact ⟨f.left, hleft ▸ hactor, hfs.1.2⟩
      · obtain ⟨w, hw, hbehind⟩ := ih hfs.2 h
        exact ⟨w, hw, fun e he => .inr ((hbehind e he).append [f.left])⟩

theorem visitAll_heededBy {last : Option Clock} {es : List Event} (hw : ∀ f ∈ fs, f.state.WellFormed)
    (h : visitAll t last fs = .ok (fs', es))
    (hlast : ∀ c, last = some c → ∃ w : Transition, w.actor = t.actor ∧ ∀ e ∈ c, Trails w e.1 e.2 fs pre) :
    HeededBy fs' pre [t] := by
  induction fs generalizing fs' es pre with
  | nil =>
    cases h
    trivial
  | cons f fs ih =>
    obtain ⟨earlier, below', later, hout, hrest, rfl, -⟩ := visitAll_cons_eq_ok h
    obtain ⟨hwf, hwfs⟩ := List.forall_mem_cons.mp hw
    have hleft : f.left = earlier := Frame.left_eq hout
    have hleft' : (visit t last fs.length f earlier).1.left = earlier :=
      ((visit_remarked hwf).left).trans hleft
    refine ⟨⟨fun hrace => ?_, trivial⟩, ?_⟩
    · rw [hleft'] at hrace
      have hactor : earlier.actor ≠ t.actor := hrace.2 earlier (subset_shadow _ _ rfl)
      refine visit_heeds hactor hrace.1 (Bool.eq_false_iff.mpr fun hcovers => ?_)
      -- A clock that covers the frame belongs to a transition of the actor of `t` in its shadow: no race.
      rw [Option.any_eq_true] at hcovers
      obtain ⟨c, hc, hcovers⟩ := hcovers
      obtain ⟨w, hw, htrails⟩ := hlast c hc
      unfold Clock.covers at hcovers
      split at hcovers
      · rename_i current hget
        have hmem := (htrails _ (Assoc.mem_of_get? hget)).1 (congrArg _ hleft) (by simpa using hcovers)
        exact hrace.2 w (hleft ▸ hmem) hw
      · cases hcovers
    · rw [hleft']
      refine ih hwfs hrest fun c hc => ?_
      obtain ⟨w, hw, htrails⟩ := hlast c hc
      exact ⟨w, hw, fun e he => hleft ▸ (htrails e he).2⟩

/-- After the analysis of a transition all its races with the frames below are heeded. -/
theorem analyse_heededBy {es : List Event} (hw : ∀ f ∈ fs, f.state.WellFormed) (hfs : Clocked fs)
    (h : analyse t fs = .ok (fs', es)) : HeededBy fs' [] [t] := by
  obtain ⟨last, hlast, hvisit⟩ := analyse_eq_ok h
  refine visitAll_heededBy hw hvisit fun c hc => ?_
  obtain ⟨w, hw, hbehind⟩ := latestClock_behind hfs (hc ▸ hlast)
  exact ⟨w, hw, fun e he => (hbehind e he).trails⟩

end Race

end Stack

end Interleave
