import Interleave.Proofs.Commutation

/-! Runs of a program from a configuration, and how a step moves along a run of steps that it does not depend
on. -/

namespace Interleave.Program

/-- From one configuration to another by the transitions in order, each with an admitted verdict. -/
inductive Run (p : Program) (ok : Option Violation → Prop) :
    Configuration → List Transition → Configuration → Prop
  | nil (c : Configuration) : Run p ok c [] c
  | cons {c c₁ c₂ : Configuration} {t : Transition} {v : Option Violation} {us : List Transition}
      (h : p.Fires c t v c₁) (hv : ok v) (hrest : Run p ok c₁ us c₂) : Run p ok c (t :: us) c₂

def next (p : Program) (c : Configuration) (a : ActorId) : Option Step := (p.index? a).bind (p.pending c)

def Complete (p : Program) (c : Configuration) : Prop := ∀ a, p.next c a = none

variable {p : Program} {ok : Option Violation → Prop} {c c₁ c₂ d d₁ : Configuration}
  {t u : Transition} {v w : Option Violation} {us vs : List Transition}

namespace Run

theorem append (h₁ : p.Run ok c us c₁) (h₂ : p.Run ok c₁ vs c₂) : p.Run ok c (us ++ vs) c₂ := by
  induction h₁ with
  | nil => exact h₂
  | cons h hv _ ih => exact .cons h hv (ih h₂)

theorem split (h : p.Run ok c (us ++ vs) c₂) : ∃ c₁, p.Run ok c us c₁ ∧ p.Run ok c₁ vs c₂ := by
  induction us generalizing c with
  | nil => exact ⟨c, .nil c, h⟩
  | cons u us ih =>
    cases h with
    | cons hu hv hrest =>
      obtain ⟨c₁, h₁, h₂⟩ := ih hrest
      exact ⟨c₁, .cons hu hv h₁, h₂⟩

theorem unique {ok' : Option Violation → Prop} {d' : Configuration} (h : p.Run ok c us d)
    (h' : p.Run ok' c us d') : d = d' := by
  induction h with
  | nil =>
    cases h'
    rfl
  | cons hu _ _ ih =>
    cases h' with
    | cons hu' _ hrest' =>
      obtain ⟨-, rfl⟩ := hu.unique hu'
      exact ih hrest'

theorem alongside (hp : p.Standard) (hrun : p.Run ok c us d) (h : p.Fires c t v c₁)
    (hind : ∀ u ∈ us, t.dependent u = false) : ∃ d₁, p.Fires d t v d₁ ∧ p.Run ok c₁ us d₁ := by
  induction hrun generalizing c₁ with
  | nil c => exact ⟨c₁, h, .nil c₁⟩
  | cons hu hv _ ih =>
    obtain ⟨hindu, hindus⟩ := List.forall_mem_cons.mp hind
    obtain ⟨c₃, hu', h'⟩ := h.diamond hp hu hindu
    obtain ⟨d₁, hd, hrun⟩ := ih h' hindus
    exact ⟨d₁, hd, .cons hu' hv hrun⟩

theorem delay (hp : p.Standard) (h : p.Fires c t v c₁) (hrun : p.Run ok c₁ us d)
    (hind : ∀ u ∈ us, t.dependent u = false) : ∃ e, p.Run ok c us e ∧ p.Fires e t v d := by
  induction hrun generalizing c with
  | nil c₁ => exact ⟨c, .nil c, h⟩
  | cons hu hv _ ih =>
    obtain ⟨hindu, hindus⟩ := List.forall_mem_cons.mp hind
    obtain ⟨c₃, hu', h'⟩ := h.swap hp hu hindu
    obtain ⟨e, hrun, he⟩ := ih h' hindus
    exact ⟨e, .cons hu' hv hrun, he⟩

theorem hasten (hp : p.Standard) (hrun : p.Run ok c us d) (h : p.Fires d t v d₁)
    (hind : ∀ u ∈ us, t.dependent u = false) : ∃ c₁, p.Fires c t v c₁ ∧ p.Run ok c₁ us d₁ := by
  induction hrun with
  | nil c => exact ⟨d₁, h, .nil d₁⟩
  | cons hu hv _ ih =>
    obtain ⟨hindu, hindus⟩ := List.forall_mem_cons.mp hind
    obtain ⟨c₂, h', hrun⟩ := ih h hindus
    obtain ⟨c₃, h₃, hu'⟩ := hu.swap hp h' ((Transition.dependent_comm _ _).trans hindu)
    exact ⟨c₃, h₃, .cons hu' hv hrun⟩

end Run

theorem Fires.next_eq (h : p.Fires c t v c₁) :
    ∃ s, p.next c t.actor = some s ∧ t = s.transition t.actor t.outcome := by
  obtain ⟨hindex, hpending, -, -, -⟩ := h
  rename_i a i s outcome
  exact ⟨s, by rw [next, Step.transition, hindex]; exact hpending, rfl⟩

theorem Fires.next_other (h : p.Fires c t v c₁) {a : ActorId} (ha : t.actor ≠ a) :
    p.next c₁ a = p.next c a := by
  obtain ⟨hindex, -, -, -, -⟩ := h
  cases hj : p.index? a with
  | none => simp [next, hj]
  | some j =>
    have hij : _ ≠ j := fun hij => ha (index?_inj (hij ▸ hindex) hj)
    simp only [next, hj, Option.bind_some]
    exact pending_afterStep hij _ _

theorem Run.next_other (h : p.Run ok c us d) {a : ActorId} (ha : ∀ u ∈ us, u.actor ≠ a) :
    p.next d a = p.next c a := by
  induction h with
  | nil => rfl
  | cons hu _ _ ih =>
    obtain ⟨hau, haus⟩ := List.forall_mem_cons.mp ha
    rw [ih haus, hu.next_other hau]

theorem Fires.eq_of_step (h₁ : p.Fires c t v c₁) (h₂ : p.Fires c u w c₂) (hstep : t.step = u.step) :
    t = u := by
  have hactor : t.actor = u.actor := congrArg Interleave.Step.actor hstep
  have houtcome : t.outcome = u.outcome := congrArg Interleave.Step.outcome hstep
  obtain ⟨s, hs, ht⟩ := h₁.next_eq
  obtain ⟨s', hs', hu⟩ := h₂.next_eq
  rw [← hactor, hs] at hs'
  cases hs'
  rw [ht, hu, hactor, houtcome]

theorem Fires.alike (h₁ : p.Fires c t v c₁) (h₂ : p.Fires d u w d₁) (hactor : t.actor = u.actor)
    (hnext : p.next c t.actor = p.next d t.actor) : t.Alike u := by
  obtain ⟨s, hs, ht⟩ := h₁.next_eq
  obtain ⟨s', hs', hu⟩ := h₂.next_eq
  rw [← hactor, ← hnext, hs] at hs'
  cases hs'
  rw [ht, hu]
  exact ⟨hactor, rfl, rfl, rfl⟩

theorem Run.first_move (h : p.Run ok c us d) (hd : p.Complete d) {a : ActorId} {s : Step}
    (hs : p.next c a = some s) :
    ∃ us₁ u us₂, us = us₁ ++ u :: us₂ ∧ (∀ w ∈ us₁, w.actor ≠ a) ∧ u.actor = a ∧
      u = s.transition a u.outcome := by
  induction h with
  | nil c =>
    rw [hd a] at hs
    cases hs
  | @cons c c₁ c₂ t v us ht _ _ ih =>
    by_cases hactor : t.actor = a
    · obtain ⟨s', hs', ht'⟩ := ht.next_eq
      rw [hactor, hs] at hs'
      cases hs'
      exact ⟨[], t, us, rfl, nofun, hactor, hactor ▸ ht'⟩
    · obtain ⟨us₁, u, us₂, rfl, hus₁, hu, hu'⟩ := ih hd ((ht.next_other hactor).trans hs)
      exact ⟨t :: us₁, u, us₂, rfl, List.forall_mem_cons.mpr ⟨hactor, hus₁⟩, hu, hu'⟩

end Interleave.Program
