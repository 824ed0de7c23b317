import Interleave.Proofs.Races
import Interleave.Proofs.Runs
import Mathlib.Data.List.TakeWhile

/-! Completing the runs from a configuration. Some of the enabled actors have been tried from it, and every race
of their steps is heeded: then every run can be extended to a complete one without violation, because it can be
reordered to begin with a step that has been tried. -/

namespace Interleave.Program

/-- Every run from `c` can be completed without violation, to a sequence with the property `P`. -/
def Completes (p : Program) (P : List Transition → Prop) (c : Configuration) : Prop :=
  ∀ us d, p.Run (fun _ => True) c us d →
    ∃ vs e, p.Run (· = none) c (us ++ vs) e ∧ p.Complete e ∧ P (us ++ vs)

theorem length_takeWhile_append_lt {α : Type} {q : α → Bool} {xs ys : List α} (h : ∃ x ∈ xs, q x = false) :
    ((xs ++ ys).takeWhile q).length < xs.length := by
  induction xs with
  | nil => simp at h
  | cons x xs ih =>
    cases hx : q x with
    | false => simp [hx]
    | true => simpa [hx] using ih (by simpa [hx] using h)

section

variable {p : Program} (hp : p.Standard) {P : List Transition → Prop} (hP : SwapInvariant P)
  {tried heeds : ActorId → Prop} {c : Configuration}
  (hsteps : ∀ t v c₁, tried t.actor → p.Fires c t v c₁ →
    v = none ∧ p.Completes (fun us => Heeded heeds t {t} us ∧ P (t :: us)) c₁)

include hp hsteps

include hP in
theorem complete_of_front {us₁ us₂ : List Transition} {u : Transition} {d : Configuration}
    (hrun : p.Run (fun _ => True) c (us₁ ++ u :: us₂) d) (hu : tried u.actor)
    (hind : ∀ w ∈ us₁, u.dependent w = false) :
    ∃ vs e, p.Run (· = none) c (us₁ ++ u :: us₂ ++ vs) e ∧ p.Complete e ∧ P (us₁ ++ u :: us₂ ++ vs) := by
  obtain ⟨d₁, hrun₁, hrest⟩ := hrun.split
  obtain _ | ⟨hfires, -, hrun₂⟩ := hrest
  obtain ⟨c₁, hfires', hrun₁'⟩ := hrun₁.hasten hp hfires hind
  obtain ⟨rfl, hcompletes⟩ := hsteps _ _ _ hu hfires'
  obtain ⟨vs, e, hclean, he, -, hPu⟩ := hcompletes _ _ (hrun₁'.append hrun₂)
  rw [List.append_assoc] at hclean hPu
  obtain ⟨x, hclean₁, hclean₂⟩ := hclean.split
  obtain ⟨y, hy, hfires''⟩ := Run.delay hp hfires' hclean₁ hind
  refine ⟨vs, e, ?_, he, ?_⟩
  · rw [List.append_assoc]
    exact hy.append (.cons hfires'' rfl hclean₂)
  · rw [List.append_assoc]
    exact hP.delay hind [] hPu

include hP in
theorem complete_of_same_actor {us₁ us₂ : List Transition} {t u : Transition} {v : Option Violation}
    {c₁ d : Configuration} (hrun : p.Run (fun _ => True) c (us₁ ++ u :: us₂) d) (ht : p.Fires c t v c₁)
    (htried : tried t.actor) (hind : ∀ w ∈ us₁, t.dependent w = false) (hactor : t.actor = u.actor) :
    ∃ vs e, p.Run (· = none) c (us₁ ++ u :: us₂ ++ vs) e ∧ p.Complete e ∧ P (us₁ ++ u :: us₂ ++ vs) := by
  obtain ⟨d₁, hrun₁, hrun₂⟩ := hrun.split
  obtain _ | ⟨hu, -, -⟩ := hrun₂
  have halike : t.Alike u := ht.alike hu hactor (hrun₁.next_other fun w hw =>
    (Transition.actor_ne_of_independent (hind w hw)).symm).symm
  exact complete_of_front hp hP hsteps hrun (hactor ▸ htried) fun w hw =>
    (halike.dependent w).symm.trans (hind w hw)

include hP in
theorem complete_of_all {us : List Transition} {d : Configuration} (hne : us ≠ [])
    (hrun : p.Run (fun _ => True) c us d) (hall : ∀ t v c₁, p.Fires c t v c₁ → tried t.actor) :
    ∃ vs e, p.Run (· = none) c (us ++ vs) e ∧ p.Complete e ∧ P (us ++ vs) := by
  cases us with
  | nil => exact absurd rfl hne
  | cons u us =>
    obtain _ | ⟨hu, -, -⟩ := id hrun
    exact complete_of_front hp hP hsteps (show p.Run _ c ([] ++ u :: us) d from hrun) (hall _ _ _ hu) nofun

theorem heeds_of_dependent {us : List Transition} {t u : Transition} {v w : Option Violation}
    {c₁ d d₁ : Configuration} (hrun : p.Run (fun _ => True) c us d) (hu : p.Fires d u w d₁)
    (ht : p.Fires c t v c₁) (htried : tried t.actor) (hind : ∀ w ∈ us, t.dependent w = false)
    (hdep : t.dependent u = true) (hactor : t.actor ≠ u.actor) : heeds u.actor := by
  obtain ⟨d', ht', hrun'⟩ := hrun.alongside hp ht hind
  obtain ⟨-, hcompletes⟩ := hsteps t v c₁ htried ht
  obtain ⟨vs, e, hclean, he, hheeded, -⟩ := hcompletes us d' hrun'
  obtain ⟨x, hclean₁, hclean₂⟩ := hclean.split
  obtain rfl := hrun'.unique hclean₁
  obtain ⟨s, hs, hu'⟩ := hu.next_eq
  -- The actor of `u` has to take its pending step in the completed run, and that step is the one that races.
  obtain ⟨vs₁, u', vs₂, rfl, hvs₁, hactor', hu''⟩ :=
    hclean₂.first_move he ((ht'.next_other hactor).trans hs)
  have halike : u'.Alike u := by
    rw [hu', hu'']
    exact ⟨rfl, rfl, rfl, rfl⟩
  rw [← List.append_assoc] at hheeded
  rw [← hactor']
  refine hheeded.append_right.1 ⟨?_, fun r hr => ?_⟩
  · rw [halike.dependent, Transition.dependent_comm]
    exact hdep
  · rw [shadow_append, shadow_of_independent hind] at hr
    rcases mem_or_mem_of_mem_shadow hr with rfl | hr
    · exact hactor'.symm ▸ hactor
    · exact hactor'.symm ▸ hvs₁ r hr

variable (hheeds : ∀ a, heeds a → (tried a ∧ ∃ t v c₁, t.actor = a ∧ p.Fires c t v c₁) ∨
  ∀ t v c₁, p.Fires c t v c₁ → tried t.actor)

include hP hheeds

theorem complete_of_tried {us : List Transition} {d : Configuration}
    (hrun : p.Run (fun _ => True) c us d) {t : Transition} {v : Option Violation} {c₁ : Configuration}
    (htried : tried t.actor) (ht : p.Fires c t v c₁) :
    ∃ vs e, p.Run (· = none) c (us ++ vs) e ∧ p.Complete e ∧ P (us ++ vs) := by
  -- By induction on the number of steps of the run before the first that depends on the tried one.
  induction hn : (us.takeWhile fun w => !t.dependent w).length using Nat.strong_induction_on
    generalizing t v c₁ with
  | _ n ih =>
    have hind : ∀ w ∈ us.takeWhile (fun w => !t.dependent w), t.dependent w = false := fun w hw => by
      simpa using List.mem_takeWhile_imp hw
    have hsplit := List.takeWhile_append_dropWhile (p := fun w => !t.dependent w) (l := us)
    generalize us.takeWhile (fun w => !t.dependent w) = us₁ at hn hind hsplit
    cases hrest : us.dropWhile fun w => !t.dependent w with
    | nil =>
      -- The tried step is independent of the whole run, so it can be taken after it.
      rw [hrest, List.append_nil] at hsplit
      subst hsplit
      obtain ⟨d₁, ht', -⟩ := hrun.alongside hp ht hind
      obtain ⟨vs, e, hclean, he, hPu⟩ := complete_of_front hp hP hsteps
        (hrun.append (.cons ht' trivial (.nil d₁))) htried hind
      simp only [List.append_assoc, List.singleton_append] at hclean hPu
      exact ⟨t :: vs, e, hclean, he, hPu⟩
    | cons u us₂ =>
      have hdep : t.dependent u = true := by
        have hhead := List.head_dropWhile_not (fun w => !t.dependent w) (l := us) (by simp [hrest])
        simpa [hrest] using hhead
      rw [hrest] at hsplit
      subst hsplit
      obtain ⟨d₁, hrun₁, hrun₂⟩ := hrun.split
      obtain _ | ⟨hu, -, -⟩ := hrun₂
      by_cases hactor : t.actor = u.actor
      · exact complete_of_same_actor hp hP hsteps hrun ht htried hind hactor
      · have hheed := heeds_of_dependent hp hsteps hrun₁ hu ht htried hind hdep hactor
        rcases hheeds _ hheed with ⟨htried', t', v', c', hactor', ht'⟩ | hall
        · -- The actor of `u` was tried as well. If its step depends on nothing before `u`, then `u` itself
          -- moves to the front; otherwise the run depends on it earlier than on `t`.
          rw [← hactor'] at htried'
          by_cases hind' : ∀ w ∈ us₁, t'.dependent w = false
          · exact complete_of_same_actor hp hP hsteps hrun ht' htried' hind' hactor'
          · refine ih _ (hn ▸ ?_) htried' ht' rfl
            exact length_takeWhile_append_lt (by simpa using hind')
        · exact complete_of_all hp hP hsteps (by simp) hrun hall

theorem completes_of_steps (hnil : P [])
    (hsome : ∀ t v c₁, p.Fires c t v c₁ → ∃ t v c₁, tried t.actor ∧ p.Fires c t v c₁)
    (hdone : (∀ t v c₁, ¬ p.Fires c t v c₁) → p.Complete c) : p.Completes P c := by
  intro us d hrun
  by_cases hany : ∃ t v c₁, p.Fires c t v c₁
  · obtain ⟨t, v, c₁, ht⟩ := hany
    obtain ⟨t, v, c₁, htried, ht⟩ := hsome t v c₁ ht
    exact complete_of_tried hp hP hsteps hheeds hrun htried ht
  · cases hrun with
    | nil => exact ⟨[], c, .nil c, hdone fun t v c₁ ht => hany ⟨t, v, c₁, ht⟩, hnil⟩
    | cons ht _ _ => exact absurd ⟨_, _, _, ht⟩ hany

end

end Interleave.Program
