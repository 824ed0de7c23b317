import Interleave.Proofs.Mirroring

/-! Independence means commutation, as the driver of a program shows it: two enabled actors whose pending
steps do not depend on each other can be executed in either order, with the same reports and the same end. -/

namespace Interleave.Program

/-- Asked for the step of `t`, the driver reports `t` with the violation `v` and moves the program to `c'`. -/
def Executes (p : Program) (c : Configuration) (t : Transition) (v : Option Violation)
    (c' : Configuration) : Prop :=
  ∃ r, p.driver.execute t.actor t.outcome c = (.ok r, c') ∧ r.transition = t ∧ r.violation = v

variable {p : Program} {c : Configuration} {i j : Nat} {s s' : Step} {k k' : Int}

theorem executes_of_enabled (hi : p.pending c i = some s) (hen : p.isEnabled c i = true) (k : Int) :
    p.Executes c (s.transition (idAt i) k) (afterStep c i s k).2 (afterStep c i s k).1 :=
  ⟨_, execute_of_enabled hi hen k, rfl, rfl⟩

theorem isEnabled_afterStep (hp : p.Standard) (hi : p.pending c i = some s) (hj : p.pending c j = some s')
    (hen : p.isEnabled c j = true)
    (hind : (s.transition (idAt i) k).dependent (s'.transition (idAt j) k') = false) :
    p.pending (afterStep c i s k).1 j = some s' ∧ p.isEnabled (afterStep c i s k).1 j = true := by
  have hij : i ≠ j := by
    rintro rfl
    exact Transition.actor_ne_of_independent hind rfl
  have hpending : p.pending (afterStep c i s k).1 j = some s' := (pending_afterStep hij s k).trans hj
  refine ⟨hpending, ?_⟩
  rw [isEnabled_of_pending hpending, guard_afterStep hind (hp.pending hi).shape, ← isEnabled_of_pending hj]
  exact hen

/-- Two enabled actors whose pending steps are independent commute: executed in either order both succeed,
each reports the same transition and the same violation, and the program ends in the same configuration. What
depends on what is symmetric. -/
theorem independent_steps_commute :
    (∀ p : Program, p.Standard → ∀ (c : Configuration) (i j : Nat) (s s' : Step) (k k' : Int),
      p.pending c i = some s → p.isEnabled c i = true →
      p.pending c j = some s' → p.isEnabled c j = true →
      (s.transition (idAt i) k).dependent (s'.transition (idAt j) k') = false →
      ∃ v w c₁ c₂ c₃,
        p.Executes c (s.transition (idAt i) k) v c₁ ∧ p.Executes c₁ (s'.transition (idAt j) k') w c₃ ∧
        p.Executes c (s'.transition (idAt j) k') w c₂ ∧ p.Executes c₂ (s.transition (idAt i) k) v c₃) ∧
    ∀ t u : Transition, t.dependent u = u.dependent t := by
  refine ⟨fun p hp c i j s s' k k' hi heni hj henj hind => ?_, Transition.dependent_comm⟩
  have hind' := (Transition.dependent_comm _ _).trans hind
  have hs := (hp.pending hi).shape
  have hs' := (hp.pending hj).shape
  obtain ⟨hj₁, henj₁⟩ := isEnabled_afterStep hp hi hj henj hind
  obtain ⟨hi₂, heni₂⟩ := isEnabled_afterStep hp hj hi heni hind'
  have hsecond := executes_of_enabled hj₁ henj₁ k'
  have hsecond' := executes_of_enabled hi₂ heni₂ k
  rw [verdict_afterStep hind hs hs'] at hsecond
  rw [verdict_afterStep hind' hs' hs, ← afterStep_comm hind hs hs'] at hsecond'
  exact ⟨_, _, _, _, _, executes_of_enabled hi heni k, hsecond, executes_of_enabled hj henj k', hsecond'⟩

def pickAndCheck : Program := ⟨.empty, [[.choose "x" 3], [.expect "y" 1]], none⟩

theorem independent_steps_commute_pickAndCheck :
    ((Step.choose "x" 3).transition 1 2).dependent ((Step.expect "y" 1).transition 2 0) = false ∧
    ∃ v w c₁ c₂ c₃,
      pickAndCheck.Executes pickAndCheck.initial ((Step.choose "x" 3).transition 1 2) v c₁ ∧
      pickAndCheck.Executes c₁ ((Step.expect "y" 1).transition 2 0) w c₃ ∧
      pickAndCheck.Executes pickAndCheck.initial ((Step.expect "y" 1).transition 2 0) w c₂ ∧
      pickAndCheck.Executes c₂ ((Step.choose "x" 3).transition 1 2) v c₃ := by
  have hind : ((Step.choose "x" 3).transition 1 2).dependent ((Step.expect "y" 1).transition 2 0) = false := by
    decide
  have hstandard : pickAndCheck.Standard := by
    simp only [Standard, pickAndCheck, List.forall_mem_cons, List.not_mem_nil, IsEmpty.forall_iff,
      implies_true, and_true]
    exact ⟨.choose (by decide) _, .expect _ _⟩
  exact ⟨hind, independent_steps_commute.1 pickAndCheck hstandard pickAndCheck.initial 0 1 _ _ 2 0
    rfl rfl rfl rfl hind⟩

end Interleave.Program
