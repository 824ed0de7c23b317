import Interleave.Program
import Interleave.Proofs.Assoc
import Interleave.Transition.Dependency
import Mathlib.Algebra.Ring.Int.Defs
import Mathlib.Data.String.Basic

/-! Steps of a program that do not depend on each other commute: in either order they report the same and lead
to the same configuration, and neither enables or disables the other. -/

namespace Interleave

namespace Vars

theorem get_set (v : Vars) (name name' : String) (value : Int) :
    (v.set name value).get name' = if name' = name then value else v.get name' := by
  simp only [get, set, Assoc.get?_insert]
  split_ifs <;> rfl

theorem set_comm (v : Vars) {name name' : String} (hne : name ≠ name') (value value' : Int) :
    (v.set name value).set name' value' = (v.set name' value').set name value := by
  simp only [set, Assoc.insert_comm value' value hne.symm]

end Vars

namespace Transition

theorem dependent_comm (t u : Transition) : t.dependent u = u.dependent t := by
  rw [Bool.eq_iff_iff]
  simp only [dependent, Bool.or_eq_true, Bool.and_eq_true, decide_eq_true_eq, Bool.not_eq_true',
    Bool.and_eq_false_iff]
  constructor <;> rintro ((h | h | h) | ⟨⟨h, h'⟩, (hr | hr) | ⟨hr, ho⟩⟩) <;> simp_all [or_comm]

structure Alike (t u : Transition) : Prop where
  actor : t.actor = u.actor
  kind : t.kind = u.kind
  resource : t.resource = u.resource
  guarded : t.guarded = u.guarded

theorem Alike.dependent {t u : Transition} (h : t.Alike u) (w : Transition) :
    t.dependent w = u.dependent w := by
  simp only [Transition.dependent, writes, isLocal, h.actor, h.kind, h.resource, h.guarded]

theorem dependent_of_actor {t u : Transition} (h : t.actor = u.actor) : t.dependent u = true := by
  simp [dependent, h]

theorem actor_ne_of_independent {t u : Transition} (h : t.dependent u = false) : t.actor ≠ u.actor :=
  fun hactor => by simp [dependent_of_actor hactor] at h

section Independent

variable {t u : Transition} (h : t.dependent u = false) (hwrites : t.writes = true)

include h hwrites

theorem not_guarded_of_independent : u.guarded = false := by
  simp only [dependent, hwrites, Bool.and_true, Bool.or_eq_false_iff] at h
  exact h.1.2.2

theorem resource_ne_of_independent (hlocal : u.isLocal = false) : t.resource ≠ u.resource := by
  intro heq
  simp only [writes, Bool.and_eq_true, Bool.not_eq_true'] at hwrites
  simp [dependent, hwrites, hlocal, heq] at h

end Independent

end Transition

namespace Program

namespace Step

def act (s : Step) (v : Vars) (outcome : Int) : Vars × Option Violation :=
  match s.run with
  | some run => run v outcome
  | none => (v, none)

/-- The steps that the constructors build. A choice needs a resource to store its value in. -/
inductive Standard : Step → Prop
  | write (resource : String) (value : Int) : Standard (write resource value)
  | incr (resource : String) : Standard (incr resource)
  | read (resource : String) : Standard (read resource)
  | lock (resource : String) : Standard (lock resource)
  | unlock (resource : String) : Standard (unlock resource)
  | fail (message : String) : Standard (fail message)
  | expect (resource : String) (expected : Int) : Standard (expect resource expected)
  | choose {resource : String} (hresource : resource ≠ "") (n : Int) : Standard (choose resource n)
  | spin : Standard spin
  | when {s : Step} (hs : Standard s) (guard : Vars → Bool) : Standard (s.when guard)

inductive Shape (s : Step) : Prop
  | idle (act_eq : ∀ v outcome, s.act v outcome = (v, none))
  | check (verdict : Int → Option Violation) (kind_eq : s.kind = .assert)
      (act_eq : ∀ v outcome, s.act v outcome = (v, verdict (v.get s.resource)))
  | store (value : Int → Int → Int)
      (writes : ∀ a outcome, (s.transition a outcome).writes = true)
      (act_eq : ∀ v outcome, s.act v outcome = (v.set s.resource (value (v.get s.resource) outcome), none))

theorem Standard.shape {s : Step} (h : s.Standard) : s.Shape := by
  induction h with
  | write _ value => exact .store (fun _ _ => value) (fun _ _ => rfl) fun _ _ => rfl
  | incr _ => exact .store (fun x _ => wrap (x + 1)) (fun _ _ => rfl) fun _ _ => rfl
  | read _ => exact .idle fun _ _ => rfl
  | lock _ => exact .store (fun _ _ => 1) (fun _ _ => rfl) fun _ _ => rfl
  | unlock _ => exact .store (fun _ _ => 0) (fun _ _ => rfl) fun _ _ => rfl
  | fail message => exact .check (fun _ => some ⟨.assertion, message⟩) rfl fun _ _ => rfl
  | expect resource expected =>
    exact .check (fun x => if x = expected then none
      else some ⟨.assertion, s!"{resource} is {x}, expected {expected}"⟩) rfl fun _ _ => rfl
  | choose hresource _ =>
    refine .store (fun _ outcome => outcome) (fun a outcome => ?_) fun _ _ => rfl
    simp [Transition.writes, Transition.isLocal, Kind.observes, Step.transition, Step.choose, effect, plain,
      hresource]
  | spin => exact .idle fun _ _ => rfl
  | when _ _ ih =>
    cases ih with
    | idle act_eq => exact .idle act_eq
    | check verdict kind_eq act_eq => exact .check verdict kind_eq act_eq
    | store value writes act_eq => exact .store value writes act_eq

section Independent

variable {s s' : Step} {a b : ActorId} {k k' : Int}
  (hind : (s.transition a k).dependent (s'.transition b k') = false)

include hind

theorem Shape.guard_stable (hs : s.Shape) (v : Vars) :
    (s'.guard.all fun g => g (s.act v k).1) = s'.guard.all fun g => g v := by
  cases hs with
  | idle act_eq => rw [act_eq]
  | check _ _ act_eq => rw [act_eq]
  | store _ writes _ =>
    have hguard : s'.guard = none := by
      simpa [transition] using Transition.not_guarded_of_independent hind (writes a k)
    rw [hguard]
    rfl

theorem Shape.verdict_stable (hs : s.Shape) (hs' : s'.Shape) (v : Vars) :
    (s'.act (s.act v k).1 k').2 = (s'.act v k').2 := by
  cases hs' with
  | idle act_eq => simp only [act_eq]
  | store _ _ act_eq => simp only [act_eq]
  | check verdict kind_eq act_eq =>
    cases hs with
    | idle act_eq' => simp only [act_eq']
    | check _ _ act_eq' => simp only [act_eq']
    | store value writes act_eq' =>
      have hlocal : (s'.transition b k').isLocal = false := by
        simp [Transition.isLocal, transition, kind_eq]
      have hne : s.resource ≠ s'.resource := Transition.resource_ne_of_independent hind (writes a k) hlocal
      simp only [act_eq, act_eq', Vars.get_set, if_neg hne.symm]

theorem Shape.act_comm (hs : s.Shape) (hs' : s'.Shape) (v : Vars) :
    (s'.act (s.act v k).1 k').1 = (s.act (s'.act v k').1 k).1 := by
  cases hs with
  | idle act_eq => simp only [act_eq]
  | check _ _ act_eq => simp only [act_eq]
  | store value writes act_eq =>
    cases hs' with
    | idle act_eq' => simp only [act_eq']
    | check _ _ act_eq' => simp only [act_eq']
    | store value' writes' act_eq' =>
      have hlocal : (s'.transition b k').isLocal = false := by
        have hwrites := writes' b k'
        simp only [Transition.writes, Bool.and_eq_true, Bool.not_eq_true'] at hwrites
        exact hwrites.1
      have hne : s.resource ≠ s'.resource := Transition.resource_ne_of_independent hind (writes a k) hlocal
      simp only [act_eq, act_eq', Vars.get_set, if_neg hne, if_neg hne.symm, Vars.set_comm _ hne]

end Independent

end Step

def Standard (p : Program) : Prop := ∀ steps ∈ p.actors, ∀ s ∈ steps, s.Standard

/-- From `c` an actor takes its pending step, reported as `t`, with the violation `v` if there is one. -/
inductive Fires (p : Program) (c : Configuration) : Transition → Option Violation → Configuration → Prop
  | intro {a : ActorId} {i : Nat} {s : Step} {outcome : Int} (hindex : p.index? a = some i)
      (hpending : p.pending c i = some s) (hguard : (s.guard.all fun g => g c.vars) = true)
      (hlow : 0 ≤ outcome) (hhigh : outcome < max 1 s.choices) :
      Fires p c (s.transition a outcome) (afterStep c i s outcome).2 (afterStep c i s outcome).1

variable {p : Program} {c c₁ c₂ : Configuration} {t u : Transition} {v w : Option Violation}

theorem afterStep_eq (c : Configuration) (i : Nat) (s : Step) (outcome : Int) :
    afterStep c i s outcome =
      ({ positions := if s.loop then c.positions else c.positions.modify i (· + 1)
         vars := (s.act c.vars outcome).1 }, (s.act c.vars outcome).2) := by
  unfold afterStep Step.act
  cases s.run <;> rfl

theorem index?_inj {a b : ActorId} {i : Nat} (ha : p.index? a = some i) (hb : p.index? b = some i) :
    a = b := by
  unfold index? at ha hb
  split_ifs at ha hb with ha' hb'
  simp only [Option.some.injEq] at ha hb
  have hinj : ∀ x y : Int, 1 ≤ x → 1 ≤ y → (x - 1).toNat = (y - 1).toNat → x = y := by omega
  exact hinj a b ha'.1 hb'.1 (ha.trans hb.symm)

theorem pending_afterStep {i j : Nat} (hij : i ≠ j) (s : Step) (outcome : Int) :
    p.pending (afterStep c i s outcome).1 j = p.pending c j := by
  have hposition : (afterStep c i s outcome).1.positions[j]? = c.positions[j]? := by
    rw [afterStep_eq]
    dsimp only
    split_ifs
    · rfl
    · simp [hij]
  simp only [pending, hposition]

theorem mem_of_pending {i : Nat} {s : Step} (h : p.pending c i = some s) : ∃ steps ∈ p.actors, s ∈ steps := by
  simp only [pending, Option.bind_eq_bind, Option.bind_eq_some_iff] at h
  obtain ⟨steps, hsteps, position, -, hs⟩ := h
  exact ⟨steps, List.mem_of_getElem? hsteps, List.mem_of_getElem? hs⟩

theorem Standard.pending (hp : p.Standard) {i : Nat} {s : Step} (h : p.pending c i = some s) :
    s.Standard := by
  obtain ⟨steps, hsteps, hs⟩ := mem_of_pending h
  exact hp steps hsteps s hs

theorem modify_comm {α : Type} (f : α → α) {i j : Nat} (xs : List α) :
    (xs.modify i f).modify j f = (xs.modify j f).modify i f := by
  apply List.ext_getElem?
  intro k
  simp only [List.getElem?_modify]
  cases xs[k]? <;> split_ifs <;> rfl

section Independent

variable {i j : Nat} {s s' : Step} {a b : ActorId} {k k' : Int}
  (hind : (s.transition a k).dependent (s'.transition b k') = false)

include hind

theorem index_ne_of_independent (hi : p.index? a = some i) (hj : p.index? b = some j) : i ≠ j := by
  rintro rfl
  exact Transition.actor_ne_of_independent hind (index?_inj hi hj)

theorem guard_afterStep (hs : s.Shape) :
    (s'.guard.all fun g => g (afterStep c i s k).1.vars) = s'.guard.all fun g => g c.vars := by
  rw [afterStep_eq]
  exact hs.guard_stable hind c.vars

theorem verdict_afterStep (hs : s.Shape) (hs' : s'.Shape) :
    (afterStep (afterStep c i s k).1 j s' k').2 = (afterStep c j s' k').2 := by
  simp only [afterStep_eq]
  exact hs.verdict_stable hind hs' c.vars

theorem afterStep_comm (hs : s.Shape) (hs' : s'.Shape) :
    (afterStep (afterStep c i s k).1 j s' k').1 = (afterStep (afterStep c j s' k').1 i s k).1 := by
  simp only [afterStep_eq, Configuration.mk.injEq]
  refine ⟨?_, hs.act_comm hind hs' c.vars⟩
  -- A step that loops leaves the positions alone.
  split_ifs <;> first | rfl | exact modify_comm _ _

end Independent

theorem Fires.unique (h₁ : p.Fires c t v c₁) (h₂ : p.Fires c t w c₂) : v = w ∧ c₁ = c₂ := by
  obtain ⟨hindex, hpending, -, -, -⟩ := h₁
  generalize hu : Step.transition _ _ _ = u at h₂
  obtain ⟨hindex', hpending', -, -, -⟩ := h₂
  have hactor := congrArg Transition.actor hu
  have houtcome := congrArg Transition.outcome hu
  simp only [Step.transition] at hactor houtcome
  subst hactor houtcome
  cases hindex.symm.trans hindex'
  cases hpending.symm.trans hpending'
  exact ⟨rfl, rfl⟩

theorem Fires.diamond (hp : p.Standard) (h₁ : p.Fires c t v c₁) (h₂ : p.Fires c u w c₂)
    (hind : t.dependent u = false) : ∃ c₃, p.Fires c₁ u w c₃ ∧ p.Fires c₂ t v c₃ := by
  obtain ⟨hindex, hpending, hguard, hlow, hhigh⟩ := h₁
  obtain ⟨hindex', hpending', hguard', hlow', hhigh'⟩ := h₂
  rename_i a i s k b j s' k'
  have hij := index_ne_of_independent hind hindex hindex'
  have hs := (hp.pending hpending).shape
  have hs' := (hp.pending hpending').shape
  have hind' := (Transition.dependent_comm _ _).trans hind
  refine ⟨(afterStep (afterStep c i s k).1 j s' k').1, ?_, ?_⟩
  · have hfires := Fires.intro (c := (afterStep c i s k).1) hindex'
      ((pending_afterStep hij s k).trans hpending') ((guard_afterStep hind hs).trans hguard') hlow' hhigh'
    rwa [verdict_afterStep hind hs hs'] at hfires
  · have hfires := Fires.intro (c := (afterStep c j s' k').1) hindex
      ((pending_afterStep hij.symm s' k').trans hpending) ((guard_afterStep hind' hs').trans hguard)
      hlow hhigh
    rwa [verdict_afterStep hind' hs' hs, ← afterStep_comm hind hs hs'] at hfires

theorem Fires.before (hp : p.Standard) (h₁ : p.Fires c t v c₁) (h₂ : p.Fires c₁ u w c₂)
    (hind : t.dependent u = false) : ∃ c₃, p.Fires c u w c₃ := by
  obtain ⟨hindex, hpending, -, -, -⟩ := h₁
  obtain ⟨hindex', hpending', hguard', hlow', hhigh'⟩ := h₂
  rw [pending_afterStep (index_ne_of_independent hind hindex hindex')] at hpending'
  have hs := (hp.pending hpending).shape
  have hs' := (hp.pending hpending').shape
  have hfires := Fires.intro hindex' hpending' ((guard_afterStep hind hs).symm.trans hguard') hlow' hhigh'
  rw [verdict_afterStep hind hs hs']
  exact ⟨_, hfires⟩

theorem Fires.swap (hp : p.Standard) (h₁ : p.Fires c t v c₁) (h₂ : p.Fires c₁ u w c₂)
    (hind : t.dependent u = false) : ∃ c₃, p.Fires c u w c₃ ∧ p.Fires c₃ t v c₂ := by
  obtain ⟨c₃, h₃⟩ := h₁.before hp h₂ hind
  obtain ⟨c₄, h₄, h₅⟩ := h₁.diamond hp h₃ hind
  obtain ⟨-, rfl⟩ := h₂.unique h₄
  exact ⟨c₃, h₃, h₅⟩

end Program

end Interleave
