import Interleave.Proofs.Reduction
import Interleave.Proofs.Termination

/-! Partial order reduction loses nothing: a search under it that finds no violation rules out every violation
and every deadlock, and where all executions end it gives the same verdict as the full search. -/

namespace Interleave.Program

variable {p : Program} {c c' d : Configuration} {t : Transition} {v : Option Violation}
  {us : List Transition}

def Deadlocked (p : Program) (c : Configuration) : Prop :=
  (∃ i, p.isAlive c i = true) ∧ ∀ i, p.isEnabled c i = false

theorem Completes.not_deadlocked {P : List Transition → Prop} (h : p.Completes P c)
    (hrun : p.Run (fun _ => True) c us d) : ¬ p.Deadlocked d := by
  rintro ⟨⟨i, hi⟩, hdisabled⟩
  rcases h.goes_on hrun with hcomplete | ⟨t, v, c', hfires⟩
  · obtain ⟨step, hstep⟩ := Option.isSome_iff_exists.mp hi
    have hnone := hcomplete (idAt i)
    rw [next_eq_some.mpr ⟨i, hstep, rfl⟩] at hnone
    cases hnone
  · obtain ⟨-, hpending, hguard, -, -⟩ := hfires
    rename_i j _ _
    have hen := hdisabled j
    rw [isEnabled_of_pending hpending, hguard] at hen
    cases hen

/-- No step keeps its actor from moving on. -/
def Spinless (p : Program) : Prop := ∀ steps ∈ p.actors, ∀ s ∈ steps, s.loop = false

instance (p : Program) : Decidable p.Spinless := inferInstanceAs (Decidable (∀ _ ∈ _, _))

def stepCount (p : Program) : Nat := (p.actors.map List.length).sum

def remaining (p : Program) (c : Configuration) : Nat :=
  (List.zipWith (fun steps position => steps.length - position) p.actors c.positions).sum

theorem remaining_initial (p : Program) : p.remaining p.initial = p.stepCount := by
  simp only [remaining, initial, stepCount, List.zipWith_map_right, List.zipWith_self, Nat.sub_zero]

theorem sum_modify_succ {actors : List (List Step)} {positions : List Nat} {i position : Nat}
    {steps : List Step} (hsteps : actors[i]? = some steps) (hposition : positions[i]? = some position)
    (hlt : position < steps.length) :
    (List.zipWith (fun steps position => steps.length - position) actors
        (positions.modify i (· + 1))).sum + 1 =
      (List.zipWith (fun steps position => steps.length - position) actors positions).sum := by
  induction actors generalizing positions i with
  | nil => simp at hsteps
  | cons first actors ih =>
    cases positions with
    | nil => simp at hposition
    | cons start positions =>
      cases i with
      | zero =>
        simp only [List.getElem?_cons_zero, Option.some.injEq] at hsteps hposition
        subst hsteps hposition
        simp only [List.modify_zero_cons, List.zipWith_cons_cons, List.sum_cons]
        omega
      | succ i =>
        simp only [List.getElem?_cons_succ] at hsteps hposition
        have hrest := ih hsteps hposition
        simp only [List.modify_succ_cons, List.zipWith_cons_cons, List.sum_cons]
        omega

theorem Fires.remaining (hp : p.Spinless) (h : p.Fires c t v c') :
    p.remaining c' + 1 = p.remaining c := by
  obtain ⟨-, hpending, -, -, -⟩ := h
  simp only [pending, Option.bind_eq_bind, Option.bind_eq_some_iff] at hpending
  obtain ⟨steps, hsteps, position, hposition, hs⟩ := hpending
  have hloop := hp steps (List.mem_of_getElem? hsteps) _ (List.mem_of_getElem? hs)
  rw [Program.remaining, afterStep_eq]
  simp only [hloop, Bool.false_eq_true, if_false]
  exact sum_modify_succ hsteps hposition (List.getElem?_eq_some_iff.mp hs).1

theorem Run.remaining {ok : Option Violation → Prop} (hp : p.Spinless) (h : p.Run ok c us d) :
    us.length + p.remaining d = p.remaining c := by
  induction h with
  | nil => simp
  | cons hu _ _ ih =>
    have hone := hu.remaining hp
    rw [List.length_cons]
    omega

def allSteps (p : Program) : List Interleave.Step :=
  p.indices.flatMap fun i => (p.actors[i]?.getD []).flatMap fun s =>
    (List.range (max 1 s.choices).toNat).map fun k : Nat => ⟨idAt i, k⟩

theorem Fires.mem_allSteps (h : p.Fires c t v c') : t.step ∈ p.allSteps := by
  obtain ⟨hindex, hpending, -, hlow, hhigh⟩ := h
  rename_i a i s outcome
  obtain ⟨hi, rfl⟩ := index?_eq_some.mp hindex
  simp only [pending, Option.bind_eq_bind, Option.bind_eq_some_iff] at hpending
  obtain ⟨steps, hsteps, position, -, hs⟩ := hpending
  simp only [allSteps, indices, List.mem_flatMap, List.mem_range, List.mem_map]
  refine ⟨i, hi, s, ?_, outcome.toNat, ?_, ?_⟩
  · rw [hsteps]
    exact List.mem_of_getElem? hs
  · exact (Int.toNat_lt_toNat (lt_max_of_lt_left one_pos)).mpr hhigh
  · rw [Int.toNat_of_nonneg hlow]
    rfl

variable {root : Node Configuration}

theorem driver_reliable (hroot : p.driver.root? c = some root) : p.driver.Reliable root where
  interrupted _ := rfl
  snapshot _ := ⟨_, rfl⟩
  restore _ _ := rfl
  execute := by
    intro path n x hwalk hoff
    have hn := ((mirrors_root hroot).1.run (Driver.root?_fresh hroot) hwalk).1
    obtain ⟨t, v, c', rfl, hfires⟩ := hn.fires_of_offers hoff
    obtain ⟨n', hadv, -⟩ := hfires.advance? hn
    exact ⟨n', hadv⟩

theorem driver_bounded (hp : p.Spinless) (hroot : p.driver.root? p.initial = some root) :
    p.driver.Bounded root p.allSteps.toFinset p.stepCount := by
  intro path n x hwalk hoff
  obtain ⟨hmirrors, hmachine⟩ := mirrors_root hroot
  obtain ⟨hn, us, hlength, hrun⟩ := hmirrors.run (Driver.root?_fresh hroot) hwalk
  obtain ⟨t, v, c', rfl, hfires⟩ := hn.fires_of_offers hoff
  refine ⟨List.mem_toFinset.mpr hfires.mem_allSteps, ?_⟩
  have hall := hrun.remaining hp
  have hone := hfires.remaining hp
  rw [hmachine, remaining_initial] at hall
  omega

theorem root_exists (p : Program) (c : Configuration) : ∃ root, p.driver.root? c = some root := ⟨_, rfl⟩

theorem outcomes_agree (hp : p.Standard) (hspinless : p.Spinless) {o o' : Options}
    (ho : o.reduction = .dpor) (ho' : o'.reduction = .none) (hnone : o.maxVisited = 0)
    (hnone' : o'.maxVisited = 0) (hadmits : o.Admits p.stepCount) (hadmits' : o'.Admits p.stepCount)
    {fuel fuel' : Nat} {s s' : Search Configuration Captured}
    (hs : Search.run p.driver o fuel p.initial = some (none, s))
    (hs' : Search.run p.driver o' fuel' p.initial = some (none, s')) :
    s.result.outcome = s'.result.outcome := by
  obtain ⟨root, hroot⟩ := p.root_exists p.initial
  have hdet := p.driver_deterministic
  have hbounded := driver_bounded hspinless hroot
  have hverdict := Trail.run_verdict hdet hbounded hadmits hroot hs
  have hverdict' := Trail.run_verdict hdet hbounded hadmits' hroot hs'
  rcases hverdict with hout | ⟨hout, path, n, hwalk, hfail⟩
  · rcases hverdict' with hout' | ⟨-, path, n, hwalk, hfail⟩
    · rw [hout, hout']
    · -- The reduced search has ruled out the failing execution that the full one has found.
      obtain ⟨hmirrors, hmachine⟩ := mirrors_root hroot
      obtain ⟨-, -, -, -, hviolation⟩ := Driver.root?_eq_some hroot
      have hcompletes := completes_of_reduced hp ho hnone hs hout
      rw [← hmachine] at hcompletes
      exact absurd hfail (hcompletes.not_failing hmirrors (Driver.root?_fresh hroot) hviolation hwalk)
  · rcases hverdict' with hout' | ⟨hout', -⟩
    · -- All executions are within the bound, so the full search has tried the failing one.
      have hlength := hadmits'.mono (hbounded.length_le hwalk)
      exact absurd hfail (Trail.not_failing_of_full hdet ho' hnone' hroot hs' hout' hwalk hlength)
    · rw [hout, hout']

/-- Partial order reduction is sound: if a search under it finds no violation, no step of any run reports one
and no run gets into a deadlock. If no step loops and the depth bound leaves room for all steps, the searches
with and without reduction end without an error and come to the same verdict. -/
theorem reduction_sound (hp : p.Standard) {o : Options} (hnone : o.maxVisited = 0) :
    (∀ fuel s, Search.run p.driver { o with reduction := .dpor } fuel p.initial = some (none, s) →
      s.result.outcome = .noViolation → ∀ us c, p.Run (fun _ => True) p.initial us c →
        (∀ t v c', p.Fires c t v c' → v = none) ∧ ¬ p.Deadlocked c) ∧
    (p.Spinless → o.maxDepth < 1 ∨ p.stepCount ≤ o.maxDepth →
      (∀ r : Reduction, ∃ bound, ∀ fuel, bound ≤ fuel → ∃ s,
        Search.run p.driver { o with reduction := r } fuel p.initial = some (none, s)) ∧
      ∀ fuel fuel' s s', Search.run p.driver { o with reduction := .dpor } fuel p.initial = some (none, s) →
        Search.run p.driver { o with reduction := .none } fuel' p.initial = some (none, s') →
        s.result.outcome = s'.result.outcome) := by
  refine ⟨fun fuel s hs hclean us c hrun => ?_, fun hspinless hadmits => ⟨fun r => ?_, ?_⟩⟩
  · have hcompletes := completes_of_reduced (o := { o with reduction := .dpor }) hp rfl hnone hs hclean
    exact ⟨fun t v c' => hcompletes.verdict hrun, hcompletes.not_deadlocked hrun⟩
  · obtain ⟨root, hroot⟩ := p.root_exists p.initial
    exact Trail.run_ends p.driver_deterministic (driver_reliable hroot) (driver_bounded hspinless hroot)
      (o := { o with reduction := r }) hadmits hnone hroot
  · intro fuel fuel' s s' hs hs'
    refine outcomes_agree hp hspinless ?_ ?_ ?_ ?_ ?_ ?_ hs hs'
    exacts [rfl, rfl, hnone, hnone, hadmits, hadmits]

def lockedCounter : Program :=
  ⟨.empty, [[.lock "m", .incr "x", .unlock "m"], [.lock "m", .incr "x", .unlock "m"]], none⟩

theorem lockedCounter_standard : lockedCounter.Standard := by
  simp only [Standard, lockedCounter, List.forall_mem_cons, List.not_mem_nil, IsEmpty.forall_iff,
    implies_true, and_true]
  exact ⟨⟨.lock _, .incr _, .unlock _⟩, .lock _, .incr _, .unlock _⟩

theorem reduction_sound_lockedCounter :
    (∀ us c, lockedCounter.Run (fun _ => True) lockedCounter.initial us c → ¬ lockedCounter.Deadlocked c) ∧
      ∀ r, ∃ bound, ∀ fuel, bound ≤ fuel → ∃ s, Search.run lockedCounter.driver
        { maxDepth := 6, reduction := r, maxVisited := 0, checkpoint := 0, graph := false } fuel
        lockedCounter.initial = some (none, s) := by
  obtain ⟨hsound, hends⟩ := reduction_sound lockedCounter_standard
    (o := { maxDepth := 6, reduction := .dpor, maxVisited := 0, checkpoint := 0, graph := false }) rfl
  refine ⟨fun us c hrun => (hsound 40 _ rfl rfl us c hrun).2, (hends ?_ (.inr ?_)).1⟩
  · decide
  · decide

end Interleave.Program
