import Interleave.Proofs.Agreement
import Interleave.Proofs.Exhaustion
import Interleave.Proofs.Replaying

/-! Partial order reduction together with a depth bound. Races are found between steps that have been taken, so an
actor that the cut paths leave waiting is never tried earlier, and what it would have violated is not found. The search
then says that it has not ended; it never says that there is no violation. -/

namespace Interleave

variable {σ κ π : Type} [Snapshot κ] {drv : Driver σ κ} {view : σ → π} {o : Options} {root : Node σ} {m : σ}

theorem Search.loop_unique {fuel fuel' : Nat} {s : Search σ κ} {ended ended' : Option Abort × Search σ κ}
    (h : Search.loop drv o fuel s = some ended) (h' : Search.loop drv o fuel' s = some ended') : ended = ended' := by
  induction fuel generalizing fuel' s with
  | zero =>
    simp only [Search.loop] at h
    split_ifs at h with hfin
    rw [Trail.loop_of_finished hfin] at h'
    exact Option.some.inj (h.symm.trans h')
  | succ fuel ih =>
    by_cases hfin : s.finished = true
    · rw [Trail.loop_of_finished hfin] at h h'
      exact Option.some.inj (h.symm.trans h')
    · cases fuel' with
      | zero =>
        simp only [Search.loop, if_neg hfin] at h'
        cases h'
      | succ fuel' =>
        simp only [Search.loop, if_neg hfin] at h h'
        split at h
        · rename_i a s₁ hturn
          rw [hturn] at h'
          exact Option.some.inj (h.symm.trans h')
        · rename_i s₁ hturn
          rw [hturn] at h'
          exact ih h h'

theorem Search.run_unique {fuel fuel' : Nat} {ended ended' : Option Abort × Search σ κ}
    (h : Search.run drv o fuel m = some ended) (h' : Search.run drv o fuel' m = some ended') : ended = ended' := by
  unfold Search.run at h h'
  split at h
  · rename_i a s hstart
    rw [hstart] at h'
    exact Option.some.inj (h.symm.trans h')
  · rename_i s hstart
    rw [hstart] at h'
    obtain ⟨r, hr, rfl⟩ := Option.map_eq_some_iff.mp h
    obtain ⟨r', hr', rfl⟩ := Option.map_eq_some_iff.mp h'
    rw [Search.loop_unique hr hr']

theorem Search.Reached.turn_ok (hdet : drv.Deterministic view) (hrel : drv.Reliable root) (hnone : o.maxVisited = 0)
    (hroot : drv.root? m = some root) {s : Search σ κ} (h : Search.Reached drv o m s) (hopen : s.finished = false) :
    ∃ s', Search.turn drv o s = (none, s') := by
  obtain ⟨root', T, -, -, hroot', hvisits, htracks, -⟩ := Trail.tracks_of_open hdet h hopen
  cases hroot.symm.trans hroot'
  have hgrounded : Trail.Grounded T.spots := hvisits.grounded hrel.givesSnapshots (Driver.root?_fresh hroot)
  exact htracks.turn_ok hdet hrel hnone hgrounded

theorem Search.loop_ok (hdet : drv.Deterministic view) (hrel : drv.Reliable root) (hnone : o.maxVisited = 0)
    (hroot : drv.root? m = some root) {s s' : Search σ κ} (h : Search.Reached drv o m s) {fuel : Nat}
    {abort : Option Abort} (hloop : Search.loop drv o fuel s = some (abort, s')) : abort = none := by
  induction fuel generalizing s with
  | zero =>
    simp only [Search.loop] at hloop
    split_ifs at hloop
    cases hloop
    rfl
  | succ fuel ih =>
    simp only [Search.loop] at hloop
    split_ifs at hloop with hfin
    · cases hloop
      rfl
    · have hopen : s.finished = false := by simpa using hfin
      obtain ⟨s₁, hturn⟩ := h.turn_ok hdet hrel hnone hroot hopen
      rw [hturn] at hloop
      exact ih (.turn h hopen hturn) hloop

theorem Search.reliable_run_ends (hdet : drv.Deterministic view) (hrel : drv.Reliable root)
    (hnone : o.maxVisited = 0) (hdepth : 1 ≤ o.maxDepth) (hroot : drv.root? m = some root) :
    ∃ turns s, ∀ fuel, turns ≤ fuel → Search.run drv o fuel m = some (none, s) := by
  obtain ⟨s, hstart⟩ := Trail.start_ok hrel hnone hroot
  have hn : o.maxDepth.toNat < (reserves s.stack).length + o.maxDepth.toNat + 1 := by omega
  obtain ⟨turns, ⟨abort, s'⟩, hended⟩ := Search.loop_ends_of_gauge hdepth hn (.start hstart) (by omega)
  have habort : abort = none := Search.loop_ok hdet hrel hnone hroot (.start hstart) (hended turns le_rfl)
  subst habort
  refine ⟨turns, (Search.close (none, s')).2, fun fuel hfuel => ?_⟩
  rw [Search.run, hstart]
  dsimp only
  rw [hended fuel hfuel]
  rfl

theorem Trail.Visits.goesOn {T : Trail σ κ} (h : Visits drv view o root T) (hroot : root.state.Fresh) :
    ∀ trace, T.truncated = some trace → ∃ path n, CutAt drv o root path ∧ drv.walk? root path = some n ∧
      trace = n.trace := by
  refine (h.induction (P := fun T => ∀ trace, T.truncated = some trace → ∃ path n, CutAt drv o root path ∧
    drv.walk? root path = some n ∧ trace = n.trace) hroot ?_ ?_).2
  · intro T hstarts trace htrace
    rw [hstarts.truncated] at htrace
    cases htrace
  · intro T T' hs hT hshift trace htrace
    cases hshift with
    | entered => exact hT trace htrace
    | skipped => exact hT trace htrace
    | @cut p below visited truncated hbound htodo =>
      cases truncated with
      | some _ => exact hT trace htrace
      | none =>
        cases htrace
        -- The actor that is left to be tried is enabled.
        have hen : p.node.state.enabledIds ≠ [] := by
          rw [← State.enabledIds_congr hs.fits.profile]
          exact State.enabledIds_ne_nil hs.fits.wellFormed htodo
        have hcut : CutAt drv o root (Trail.path below) := by
          rw [CutAt, hs.length_path]
          exact ⟨hs.admits, hbound, p.node, hs.walk_path, hen⟩
        exact ⟨Trail.path below, p.node, hcut, hs.walk_path, rfl⟩
    | unwound _ hunwinds =>
      rw [hunwinds.truncated_eq] at htrace
      exact hT trace htrace

theorem Trail.bounded_cases (hdet : drv.Deterministic view) (hdepth : 1 ≤ o.maxDepth) {fuel : Nat} {s : Search σ κ}
    (hrun : Search.run drv o fuel m = some (none, s)) :
    (s.result.outcome = .violation ∧ drv.FailsWithin m o.maxDepth s.result.record) ∨
      (s.result.outcome = .nonTermination ∧ drv.GoesOnAt m o.maxDepth s.result.record) ∨
      s.result.outcome = .noViolation := by
  have hdone := Trail.run_phase hrun
  obtain ⟨root, hroot, hends⟩ := Trail.run_cases hdet hrun
  have hfresh := Driver.root?_fresh hroot
  obtain ⟨-, -, -, hnil, -⟩ := Driver.root?_eq_some hroot
  have hsteps : ∀ {path n}, drv.walk? root path = some n → RecordTrace.ofTransitions n.trace = path := by
    intro path n hwalk
    rw [RecordTrace.ofTransitions, hdet.walk?_steps hwalk, hnil]
    rfl
  have hviolating : ∀ {path n v}, s.violation = some v → s.trace = n.trace → drv.walk? root path = some n →
      FailsAt drv o root path → s.result.outcome = .violation ∧ drv.FailsWithin m o.maxDepth s.result.record := by
    intro path n v hv htrace hwalk hfails
    have hout : s.outcome = .violation := by simp [Search.outcome, hv]
    have hrecord : s.result.record = path := by
      rw [← hsteps hwalk, ← htrace]
      simp [Result.record, Search.result, Search.reportedTrace, hdone, hout]
    rw [Driver.failsAt_eq hroot hdepth] at hfails
    exact ⟨hout, hrecord ▸ hfails⟩
  -- The whole trail was unwound, the root failed, or the next step from a trail did.
  rcases hends with ⟨T, hvisits, -, hviolation, htruncated⟩ | ⟨hfail, -, hv, htrace, -⟩ |
    ⟨T, hvisits, p, below, x, t, n, p', hspots, htakes, hfail, -, hv, htrace, -⟩
  · right
    cases hcut : s.truncated with
    | none =>
      right
      simp [Search.result, Search.outcome, hviolation, hcut]
    | some trace =>
      left
      have hout : s.outcome = .nonTermination := by simp [Search.outcome, hviolation, hcut]
      obtain ⟨path, n, hgoes, hwalk, htrace⟩ := hvisits.goesOn hfresh trace (htruncated ▸ hcut)
      have hrecord : s.result.record = path := by
        rw [← hsteps hwalk, ← htrace]
        simp [Result.record, Search.result, Search.reportedTrace, hdone, hout, hcut]
      rw [Driver.cutAt_eq hroot hdepth] at hgoes
      exact ⟨hout, hrecord ▸ hgoes⟩
  · left
    have hadmits : o.Admits 0 := by
      simp only [Options.Admits]
      omega
    have hwalk : drv.walk? root [] = some root := rfl
    exact hviolating hv htrace hwalk ⟨hadmits, root, hwalk, hfail⟩
  · left
    have hs := hvisits.sound hfresh
    rw [hspots] at hs
    have hwalk : drv.walk? root (path below ++ [x]) = some n := by
      rw [Driver.walk?_snoc, hs.walk_path]
      exact htakes.advance
    have hadmits : o.Admits (path below ++ [x]).length := by
      rw [List.length_append, hs.length_path]
      exact Options.admits_succ_iff.mpr htakes.within
    exact hviolating hv htrace hwalk ⟨hadmits, n, hwalk, hfail⟩

namespace Program

variable {p : Program}

theorem not_failing_of_reduced (hp : p.Standard) (ho : o.reduction = .dpor) (hnone : o.maxVisited = 0) {fuel : Nat}
    {s : Search Configuration Captured} (hrun : Search.run p.driver o fuel p.initial = some (none, s))
    (hclean : s.result.outcome = .noViolation) {path : List Interleave.Step} {n : Node Configuration}
    (hn : p.driver.execution? p.initial path = some n) : ¬ n.Failing := by
  obtain ⟨root, hroot⟩ := p.root_exists p.initial
  obtain ⟨hmirrors, hmachine⟩ := mirrors_root hroot
  obtain ⟨-, -, -, -, hviolation⟩ := Driver.root?_eq_some hroot
  have hcompletes := completes_of_reduced hp ho hnone hrun hclean
  rw [← hmachine] at hcompletes
  rw [Driver.execution?_of_root? hroot] at hn
  exact hcompletes.not_failing hmirrors (Driver.root?_fresh hroot) hviolation hn

/-- The verdict of a search under partial order reduction with a depth bound. If an execution within the bound fails,
the search finds a violation, or it shows an execution that can go on at the bound. A violation that it reports is that
of an execution within the bound. So where no execution can go on at the bound, its verdict is exact. -/
theorem bounded_reduction_verdict (hp : p.Standard) (ho : o.reduction = .dpor) (hnone : o.maxVisited = 0)
    (hdepth : 1 ≤ o.maxDepth) :
    ∃ turns s, (∀ fuel, turns ≤ fuel → Search.run p.driver o fuel p.initial = some (none, s)) ∧
      ((∃ path, p.driver.FailsWithin p.initial o.maxDepth path) →
        s.result.outcome = .violation ∨ (s.result.outcome = .nonTermination ∧
          p.driver.GoesOnAt p.initial o.maxDepth s.result.record)) ∧
      (s.result.outcome = .violation → p.driver.FailsWithin p.initial o.maxDepth s.result.record) ∧
      ((¬ ∃ path, p.driver.GoesOnAt p.initial o.maxDepth path) →
        (s.result.outcome = .violation ↔ ∃ path, p.driver.FailsWithin p.initial o.maxDepth path)) := by
  obtain ⟨root, hroot⟩ := p.root_exists p.initial
  obtain ⟨turns, s, hends⟩ :=
    Search.reliable_run_ends p.driver_deterministic (driver_reliable hroot) hnone hdepth hroot
  have hrun := hends turns le_rfl
  have hcases := Trail.bounded_cases p.driver_deterministic hdepth hrun
  have hfound : (∃ path, p.driver.FailsWithin p.initial o.maxDepth path) →
      s.result.outcome = .violation ∨ (s.result.outcome = .nonTermination ∧
        p.driver.GoesOnAt p.initial o.maxDepth s.result.record) := by
    rintro ⟨path, -, n, hn, hfail⟩
    rcases hcases with ⟨hout, -⟩ | hcut | hclean
    · exact .inl hout
    · exact .inr hcut
    · exact absurd hfail (not_failing_of_reduced hp ho hnone hrun hclean hn)
  have hgenuine : s.result.outcome = .violation →
      p.driver.FailsWithin p.initial o.maxDepth s.result.record := by
    intro hout
    rcases hcases with ⟨-, hfails⟩ | ⟨hother, -⟩ | hother
    · exact hfails
    · cases hout.symm.trans hother
    · cases hout.symm.trans hother
  refine ⟨turns, s, hends, hfound, hgenuine, fun hstops => ⟨fun hout => ⟨_, hgenuine hout⟩, fun hfails => ?_⟩⟩
  exact (hfound hfails).resolve_right fun hcut => hstops ⟨_, hcut.2⟩

def spinAndFail : Program := ⟨.empty, [[.spin], [.fail "late"]], none⟩

theorem spinAndFail_standard : spinAndFail.Standard := by
  simp only [Standard, spinAndFail, List.forall_mem_cons, List.not_mem_nil, IsEmpty.forall_iff,
    implies_true, and_true]
  exact ⟨.spin, .fail _⟩

theorem bounded_reduction_verdict_spinAndFail :
    ∃ turns s, (∀ fuel, turns ≤ fuel →
        Search.run spinAndFail.driver ⟨3, .dpor, 0, 0, false⟩ fuel spinAndFail.initial = some (none, s)) ∧
      s.result.outcome = .nonTermination ∧
      spinAndFail.driver.GoesOnAt spinAndFail.initial 3 s.result.record := by
  have hfails : spinAndFail.driver.FailsWithin spinAndFail.initial 3 [⟨1, 0⟩, ⟨1, 0⟩, ⟨2, 0⟩] :=
    ⟨by decide, _, rfl, .inl rfl⟩
  obtain ⟨s', hrun, hout⟩ : ∃ s, Search.run spinAndFail.driver ⟨3, .dpor, 0, 0, false⟩ 9 spinAndFail.initial =
      some (none, s) ∧ s.result.outcome = .nonTermination := ⟨_, rfl, rfl⟩
  obtain ⟨turns, s, hends, hfound, -⟩ :=
    bounded_reduction_verdict (o := ⟨3, .dpor, 0, 0, false⟩) spinAndFail_standard rfl rfl (by decide)
  cases Search.run_unique hrun (hends turns le_rfl)
  refine ⟨turns, _, hends, ?_⟩
  refine (hfound ⟨_, hfails⟩).resolve_left ?_
  rw [hout]
  decide

/-- Although an execution of three steps fails, and the full search says so, the reduced one finds no violation. -/
theorem reduction_starves_violation :
    spinAndFail.Standard ∧
      spinAndFail.driver.FailsWithin spinAndFail.initial 3 [⟨1, 0⟩, ⟨1, 0⟩, ⟨2, 0⟩] ∧
      (∃ s, Search.run spinAndFail.driver ⟨3, .none, 0, 0, false⟩ 9 spinAndFail.initial = some (none, s) ∧
        s.result.outcome = .violation) ∧
      ∃ s, Search.run spinAndFail.driver ⟨3, .dpor, 0, 0, false⟩ 9 spinAndFail.initial = some (none, s) ∧
        s.result.outcome = .nonTermination := by
  refine ⟨spinAndFail_standard, ⟨by decide, _, rfl, .inl rfl⟩, ?_, ?_⟩
  · exact ⟨_, rfl, rfl⟩
  · exact ⟨_, rfl, rfl⟩

end Program

end Interleave
