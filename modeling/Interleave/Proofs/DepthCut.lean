import Interleave.Proofs.FullSearch
import Interleave.Proofs.Pruning

/-! The visited set together with a depth bound. A state that is cut at the bound has been recorded as visited, so it
is skipped where a shorter path leads to it, and what could have been found behind it is not. -/

namespace Interleave

variable {σ κ π : Type}

/-- If an execution within the depth bound fails, a search with a visited set finds a violation, or it says that it
has not ended, and the execution passes through a program state that a longer one reaches exactly at the bound. -/
theorem pruned_search_to_bound [Snapshot κ] {drv : Driver σ κ} {view : σ → π} (hdet : drv.Deterministic view)
    (hfaithful : drv.Faithful view) {m : σ} (hstatus : drv.StatusByState view m) {o : Options}
    (hreduction : o.reduction = .none) {fuel : Nat} {s : Search σ κ}
    (hrun : Search.run drv o fuel m = some (none, s)) {path : List Step}
    (hfails : drv.FailsWithin m o.maxDepth path) :
    s.result.outcome = .violation ∨
      (s.result.outcome = .nonTermination ∧ ∃ before x behind n path' n', path = before ++ x :: behind ∧
        drv.execution? m before = some n ∧ before.length < path'.length ∧ (path'.length : Int) = o.maxDepth ∧
        drv.execution? m path' = some n' ∧ view n'.machine = view n.machine) := by
  obtain ⟨hlength, n, hwalk, hfail⟩ := hfails
  obtain ⟨root, hroot, ⟨T, hvisits, hspots, hviolation, htruncated⟩ | hends⟩ := Trail.run_cases hdet hrun
  · right
    rw [Driver.execution?_of_root? hroot] at hwalk
    obtain ⟨seen, hseen⟩ := hvisits.entered hdet hfaithful hreduction hstatus hroot
    rcases hseen.strays hspots hvisits.1 hwalk with
      ⟨hclean, -⟩ | ⟨before, x, behind, n₁, rfl, hbefore, hcut, path', n', hwalk', hbound, hview⟩
    · exact absurd hfail hclean
    · have hshorter : before.length < path'.length := by
        rw [List.length_append, List.length_cons] at hlength
        omega
      refine ⟨?_, before, x, behind, n₁, path', n', rfl, ?_, hshorter, hbound, ?_, hview⟩
      · simp [Search.result, Search.outcome, hviolation, htruncated, hcut]
      · rw [Driver.execution?_of_root? hroot, hbefore]
      · rw [Driver.execution?_of_root? hroot, hwalk']
  · left
    have hsome : s.violation.isSome = true := hends.violation
    simp [Search.result, Search.outcome, hsome]

/-- A program with a short way and a detour to the same gate, behind which it fails. -/
inductive Fork where
  | start | detour | gate | broken
deriving DecidableEq

namespace Fork

instance : Snapshot Fork where
  actorCount _ := 2
  heapBytes _ := 1
  same k k' := k = k'

def next : Fork → ActorId → Option Fork
  | start, 1 => some detour
  | start, 2 => some gate
  | detour, 1 => some gate
  | gate, 1 => some broken
  | _, _ => none

def driver : Driver Fork Fork where
  initialActors m := (.ok [⟨1, true, 1⟩, ⟨2, true, 1⟩], m)
  execute a outcome m :=
    match m.next a with
    | none => (.error (.reported "blocked"), m)
    | some m' =>
      (.ok { transition :=
               { actor := a, kind := .write, resource := "fork", outcome, args := "", guarded := false }
             enabled := [⟨1, true, 1⟩], disabled := [2], finished := []
             violation := if m' = broken then some ⟨.assertion, "broken"⟩ else none }, m')
  snapshot m := (.ok (some m), m)
  restore k _ := (.ok (), k)
  interrupted _ := none

theorem driver_deterministic : driver.Deterministic id := by
  refine Driver.deterministic_id (fun _ => rfl) ?_ ?_
  · rintro m m' k ⟨⟩
    rfl
  · intro a outcome m r h
    simp only [driver] at h
    split at h
    · cases h
    · cases h
      rfl

theorem driver_faithful : driver.Faithful id := by
  rintro k k' m m' ⟨m₁, rfl, ⟨⟩⟩ ⟨m₂, rfl, ⟨⟩⟩ hsame
  exact of_decide_eq_true hsame

def statuses (m : Fork) : List (ActorId × ActorStatus) := [(1, .fresh true 1), (2, .fresh (m = start) 1)]

theorem next_eq_some {m m' : Fork} {a : ActorId} (h : m.next a = some m') : m' ≠ start ∧ (a = 1 ∨ a = 2) := by
  unfold next at h
  split at h <;> cases h <;> simp

theorem actors_of_walk {n n' : Node Fork} {path : List Step} (hn : n.state.actors = n.machine.statuses)
    (h : driver.walk? n path = some n') : n'.state.actors = n'.machine.statuses := by
  induction path generalizing n with
  | nil =>
    cases h
    exact hn
  | cons x path ih =>
    obtain ⟨n₁, hadv, hwalk⟩ := Driver.walk?_cons_eq_some.mp h
    obtain ⟨-, r, hexec, hstate, -⟩ := Driver.advance?_eq_some hadv
    refine ih ?_ hwalk
    simp only [driver] at hexec
    split at hexec
    · cases hexec
    · rename_i m' hnext
      obtain ⟨hr, rfl⟩ := Prod.mk.inj hexec
      obtain rfl := Except.ok.inj hr
      obtain ⟨hmoved, hactor⟩ := next_eq_some hnext
      rw [hstate]
      simp only [State.after, State.successor, State.successorActors, hn, statuses, hmoved]
      rcases hactor with hactor | hactor <;> rw [hactor] <;> rfl

theorem driver_statusByState : driver.StatusByState id start := by
  intro path path' n n' hn hn' hview
  have hview : n.machine = n'.machine := hview
  have hactors := actors_of_walk
    (n := ⟨State.new 0 [⟨1, true, 1⟩, ⟨2, true, 1⟩], start, [], none⟩) rfl hn
  have hactors' := actors_of_walk
    (n := ⟨State.new 0 [⟨1, true, 1⟩, ⟨2, true, 1⟩], start, [], none⟩) rfl hn'
  simp only [State.ids, State.offers, State.status?, hactors, hactors', hview, implies_true, and_self]

end Fork

theorem pruned_search_to_bound_fork :
    ∃ before x behind n path' n', [(⟨2, 0⟩ : Step), ⟨1, 0⟩] = before ++ x :: behind ∧
      Fork.driver.execution? .start before = some n ∧ before.length < path'.length ∧
      (path'.length : Int) = 2 ∧ Fork.driver.execution? .start path' = some n' ∧ n'.machine = n.machine := by
  obtain ⟨s, hrun, hout⟩ : ∃ s, Search.run Fork.driver ⟨2, .none, 10, 0, false⟩ 9 .start = some (none, s) ∧
      s.result.outcome = .nonTermination := ⟨_, rfl, rfl⟩
  have hfails : Fork.driver.FailsWithin .start 2 [⟨2, 0⟩, ⟨1, 0⟩] := ⟨by decide, _, rfl, .inl rfl⟩
  have hresult := pruned_search_to_bound Fork.driver_deterministic Fork.driver_faithful
    Fork.driver_statusByState rfl hrun hfails
  rw [hout] at hresult
  exact (hresult.resolve_left (by decide)).2

/-- Although an execution of two steps fails, and the search without a visited set says so, the search with one
does not find a violation. -/
theorem pruned_search_misses_violation :
    Fork.driver.Deterministic id ∧ Fork.driver.Faithful id ∧ Fork.driver.StatusByState id .start ∧
      Fork.driver.FailsWithin .start 2 [⟨2, 0⟩, ⟨1, 0⟩] ∧
      (∃ s, Search.run Fork.driver ⟨2, .none, 0, 0, false⟩ 9 .start = some (none, s) ∧
        s.result.outcome = .violation) ∧
      ∃ s, Search.run Fork.driver ⟨2, .none, 10, 0, false⟩ 9 .start = some (none, s) ∧
        s.result.outcome = .nonTermination := by
  refine ⟨Fork.driver_deterministic, Fork.driver_faithful, Fork.driver_statusByState, ?_, ?_, ?_⟩
  · exact ⟨by decide, _, rfl, .inl rfl⟩
  · exact ⟨_, rfl, rfl⟩
  · exact ⟨_, rfl, rfl⟩

end Interleave
