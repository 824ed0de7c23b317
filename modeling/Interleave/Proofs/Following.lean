import Interleave.Proofs.Agreement
import Interleave.Proofs.Checkpoints
import Interleave.Proofs.StatusReports
import Interleave.Replay
import Mathlib.Order.Bounds.Basic

/-! Replay follows exactly the executions of a program. It decides from the statuses that the reports add up to, and
accepts the longest part of a trace that the program can execute up to its first violation: no step more, no step less. -/

namespace Interleave

namespace Recorded

variable {σ : Type}

def after (m : Recorded σ) (xs : RecordTrace) (d : σ) : Recorded σ :=
  { m with machine := d, executed := m.executed ++ xs.toArray }

theorem after_nil (m : Recorded σ) : m.after [] m.machine = m := by
  simp [after]

theorem after_after (m : Recorded σ) (xs ys : RecordTrace) (d d' : σ) :
    (m.after xs d).after ys d' = m.after (xs ++ ys) d' := by
  simp [after]

end Recorded

namespace Program

variable {p : Program} {c c' d d' : Configuration} {t u : Transition} {v w : Option Violation}
  {us us' : List Transition} {s : State} {x : Interleave.Step} {e : ReplayError} {index : Nat}
  {record rest : RecordTrace}

/-- The program executes the transitions in order. No step reports a violation, but for the last one, whose verdict
is `v`. -/
inductive Plays (p : Program) : Configuration → List Transition → Option Violation → Configuration → Prop
  | nil (c : Configuration) : Plays p c [] none c
  | last {c d : Configuration} {t : Transition} {w : Violation} (h : p.Fires c t (some w) d) :
      Plays p c [t] (some w) d
  | cons {c c₁ d : Configuration} {t : Transition} {us : List Transition} {v : Option Violation}
      (h : p.Fires c t none c₁) (hrest : Plays p c₁ us v d) : Plays p c (t :: us) v d

/-- The steps are those of an execution in which at most the last one reports a violation. -/
def Playable (p : Program) (xs : RecordTrace) : Prop :=
  ∃ us v d, p.Plays p.initial us v d ∧ RecordTrace.ofTransitions us = xs

inductive Bars (p : Program) (c : Configuration) (k : Nat) (x : Interleave.Step) : ReplayError → Prop
  | notEnabled (h : ∀ step, p.next c x.actor = some step → (step.guard.all fun g => g c.vars) = false) :
      Bars p c k x (.notEnabled k x.actor)
  | noOutcome {step : Step} (hnext : p.next c x.actor = some step)
      (hguard : (step.guard.all fun g => g c.vars) = true) (h : max 1 step.choices ≤ x.outcome) :
      Bars p c k x (.noOutcome k x.actor (max 1 step.choices) x.outcome)

def blockage? (p : Program) (c : Configuration) : Option Violation :=
  let alive := p.indices.filter (p.isAlive c)
  if !alive.isEmpty && !alive.any (p.isEnabled c) then
    some ⟨.deadlock, s!"{alive.length} actors blocked"⟩
  else none

theorem Bars.not_fires (h : p.Bars c index x e) (hstep : t.step = x) : ¬ p.Fires c t v c' := by
  intro hfires
  subst hstep
  obtain ⟨hindex, hpending, hguard, -, hhigh⟩ := hfires
  rename_i a i step outcome
  have hnext : p.next c a = some step := by rw [next, hindex, Option.bind_some, hpending]
  cases h with
  | notEnabled hdisabled =>
    have hfalse := hdisabled step hnext
    rw [hguard] at hfalse
    cases hfalse
  | noOutcome hnext' _ hlimit =>
    cases hnext.symm.trans hnext'
    exact absurd hhigh (not_lt.mpr hlimit)

theorem Plays.continues (h : p.Plays c us v d) (h' : p.Plays c us' w d')
    (hsteps : RecordTrace.ofTransitions us' = RecordTrace.ofTransitions us ++ x :: rest) :
    v = none ∧ ∃ t v' d₁, t.step = x ∧ p.Fires d t v' d₁ := by
  -- The program has at most one execution with given steps, so one that goes on after the steps of another continues
  -- it: the other one did not end in a violation, and the next step can be taken where it ended.
  induction h generalizing us' with
  | nil c =>
    refine ⟨rfl, ?_⟩
    cases h' with
    | nil => cases hsteps
    | last hfires =>
      have hx := (List.cons.inj hsteps).1
      exact ⟨_, _, _, hx, hfires⟩
    | cons hfires _ =>
      have hx := (List.cons.inj hsteps).1
      exact ⟨_, _, _, hx, hfires⟩
  | last hfires =>
    cases h' with
    | nil => cases hsteps
    | last _ =>
      have hlength := congrArg List.length hsteps
      simp [RecordTrace.ofTransitions] at hlength
    | cons hfires' _ =>
      -- The same step of the same configuration has two verdicts.
      have hstep := (List.cons.inj hsteps).1
      obtain rfl := hfires'.eq_of_step hfires hstep
      cases (hfires'.unique hfires).1
  | cons hfires _ ih =>
    cases h' with
    | nil => cases hsteps
    | last _ =>
      have hlength := congrArg List.length hsteps
      simp [RecordTrace.ofTransitions] at hlength
    | cons hfires' hrest' =>
      obtain ⟨hstep, htail⟩ := List.cons.inj hsteps
      obtain rfl := hfires'.eq_of_step hfires hstep
      obtain ⟨-, rfl⟩ := hfires'.unique hfires
      exact ih hrest' htail

theorem Plays.isGreatest (h : p.Plays p.initial us v d) (hrecord : RecordTrace.ofTransitions us ++ rest = record)
    (hend : ∀ x xs, rest = x :: xs → v = none → ∀ t w d', t.step = x → ¬ p.Fires d t w d') :
    IsGreatest {k | k ≤ record.length ∧ p.Playable (record.take k)} us.length := by
  have hlength : (RecordTrace.ofTransitions us).length = us.length := List.length_map ..
  have htake : record.take us.length = RecordTrace.ofTransitions us := by
    rw [← hrecord, ← hlength, List.take_left]
  constructor
  · refine ⟨?_, us, v, d, h, htake.symm⟩
    rw [← hrecord, List.length_append, hlength]
    exact Nat.le_add_right _ _
  · rintro k ⟨hk, us', w, d', h', hsteps⟩
    by_contra hlt
    have hlt : us.length < k := not_le.mp hlt
    -- The longer execution passes through the end of this one.
    have hsplit : record.take k = RecordTrace.ofTransitions us ++ rest.take (k - us.length) := by
      rw [← hrecord, List.take_append, hlength, List.take_of_length_le (hlength.trans_le hlt.le)]
    cases hrest : rest with
    | nil =>
      rw [← hrecord, List.length_append, hlength, hrest] at hk
      exact absurd hk (not_le.mpr hlt)
    | cons x xs =>
      obtain ⟨n, hn⟩ : ∃ n, k - us.length = n + 1 := Nat.exists_eq_succ_of_ne_zero (Nat.sub_ne_zero_of_lt hlt)
      rw [hrest, hn, List.take_succ_cons] at hsplit
      obtain ⟨hv, t, v', d₁, ht, hfires⟩ := h.continues h' (hsteps.trans hsplit)
      exact hend x xs hrest hv t v' d₁ ht hfires

theorem Mirrors.refusal? (h : p.Mirrors s c) (hlow : 0 ≤ x.outcome) (index : Nat) :
    (Replay.refusal? s index x = none ∧ ∃ t v c', t.step = x ∧ p.Fires c t v c') ∨
      ∃ e, Replay.refusal? s index x = some e ∧ p.Bars c index x e := by
  cases hnext : p.next c x.actor with
  | none =>
    refine .inr ⟨_, by rw [Replay.refusal?, h.dead _ hnext], .notEnabled fun step hstep => ?_⟩
    rw [hnext] at hstep
    cases hstep
  | some step =>
    obtain ⟨st, hst, henabled, hlimit⟩ := h.alive _ step hnext
    have hrefusal : Replay.refusal? s index x =
        if !st.enabled then some (.notEnabled index x.actor)
        else if st.limit ≤ x.outcome then some (.noOutcome index x.actor st.limit x.outcome) else none := by
      rw [Replay.refusal?, hst]
    cases hen : st.enabled with
    | false =>
      rw [hen] at hrefusal henabled
      refine .inr ⟨_, hrefusal, .notEnabled fun step' hstep' => ?_⟩
      cases hnext.symm.trans hstep'
      exact henabled.symm
    | true =>
      rw [hen, hlimit hen] at hrefusal
      rw [hen] at henabled
      by_cases hle : max 1 step.choices ≤ x.outcome
      · exact .inr ⟨_, hrefusal.trans (if_pos hle), .noOutcome hnext henabled.symm hle⟩
      · have hoffers : s.offers x = true :=
          State.offers_iff.mpr ⟨st, hst, hen, hlow, (hlimit hen).symm ▸ not_le.mp hle⟩
        exact .inl ⟨hrefusal.trans (if_neg hle), h.fires_of_offers hoffers⟩

theorem Mirrors.isEnabled_eq (h : p.Mirrors s c) (i : Nat) : s.isEnabled (idAt i) = p.isEnabled c i := by
  cases hi : p.pending c i with
  | none =>
    have hnext : p.next c (idAt i) = none := by
      by_contra hsome
      obtain ⟨step, hstep⟩ := Option.ne_none_iff_exists'.mp hsome
      obtain ⟨j, hj, hid⟩ := next_eq_some.mp hstep
      rw [idAt_inj hid, hi] at hj
      cases hj
    simp only [State.isEnabled, h.dead _ hnext, isEnabled, hi, Option.any_none]
  | some step =>
    obtain ⟨st, hst, henabled, -⟩ := h.alive _ step (next_eq_some.mpr ⟨i, hi, rfl⟩)
    rw [isEnabled_of_pending hi, ← henabled, State.isEnabled, hst, Option.any_some]

theorem Mirrors.blocked_eq (h : p.Mirrors s c) (hs : s.WellFormed) : Replay.blocked s = p.blockage? c := by
  have hids := h.ids_eq hs.ascending
  have hcount : s.actorCount = (p.indices.filter (p.isAlive c)).length := by
    have hlength := congrArg List.length hids
    simpa only [State.ids, List.length_map, State.actorCount] using hlength
  have hempty : s.actors.isEmpty = (p.indices.filter (p.isAlive c)).isEmpty := by
    have hempty := congrArg List.isEmpty hids
    simpa only [State.ids, List.isEmpty_map] using hempty
  have hdisabled : s.enabledIds.isEmpty = !(p.indices.filter (p.isAlive c)).any (p.isEnabled c) := by
    rw [Bool.eq_iff_iff, List.isEmpty_iff, List.eq_nil_iff_forall_not_mem, Bool.not_eq_true',
      List.any_eq_false]
    constructor
    · intro hnone i _ hi
      exact hnone (idAt i) ((State.mem_enabledIds hs).mpr ((h.isEnabled_eq i).trans hi))
    · intro hnone a ha
      have hen := (State.mem_enabledIds hs).mp ha
      obtain ⟨st, hst, -⟩ := State.isEnabled_iff.mp hen
      have hmem : a ∈ s.ids := List.mem_map_of_mem (Assoc.mem_of_get? hst)
      rw [hids] at hmem
      obtain ⟨i, hi, rfl⟩ := List.mem_map.mp hmem
      exact hnone i hi ((h.isEnabled_eq i).symm.trans hen)
  simp only [Replay.blocked, blockage?, State.isDeadlock, hcount, hempty, hdisabled]

theorem Fires.executeStep (h : p.Fires c t v c') {m : Recorded Configuration} (hm : m.machine = c) (index : Nat) :
    ∃ i step, p.index? t.actor = some i ∧ p.pending c i = some step ∧ c' = (afterStep c i step t.outcome).1 ∧
      Replay.executeStep p.driver.recorded index t.step m =
        (.ok (p.result c c' i t v), m.after [t.step] c') := by
  obtain ⟨i, step, hindex, hpending, hc', hexec⟩ := h.execute
  refine ⟨i, step, hindex, hpending, hc', ?_⟩
  have hexec : p.driver.recorded.execute t.step.actor t.step.outcome m =
      (.ok (p.result c c' i t v), m.after [t.step] c') := by
    rw [Driver.recorded_execute, hm, show p.driver.execute t.step.actor t.step.outcome c = _ from hexec]
    simp [Recorded.after, Transition.step]
  rw [Replay.executeStep, hexec]
  exact if_pos rfl

inductive Ends (p : Program) (us : List Transition) (d : Configuration) (index : Nat) :
    Option Violation → RecordTrace → Option Violation → Option ReplayError → Prop
  | violated (w : Violation) (rest : RecordTrace) : Ends p us d index (some w) rest (some w) none
  | finished : Ends p us d index none [] (p.blockage? d) none
  | refused {x : Interleave.Step} {e : ReplayError} (rest : RecordTrace)
      (h : p.Bars d (index + us.length) x e) : Ends p us d index none (x :: rest) none (some e)

theorem follow_cons (hmirrors : p.Mirrors s c) (hfresh : s.Fresh) {m : Recorded Configuration}
    (hm : m.machine = c) (hcancelled : m.cancelled = false) (hlow : 0 ≤ x.outcome) (index : Nat) (rest : RecordTrace) :
    (∃ e, p.Bars c index x e ∧
        Replay.follow p.driver.recorded index s (x :: rest) m = (⟨[], none⟩, some e, m)) ∨
      (∃ t w c', t.step = x ∧ p.Fires c t (some w) c' ∧
        Replay.follow p.driver.recorded index s (x :: rest) m =
          (⟨[t], some w⟩, none, m.after [x] c')) ∨
      ∃ t c' s', t.step = x ∧ p.Fires c t none c' ∧ p.Mirrors s' c' ∧ s'.Fresh ∧
        Replay.follow p.driver.recorded index s (x :: rest) m =
          let later := Replay.follow p.driver.recorded (index + 1) s' rest (m.after [x] c')
          ({ later.1 with transitions := t :: later.1.transitions }, later.2) := by
  have hinterrupted : p.driver.recorded.interrupted m = none := by
    show (if m.cancelled then some _ else none) = none
    rw [hcancelled]
    rfl
  rcases hmirrors.refusal? hlow index with ⟨haccepted, t, v, c', rfl, hfires⟩ | ⟨e, hrefused, hbars⟩
  · obtain ⟨i, step, hindex, hpending, hc', hexec⟩ := hfires.executeStep hm index
    cases v with
    | some w =>
      refine .inr (.inl ⟨t, w, c', rfl, hfires, ?_⟩)
      simp only [Replay.follow, hinterrupted, haccepted, hexec, result]
    | none =>
      have hmirrors' : p.Mirrors (s.successor (index + 1) (p.result c c' i t none)) c' := by
        rw [hc']
        refine hmirrors.successor hfresh.ascending hpending ?_ _ t none _
        intro t' ht'
        rw [hfresh.transition] at ht'
        cases ht'
      refine .inr (.inr ⟨t, c', _, rfl, hfires, hmirrors', State.successor_fresh hfresh.ascending _ _, ?_⟩)
      simp only [Replay.follow, hinterrupted, haccepted, hexec]
      rfl
  · refine .inl ⟨e, hbars, ?_⟩
    simp only [Replay.follow, hinterrupted, hrefused]

theorem follow_ends (hmirrors : p.Mirrors s c) (hfresh : s.Fresh) {m : Recorded Configuration}
    (hm : m.machine = c) (hcancelled : m.cancelled = false) (hlow : ∀ x ∈ record, 0 ≤ x.outcome) (index : Nat) :
    ∃ us v d rest violation e, p.Plays c us v d ∧ RecordTrace.ofTransitions us ++ rest = record ∧
      p.Ends us d index v rest violation e ∧
      Replay.follow p.driver.recorded index s record m =
        (⟨us, violation⟩, e, m.after (RecordTrace.ofTransitions us) d) := by
  induction record generalizing c s m index with
  | nil =>
    refine ⟨[], none, c, [], _, none, .nil c, rfl, .finished, ?_⟩
    rw [Replay.follow, hmirrors.blocked_eq hfresh.wellFormed, ← hm]
    show (_, _, m) = (_, _, m.after [] m.machine)
    rw [Recorded.after_nil]
  | cons x record ih =>
    obtain ⟨hlow, hlow'⟩ := List.forall_mem_cons.mp hlow
    rcases follow_cons hmirrors hfresh hm hcancelled hlow index record with
      ⟨e, hbars, hfollow⟩ | ⟨t, w, c', rfl, hfires, hfollow⟩ |
      ⟨t, c', s', rfl, hfires, hmirrors', hfresh', hfollow⟩
    · refine ⟨[], none, c, x :: record, none, some e, .nil c, rfl, .refused record hbars, ?_⟩
      rw [hfollow, ← hm]
      show (_, _, m) = (_, _, m.after [] m.machine)
      rw [Recorded.after_nil]
    · exact ⟨[t], some w, c', record, some w, none, .last hfires, rfl, .violated w record, hfollow⟩
    · obtain ⟨us, v, d, rest, violation, e, hplays, hsplit, hends, hrest⟩ :=
        ih hmirrors' hfresh' (m := m.after [t.step] c') rfl hcancelled hlow' (index + 1)
      refine ⟨t :: us, v, d, rest, violation, e, .cons hfires hplays, congrArg (t.step :: ·) hsplit, ?_, ?_⟩
      · cases hends with
        | violated w => exact .violated w _
        | finished => exact .finished
        | refused rest hbars =>
          refine .refused rest ?_
          rw [List.length_cons, Nat.add_comm us.length, ← Nat.add_assoc]
          exact hbars
      · rw [hfollow, hrest, Recorded.after_after]
        rfl

/-- Replay executes the longest part of a trace that is an execution with no violation before its last step. If this
is all of the trace or ends in a violation, it reports how the execution ends; otherwise it refuses the next step. -/
theorem replay_follows_executions (p : Program) (record : RecordTrace) (hlow : ∀ x ∈ record, 0 ≤ x.outcome) :
    ∃ k us v d, IsGreatest {k | k ≤ record.length ∧ p.Playable (record.take k)} k ∧
      p.Plays p.initial us v d ∧ RecordTrace.ofTransitions us = record.take k ∧
      (((k = record.length ∨ v.isSome = true) ∧
          Replay.run p.driver.recorded record (Recorded.new .none p.initial) =
            (some ⟨us, v.or (p.blockage? d)⟩, none, (Recorded.new .none p.initial).after (record.take k) d)) ∨
        ((k < record.length ∧ v = none) ∧ ∃ x e, record[k]? = some x ∧ p.Bars d k x e ∧
          Replay.run p.driver.recorded record (Recorded.new .none p.initial) =
            (some ⟨us, none⟩, some e, (Recorded.new .none p.initial).after (record.take k) d))) := by
  obtain ⟨us, v, d, rest, violation, e, hplays, hsplit, hends, hfollow⟩ :=
    follow_ends (m := Recorded.new .none p.initial) (p.mirrors_new p.initial 0) (State.new_fresh 0 _) rfl rfl hlow 0
  have hlength : (RecordTrace.ofTransitions us).length = us.length := List.length_map ..
  have htake : RecordTrace.ofTransitions us = record.take us.length := by
    rw [← hsplit, ← hlength, List.take_left]
  have hrun : Replay.run p.driver.recorded record (Recorded.new .none p.initial) =
      (some ⟨us, violation⟩, e, (Recorded.new .none p.initial).after (record.take us.length) d) := by
    rw [htake] at hfollow
    simp only [Replay.run, Driver.recorded_initialActors]
    exact congrArg (fun r => (some r.1, r.2)) hfollow
  refine ⟨us.length, us, v, d, hplays.isGreatest hsplit ?_, hplays, htake, ?_⟩
  · rintro x xs rfl hv t w d' ht
    subst hv
    cases hends with
    | refused rest hbars => exact hbars.not_fires ht
  · cases hends with
    | violated w rest => exact .inl ⟨.inr rfl, hrun⟩
    | finished =>
      have hall : us.length = record.length := by rw [← hsplit, List.append_nil, hlength]
      exact .inl ⟨.inl hall, hrun⟩
    | @refused x e rest hbars =>
      rw [Nat.zero_add] at hbars
      have hnext : record[us.length]? = some x := by
        rw [← hsplit, ← hlength, List.getElem?_append_right le_rfl, Nat.sub_self]
        rfl
      exact .inr ⟨⟨(List.getElem?_eq_some_iff.mp hnext).1, rfl⟩, x, e, hnext, hbars, hrun⟩

theorem replay_follows_executions_gatedPick :
    (∀ x ∈ ([⟨1, 0⟩, ⟨1, 0⟩, ⟨2, 3⟩] : RecordTrace), 0 ≤ x.outcome) ∧
      ∃ us d, gatedPick.Plays gatedPick.initial us none d ∧
        RecordTrace.ofTransitions us = [⟨1, 0⟩, ⟨1, 0⟩] ∧
        Replay.run gatedPick.driver.recorded [⟨1, 0⟩, ⟨1, 0⟩, ⟨2, 3⟩] (Recorded.new .none gatedPick.initial) =
          (some ⟨us, none⟩, some (.noOutcome 2 2 3 3),
            (Recorded.new .none gatedPick.initial).after [⟨1, 0⟩, ⟨1, 0⟩] d) := by
  have hlow : ∀ x ∈ ([⟨1, 0⟩, ⟨1, 0⟩, ⟨2, 3⟩] : RecordTrace), 0 ≤ x.outcome := by decide
  have herror : (Replay.run gatedPick.driver.recorded [⟨1, 0⟩, ⟨1, 0⟩, ⟨2, 3⟩]
      (Recorded.new .none gatedPick.initial)).2.1 = some (.noOutcome 2 2 3 3) := by rfl
  obtain ⟨k, us, v, d, -, hplays, hsteps, ⟨-, hrun⟩ | ⟨⟨-, rfl⟩, x, e, -, hbars, hrun⟩⟩ :=
    replay_follows_executions gatedPick _ hlow
  · rw [hrun] at herror
    cases herror
  · rw [hrun] at herror
    obtain rfl := Option.some.inj herror
    have hk : k = 2 := by
      generalize he : ReplayError.noOutcome 2 2 3 3 = e at hbars
      cases hbars with
      | notEnabled => cases he
      | noOutcome => exact (ReplayError.noOutcome.inj he).1.symm
    subst hk
    exact ⟨hlow, us, d, hplays, hsteps, hrun⟩

end Program

end Interleave
