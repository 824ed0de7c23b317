import Interleave.Proofs.Conversation
import Interleave.Proofs.Operations
import Interleave.Proofs.Termination

/-! Failures stop a run cleanly. Every call of a run but the last one goes well, whatever the driver answers; the last
one decides what the run returns, and the counters are those of what was done before it. -/

namespace Interleave

variable {σ κ : Type}

/-- What a run makes of its last call, if that one did not go well. -/
structure Exchange.Ends (x : Exchange κ) (replaying : Bool) (abort : Option Abort) (violation : Option Violation) :
    Prop where
  failure : ∀ e, x.failure? = some e → ∃ a, abort = some a ∧ a.cause? = some e
  impostor : ∀ p q, x.impostor? = some (p, q) → ∃ num index,
    abort = some (if replaying then .replay num (.wrongActor index p q) else .fault (.wrongActor num p q))
  violation : ∀ v, x.impostor? = none → x.violation? = some v →
    if replaying then ∃ num index, abort = some (.replay num (.unexpectedViolation index v))
    else abort = none ∧ violation = some v

namespace Search

def replaying (s : Search (Logged σ κ) κ) : Bool :=
  s.machine.calls.countP Exchange.restores ≠ s.ticks.count .restore

structure Undisturbed (s : Search (Logged σ κ) κ) : Prop where
  clean : ∀ x ∈ s.machine.calls, x.Clean
  restores : s.machine.calls.countP Exchange.restores = s.ticks.count .restore

structure Counted (s : Search σ κ) : Prop where
  violation : s.violation = none
  truncated : s.truncated.isSome = true ↔ .cut ∈ s.ticks
  backtracks : s.stats.backtracks = s.ticks.count .backtrack
  duplicates : s.stats.duplicates = s.ticks.count .duplicate
  limitHits : s.stats.limitHits = s.ticks.count .cut

end Search

namespace Race

theorem visit_ticks (t : Transition) (last : Option Clock) (position : Nat) (f : Frame κ) (earlier : Transition) :
    ∀ e ∈ (visit t last position f earlier).2, e.tick? = none := by
  have hschedule : (schedule t earlier f.state).2.tick? = none := by
    unfold schedule
    split
    · split_ifs <;> rfl
    · rfl
  unfold visit
  split_ifs
  · simp
  · simp [Event.tick?]
  · simpa using hschedule

theorem visitAll_ticks {t : Transition} {last : Option Clock} {fs fs' : List (Frame κ)} {es : List Event}
    (h : visitAll t last fs = .ok (fs', es)) : ∀ e ∈ es, e.tick? = none := by
  induction fs generalizing fs' es with
  | nil =>
    cases h
    simp
  | cons f below ih =>
    obtain ⟨earlier, below', later, -, hrest, rfl, rfl⟩ := visitAll_cons_eq_ok h
    exact List.forall_mem_append.mpr ⟨visit_ticks t last below.length f earlier, ih hrest⟩

end Race

namespace Search

section Counting

variable {drv : Driver σ κ} {o : Options} {s s' : Search σ κ}

theorem settle_ticks {f : Frame κ} {below below' : List (Frame κ)} {es : List Event}
    (h : settle o f below = .ok (below', es)) (stack : List (Frame κ)) :
    ({ s with stack }.logAll es).ticks = s.ticks := by
  have hnone : es.filterMap Event.tick? = [] := by
    rw [List.filterMap_eq_nil_iff]
    unfold settle at h
    split at h
    · obtain ⟨last, -, hvisit⟩ := Race.analyse_eq_ok h
      exact Race.visitAll_ticks hvisit
    · cases h
      simp
  simp [logAll_events, ticks, hnone]

theorem ticks_log_some (s : Search σ κ) {e : Event} {tick : Tick} (he : e.tick? = some tick) :
    (s.log e).ticks = s.ticks ++ [tick] := by
  simp [ticks, log, he]

theorem Counted.congr (hs : Counted s) (hviolation : s'.violation = s.violation)
    (htruncated : s'.truncated = s.truncated) (hbacktracks : s'.stats.backtracks = s.stats.backtracks)
    (hduplicates : s'.stats.duplicates = s.stats.duplicates) (hlimitHits : s'.stats.limitHits = s.stats.limitHits)
    (hticks : s'.ticks = s.ticks) : Counted s' where
  violation := hviolation.trans hs.violation
  truncated := by rw [htruncated, hticks, hs.truncated]
  backtracks := by rw [hbacktracks, hticks, hs.backtracks]
  duplicates := by rw [hduplicates, hticks, hs.duplicates]
  limitHits := by rw [hlimitHits, hticks, hs.limitHits]

theorem Counted.tick (hs : Counted s) (tick : Tick) (hticks : s'.ticks = s.ticks ++ [tick])
    (hviolation : s'.violation = s.violation)
    (htruncated : s'.truncated.isSome = true ↔ s.truncated.isSome = true ∨ .cut ∈ [tick])
    (hbacktracks : s'.stats.backtracks = s.stats.backtracks + [tick].count .backtrack)
    (hduplicates : s'.stats.duplicates = s.stats.duplicates + [tick].count .duplicate)
    (hlimitHits : s'.stats.limitHits = s.stats.limitHits + [tick].count .cut) : Counted s' where
  violation := hviolation.trans hs.violation
  truncated := by rw [htruncated, hticks, hs.truncated, List.mem_append]
  backtracks := by rw [hbacktracks, hticks, hs.backtracks, List.count_append, Nat.cast_add]
  duplicates := by rw [hduplicates, hticks, hs.duplicates, List.count_append, Nat.cast_add]
  limitHits := by rw [hlimitHits, hticks, hs.limitHits, List.count_append, Nat.cast_add]

theorem Act.counted (h : Act drv o s s') (hs : Counted s) : Counted s' := by
  cases h with
  | note hnote =>
    have hstats := hnote.stats
    exact hs.congr hnote.violation hnote.truncated (by rw [hstats]) (by rw [hstats]) (by rw [hstats]) hnote.ticks
  | restore =>
    exact hs.tick .restore (ticks_log_some _ rfl) rfl (by simp [log]) (add_zero _).symm (add_zero _).symm
      (add_zero _).symm
  | execute => exact hs.congr rfl rfl rfl rfl rfl (ticks_log _ rfl)
  | cut top =>
    exact hs.tick .cut (ticks_log_some _ rfl) rfl (by simp [Search.cut, log, updateNode]) (add_zero _).symm
      (add_zero _).symm rfl
  | prune num equal graph =>
    exact hs.tick .duplicate (ticks_log_some _ rfl) rfl (by simp [log]) (add_zero _).symm rfl (add_zero _).symm
  | backtrack =>
    exact hs.tick .backtrack (ticks_log_some _ rfl) rfl (by simp [log]) rfl (add_zero _).symm (add_zero _).symm
  | @pop f below below' es hstack hsettle =>
    have hticks := (ticks_log _ (e := .deleted f.state.num below'.length) rfl).trans
      (settle_ticks (s := s) hsettle below')
    rw [logAll_events] at hticks ⊢
    exact hs.congr rfl rfl rfl rfl rfl hticks
  | @resume f below below' es hstack hsettle =>
    have hticks := settle_ticks (s := s) hsettle below'
    rw [logAll_events] at hticks ⊢
    exact hs.congr rfl rfl rfl rfl rfl hticks
  | _ => exact hs.congr rfl rfl rfl rfl rfl rfl

theorem Acts.counted (h : Acts drv o s s') (hs : Counted s) : Counted s' := by
  induction h with
  | refl => exact hs
  | tail _ hact ih => exact hact.counted ih

theorem new_counted (o : Options) (m : σ) : Counted (new o m : Search σ κ) where
  violation := rfl
  truncated := by simp [new, ticks]
  backtracks := rfl
  duplicates := rfl
  limitHits := rfl

theorem Counted.outcome_eq (h : Counted s) :
    s.outcome = if .cut ∈ s.ticks then .nonTermination else .noViolation := by
  rw [outcome, h.violation]
  simp only [Option.isSome_none, Bool.false_eq_true, if_false, h.truncated]

end Counting

end Search

section Calls

variable {drv : Driver σ κ} {m m₁ m' : Logged σ κ}

theorem Logged.call_eq {α : Type} {exchange : Except Failure α → Exchange κ} {action : Action σ α}
    {answer : Except Failure α} (h : Logged.call exchange action m = (answer, m')) :
    m'.calls = m.calls ++ [exchange answer] := by
  cases h
  rfl

theorem Exchange.clean_execute {a : ActorId} {outcome : Int} {r : StepResult} (hactor : r.transition.actor = a)
    (hclean : r.violation = none) : (Exchange.execute a outcome (.ok r) : Exchange κ).Clean where
  failure := rfl
  impostor := if_pos hactor
  violation := hclean

theorem Exchange.Ends.of_failure {x : Exchange κ} {a : Abort} (hcause : a.cause? = x.failure?)
    (himpostor : x.impostor? = none) (hviolation : x.violation? = none) (replaying : Bool)
    (violation : Option Violation) : x.Ends replaying (some a) violation where
  failure := fun e he => ⟨a, rfl, hcause.trans he⟩
  impostor := fun p q hpq => by cases himpostor.symm.trans hpq
  violation := fun v _ hv => by cases hviolation.symm.trans hv

namespace Replay

theorem executeStep_eq_ok {index : Nat} {step : Step} {r : StepResult}
    (h : executeStep drv.logged index step m = (.ok r, m')) :
    m'.calls = m.calls ++ [.execute step.actor step.outcome (.ok r)] ∧ r.transition.actor = step.actor := by
  unfold executeStep at h
  split at h
  · cases h
  · rename_i r' m₁ hcall
    split_ifs at h with hactor
    · cases h
      exact ⟨Logged.call_eq hcall, hactor⟩
    · cases h

theorem executeStep_eq_error {index : Nat} {step : Step} {e : ReplayError}
    (h : executeStep drv.logged index step m = (.error e, m')) :
    ∃ x, m'.calls = m.calls ++ [x] ∧ ∀ num violation, x.Ends true (some (.replay num e)) violation := by
  unfold executeStep at h
  split at h
  · rename_i f m₁ hcall
    cases h
    exact ⟨_, Logged.call_eq hcall, fun num => .of_failure rfl rfl rfl true⟩
  · rename_i r m₁ hcall
    split_ifs at h with hactor
    · cases h
    · cases h
      have himpostor : (Exchange.execute step.actor step.outcome (.ok r) : Exchange κ).impostor? =
          some (step.actor, r.transition.actor) := if_neg hactor
      refine ⟨_, Logged.call_eq hcall, fun num violation => ⟨?_, ?_, ?_⟩⟩
      · rintro _ ⟨⟩
      · intro p q hpq
        cases himpostor.symm.trans hpq
        exact ⟨num, index, rfl⟩
      · intro v hnone
        cases himpostor.symm.trans hnone

theorem steps_eq_none {index : Nat} {xs : List Step} (h : steps drv.logged index xs m = (none, m')) :
    ∃ calls, m'.calls = m.calls ++ calls ∧ (∀ x ∈ calls, x.Clean) ∧ calls.countP Exchange.restores = 0 := by
  induction xs generalizing index m with
  | nil =>
    cases h
    exact ⟨[], (List.append_nil _).symm, by simp, rfl⟩
  | cons x xs ih =>
    simp only [steps] at h
    split at h
    · cases h
    · rename_i r m₁ hstep
      split at h
      · cases h
      · rename_i hclean
        obtain ⟨hcalls₁, hactor⟩ := executeStep_eq_ok hstep
        obtain ⟨calls, hcalls, hall, hcount⟩ := ih h
        refine ⟨.execute x.actor x.outcome (.ok r) :: calls, ?_, ?_, ?_⟩
        · rw [hcalls, hcalls₁, List.append_assoc, List.singleton_append]
        · exact List.forall_mem_cons.mpr ⟨Exchange.clean_execute hactor hclean, hall⟩
        · rw [List.countP_cons_of_neg (by simp [Exchange.restores]), hcount]

theorem steps_eq_some {index : Nat} {xs : List Step} {e : ReplayError}
    (h : steps drv.logged index xs m = (some e, m')) :
    ∃ calls x, m'.calls = m.calls ++ calls ++ [x] ∧ (∀ y ∈ calls, y.Clean) ∧
      ∀ num violation, x.Ends true (some (.replay num e)) violation := by
  induction xs generalizing index m with
  | nil => cases h
  | cons x xs ih =>
    simp only [steps] at h
    split at h
    · rename_i e' m₁ hstep
      cases h
      obtain ⟨y, hcalls, hends⟩ := executeStep_eq_error hstep
      exact ⟨[], y, by rw [hcalls, List.append_nil], by simp, hends⟩
    · rename_i r m₁ hstep
      obtain ⟨hcalls₁, hactor⟩ := executeStep_eq_ok hstep
      split at h
      · rename_i v hviolation
        cases h
        refine ⟨[], _, by rw [hcalls₁, List.append_nil], by simp, ?_⟩
        refine fun num violation => ⟨?_, ?_, ?_⟩
        · rintro _ ⟨⟩
        · intro p q hpq
          simp [Exchange.impostor?, hactor] at hpq
        · rintro w - hw
          cases hviolation.symm.trans hw
          exact ⟨num, index, rfl⟩
      · rename_i hclean
        obtain ⟨calls, y, hcalls, hall, hends⟩ := ih h
        refine ⟨.execute x.actor x.outcome (.ok r) :: calls, y, ?_, ?_, hends⟩
        · rw [hcalls, hcalls₁]
          simp
        · exact List.forall_mem_cons.mpr ⟨Exchange.clean_execute hactor hclean, hall⟩

end Replay

end Calls

namespace Search

variable {drv : Driver σ κ} {o : Options} {s s' : Search (Logged σ κ) κ} {r : Option Abort × Search (Logged σ κ) κ}

theorem Undisturbed.extend (hs : Undisturbed s) (calls : List (Exchange κ))
    (hcalls : s'.machine.calls = s.machine.calls ++ calls) (hclean : ∀ x ∈ calls, x.Clean)
    (hcount : s'.ticks.count .restore = s.ticks.count .restore + calls.countP Exchange.restores) :
    Undisturbed s' where
  clean := by
    rw [hcalls]
    exact List.forall_mem_append.mpr ⟨hs.clean, hclean⟩
  restores := by rw [hcalls, List.countP_append, hs.restores, hcount]

theorem Undisturbed.congr (hs : Undisturbed s) (hmachine : s'.machine = s.machine) (hticks : s'.ticks = s.ticks) :
    Undisturbed s' :=
  hs.extend [] (by rw [hmachine, List.append_nil]) (by simp) (by rw [hticks]; rfl)

theorem Undisturbed.idle (hs : Undisturbed s) (tick : Tick) (hticks : s'.ticks = s.ticks ++ [tick])
    (hmachine : s'.machine = s.machine) (htick : tick ≠ .restore) : Undisturbed s' := by
  refine hs.extend [] (by rw [hmachine, List.append_nil]) (by simp) ?_
  simp [hticks, List.count_append, htick]

theorem Act.undisturbed (h : Act drv.logged o s s') (hs : Undisturbed s) : Undisturbed s' := by
  cases h with
  | note hnote => exact hs.congr hnote.machine hnote.ticks
  | initialActors hcall => exact hs.extend _ (Logged.call_eq hcall) (by simpa using ⟨rfl, rfl, rfl⟩) rfl
  | snapshot hcall => exact hs.extend _ (Logged.call_eq hcall) (by simpa using ⟨rfl, rfl, rfl⟩) rfl
  | @restore top base below above k m₁ m hstack hnear hrestore hsteps =>
    obtain ⟨calls, hcalls, hclean, hcount⟩ := Replay.steps_eq_none hsteps
    refine hs.extend (.restore k (.ok ()) :: calls) ?_ ?_ ?_
    · show m.calls = _
      rw [hcalls, Logged.call_eq hrestore, List.append_assoc, List.singleton_append]
    · exact List.forall_mem_cons.mpr ⟨⟨rfl, rfl, rfl⟩, hclean⟩
    · rw [ticks_log_some _ rfl, List.count_append, List.countP_cons_of_pos rfl, hcount]
      rfl
  | execute hstack hexec hclean hclock =>
    obtain ⟨outcome, taken, -, hcall, hactor, -⟩ := State.execute_eq_ok hexec
    refine hs.extend _ (Logged.call_eq hcall) ?_ ?_
    · simpa using Exchange.clean_execute hactor hclean
    · rw [ticks_log _ rfl]
      rfl
  | cut top => exact hs.idle .cut (ticks_log_some _ rfl) rfl (by decide)
  | prune num equal graph => exact hs.idle .duplicate (ticks_log_some _ rfl) rfl (by decide)
  | backtrack => exact hs.idle .backtrack (ticks_log_some _ rfl) rfl (by decide)
  | @pop f below below' es hstack hsettle =>
    have hticks := (ticks_log _ (e := .deleted f.state.num below'.length) rfl).trans
      (settle_ticks (s := s) hsettle below')
    rw [logAll_events] at hticks ⊢
    exact hs.congr rfl hticks
  | @resume f below below' es hstack hsettle =>
    have hticks := settle_ticks (s := s) hsettle below'
    rw [logAll_events] at hticks ⊢
    exact hs.congr rfl hticks
  | _ => exact hs.congr rfl rfl

theorem Acts.undisturbed (h : Acts drv.logged o s s') (hs : Undisturbed s) : Undisturbed s' := by
  induction h with
  | refl => exact hs
  | tail _ hact ih => exact hact.undisturbed ih

theorem new_undisturbed (o : Options) (m : σ) : Undisturbed (new o ⟨m, []⟩ : Search (Logged σ κ) κ) where
  clean := by simp [new]
  restores := rfl

def Spoils (m : Logged σ κ) (a : Abort) (m' : Logged σ κ) : Prop :=
  ∃ calls x replaying, m'.calls = m.calls ++ calls ++ [x] ∧ (∀ y ∈ calls, y.Clean) ∧
    ((calls ++ [x]).countP Exchange.restores ≠ 0 ↔ replaying = true) ∧
    ∀ violation, x.Ends replaying (some a) violation

theorem Spoils.of_failure {m m' : Logged σ κ} {a : Abort} {x : Exchange κ} (hcalls : m'.calls = m.calls ++ [x])
    (hcause : a.cause? = x.failure?) (hrestores : x.restores = false) (himpostor : x.impostor? = none)
    (hviolation : x.violation? = none) : Spoils m a m' :=
  ⟨[], x, false, by rw [hcalls, List.append_nil], by simp, by simp [hrestores],
    .of_failure hcause himpostor hviolation false⟩

theorem Mishap.spoils {m m' : Logged σ κ} {a : Abort} (h : Mishap drv.logged m a m') : Spoils m a m' := by
  cases h with
  | initialActors hcall => exact .of_failure (Logged.call_eq hcall) rfl rfl rfl rfl
  | initialSnapshot hcall => exact .of_failure (Logged.call_eq hcall) rfl rfl rfl rfl
  | snapshot num hcall => exact .of_failure (Logged.call_eq hcall) rfl rfl rfl rfl
  | checkpoint num hcall => exact .of_failure (Logged.call_eq hcall) rfl rfl rfl rfl
  | execute num hcall => exact .of_failure (Logged.call_eq hcall) rfl rfl rfl rfl
  | restore num hcall => exact .of_failure (Logged.call_eq hcall) rfl rfl rfl rfl
  | @wrongActor a outcome r _ num hcall hactor =>
    have himpostor : (Exchange.execute a outcome (.ok r) : Exchange κ).impostor? = some (a, r.transition.actor) :=
      if_neg hactor
    refine ⟨[], _, false, by rw [Logged.call_eq hcall, List.append_nil], by simp, by simp [Exchange.restores],
      fun violation => ⟨?_, ?_, ?_⟩⟩
    · rintro _ ⟨⟩
    · intro p q hpq
      cases himpostor.symm.trans hpq
      exact ⟨num, 0, rfl⟩
    · intro v hnone
      cases himpostor.symm.trans hnone
  | @replay k xs e m₁ _ num hrestore hsteps =>
    obtain ⟨calls, x, hcalls, hclean, hends⟩ := Replay.steps_eq_some hsteps
    refine ⟨.restore k (.ok ()) :: calls, x, true, ?_, ?_, ?_, hends num⟩
    · rw [hcalls, Logged.call_eq hrestore]
      simp
    · exact List.forall_mem_cons.mpr ⟨⟨rfl, rfl, rfl⟩, hclean⟩
    · rw [List.cons_append, List.countP_cons_of_pos rfl]
      simp

/-- How a run ends: all calls but the last went well, what the last one was decides, and where the run is aborted the
counters still agree with what has been done. -/
structure Concluded (r : Option Abort × Search (Logged σ κ) κ) : Prop where
  calls : ∀ x ∈ r.2.machine.calls.dropLast, x.Clean
  last : ∀ x, r.2.machine.calls.getLast? = some x → ¬ x.Clean → x.Ends r.2.replaying r.1 r.2.violation
  counted : r.1.isSome = true → Counted r.2

theorem Concluded.of_clean (hclean : ∀ x ∈ r.2.machine.calls, x.Clean) (hcounted : r.1.isSome = true → Counted r.2) :
    Concluded r where
  calls := fun x hx => hclean x (List.mem_of_mem_dropLast hx)
  last := fun x hx hunclean => absurd (hclean x (List.mem_of_getLast? hx)) hunclean
  counted := hcounted

theorem Concluded.of_last {calls : List (Exchange κ)} {x : Exchange κ} (hcalls : r.2.machine.calls = calls ++ [x])
    (hclean : ∀ y ∈ calls, y.Clean) (hends : x.Ends r.2.replaying r.1 r.2.violation)
    (hcounted : r.1.isSome = true → Counted r.2) : Concluded r where
  calls := by rwa [hcalls, List.dropLast_concat]
  last := by
    intro y hy _
    rw [hcalls, List.getLast?_concat] at hy
    cases hy
    exact hends
  counted := hcounted

theorem report_notes (s : Search (Logged σ κ) κ) (v : Violation) (num : Int) :
    (s.report v num).machine = s.machine ∧ (s.report v num).ticks = s.ticks ∧
      (s.report v num).violation = some v := by
  have hledger := report_ledger s v num
  have hevents := congrArg Ledger.events hledger
  refine ⟨congrArg Ledger.machine hledger, ?_, congrArg Result.violation (report_result s v num)⟩
  simp only [ticks, show (s.report v num).events = _ from hevents]
  simp [Event.tick?]

theorem Final.concluded (h : Final drv.logged o s r) (hs : Undisturbed s) (hcounted : Counted s) : Concluded r := by
  cases h with
  | @mishap a m hmishap stack =>
    obtain ⟨calls, x, replaying, hcalls, hclean, hreplaying, hends⟩ := hmishap.spoils
    have hsame : Search.replaying { s with machine := m, stack } = replaying := by
      have hcount : m.calls.countP Exchange.restores =
          s.ticks.count .restore + (calls ++ [x]).countP Exchange.restores := by
        rw [hcalls, List.append_assoc, List.countP_append, hs.restores]
      rw [Bool.eq_iff_iff, ← hreplaying]
      show decide (m.calls.countP Exchange.restores ≠ s.ticks.count .restore) = true ↔ _
      rw [hcount, decide_eq_true_iff]
      omega
    refine .of_last hcalls (List.forall_mem_append.mpr ⟨hs.clean, hclean⟩) ?_ fun _ => hcounted.congr rfl rfl rfl rfl rfl rfl
    rw [hsame]
    exact hends _
  | interrupted => exact .of_clean hs.clean fun _ => hcounted
  | fault f stack => exact .of_clean hs.clean fun _ => hcounted.congr rfl rfl rfl rfl rfl rfl
  | crash => exact .of_clean hs.clean fun _ => hcounted
  | deadlocked v num =>
    obtain ⟨hmachine, -, -⟩ := report_notes s v num
    refine .of_clean ?_ (by rintro ⟨⟩)
    rw [hmachine]
    exact hs.clean
  | @violated top below a r state m clock v hexec hviolation num =>
    obtain ⟨outcome, taken, -, hcall, hactor, -⟩ := State.execute_eq_ok hexec
    have hcalls := Logged.call_eq hcall
    generalize hs₁ : Search.log _ (.executed _ _ _) = s₁
    have hmachine₁ : s₁.machine = m := by rw [← hs₁]; rfl
    have hticks₁ : s₁.ticks = s.ticks := by rw [← hs₁]; exact ticks_log _ rfl
    obtain ⟨hmachine, hticks, hreported⟩ := report_notes s₁ v num
    have hidle : Search.replaying (s₁.report v num) = false := by
      rw [Search.replaying, hmachine, hmachine₁, hticks, hticks₁, hcalls, List.countP_append, hs.restores]
      simp [Exchange.restores]
    refine .of_last (x := .execute a outcome (.ok r)) ?_ hs.clean ?_ (by rintro ⟨⟩)
    · rw [hmachine, hmachine₁, hcalls]
    · refine ⟨?_, ?_, ?_⟩
      · rintro _ ⟨⟩
      · intro p q hpq
        simp [Exchange.impostor?, hactor] at hpq
      · rintro w - hw
        cases hviolation.symm.trans hw
        rw [hidle]
        exact ⟨rfl, hreported⟩

theorem Conducts.concluded {m : σ} (h : Conducts drv.logged o (new o ⟨m, []⟩) r) : Concluded r := by
  cases h with
  | proceeds hacts => exact .of_clean (Acts.undisturbed hacts (new_undisturbed o m)).clean (by rintro ⟨⟩)
  | ends hacts hfinal =>
    exact hfinal.concluded (Acts.undisturbed hacts (new_undisturbed o m)) (Acts.counted hacts (new_counted o _))

theorem close_notes (r : Option Abort × Search σ κ) :
    (close r).2.machine = r.2.machine ∧ (close r).2.ticks = r.2.ticks ∧
      (close r).2.truncated = r.2.truncated := by
  obtain ⟨_ | a, s⟩ := r
  · exact ⟨rfl, ticks_log s rfl, rfl⟩
  · cases a with
    | fault f => exact ⟨rfl, ticks_log s rfl, rfl⟩
    | _ => exact ⟨rfl, rfl, rfl⟩

theorem close_done {r : Option Abort × Search σ κ} (h : r.1 ≠ some .crash) : (close r).2.phase = .done := by
  obtain ⟨_ | a, s⟩ := r
  · rfl
  · cases a with
    | crash => exact absurd rfl h
    | _ => rfl

theorem Concluded.close (h : Concluded r) : Concluded (close r) := by
  obtain ⟨habort, hviolation, hstats⟩ := close_keeps r
  obtain ⟨hmachine, hticks, htruncated⟩ := close_notes r
  have hreplaying : (Search.close r).2.replaying = r.2.replaying := by rw [replaying, replaying, hmachine, hticks]
  refine ⟨?_, ?_, ?_⟩
  · rw [hmachine]
    exact h.calls
  · rw [hmachine, hreplaying, habort, hviolation]
    exact h.last
  · rw [habort]
    intro haborted
    exact (h.counted haborted).congr hviolation htruncated (by rw [hstats]) (by rw [hstats]) (by rw [hstats]) hticks

section Runs

variable {τ : Type} {driver : Driver τ κ} {m : τ} {t : Search τ κ} {ended : Option Abort × Search τ κ} [Snapshot κ]

inductive Stage (driver : Driver τ κ) (o : Options) (m : τ) : Option Abort × Search τ κ → Prop
  | start : Stage driver o m (start driver o (new o m))
  | turn {t : Search τ κ} (ht : Reached driver o m t) (hopen : t.finished = false) :
      Stage driver o m (turn driver o t)

theorem Stage.conducts (h : Stage driver o m ended) : Conducts driver o (new o m) ended := by
  cases h with
  | start => exact start_conducts m
  | turn ht hopen => exact .head (ht.conducts.acts_of_open hopen) (turn_conducts ht.orderly.upright)

theorem Reached.run_eq (h : Reached driver o m t) :
    ∃ turns, ∀ fuel, run driver o (turns + fuel) m = (loop driver o fuel t).map close := by
  induction h with
  | start h => exact ⟨0, fun fuel => by rw [run, h, Nat.zero_add]⟩
  | @turn t t' _ hopen h ih =>
    obtain ⟨turns, hrun⟩ := ih
    refine ⟨turns + 1, fun fuel => ?_⟩
    rw [Nat.add_assoc, Nat.add_comm 1 fuel, hrun, loop, hopen, if_neg (by decide), h]

theorem Stage.run_eq (h : Stage driver o m ended) (hends : ended.1.isSome = true ∨ ended.2.finished = true) :
    ∃ turns, ∀ fuel, turns ≤ fuel → run driver o fuel m = some (close ended) := by
  obtain ⟨abort, t'⟩ := ended
  generalize hstage : (abort, t') = stage at h
  cases h with
  | start =>
    refine ⟨0, fun fuel _ => ?_⟩
    rw [run, ← hstage]
    cases abort with
    | some a => rfl
    | none => exact congrArg (Option.map close) (Trail.loop_of_finished (hends.resolve_left (by simp)) fuel)
  | @turn t ht hopen =>
    obtain ⟨turns, hrun⟩ := ht.run_eq
    refine ⟨turns + 1, fun fuel hfuel => ?_⟩
    obtain ⟨rest, rfl⟩ := Nat.exists_eq_add_of_le hfuel
    rw [Nat.add_assoc, Nat.add_comm 1 rest, hrun, loop, hopen, if_neg (by decide), ← hstage]
    cases abort with
    | some a => rfl
    | none => exact congrArg (Option.map close) (Trail.loop_of_finished (hends.resolve_left (by simp)) rest)

end Runs

variable [Snapshot κ]

theorem Stage.ends {m : σ} (h : Stage drv.logged o ⟨m, []⟩ r) (hcall : ∃ x ∈ r.2.machine.calls, ¬ x.Clean) :
    r.1.isSome = true ∨ r.2.finished = true := by
  obtain ⟨abort, s⟩ := r
  obtain ⟨x, hx, hunclean⟩ := hcall
  cases abort with
  | some a => exact .inl rfl
  | none =>
    refine .inr (Trail.finished_iff.mpr (.inr ?_))
    by_contra hphase
    exact hunclean ((Acts.undisturbed (h.conducts.acts hphase) (new_undisturbed o m)).clean x hx)

theorem Stage.explorer_run {m : σ} (h : Stage drv.logged o ⟨m, []⟩ r)
    (hwrong : r.1.isSome = true ∨ ∃ x ∈ r.2.machine.calls, ¬ x.Clean) :
    ∃ turns, ∀ fuel, turns ≤ fuel → Explorer.run drv.logged fuel (.ofPlan ⟨.depthFirst, o⟩ ⟨m, []⟩) =
      some (Explorer.conclude o (Search.close r)) := by
  obtain ⟨turns, hended⟩ := h.run_eq (hwrong.elim .inl h.ends)
  refine ⟨turns, fun fuel hfuel => ?_⟩
  rw [Explorer.run_ofPlan, hended fuel hfuel, Option.map_some]

theorem Stage.calls_of_crash {m : σ} (h : Stage drv.logged o ⟨m, []⟩ r) (hcrash : r.1 = some .crash) :
    (∀ x ∈ r.2.machine.calls, x.Clean) ∧ 0 < o.maxVisited ∧
      r.2.machine.calls.getLast? = some (.snapshot (.ok none)) := by
  obtain ⟨abort, s⟩ := r
  subst hcrash
  have hconducts := h.conducts
  obtain ⟨hvisited, ⟨m', calls⟩, hsnap⟩ := hconducts.crash
  refine ⟨?_, hvisited, ?_⟩
  · cases hconducts with
    | ends hacts hfinal =>
      cases hfinal with
      | mishap hmishap => cases hmishap
      | crash => exact (Acts.undisturbed hacts (new_undisturbed o m)).clean
  · rw [Logged.call_eq hsnap, List.getLast?_concat]

end Search

open Search

variable [Snapshot κ]

/-- The log of the calls changes nothing. The run returns where a call goes wrong or the run is found cancelled; then all
calls but the last went well, the last one is the cause of the error, the result holds what has been counted, and the
explorer does not run again. A run that crashes has had no call that went wrong: it was given no snapshot of a state to
be visited. -/
theorem failures_stop_the_run (drv : Driver σ κ) (o : Options) (m : σ) :
    (∀ fuel, Explorer.run drv fuel (.ofPlan ⟨.depthFirst, o⟩ m) =
      (Explorer.run drv.logged fuel (.ofPlan ⟨.depthFirst, o⟩ ⟨m, []⟩)).map (Ending.onMachine Logged.machine)) ∧
    (∀ r, Stage drv.logged o ⟨m, []⟩ r →
      ((∃ a, r.1 = some a ∧ a ≠ .crash) ∨ ∃ x ∈ r.2.machine.calls, ¬ x.Clean) →
      ∃ turns, ∀ fuel, turns ≤ fuel → Explorer.run drv.logged fuel (.ofPlan ⟨.depthFirst, o⟩ ⟨m, []⟩) =
        some (.returned (r.1.map .aborted) (some (close r).2.result) (.depthFirst o (close r).2))) ∧
    (∀ r, Stage drv.logged o ⟨m, []⟩ r → r.1 = some .crash → (∀ x ∈ r.2.machine.calls, x.Clean) ∧
      0 < o.maxVisited ∧ r.2.machine.calls.getLast? = some (.snapshot (.ok none))) ∧
    (∀ s cause, Reached drv.logged o ⟨m, []⟩ s → s.finished = false →
      drv.interrupted s.machine.machine = some cause →
      ∃ turns, ∀ fuel, turns ≤ fuel → Explorer.run drv.logged fuel (.ofPlan ⟨.depthFirst, o⟩ ⟨m, []⟩) =
        some (.returned (some (.aborted (.interrupted cause))) (some { s with phase := .done }.result)
          (.depthFirst o { s with phase := .done }))) ∧
    ∀ fuel error result e,
      Explorer.run drv.logged fuel (.ofPlan ⟨.depthFirst, o⟩ ⟨m, []⟩) = some (.returned error result e) →
      ∃ s, e = .depthFirst o s ∧ (∀ x ∈ s.machine.calls.dropLast, x.Clean) ∧
        (∀ x, s.machine.calls.getLast? = some x → ¬ x.Clean →
          ∃ abort, error = abort.map .aborted ∧ x.Ends s.replaying abort s.violation) ∧
        (error.isSome = true → ∃ res, result = some res ∧ res.violation = none ∧
          res.outcome = (if .cut ∈ s.ticks then .nonTermination else .noViolation) ∧
          res.stats.expanded = (pushedPaths drv.logged o fuel ⟨m, []⟩).length ∧
          res.stats.backtracks = s.ticks.count .backtrack ∧ res.stats.duplicates = s.ticks.count .duplicate ∧
          res.stats.maxDepth = deepest (pushedPaths drv.logged o fuel ⟨m, []⟩) ∧
          res.stats.limitHits = s.ticks.count .cut) ∧
        s.phase = .done ∧
        ∀ (drv' : Driver (Logged σ κ) κ) fuel',
          Explorer.run drv' fuel' e = some (.returned (some .alreadyRun) none e) := by
  refine ⟨(drv.logged_projects.explore o · ⟨m, []⟩), ?_, fun r hstage => hstage.calls_of_crash, ?_, ?_⟩
  · intro r hstage hwrong
    -- A crash comes after calls that all went well.
    have hcalm : r.1 ≠ some .crash := by
      intro hcrash
      rcases hwrong with ⟨a, ha, hne⟩ | ⟨x, hx, hunclean⟩
      · exact hne (Option.some.inj (ha.symm.trans hcrash))
      · exact hunclean ((hstage.calls_of_crash hcrash).1 x hx)
    have hkept := (close_keeps r).1
    have hended := hstage.explorer_run (hwrong.imp_left fun ⟨a, ha, _⟩ => ha ▸ rfl)
    rwa [Explorer.conclude_of_ne o (hkept ▸ hcalm), hkept] at hended
  · intro s cause hs hopen hcause
    have hturn : turn drv.logged o s = (some (.interrupted cause), s) := by
      rw [turn, show drv.logged.interrupted s.machine = some cause from hcause]
    have hstage := Stage.turn hs hopen
    rw [hturn] at hstage
    exact hstage.explorer_run (.inl rfl)
  · intro fuel error result e hended
    rw [Explorer.run_ofPlan] at hended
    obtain ⟨ended, hsearch, heq⟩ := Option.map_eq_some_iff.mp hended
    have hcalm : ended.1 ≠ some .crash := by
      obtain ⟨abort, s⟩ := ended
      rintro rfl
      cases heq
    rw [Explorer.conclude_of_ne o hcalm] at heq
    cases heq
    -- The operations tell the calls and the counts, the paths pushed tell what was expanded and how deep.
    have hexpanded := run_expanded hsearch
    have hdepth := run_depth hsearch
    obtain ⟨ended₀, hconducts, rfl⟩ := run_conducts hsearch
    have hconcluded := hconducts.concluded.close
    have hdone := close_done ((close_keeps ended₀).1 ▸ hcalm)
    refine ⟨(close ended₀).2, rfl, hconcluded.calls, ?_, ?_, hdone, ?_⟩
    · exact fun x hx hunclean => ⟨_, rfl, hconcluded.last x hx hunclean⟩
    · intro herror
      have hcounted := hconcluded.counted (by simpa using herror)
      exact ⟨_, rfl, hcounted.violation, hcounted.outcome_eq, hexpanded, hcounted.backtracks, hcounted.duplicates, hdepth,
        hcounted.limitHits⟩
    · intro drv' fuel'
      rw [Explorer.run, if_pos (by rw [hdone]; decide)]

theorem failures_stop_the_run_erratic : ∃ a res s x,
    Explorer.run Driver.erratic.logged 20 (.ofPlan ⟨.depthFirst, ⟨3, .dpor, 0, 2, true⟩⟩ ⟨0, []⟩) =
      some (.returned (some (.aborted a)) (some res) (.depthFirst ⟨3, .dpor, 0, 2, true⟩ s)) ∧
    s.machine.calls.getLast? = some x ∧ x.failure? = some (.reported "lost") ∧
    a.cause? = some (.reported "lost") ∧ (∀ y ∈ s.machine.calls.dropLast, y.Clean) ∧
    res.violation = none ∧ res.outcome = .nonTermination ∧ res.stats.limitHits = 4 := by
  obtain ⟨-, -, -, -, hended⟩ := failures_stop_the_run Driver.erratic ⟨3, .dpor, 0, 2, true⟩ 0
  obtain ⟨a, res, s, x, hrun, hlast, hfailure, hcuts⟩ : ∃ a res s x,
      Explorer.run Driver.erratic.logged 20 (.ofPlan ⟨.depthFirst, ⟨3, .dpor, 0, 2, true⟩⟩ ⟨0, []⟩) =
        some (.returned (some (.aborted a)) (some res) (.depthFirst ⟨3, .dpor, 0, 2, true⟩ s)) ∧
      s.machine.calls.getLast? = some x ∧ x.failure? = some (.reported "lost") ∧ s.ticks.count .cut = 4 :=
    ⟨_, _, _, _, rfl, rfl, rfl, rfl⟩
  obtain ⟨s', heq, hclean, hends, hreported, -⟩ := hended 20 _ _ _ hrun
  cases heq
  have hunclean : ¬ x.Clean := by
    intro hx
    cases hx.failure.symm.trans hfailure
  obtain ⟨abort, habort, hx⟩ := hends x hlast hunclean
  obtain ⟨a', rfl, hcause⟩ := hx.failure _ hfailure
  cases habort
  obtain ⟨res', hres, hviolation, houtcome, -, -, -, -, hlimitHits⟩ := hreported rfl
  cases hres
  have hcut : .cut ∈ s.ticks := List.count_pos_iff.mp (by rw [hcuts]; decide)
  rw [if_pos hcut] at houtcome
  rw [hcuts] at hlimitHits
  exact ⟨a, res, s, x, hrun, hlast, hfailure, hcause, hclean, hviolation, houtcome, hlimitHits⟩

end Interleave
