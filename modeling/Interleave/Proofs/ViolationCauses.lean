import Interleave.Proofs.ModelSnapshots

/-! The causes of violations of script models. A step calls its effect, then the invariants unless the effect raised an
error, then the guards of the pending steps, and any of them may change the state for those after it. The violation that
is reported names the first guard that raised an error, and only where none did it tells what the effect or the
invariants said. -/

namespace Interleave.Model

open Script

variable {σ φ : Type}

inductive Answers (host : Host σ φ) (asked : Bool → Prop) : List φ → σ → σ → Prop
  | nil {s : σ} : Answers host asked [] s s
  | cons {f : φ} {fs : List φ} {b : Bool} {s s₁ s₂ : σ} (htest : host.test f s = (.ok b, s₁)) (hb : asked b)
      (h : Answers host asked fs s₁ s₂) : Answers host asked (f :: fs) s s₂

/-- Tests are called one after the other up to the first that raises an error or gives an answer that is not asked for.
The number is its place in the list. -/
inductive Stops (host : Host σ φ) (asked : Bool → Prop) : List φ → σ → Nat → Except String Bool → σ → Prop
  | here {f : φ} {fs : List φ} {answer : Except String Bool} {s s' : σ} (htest : host.test f s = (answer, s'))
      (hbad : ∀ b, answer = .ok b → ¬ asked b) : Stops host asked (f :: fs) s 0 answer s'
  | later {f : φ} {fs : List φ} {b : Bool} {n : Nat} {answer : Except String Bool} {s s₁ s₂ : σ}
      (htest : host.test f s = (.ok b, s₁)) (hb : asked b) (h : Stops host asked fs s₁ n answer s₂) :
      Stops host asked (f :: fs) s (n + 1) answer s₂

section Order

variable {host : Host σ φ} {asked : Bool → Prop} {s s' : σ}

theorem answers_or_stops (host : Host σ φ) (asked : Bool → Prop) (fs : List φ) (s : σ) :
    (∃ s', Answers host asked fs s s') ∨ ∃ n answer s', Stops host asked fs s n answer s' := by
  induction fs generalizing s with
  | nil => exact .inl ⟨s, .nil⟩
  | cons f fs ih =>
    rcases htest : host.test f s with ⟨cause | b, s₁⟩
    · exact .inr ⟨0, _, s₁, .here htest (by rintro b ⟨⟩)⟩
    · by_cases hb : asked b
      · rcases ih s₁ with ⟨s', h⟩ | ⟨n, answer, s', h⟩
        · exact .inl ⟨s', .cons htest hb h⟩
        · exact .inr ⟨n + 1, answer, s', .later htest hb h⟩
      · refine .inr ⟨0, _, s₁, .here htest ?_⟩
        rintro b' ⟨⟩
        exact hb

theorem Stops.lt_length {fs : List φ} {n : Nat} {answer : Except String Bool} (h : Stops host asked fs s n answer s') :
    n < fs.length := by
  induction h with
  | here => exact Nat.zero_lt_succ _
  | later _ _ _ ih => exact Nat.succ_lt_succ ih

theorem Stops.exists_error {fs : List φ} {n : Nat} {answer : Except String Bool}
    (h : Stops host (fun _ => True) fs s n answer s') : ∃ cause, answer = .error cause := by
  induction h with
  | @here f fs answer s s' _ hbad =>
    cases answer with
    | error cause => exact ⟨cause, rfl⟩
    | ok b => exact absurd trivial (hbad b rfl)
  | later _ _ _ ih => exact ih

end Order

def InvariantDecl.complaint (inv : InvariantDecl φ) : Except String Bool → String
  | .error cause => s!"{inv.name}: {cause}"
  | .ok _ => inv.name

section Invariants

variable {host : Host σ φ} {invariants : List (InvariantDecl φ)} {s s' : σ}

theorem brokenInvariant_of_answers (h : Answers host (· = true) (invariants.map InvariantDecl.test) s s') :
    brokenInvariant host invariants s = (none, s') := by
  induction invariants generalizing s with
  | nil =>
    cases h
    rfl
  | cons inv rest ih =>
    obtain _ | ⟨htest, rfl, h⟩ := h
    simp only [brokenInvariant, htest]
    exact ih h

theorem brokenInvariant_of_stops {n : Nat} {answer : Except String Bool} {inv : InvariantDecl φ}
    (h : Stops host (· = true) (invariants.map InvariantDecl.test) s n answer s') (hinv : invariants[n]? = some inv) :
    brokenInvariant host invariants s = (some ⟨.invariant, inv.complaint answer⟩, s') := by
  induction invariants generalizing s n with
  | nil => cases h
  | cons first rest ih =>
    rcases h with ⟨htest, hbad⟩ | ⟨htest, rfl, h⟩
    · obtain rfl := Option.some.inj hinv
      rcases answer with cause | _ | _
      · simp only [brokenInvariant, htest, InvariantDecl.complaint]
      · simp only [brokenInvariant, htest, InvariantDecl.complaint]
      · exact absurd rfl (hbad true rfl)
    · simp only [brokenInvariant, htest]
      exact ih h hinv

end Invariants

structure PendingGuard (φ : Type) where
  actor : String
  step : Nat
  guard : φ

def pendingGuards (as : List (ActorDecl φ)) (ps : List Nat) : List (PendingGuard φ) :=
  (as.zip ps).filterMap fun ap => (ap.1.steps[ap.2]?).bind fun step => step.guard.map (⟨ap.1.name, ap.2 + 1, ·⟩)

def PendingGuard.error (g : PendingGuard φ) (cause : String) : GuardError := ⟨g.actor, g.step, cause⟩

/-- The error of the first guard that raises one, where the guards are called in a state with the actors at the given
positions. -/
def GuardRaises (m : Model σ φ) (ps : List Nat) (s : σ) (e : GuardError) : Prop :=
  ∃ n g cause s',
    Stops m.host (fun _ => True) ((pendingGuards m.actors ps).map PendingGuard.guard) s n (.error cause) s' ∧
    (pendingGuards m.actors ps)[n]? = some g ∧ e = g.error cause

def GuardsAnswer (m : Model σ φ) (ps : List Nat) (s : σ) : Prop :=
  ∃ s', Answers m.host (fun _ => True) ((pendingGuards m.actors ps).map PendingGuard.guard) s s'

theorem guardRaises_or_guardsAnswer (m : Model σ φ) (ps : List Nat) (s : σ) :
    (∃ e, m.GuardRaises ps s e) ∨ m.GuardsAnswer ps s := by
  rcases answers_or_stops m.host (fun _ => True) ((pendingGuards m.actors ps).map PendingGuard.guard) s with
    hanswers | ⟨n, answer, s', hstops⟩
  · exact .inr hanswers
  · obtain ⟨cause, rfl⟩ := hstops.exists_error
    have hn := hstops.lt_length
    rw [List.length_map] at hn
    exact .inl ⟨_, n, _, cause, s', hstops, List.getElem?_eq_getElem hn, rfl⟩

section Guards

variable {host : Host σ φ} {as : List (ActorDecl φ)} {ps : List Nat} {es : List Bool} {s s' : σ}

theorem pendingGuards_of_unguarded {a : ActorDecl φ} {p : Nat} (h : (a.steps[p]?).bind StepDecl.guard = none) :
    pendingGuards (a :: as) (p :: ps) = pendingGuards as ps := by
  have hnone : ((a.steps[p]?).bind fun step => step.guard.map (PendingGuard.mk a.name (p + 1) ·)) = none := by
    rw [Option.bind_eq_none_iff] at h ⊢
    intro step hstep
    rw [h step hstep, Option.map_none]
  simp only [pendingGuards, List.zip_cons_cons, List.filterMap_cons, hnone]

theorem pendingGuards_of_guarded {a : ActorDecl φ} {p : Nat} {step : StepDecl φ} {g : φ}
    (hstep : a.steps[p]? = some step) (hguard : step.guard = some g) :
    pendingGuards (a :: as) (p :: ps) = ⟨a.name, p + 1, g⟩ :: pendingGuards as ps := by
  simp only [pendingGuards, List.zip_cons_cons, List.filterMap_cons, hstep, Option.bind_some, hguard, Option.map_some]

theorem testGuards_of_unguarded (host : Host σ φ) {a : ActorDecl φ} {p : Nat}
    (h : (a.steps[p]?).bind StepDecl.guard = none) (e : Bool) :
    ∃ flag, testGuards host (a :: as) (p :: ps) (e :: es) s =
      ((testGuards host as ps es s).1, flag :: (testGuards host as ps es s).2.1, (testGuards host as ps es s).2.2) := by
  cases hstep : a.steps[p]? with
  | none => exact ⟨false, by simp only [testGuards, hstep]⟩
  | some step =>
    have hguard : step.guard = none := by rwa [hstep] at h
    exact ⟨true, by simp only [testGuards, hstep, hguard]⟩

theorem testGuards_of_answers (hps : ps.length = as.length) (hes : es.length = as.length)
    (h : Answers host (fun _ => True) ((pendingGuards as ps).map PendingGuard.guard) s s') :
    (testGuards host as ps es s).1 = none := by
  induction as generalizing ps es s with
  | nil => rfl
  | cons a as ih =>
    obtain ⟨p, ps, rfl⟩ := List.exists_cons_of_length_eq_add_one hps
    obtain ⟨e, es, rfl⟩ := List.exists_cons_of_length_eq_add_one hes
    cases hguard : (a.steps[p]?).bind StepDecl.guard with
    | none =>
      rw [pendingGuards_of_unguarded hguard] at h
      obtain ⟨flag, hflag⟩ := testGuards_of_unguarded host hguard e
      rw [hflag]
      exact ih (Nat.succ.inj hps) (Nat.succ.inj hes) h
    | some g =>
      obtain ⟨step, hstep, hg⟩ := Option.bind_eq_some_iff.mp hguard
      rw [pendingGuards_of_guarded hstep hg] at h
      obtain _ | ⟨htest, -, h⟩ := h
      simp only [testGuards, hstep, hg, htest]
      exact ih (Nat.succ.inj hps) (Nat.succ.inj hes) h

theorem testGuards_of_stops (hps : ps.length = as.length) (hes : es.length = as.length) {n : Nat} {cause : String}
    {g : PendingGuard φ}
    (h : Stops host (fun _ => True) ((pendingGuards as ps).map PendingGuard.guard) s n (.error cause) s')
    (hg : (pendingGuards as ps)[n]? = some g) : (testGuards host as ps es s).1 = some (g.error cause) := by
  induction as generalizing ps es s n with
  | nil => cases h
  | cons a as ih =>
    obtain ⟨p, ps, rfl⟩ := List.exists_cons_of_length_eq_add_one hps
    obtain ⟨e, es, rfl⟩ := List.exists_cons_of_length_eq_add_one hes
    cases hguard : (a.steps[p]?).bind StepDecl.guard with
    | none =>
      rw [pendingGuards_of_unguarded hguard] at h hg
      obtain ⟨flag, hflag⟩ := testGuards_of_unguarded host hguard e
      rw [hflag]
      exact ih (Nat.succ.inj hps) (Nat.succ.inj hes) h hg
    | some f =>
      obtain ⟨step, hstep, hf⟩ := Option.bind_eq_some_iff.mp hguard
      rw [pendingGuards_of_guarded hstep hf] at h hg
      rcases h with ⟨htest, -⟩ | ⟨htest, -, h⟩
      · obtain rfl := Option.some.inj hg
        simp only [testGuards, hstep, hf, htest, PendingGuard.error]
      · simp only [testGuards, hstep, hf, htest]
        exact ih (Nat.succ.inj hps) (Nat.succ.inj hes) h hg

end Guards

inductive Ran (host : Host σ φ) (step : StepDecl φ) (outcome : Int) (s : σ) : Option String → σ → Prop
  | idle (hrun : step.run = none) : Ran host step outcome s none s
  | returned {f : φ} {label : String} {s' : σ} (hrun : step.run = some f)
      (hcall : host.run f outcome s = (.ok label, s')) : Ran host step outcome s none s'
  | raised {f : φ} {cause : String} {s' : σ} (hrun : step.run = some f)
      (hcall : host.run f outcome s = (.error cause, s')) : Ran host step outcome s (some cause) s'

/-- What the effect of a step and the invariants after it say: an error of the effect is an assertion failure, and only
without one the first invariant counts that does not hold. -/
inductive Faults (m : Model σ φ) (step : StepDecl φ) (outcome : Int) (s : σ) : Option Violation → σ → Prop
  | assertion {cause : String} {s' : σ} (hran : Ran m.host step outcome s (some cause) s') :
      Faults m step outcome s (some ⟨.assertion, cause⟩) s'
  | invariant {s₁ s₂ : σ} {n : Nat} {answer : Except String Bool} {inv : InvariantDecl φ}
      (hran : Ran m.host step outcome s none s₁)
      (hstops : Stops m.host (· = true) (m.invariants.map InvariantDecl.test) s₁ n answer s₂)
      (hinv : m.invariants[n]? = some inv) :
      Faults m step outcome s (some ⟨.invariant, inv.complaint answer⟩) s₂
  | none {s₁ s₂ : σ} (hran : Ran m.host step outcome s none s₁)
      (hkept : Answers m.host (· = true) (m.invariants.map InvariantDecl.test) s₁ s₂) :
      Faults m step outcome s none s₂

section Effects

variable {m : Model σ φ} {step : StepDecl φ} {s s' : σ}

theorem exists_ran (host : Host σ φ) (step : StepDecl φ) (outcome : Int) (s : σ) :
    ∃ cause s', Ran host step outcome s cause s' := by
  cases hrun : step.run with
  | none => exact ⟨none, s, .idle hrun⟩
  | some f =>
    rcases hcall : host.run f outcome s with ⟨cause | label, s'⟩
    · exact ⟨some cause, s', .raised hrun hcall⟩
    · exact ⟨none, s', .returned hrun hcall⟩

theorem exists_faults (m : Model σ φ) (step : StepDecl φ) (outcome : Int) (s : σ) :
    ∃ v s', m.Faults step outcome s v s' := by
  obtain ⟨cause | cause, s₁, hran⟩ := exists_ran m.host step outcome s
  · rcases answers_or_stops m.host (· = true) (m.invariants.map InvariantDecl.test) s₁ with
      ⟨s₂, hkept⟩ | ⟨n, answer, s₂, hstops⟩
    · exact ⟨none, s₂, .none hran hkept⟩
    · have hn : n < m.invariants.length := by simpa using hstops.lt_length
      exact ⟨_, s₂, .invariant hran hstops (List.getElem?_eq_getElem hn)⟩
  · exact ⟨_, s₁, .assertion hran⟩

theorem runStep_of_ran {x : Machine σ} {t : Transition} {cause : Option String}
    (h : Ran m.host step t.outcome x.script cause s') (i : Nat) :
    (m.runStep x i step t).2 = (cause.map (⟨.assertion, ·⟩),
      { x with script := s', positions := x.positions.modify i (· + 1) }) := by
  rcases h with hrun | ⟨hrun, hcall⟩ | ⟨hrun, hcall⟩
  · simp only [runStep, hrun, Option.map_none]
  · simp only [runStep, hrun, hcall, Option.map_none]
  · simp only [runStep, hrun, hcall, Option.map_some]

theorem takeStep_violation {x : Machine σ} {t : Transition} {v : Option Violation}
    (h : m.Faults step t.outcome x.script v s') (i : Nat) : (m.takeStep x i step t).1.violation =
      ((testGuards m.host m.actors (x.positions.modify i (· + 1)) x.enabled s').1.map
        fun e => ⟨.crash, e.message⟩).or v := by
  rcases h with hran | ⟨hran, hstops, hinv⟩ | ⟨hran, hkept⟩
  · simp only [takeStep, result, runStep_of_ran hran i, Option.map_some, refresh_eq]
    cases (testGuards m.host m.actors _ _ s').1 <;> rfl
  · simp only [takeStep, result, runStep_of_ran hran i, Option.map_none, refresh_eq, checkInvariants_eq,
      brokenInvariant_of_stops hstops hinv]
    cases (testGuards m.host m.actors _ _ s').1 <;> rfl
  · simp only [takeStep, result, runStep_of_ran hran i, Option.map_none, refresh_eq, checkInvariants_eq,
      brokenInvariant_of_answers hkept]
    cases (testGuards m.host m.actors _ _ s').1 <;> rfl

theorem takeStep_positions (m : Model σ φ) (x : Machine σ) (i : Nat) (step : StepDecl φ) (t : Transition) :
    (m.takeStep x i step t).2.positions = x.positions.modify i (· + 1) := by
  obtain ⟨cause | cause, s₁, hran⟩ := exists_ran m.host step t.outcome x.script
  · simp only [takeStep, runStep_of_ran hran i, Option.map_none]
    rfl
  · simp only [takeStep, runStep_of_ran hran i, Option.map_some]
    rfl

end Effects

structure Sized (m : Model σ φ) (x : Machine σ) : Prop where
  positions : x.positions.length = m.actors.length
  enabled : x.enabled.length = m.actors.length

theorem length_readPositionsFrom {as : List (ActorDecl φ)} {ds : List Datum} {i : Nat} {ps : List Nat}
    (hlength : ds.length = as.length) (h : readPositionsFrom i as ds = .ok ps) : ps.length = as.length := by
  induction as generalizing ds i ps with
  | nil =>
    obtain rfl := List.length_eq_zero_iff.mp hlength
    cases h
    rfl
  | cons a as ih =>
    obtain ⟨d, ds, rfl⟩ := List.exists_cons_of_length_eq_add_one hlength
    cases hp : readPosition i a d with
    | error e => simp [readPositionsFrom, hp, bind, Except.bind] at h
    | ok p =>
      cases hrest : readPositionsFrom (i + 1) as ds with
      | error e => simp [readPositionsFrom, hp, hrest, bind, Except.bind] at h
      | ok qs =>
        simp only [readPositionsFrom, hp, hrest, bind, Except.bind, pure, Except.pure, Except.ok.injEq] at h
        subst h
        simpa using ih (Nat.succ.inj hlength) hrest

theorem length_readPositions {m : Model σ φ} {content : Message} {ps : List Nat}
    (h : m.readPositions content = .ok ps) : ps.length = m.actors.length := by
  unfold readPositions at h
  dsimp only at h
  split at h
  · split_ifs at h with hlength
    exact length_readPositionsFrom hlength h
  · cases h

namespace Sized

variable {m : Model σ φ} {x : Machine σ}

theorem refresh (h : m.Sized x) : m.Sized (m.refresh x).2 := by
  obtain ⟨-, hlength, -⟩ := testGuards_found (D := fun _ => True) (s := x.script)
    (fun _ _ _ _ _ _ _ _ => trivial : GuardsKeep m.host _ m.actors) h.positions h.enabled trivial
  rw [refresh_eq]
  exact ⟨h.positions, hlength⟩

theorem log (h : m.Sized x) (level : Logging.Level) (message : String) (fields : List (String × String)) :
    m.Sized (m.log x level message fields) := ⟨h.positions, h.enabled⟩

theorem takeStep (h : m.Sized x) (i : Nat) (step : StepDecl φ) (t : Transition) :
    m.Sized (m.takeStep x i step t).2 := by
  obtain ⟨cause, s, hran⟩ := exists_ran m.host step t.outcome x.script
  have hrun : m.Sized (m.runStep x i step t).2.2 := by
    rw [runStep_of_ran hran i]
    exact ⟨by simpa using h.positions, h.enabled⟩
  refine Sized.log (Sized.refresh ?_) _ _ _
  split
  · exact hrun
  · exact ⟨hrun.positions, hrun.enabled⟩

theorem execute (h : m.Sized x) (a : ActorId) (outcome : Int) : m.Sized (m.execute a outcome x).2 := by
  unfold Model.execute
  dsimp only
  split
  · exact h
  · split_ifs
    · exact h
    · exact h.takeStep _ _ _

theorem initialActors (h : m.Sized x) : m.Sized (m.initialActors x).2 := by
  have hchecked : m.Sized (m.checkInvariants x).2 := ⟨h.positions, h.enabled⟩
  unfold Model.initialActors
  split <;> rename_i hcheck <;> rw [hcheck] at hchecked <;> exact hchecked

theorem restore (h : m.Sized x) (k : Captured) : m.Sized (m.restore (.own k) x).2 := by
  unfold Model.restore
  dsimp only
  split
  · exact h
  · rename_i positions hpositions
    have hinstalled : m.Sized ⟨m.host.install ((Assoc.get? "state" k.content).getD .null) x.script, positions,
        x.enabled, x.journal⟩ := ⟨length_readPositions hpositions, h.enabled⟩
    have hrefreshed := hinstalled.refresh
    split <;> rename_i hrefresh <;> rw [hrefresh] at hrefreshed
    · exact hrefreshed
    · exact hrefreshed.log _ _ _

end Sized

theorem sized_of_called {ρ κ : Type} {L : Interpreter σ ρ κ φ} {H : Interpreter.Heap σ ρ} (hL : L.Lawful H)
    {name : String} {declared : Declarations φ} {s : σ} (hs : H.valid s) {m : Model σ φ} {x₀ x : Machine σ}
    (hstart : L.start name declared s = .ok (m, x₀)) (h : m.Called x₀ x) : m.Sized x := by
  induction h with
  | start =>
    obtain ⟨-, _, -, -, y, hy, -, -, hpositions, henabled⟩ := start_eq_ok hL hs hstart
    have hsized : m.Sized y := ⟨(List.Forall₂.length_eq hy.placed).symm, hy.enabled⟩
    exact ⟨hpositions ▸ hsized.positions, henabled ▸ hsized.refresh.enabled⟩
  | initialActors _ ih => exact ih.initialActors
  | execute _ a outcome ih => exact ih.execute a outcome
  | restore _ _ _ _ ih => exact ih.restore _

theorem execute_eq_takeStep {m : Model σ φ} {x : Machine σ} {i : Nat} {step : StepDecl φ}
    (hpending : m.pending x i = some step) (henabled : isEnabled x i = true) {outcome : Int} (hlow : 0 ≤ outcome)
    (hhigh : outcome < step.choices) : m.execute (idAt i) outcome x =
      (.ok (m.takeStep x i step (step.transition (idAt i) outcome)).1,
        (m.takeStep x i step (step.transition (idAt i) outcome)).2) := by
  have hindex : (idAt i - 1).toNat = i := by simp [idAt]
  have hid : 1 ≤ idAt i := by simp [idAt]
  have hrange : ¬ (outcome < 0 ∨ step.choices ≤ outcome) := by omega
  simp only [execute, hindex, hid, henabled, and_self, if_true, hpending, hrange, if_false]

def failedThenGuarded : Source := .text ("state = \x7b\x7d\n" ++
  "actor(\"a\", \x7b\n" ++
  "  step\x7b run = function(s) error(\"first\", 0) end \x7d,\n" ++
  "  step\x7b guard = function(s) error(\"second\", 0) end \x7d,\n" ++
  "\x7d)").toUTF8

def brokenSecond : Source := .text ("state = \x7b x = 0 \x7d\n" ++
  "actor(\"a\", \x7b step\x7b run = function(s) s.x = 1 end \x7d,\n" ++
  "  step\x7b guard = function(s) return s.x == 1 end \x7d \x7d)\n" ++
  "invariant(\"small\", function(s) return s.x < 2 end)\n" ++
  "invariant(\"zero\", function(s) return s.x == 0 end)\n" ++
  "invariant(\"late\", function(s) assert(s.x == 0) return true end)").toUTF8

/-- Violations are reported by cause. A step of an enabled actor is taken under any outcome in range, and the violation
is a crash for the first guard of a pending step that raises an error after it. Where no guard does, it is an assertion
failure with the text of the error that the effect raised, else it names the first invariant that does not hold, else
there is none. -/
theorem violation_by_cause {m : Model σ φ} {x : Machine σ} (hx : m.Sized x) {i : Nat} {step : StepDecl φ}
    (hpending : m.pending x i = some step) (henabled : isEnabled x i = true) {outcome : Int} (hlow : 0 ≤ outcome)
    (hhigh : outcome < step.choices) :
    ∃ r x', m.execute (idAt i) outcome x = (.ok r, x') ∧ m.Sized x' ∧ x'.positions = x.positions.modify i (· + 1) ∧
      (∀ v s, m.Faults step outcome x.script v s →
        (∀ e, m.GuardRaises x'.positions s e → r.violation = some ⟨.crash, e.message⟩) ∧
        (m.GuardsAnswer x'.positions s → r.violation = v)) ∧
      ∃ v s, m.Faults step outcome x.script v s ∧
        ((∃ e, m.GuardRaises x'.positions s e) ∨ m.GuardsAnswer x'.positions s) := by
  have hexecute := execute_eq_takeStep hpending henabled hlow hhigh
  have hpositions := takeStep_positions m x i step (step.transition (idAt i) outcome)
  have hmoved : (x.positions.modify i (· + 1)).length = m.actors.length := by simpa using hx.positions
  refine ⟨_, _, hexecute, hx.takeStep _ _ _, hpositions, fun v s hfaults => ⟨?_, ?_⟩, ?_⟩ <;> rw [hpositions]
  · rintro e ⟨n, g, cause, s', hstops, hg, rfl⟩
    rw [takeStep_violation hfaults, testGuards_of_stops hmoved hx.enabled hstops hg]
    rfl
  · rintro ⟨s', hanswers⟩
    rw [takeStep_violation hfaults, testGuards_of_answers hmoved hx.enabled hanswers]
    rfl
  · obtain ⟨v, s, hfaults⟩ := exists_faults m step outcome x.script
    exact ⟨v, s, hfaults, guardRaises_or_guardsAnswer m _ s⟩

theorem violation_by_cause_brokenSecond :
    ∃ (m : Model Store Value) (x x' : Machine Store) (step : StepDecl Value) (r : StepResult) (s : Store),
      load "m" brokenSecond = .ok (m, x) ∧ m.pending x 0 = some step ∧ isEnabled x 0 = true ∧ 0 < step.choices ∧
      m.execute 1 0 x = (.ok r, x') ∧ m.Faults step 0 x.script r.violation s ∧ m.GuardsAnswer x'.positions s ∧
      r.violation = some ⟨.invariant, "zero"⟩ := by
  let check : Model Store Value → Machine Store → Bool := fun m x =>
    ((m.pending x 0).any fun step => decide (0 < step.choices)) && isEnabled x 0 &&
      (m.execute 1 0 x).1.toOption.any fun r => decide (r.violation = some ⟨.invariant, "zero"⟩)
  obtain ⟨m, x, hload, hcheck⟩ : ∃ m x, load "m" brokenSecond = .ok (m, x) ∧ check m x = true :=
    exists_load (by decide +kernel)
  simp only [check, Bool.and_eq_true] at hcheck
  obtain ⟨⟨hpending, henabled⟩, hexecuted⟩ := hcheck
  obtain ⟨step, hpending, hchoices⟩ := (Option.any_eq_true _ _).mp hpending
  obtain ⟨r', hr', hviolation⟩ := exists_ok_of_toOption hexecuted
  rw [decide_eq_true_eq] at hchoices hviolation
  obtain ⟨s₀, hs₀, hstart⟩ := load_eq_ok hload
  have hsized := sized_of_called interpreter_lawful hs₀ hstart .start
  obtain ⟨r, x', hexecute, -, -, hcauses, v, s, hfaults, hguards⟩ :=
    violation_by_cause hsized hpending henabled le_rfl hchoices
  obtain rfl : r' = r := Except.ok.inj (hr'.symm.trans (congrArg Prod.fst hexecute))
  rcases hguards with ⟨e, hraises⟩ | hanswer
  · have hcrash := (hcauses v s hfaults).1 e hraises
    rw [hviolation] at hcrash
    cases hcrash
  · have hv := (hcauses v s hfaults).2 hanswer
    exact ⟨m, x, x', step, _, s, hload, hpending, henabled, hchoices, hexecute, hv ▸ hfaults, hanswer, hviolation⟩

/-- An error of a guard hides that of the effect: the effect fails, and a crash is reported. -/
theorem guard_error_hides_assertion :
    ∃ (m : Model Store Value) (x x' : Machine Store) (step : StepDecl Value) (r : StepResult) (s : Store),
      load "m" failedThenGuarded = .ok (m, x) ∧ m.pending x 0 = some step ∧ isEnabled x 0 = true ∧ 0 < step.choices ∧
      m.execute 1 0 x = (.ok r, x') ∧ m.Faults step 0 x.script (some ⟨.assertion, "runtime error: first"⟩) s ∧
      r.violation = some ⟨.crash, "guard of a step 2: runtime error: second"⟩ := by
  let check : Model Store Value → Machine Store → Bool := fun m x =>
    ((m.pending x 0).any fun step => decide (0 < step.choices) &&
      step.run.any fun f => decide ((m.host.run f 0 x.script).1 = .error "runtime error: first")) && isEnabled x 0 &&
      (m.execute 1 0 x).1.toOption.any fun r =>
        decide (r.violation = some ⟨.crash, "guard of a step 2: runtime error: second"⟩)
  obtain ⟨m, x, hload, hcheck⟩ : ∃ m x, load "m" failedThenGuarded = .ok (m, x) ∧ check m x = true :=
    exists_load (by decide +kernel)
  simp only [check, Bool.and_eq_true] at hcheck
  obtain ⟨⟨hpending, henabled⟩, hexecuted⟩ := hcheck
  obtain ⟨step, hpending, hstep⟩ := (Option.any_eq_true _ _).mp hpending
  obtain ⟨hchoices, hrun⟩ := Bool.and_eq_true_iff.mp hstep
  obtain ⟨f, hf, hraised⟩ := (Option.any_eq_true _ _).mp hrun
  obtain ⟨r, hr, hviolation⟩ := exists_ok_of_toOption hexecuted
  rw [decide_eq_true_eq] at hchoices hviolation hraised
  exact ⟨m, x, _, step, r, _, hload, hpending, henabled, hchoices, Prod.ext hr rfl,
    .assertion (.raised hf (Prod.ext hraised rfl)), hviolation⟩

end Interleave.Model
