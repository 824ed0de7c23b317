import Interleave.RunStore
import Interleave.Proofs.FullSearch
import Interleave.Proofs.Mirroring
import Interleave.Proofs.TraceText

/-! What a search reports can be replayed. A replay builds its states without storing the transitions taken, so
it may know of more outcomes than the search did, but it has the same actors alive and enabled. -/

namespace Interleave

variable {σ κ π : Type}

namespace Assoc

section Matches

variable {α β γ : Type} [DecidableEq α] {R : β → γ → Prop} {m : List (α × β)} {m' : List (α × γ)}

def Matches (R : β → γ → Prop) (m : List (α × β)) (m' : List (α × γ)) : Prop :=
  List.Forall₂ (fun e e' => e.1 = e'.1 ∧ R e.2 e'.2) m m'

theorem Matches.get? (h : Matches R m m') (k : α) : Option.Rel R (Assoc.get? k m) (Assoc.get? k m') := by
  induction h with
  | nil => exact .none
  | cons he _ ih =>
    rw [get?_cons, get?_cons, he.1]
    split_ifs
    · exact .some he.2
    · exact ih

theorem Matches.insert [LT α] [DecidableLT α] (h : Matches R m m') (k : α) {v : β} {v' : γ} (hv : R v v') :
    Matches R (Assoc.insert k v m) (Assoc.insert k v' m') := by
  induction h with
  | nil => exact .cons ⟨rfl, hv⟩ .nil
  | cons he hrest ih =>
    simp only [Assoc.insert, he.1]
    split_ifs
    · exact .cons ⟨rfl, hv⟩ (.cons ⟨rfl, he.2⟩ hrest)
    · exact .cons ⟨rfl, hv⟩ hrest
    · exact .cons ⟨rfl, he.2⟩ ih

theorem Matches.erase (h : Matches R m m') (k : α) : Matches R (Assoc.erase k m) (Assoc.erase k m') := by
  induction h with
  | nil => exact .nil
  | cons he hrest ih =>
    simp only [Assoc.erase, he.1]
    split_ifs
    · exact hrest
    · exact .cons ⟨rfl, he.2⟩ ih

theorem Matches.modify_left (h : Matches R m m') (k : α) {f : β → β} (hf : ∀ v v', R v v' → R (f v) v') :
    Matches R (Assoc.modify k f m) m' := by
  induction h with
  | nil => exact .nil
  | cons he hrest ih =>
    simp only [Assoc.modify]
    split_ifs
    · exact .cons ⟨he.1, hf _ _ he.2⟩ hrest
    · exact .cons he ih

end Matches

end Assoc

structure ActorStatus.Relaxed (st st' : ActorStatus) : Prop where
  enabled : st.enabled = st'.enabled
  one_le_limit : 1 ≤ st.limit
  limit_le : st.limit ≤ st'.limit

theorem ActorStatus.Fresh.relaxed {st : ActorStatus} (h : st.Fresh) : st.Relaxed st := ⟨rfl, h.one_le_limit, le_rfl⟩

namespace State

def Relaxed (s s' : State) : Prop := Assoc.Matches ActorStatus.Relaxed s.actors s'.actors

theorem Fresh.relaxed {s : State} (h : s.Fresh) : s.Relaxed s :=
  List.forall₂_same.mpr fun e he => ⟨rfl, (h.fresh e he).relaxed⟩

theorem Relaxed.after {s s' : State} (h : s.Relaxed s') (htransition : s'.transition = none) (num : Int)
    (r : StepResult) : (s.after r).Relaxed (s'.successor num r) := by
  -- A step keeps states related, although only the first one expects a single outcome of the actor that moved.
  have hinherited : Assoc.Matches ActorStatus.Relaxed
      (s.actors.map fun e => (e.1, ActorStatus.fresh e.2.enabled e.2.limit))
      (s'.actors.map fun e => (e.1, ActorStatus.fresh e.2.enabled e.2.limit)) := by
    rw [Assoc.Matches, List.forall₂_map_left_iff, List.forall₂_map_right_iff]
    exact List.Forall₂.imp (fun e e' he => ⟨he.1, he.2.enabled, le_max_left _ _,
      max_le_max le_rfl he.2.limit_le⟩) h
  have hmoved := hinherited.modify_left r.transition.actor (f := fun st => { st with limit := 1 })
    fun st st' hst => ⟨hst.enabled, le_rfl, hst.one_le_limit.trans hst.limit_le⟩
  unfold Relaxed State.after successor successorActors
  dsimp only
  rw [htransition]
  refine List.foldl_rel (List.foldl_rel (List.foldl_rel hmoved ?_) ?_) ?_
  · exact fun a _ m m' hm => hm.insert a.id (ActorStatus.fresh_fresh true a.outcomes).relaxed
  · intro a _ m m' hm
    have hget := hm.get? a
    cases hst : Assoc.get? a m <;> cases hst' : Assoc.get? a m' <;> rw [hst, hst'] at hget
    · exact hm.insert a (ActorStatus.fresh_fresh false 1).relaxed
    · cases hget
    · cases hget
    · cases hget with
      | some hrel => exact hm.insert a ⟨rfl, hrel.one_le_limit, hrel.limit_le⟩
  · exact fun a _ m m' hm => hm.erase a

theorem Relaxed.blocked {s s' : State} (h : s.Relaxed s') : Replay.blocked s' = Replay.blocked s := by
  have henabled : s.enabledIds.isEmpty = s'.enabledIds.isEmpty := by
    unfold enabledIds
    obtain ⟨num, actors, transition⟩ := s
    obtain ⟨num', actors', transition'⟩ := s'
    change Assoc.Matches _ actors actors' at h
    induction h with
    | nil => rfl
    | cons he _ ih =>
      simp only [List.filter_cons, he.2.enabled]
      split_ifs
      · rfl
      · exact ih
  have hcount : s.actors.length = s'.actors.length := h.length_eq
  have hempty : s.actors.isEmpty = s'.actors.isEmpty := by
    rw [Bool.eq_iff_iff, List.isEmpty_iff_length_eq_zero, List.isEmpty_iff_length_eq_zero, hcount]
  rw [Replay.blocked, Replay.blocked, isDeadlock, isDeadlock, actorCount, actorCount, henabled, hempty, hcount]

theorem Relaxed.not_refused {s s' : State} (h : s.Relaxed s') {x : Step} (hx : s.offers x = true) (index : Nat) :
    Replay.refusal? s' index x = none := by
  obtain ⟨st, hst, hen, -, hlt⟩ := offers_iff.mp hx
  have hget := h.get? x.actor
  rw [show Assoc.get? x.actor s.actors = some st from hst] at hget
  unfold Replay.refusal? status?
  cases hst' : Assoc.get? x.actor s'.actors with
  | none =>
    rw [hst'] at hget
    cases hget
  | some st' =>
    rw [hst'] at hget
    cases hget with
    | some hrel =>
      have hlt' : ¬ st'.limit ≤ x.outcome := not_le.mpr (hlt.trans_le hrel.limit_le)
      simp [← hrel.enabled, hen, hlt']

end State

namespace Driver

def uninterrupted (drv : Driver σ κ) : Driver σ κ := { drv with interrupted := fun _ => none }

inductive Unbroken (drv : Driver σ κ) (root : Node σ) : List Step → Node σ → Prop
  | root : Unbroken drv root [] root
  | step {path : List Step} {n n' : Node σ} {x : Step} (h : Unbroken drv root path n)
      (hn : n.violation = none) (hadv : drv.advance? n x = some n') : Unbroken drv root (path ++ [x]) n'

variable {drv : Driver σ κ} {root n : Node σ} {path : List Step}

theorem Unbroken.walk (h : drv.Unbroken root path n) : drv.walk? root path = some n := by
  induction h with
  | root => rfl
  | step _ _ hadv ih =>
    rw [walk?_snoc, ih]
    exact hadv

end Driver

namespace Replay

def behind (ts : List Transition) (ended : Replayed × Option ReplayError × σ) :
    Replayed × Option ReplayError × σ :=
  ({ ended.1 with transitions := ts ++ ended.1.transitions }, ended.2)

variable {drv : Driver σ κ} {view : σ → π} {root n n' : Node σ} {path : List Step} {x : Step} {s : State}
  {m : σ}

theorem follow_cons (hdet : drv.Deterministic view) (hadv : drv.advance? n x = some n')
    (hstate : n.state.Relaxed s) (htransition : s.transition = none) (hview : view m = view n.machine)
    (index : Nat) :
    ∃ r m', n'.trace = n.trace ++ [r.transition] ∧ n'.violation = r.violation ∧
      n'.state.Relaxed (s.successor (index + 1) r) ∧ view m' = view n'.machine ∧
      ∀ rest, follow drv.uninterrupted index s (x :: rest) m = match r.violation with
        | some v => (⟨[r.transition], some v⟩, none, m')
        | none => behind [r.transition]
            (follow drv.uninterrupted (index + 1) (s.successor (index + 1) r) rest m') := by
  obtain ⟨hoff, r, hexec, hn', htrace, hviolation⟩ := Driver.advance?_eq_some hadv
  obtain ⟨hanswer, hview'⟩ := hdet.execute x.actor x.outcome hview
  rw [hexec] at hanswer hview'
  obtain ⟨m', hrun⟩ : ∃ m', drv.execute x.actor x.outcome m = (.ok r, m') :=
    ⟨(drv.execute x.actor x.outcome m).2, Prod.ext hanswer rfl⟩
  rw [hrun] at hview'
  have hactor : r.transition.actor = x.actor := congrArg Step.actor (hdet.echo (congrArg Prod.fst hrun))
  have hstep : executeStep drv.uninterrupted index x m = (.ok r, m') := by
    rw [executeStep, show drv.uninterrupted.execute x.actor x.outcome m = (.ok r, m') from hrun]
    exact if_pos hactor
  refine ⟨r, m', htrace, hviolation, hn' ▸ hstate.after htransition _ r, hview', fun rest => ?_⟩
  rw [follow, show drv.uninterrupted.interrupted m = none from rfl]
  simp only [hstate.not_refused hoff, hstep]
  rfl

theorem follow_unbroken (hdet : drv.Deterministic view) (h : drv.Unbroken root path n)
    (hn : n.violation = none) (hroot : root.trace = []) (hfresh : root.state.Fresh)
    (hview : view m = view root.machine) :
    ∃ s m', n.state.Relaxed s ∧ s.transition = none ∧ view m' = view n.machine ∧
      ∀ rest, follow drv.uninterrupted 0 root.state (path ++ rest) m =
        behind n.trace (follow drv.uninterrupted path.length s rest m') := by
  induction h with
  | root =>
    refine ⟨root.state, m, hfresh.relaxed, hfresh.transition, hview, fun rest => ?_⟩
    rw [hroot]
    rfl
  | @step path n n' x _ hn₁ hadv ih =>
    obtain ⟨s, m₁, hstate, htransition, hview₁, hfollow⟩ := ih hn₁
    obtain ⟨r, m₂, htrace, hviolation, hstate₂, hview₂, hcons⟩ :=
      follow_cons hdet hadv hstate htransition hview₁ path.length
    refine ⟨_, m₂, hstate₂, rfl, hview₂, fun rest => ?_⟩
    rw [List.append_assoc, List.singleton_append, hfollow, hcons, ← hviolation, hn, List.length_append, htrace]
    simp only [behind, List.append_assoc]
    rfl

end Replay

/-- Replayed from the initial state of the program, the trace executes exactly `ts` and ends in `v`. -/
def Driver.Replays (drv : Driver σ κ) (view : σ → π) (m : σ) (trace : RecordTrace) (ts : List Transition)
    (v : Option Violation) : Prop :=
  ∀ m₀, view m₀ = view m → ∃ m', Replay.run drv.uninterrupted trace m₀ = (some ⟨ts, v⟩, none, m')

theorem Driver.Unbroken.replays {drv : Driver σ κ} {view : σ → π} (hdet : drv.Deterministic view) {m : σ}
    {root n : Node σ} {path : List Step} (hroot : drv.root? m = some root) (h : drv.Unbroken root path n) :
    drv.Replays view m path n.trace (n.violation.or (Replay.blocked n.state)) := by
  obtain ⟨actors, hinit, hstate, htrace, hviolation⟩ := Driver.root?_eq_some hroot
  have hfresh := Driver.root?_fresh hroot
  intro m₀ hm₀
  -- The initial actors are the same, and so is the state that a replay starts from.
  obtain ⟨hanswer, hview⟩ := hdet.initialActors hm₀
  rw [hinit] at hanswer hview
  have hrun : Replay.run drv.uninterrupted path m₀ = (some
      (Replay.follow drv.uninterrupted 0 root.state path (drv.initialActors m₀).2).1,
      (Replay.follow drv.uninterrupted 0 root.state path (drv.initialActors m₀).2).2) := by
    rw [Replay.run, show drv.uninterrupted.initialActors m₀ = (.ok actors, (drv.initialActors m₀).2) from
      Prod.ext hanswer rfl, hstate]
  rw [hrun]
  cases h with
  | root =>
    rw [Replay.follow, hviolation, htrace]
    exact ⟨_, rfl⟩
  | @step path n₁ _ x h₁ hn₁ hadv =>
    obtain ⟨s, m₁, hrelaxed, htransition, hview₁, hfollow⟩ :=
      Replay.follow_unbroken hdet h₁ hn₁ htrace hfresh hview
    obtain ⟨r, m₂, htrace₂, hviolation₂, hrelaxed₂, -, hcons⟩ :=
      Replay.follow_cons hdet hadv hrelaxed htransition hview₁ path.length
    rw [hfollow, hcons, htrace₂, hviolation₂]
    cases r.violation with
    | some v => exact ⟨m₂, rfl⟩
    | none =>
      rw [← hrelaxed₂.blocked, Replay.follow]
      exact ⟨m₂, rfl⟩

def Actor.Fits (a : Actor) : Prop := Text.IsWord a.id ∧ a.outcomes < 2 ^ 63

/-- A driver describes the actors by words. -/
structure Driver.Words (drv : Driver σ κ) : Prop where
  initialActors : ∀ {m actors}, (drv.initialActors m).1 = .ok actors → ∀ a ∈ actors, a.Fits
  execute : ∀ {a outcome m r}, (drv.execute a outcome m).1 = .ok r → ∀ b ∈ r.enabled, b.Fits

namespace State

def Words (s : State) : Prop :=
  ∀ e ∈ s.actors, e.2.enabled = true → Text.IsWord e.1 ∧ e.2.limit < 2 ^ 63

theorem Words.writable {s : State} (h : s.Words) {x : Step} (hx : s.offers x = true) : x.Writable := by
  obtain ⟨st, hst, hen, h0, hlt⟩ := offers_iff.mp hx
  obtain ⟨hactor, hlimit⟩ := h _ (Assoc.mem_of_get? hst) hen
  exact ⟨hactor, ⟨by omega, hlt.trans hlimit⟩, h0⟩

theorem fresh_words {a : Actor} (h : a.Fits) (enabled : Bool) :
    Text.IsWord a.id ∧ (ActorStatus.fresh enabled a.outcomes).limit < 2 ^ 63 :=
  ⟨h.1, max_lt (by decide) h.2⟩

theorem new_words {actors : List Actor} (h : ∀ a ∈ actors, a.Fits) (num : Int) : (new num actors).Words := by
  let P (m : List (ActorId × ActorStatus)) : Prop :=
    ∀ e ∈ m, e.2.enabled = true → Text.IsWord e.1 ∧ e.2.limit < 2 ^ 63
  refine List.foldlRecOn (motive := P) _ _ nofun fun m hm d hd e he => ?_
  rcases Assoc.mem_insert he with rfl | he
  · obtain ⟨a, ha, rfl⟩ := List.mem_map.mp hd
    exact fun _ => fresh_words (h a ha) _
  · exact hm e he

theorem Words.after {s : State} (h : s.Words) {r : StepResult} (hr : ∀ a ∈ r.enabled, a.Fits) :
    (s.after r).Words := by
  let P (m : List (ActorId × ActorStatus)) : Prop :=
    ∀ e ∈ m, e.2.enabled = true → Text.IsWord e.1 ∧ e.2.limit < 2 ^ 63
  have hinsert : ∀ m a st, P m → (st.enabled = true → Text.IsWord a ∧ st.limit < 2 ^ 63) →
      P (Assoc.insert a st m) := by
    intro m a st hm hst e he
    rcases Assoc.mem_insert he with rfl | he
    · exact hst
    · exact hm e he
  have hinherited : P (s.actors.map fun e => (e.1, ActorStatus.fresh e.2.enabled e.2.limit)) := by
    intro e he hen
    obtain ⟨e', he', rfl⟩ := List.mem_map.mp he
    obtain ⟨hword, hlimit⟩ := h e' he' hen
    exact ⟨hword, max_lt (by decide) hlimit⟩
  have hmoved : P (Assoc.modify r.transition.actor (fun st => { st with limit := 1 })
      (s.actors.map fun e => (e.1, ActorStatus.fresh e.2.enabled e.2.limit))) := by
    intro e he hen
    obtain he | ⟨st, hst, rfl⟩ := Assoc.mem_modify he
    · exact hinherited e he hen
    · exact ⟨(hinherited _ hst hen).1, show (1 : Int) < 2 ^ 63 by decide⟩
  refine List.foldlRecOn (motive := P) _ _ (List.foldlRecOn (motive := P) _ _
    (List.foldlRecOn (motive := P) _ _ hmoved ?_) ?_) ?_
  · exact fun m hm a ha => hinsert m _ _ hm fun _ => fresh_words (hr a ha) _
  · intro m hm a _
    split
    · exact hinsert m _ _ hm nofun
    · exact hinsert m _ _ hm nofun
  · exact fun m hm a _ e he => hm e (Assoc.mem_erase he)

end State

theorem Driver.Words.writable {drv : Driver σ κ} (hwords : drv.Words) {n n' : Node σ} {path : List Step}
    (hn : n.state.Words) (h : drv.walk? n path = some n') : ∀ x ∈ path, x.Writable := by
  induction path generalizing n with
  | nil => exact nofun
  | cons x path ih =>
    obtain ⟨n₁, hadv, hwalk⟩ := Driver.walk?_cons_eq_some.mp h
    obtain ⟨hoff, r, hexec, hstate, -⟩ := Driver.advance?_eq_some hadv
    have hn₁ : n₁.state.Words := hstate ▸ hn.after (hwords.execute (congrArg Prod.fst hexec))
    exact List.forall_mem_cons.mpr ⟨hn.writable hoff, ih hn₁ hwalk⟩

namespace Trail

variable {drv : Driver σ κ} {view : σ → π} {o : Options} {root : Node σ}

theorem Sound.unbroken {p : Spot σ κ} {below : List (Spot σ κ)}
    (h : Sound drv view o root (p :: below)) : drv.Unbroken root (path below) p.node := by
  induction below generalizing p with
  | nil =>
    cases h with
    | root _ hnode => exact hnode ▸ .root
  | cons q below ih =>
    cases h with
    | link hbelow _ hout hadv _ _ =>
      rw [path, Spot.outgoing, hout]
      exact .step (ih hbelow) (Node.violation_eq_none hbelow.fits.notFailing) hadv

def Cuts (drv : Driver σ κ) (o : Options) (root : Node σ) (trace : List Transition) : Prop :=
  ∃ path n, drv.Unbroken root path n ∧ ¬ n.Failing ∧ n.trace = trace ∧ (path.length : Int) = o.maxDepth

theorem Sound.cuts {p : Spot σ κ} {below : List (Spot σ κ)} (h : Sound drv view o root (p :: below))
    (hbound : o.withinDepth below.length = false) : Cuts drv o root p.node.trace :=
  ⟨path below, p.node, h.unbroken, h.fits.notFailing, rfl, h.length_eq_bound hbound⟩

variable [Snapshot κ]

theorem Visits.cuts {T : Trail σ κ} (h : Visits drv view o root T) (hroot : root.state.Fresh) :
    ∀ trace, T.truncated = some trace → Cuts drv o root trace := by
  refine (h.induction (P := fun T => ∀ trace, T.truncated = some trace → Cuts drv o root trace) hroot ?_ ?_).2
  · intro T hstarts trace htrace
    rw [hstarts.truncated] at htrace
    cases htrace
  · intro T T' hs hT hshift trace htrace
    cases hshift with
    | entered => exact hT trace htrace
    | skipped => exact hT trace htrace
    | @cut p below visited truncated hbound _ =>
      cases truncated with
      | some _ => exact hT trace htrace
      | none =>
        cases htrace
        exact hs.cuts hbound
    | unwound _ hunwinds =>
      rw [hunwinds.truncated_eq] at htrace
      exact hT trace htrace

end Trail

theorem Trail.reported [Snapshot κ] {drv : Driver σ κ} {view : σ → π} (hdet : drv.Deterministic view)
    {o : Options} {m : σ} {fuel : Nat} {s : Search σ κ} (hrun : Search.run drv o fuel m = some (none, s)) :
    ∃ root, drv.root? m = some root ∧
      ((s.result.outcome = .violation ∧ ∃ path n, drv.Unbroken root path n ∧ n.Failing ∧
          n.trace = s.result.trace ∧ s.result.violation = some (Trail.blame n)) ∨
        (s.result.outcome = .nonTermination ∧ Trail.Cuts drv o root s.result.trace) ∨
        (s.result.outcome = .noViolation ∧ s.result.trace = [])) := by
  have hdone := Trail.run_phase hrun
  obtain ⟨root, hroot, hends⟩ := Trail.run_cases hdet hrun
  refine ⟨root, hroot, ?_⟩
  have hviolating : ∀ v, s.violation = some v → s.result.outcome = .violation ∧ s.result.trace = s.trace := by
    intro v hv
    have hout : s.outcome = .violation := by simp [Search.outcome, hv]
    exact ⟨hout, by simp [Search.result, Search.reportedTrace, hdone, hout]⟩
  rcases hends with ⟨T, hvisits, -, hviolation, htruncated⟩ | ⟨hfail, -, hv, htrace, -⟩ |
    ⟨T, hvisits, p, below, x, t, n, p', hspots, htakes, hfail, -, hv, htrace, -⟩
  · right
    cases hcut : s.truncated with
    | none =>
      have hout : s.outcome = .noViolation := by simp [Search.outcome, hviolation, hcut]
      exact .inr ⟨hout, by simp [Search.result, Search.reportedTrace, hdone, hout]⟩
    | some trace =>
      have hout : s.outcome = .nonTermination := by simp [Search.outcome, hviolation, hcut]
      have htrace : s.result.trace = trace := by
        simp [Search.result, Search.reportedTrace, hdone, hout, hcut]
      exact .inl ⟨hout, htrace ▸ hvisits.cuts (Driver.root?_fresh hroot) trace (htruncated ▸ hcut)⟩
  · obtain ⟨hout, hresult⟩ := hviolating _ hv
    exact .inl ⟨hout, [], root, .root, hfail, by rw [hresult]; exact htrace.symm, hv⟩
  · obtain ⟨hout, hresult⟩ := hviolating _ hv
    have hs := hvisits.sound (Driver.root?_fresh hroot)
    rw [hspots] at hs
    exact .inl ⟨hout, path below ++ [x], n,
      .step hs.unbroken (Node.violation_eq_none hs.fits.notFailing) htakes.advance, hfail,
      by rw [hresult]; exact htrace.symm, hv⟩

/-- What a search reports can be written down and replayed. The trace of a violation leads again to the violation
that the driver reported, or to a deadlock; the trace of a search that has not ended is as long as the depth bound
and is executed without a violation. -/
theorem counterexample_replays [Snapshot κ] {drv : Driver σ κ} {view : σ → π} (hdet : drv.Deterministic view)
    (hwords : drv.Words) {o : Options} {m : σ} {fuel : Nat} {s : Search σ κ}
    (hrun : Search.run drv o fuel m = some (none, s)) :
    RecordTrace.parse (RecordTrace.render s.result.record) = .ok s.result.record ∧
    (∀ model strategy reduction startedAt duration, RecordTrace.parse (RunRecord.ofResult model strategy reduction
      s.result startedAt duration).record = .ok s.result.record) ∧
    (s.result.outcome = .violation → ∃ n v, drv.execution? m s.result.record = some n ∧
      drv.Replays view m s.result.record s.result.trace (some v) ∧
      ((n.violation = some v ∧ s.result.violation = some v) ∨
        (n.violation = none ∧ n.state.isDeadlock = true ∧
          s.result.violation = some (Search.deadlock n.state) ∧ v.kind = .deadlock))) ∧
    (s.result.outcome = .nonTermination → (s.result.trace.length : Int) = o.maxDepth ∧
      drv.Replays view m s.result.record s.result.trace none) := by
  obtain ⟨root, hroot, hreported⟩ := Trail.reported hdet hrun
  obtain ⟨actors, hinit, hstate, hnil, -⟩ := Driver.root?_eq_some hroot
  have hfits : ∀ a ∈ actors, a.Fits := hwords.initialActors (congrArg Prod.fst hinit)
  have hroot_words : root.state.Words := hstate ▸ State.new_words hfits 0
  have hrecord : ∀ {path n}, drv.Unbroken root path n → n.trace = s.result.trace → s.result.record = path := by
    intro path n hpath htrace
    rw [Result.record, RecordTrace.ofTransitions, ← htrace, hdet.walk?_steps hpath.walk, hnil]
    rfl
  have hparse : RecordTrace.parse (RecordTrace.render s.result.record) = .ok s.result.record := by
    refine RecordTrace.parse_of_render ?_
    rcases hreported with ⟨-, path, n, hpath, -, htrace, -⟩ | ⟨-, path, n, hpath, -, htrace, -⟩ | ⟨-, htrace⟩
    · exact hrecord hpath htrace ▸ hwords.writable hroot_words hpath.walk
    · exact hrecord hpath htrace ▸ hwords.writable hroot_words hpath.walk
    · rw [Result.record, htrace]
      exact nofun
  refine ⟨hparse, fun _ _ _ _ _ => hparse, fun hout => ?_, fun hout => ?_⟩
  · rcases hreported with ⟨-, path, n, hpath, hfail, htrace, hblame⟩ | ⟨hother, -⟩ | ⟨hother, -⟩
    · have hreplays := hpath.replays hdet hroot
      rw [hrecord hpath htrace, Driver.execution?_of_root? hroot, ← htrace, hblame]
      -- The last step reports the violation, or nothing can move after it.
      cases hv : n.violation with
      | some v =>
        rw [hv] at hreplays
        exact ⟨n, v, hpath.walk, hreplays, .inl ⟨hv, by rw [Trail.blame, hv]; rfl⟩⟩
      | none =>
        have hdead : n.state.isDeadlock = true := hfail.resolve_left (by simp [hv])
        rw [hv, Option.none_or, Replay.blocked, if_pos hdead] at hreplays
        exact ⟨n, _, hpath.walk, hreplays, .inr ⟨hv, hdead, by rw [Trail.blame, hv]; rfl, rfl⟩⟩
    · simp [hout] at hother
    · simp [hout] at hother
  · rcases hreported with ⟨hother, -⟩ | ⟨-, path, n, hpath, hfail, htrace, hlength⟩ | ⟨hother, -⟩
    · simp [hout] at hother
    · have hreplays := hpath.replays hdet hroot
      have hdead : ¬ n.state.isDeadlock = true := fun hdead => hfail (.inr hdead)
      have hsteps := congrArg List.length (hrecord hpath htrace)
      rw [Result.record, RecordTrace.ofTransitions, List.length_map] at hsteps
      rw [Node.violation_eq_none hfail, Option.none_or, Replay.blocked, if_neg hdead] at hreplays
      rw [hrecord hpath htrace, hsteps, ← htrace]
      exact ⟨hlength, hreplays⟩
    · simp [hout] at hother

theorem Program.driver_words {p : Program} (hlength : (p.actors.length : Int) < 2 ^ 63)
    (hchoices : ∀ steps ∈ p.actors, ∀ step ∈ steps, step.choices < 2 ^ 63) : p.driver.Words := by
  have hfits : ∀ {c i step} enabled, p.pending c i = some step → Actor.Fits ⟨idAt i, enabled, step.choices⟩ := by
    intro c i step enabled hi
    have hlt := pending_lt hi
    obtain ⟨steps, hsteps, hstep⟩ := mem_of_pending hi
    refine ⟨⟨?_, ?_⟩, hchoices steps hsteps step hstep⟩ <;> dsimp only [idAt] <;> omega
  constructor
  · rintro m actors ⟨⟩ a ha
    obtain ⟨i, step, hi, rfl⟩ := mem_aliveActors.mp ha
    exact hfits _ hi
  · intro a outcome m r h b hb
    simp only [Program.driver, Program.execute] at h
    split at h
    · cases h
    · split at h
      · cases h
      · split_ifs at h
        cases h
        obtain ⟨j, -, -, hchange⟩ := mem_result_enabled hb
        unfold changeAt at hchange
        split at hchange
        · split_ifs at hchange
        · rename_i actor hactor
          split_ifs at hchange
          cases hchange
          obtain ⟨step, hj, rfl⟩ := Option.map_eq_some_iff.mp hactor
          exact hfits _ hj

theorem counterexample_replays_checkedCounter :
    ∃ s, Search.run Program.checkedCounter.driver ⟨2, .none, 0, 0, false⟩ 9 Program.checkedCounter.initial =
        some (none, s) ∧ RecordTrace.render s.result.record = "2;1" ∧
      RecordTrace.parse "2;1" = .ok s.result.record ∧
      ∃ v, Program.checkedCounter.driver.Replays id Program.checkedCounter.initial s.result.record
        s.result.trace (some v) := by
  obtain ⟨s, hrun, hout, htext⟩ : ∃ s, Search.run Program.checkedCounter.driver ⟨2, .none, 0, 0, false⟩ 9
      Program.checkedCounter.initial = some (none, s) ∧ s.result.outcome = .violation ∧
      RecordTrace.render s.result.record = "2;1" := ⟨_, rfl, rfl, by decide⟩
  have hwords : Program.checkedCounter.driver.Words := Program.driver_words (by decide) (by decide)
  obtain ⟨hparse, -, hviolation, -⟩ :=
    counterexample_replays Program.checkedCounter.driver_deterministic hwords hrun
  obtain ⟨n, v, -, hreplays, -⟩ := hviolation hout
  exact ⟨s, hrun, htext, htext ▸ hparse, v, hreplays⟩

end Interleave
