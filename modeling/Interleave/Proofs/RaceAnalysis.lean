import Interleave.Proofs.HappensBefore
import Interleave.Proofs.Operations

/-! Race analysis is exact: in the course of every reduced search, whatever the driver answers, the analysis of a
transition marks the frames that race with it and nothing else. -/

namespace Interleave

def positionsOf (ts : List Transition) (a : ActorId) : Set Nat := {i | ∃ u, ts[i]? = some u ∧ u.actor = a}

/-- The transition at a position races with a later one: they depend on each other, and the actor of the later one
has not moved since in a way that was ordered after the earlier one. -/
def Races (ts : List Transition) (t : Transition) (i : Nat) : Prop :=
  ∃ u, ts[i]? = some u ∧ u.actor ≠ t.actor ∧ t.dependent u = true ∧
    ∀ m, IsGreatest (positionsOf ts t.actor) m → ¬ HappensBefore ts i m

/-- The marks that a race with a transition of `a` asks for: for `a` itself if it is enabled, for all enabled actors
otherwise. Actors that are done stay as they are. -/
def State.scheduled (s : State) (a : ActorId) : State :=
  { s with actors := s.actors.map fun e =>
      (e.1, if e.2.enabled && !e.2.done && (e.1 = a || !s.isEnabled a) then { e.2 with todo := true } else e.2) }

section Frames

variable {κ : Type} {f g : Frame κ} {fs fs' : List (Frame κ)} {t u : Transition} {a : ActorId} {i : Nat}

theorem ActorStatus.markTodo_of_not_done {st : ActorStatus} (h : st.done = false) :
    st.markTodo = { st with todo := true } := by
  rw [markTodo, h]
  rfl

theorem State.considerAll_eq_scheduled {s : State} (ha : s.isEnabled a = false) : s.considerAll = s.scheduled a := by
  rw [considerAll, scheduled, ha]
  congr 1
  refine List.map_congr_left fun e _ => ?_
  dsimp only
  cases hdone : e.2.done
  · simp [ActorStatus.markTodo_of_not_done hdone, hdone]
  · simp

namespace Race

theorem schedule_eq_scheduled (t earlier : Transition) {st : State} (hw : st.WellFormed) :
    (schedule t earlier st).1 = st.scheduled t.actor := by
  unfold schedule
  split
  · rename_i status hstatus
    have henabled : st.isEnabled t.actor = status.enabled := by simp [State.isEnabled, hstatus]
    have honly : ∀ e ∈ st.actors, e.1 = t.actor → e.2 = status := by
      intro e he heq
      have hget := (Assoc.get?_eq_some_iff hw.ascending).mpr he
      rw [heq] at hget
      exact Option.some.inj (hget.symm.trans hstatus)
    split_ifs with hdisabled hdone
    · have hdisabled : status.enabled = false := by simpa using hdisabled
      exact State.considerAll_eq_scheduled (henabled.trans hdisabled)
    · -- The actor has been tried in full: there is nothing to mark.
      have henabled : st.isEnabled t.actor = true := henabled.trans (by simpa using hdisabled)
      have hsame : st.actors = (st.scheduled t.actor).actors := by
        refine (List.map_id _).symm.trans (List.map_congr_left fun e he => ?_)
        by_cases heq : e.1 = t.actor
        · have hdone : e.2.done = true := honly e he heq ▸ hdone
          simp [hdone]
        · simp [heq, henabled]
      exact congrArg (fun actors => { st with actors }) hsame
    · have hdone : status.done = false := by simpa using hdone
      have henabled' : status.enabled = true := by simpa using hdisabled
      have hsame : Assoc.insert t.actor status.markTodo st.actors = (st.scheduled t.actor).actors := by
        rw [Assoc.insert_eq_modify hw.ascending hstatus, Assoc.modify_eq_map hw.ascending]
        refine List.map_congr_left fun e he => ?_
        by_cases heq : e.1 = t.actor
        · simp [heq, honly e he heq, henabled', hdone, ActorStatus.markTodo_of_not_done hdone]
        · simp [heq, henabled, henabled']
      exact congrArg (fun actors => { st with actors }) hsame
  · rename_i hnone
    exact State.considerAll_eq_scheduled (by simp [State.isEnabled, hnone])

theorem mem_positionsOf :
    i ∈ positionsOf (departures fs) a ↔ ∃ g : Frame κ, fs.reverse[i]? = some g ∧ g.left.actor = a := by
  simp only [positionsOf, Set.mem_ofPred_eq, getElem?_departures, Option.map_eq_some_iff, exists_exists_and_eq_and]

theorem mem_positionsOf_cons :
    i ∈ positionsOf (departures (f :: fs)) a ↔
      (i = fs.length ∧ f.left.actor = a) ∨ i ∈ positionsOf (departures fs) a := by
  rw [mem_positionsOf, mem_positionsOf]
  constructor
  · rintro ⟨g, hg, hactor⟩
    rcases (getElem?_reverse_cons f fs i g).mp hg with ⟨rfl, rfl⟩ | hg
    · exact .inl ⟨rfl, hactor⟩
    · exact .inr ⟨g, hg, hactor⟩
  · rintro (⟨rfl, hactor⟩ | ⟨g, hg, hactor⟩)
    · exact ⟨f, (getElem?_reverse_cons f fs _ f).mpr (.inl ⟨rfl, rfl⟩), hactor⟩
    · exact ⟨g, (getElem?_reverse_cons f fs i g).mpr (.inr hg), hactor⟩

theorem latestClock_spec {last : Option Clock} (h : latestClock a fs = .ok last) :
    (last = none ∧ ∀ m, m ∉ positionsOf (departures fs) a) ∨
      ∃ (m : Nat) (g : Frame κ), fs.reverse[m]? = some g ∧ last = some g.clock ∧
        IsGreatest (positionsOf (departures fs) a) m := by
  induction fs with
  | nil =>
    cases h
    refine .inl ⟨rfl, fun m hm => ?_⟩
    obtain ⟨g, hg, -⟩ := mem_positionsOf.mp hm
    cases hg
  | cons f fs ih =>
    rw [latestClock] at h
    cases hout : outgoing f with
    | error e => simp [hout, bind, Except.bind] at h
    | ok t =>
      have hleft := Frame.left_eq (outgoing_eq_ok.mp hout)
      simp only [hout, bind, Except.bind, pure, Except.pure] at h
      split_ifs at h with hactor
      · cases h
        refine .inr ⟨fs.length, f, (getElem?_reverse_cons f fs _ f).mpr (.inl ⟨rfl, rfl⟩), rfl, ?_, ?_⟩
        · exact mem_positionsOf_cons.mpr (.inl ⟨rfl, hleft ▸ hactor⟩)
        · intro i hi
          obtain ⟨g, hg, -⟩ := mem_positionsOf.mp hi
          have hlt := lt_of_getElem?_reverse hg
          rw [List.length_cons] at hlt
          exact Nat.le_of_lt_succ hlt
      · have hsame : positionsOf (departures (f :: fs)) a = positionsOf (departures fs) a := by
          ext i
          rw [mem_positionsOf_cons, hleft, or_iff_right fun h => hactor h.2]
        rw [hsame]
        rcases ih h with hnone | ⟨m, g, hg, hlast, hgreatest⟩
        · exact .inl hnone
        · exact .inr ⟨m, g, (getElem?_reverse_cons f fs _ g).mpr (.inr hg), hlast, hgreatest⟩

theorem latestClock_covers {last : Option Clock} (hfs : Timed fs) (hleft : ∀ g ∈ fs, g.state.transition.isSome = true)
    (hlast : latestClock a fs = .ok last) (hu : (departures fs)[i]? = some u) (hactor : u.actor ≠ a) :
    last.any (·.covers u.actor i) = true ↔
      ∃ m, IsGreatest (positionsOf (departures fs) a) m ∧ HappensBefore (departures fs) i m := by
  rcases latestClock_spec hlast with ⟨rfl, hnone⟩ | ⟨m, g, hg, rfl, hgreatest⟩
  · refine iff_of_false (by simp) ?_
    rintro ⟨m, hm, -⟩
    exact hnone m hm.1
  · have hexact := hfs.exact hleft hg
    have hmove : i ≠ m := by
      rintro rfl
      obtain ⟨w, hw, hactor'⟩ := hgreatest.1
      rw [hu] at hw
      cases hw
      exact hactor hactor'
    have hunique : (∃ m, IsGreatest (positionsOf (departures fs) a) m ∧ HappensBefore (departures fs) i m) ↔
        HappensBefore (departures fs) i m := by
      constructor
      · rintro ⟨m', hm', hbefore⟩
        rwa [hgreatest.unique hm']
      · exact fun hbefore => ⟨m, hgreatest, hbefore⟩
    rw [hunique, Option.any_some]
    rcases le_or_gt i m with him | hmi
    · rw [hexact.covers_iff him hu, or_iff_right hmove]
    · refine iff_of_false (fun hcovers => absurd (hexact.le_of_covers hcovers) (not_le.mpr hmi)) ?_
      exact fun hbefore => absurd hbefore.lt (not_lt.mpr hmi.le)

theorem visitAll_getElem? {last : Option Clock} {es : List Event} (h : visitAll t last fs = .ok (fs', es))
    (hg : fs.reverse[i]? = some g) : fs'.reverse[i]? = some (visit t last i g g.left).1 := by
  induction fs generalizing fs' es with
  | nil => cases hg
  | cons f fs ih =>
    obtain ⟨earlier, below', later, hout, hrest, rfl, -⟩ := visitAll_cons_eq_ok h
    have hlength := visitAll_length hrest
    apply (getElem?_reverse_cons _ below' i _).mpr
    rcases (getElem?_reverse_cons f fs i g).mp hg with ⟨rfl, rfl⟩ | hg
    · exact .inl ⟨hlength.symm, by rw [Frame.left_eq hout]⟩
    · exact .inr (ih hrest hg)

theorem visit_exact {last : Option Clock} (hfs : Timed fs) (hleft : ∀ g ∈ fs, g.state.transition.isSome = true)
    (hlast : latestClock t.actor fs = .ok last) (hg : fs.reverse[i]? = some g) (hw : g.state.WellFormed) :
    (Races (departures fs) t i → (visit t last i g g.left).1 = { g with state := g.state.scheduled t.actor }) ∧
      (¬ Races (departures fs) t i → (visit t last i g g.left).1 = g) := by
  have hu : (departures fs)[i]? = some g.left := by rw [getElem?_departures, hg]; rfl
  have hraces : Races (departures fs) t i ↔ g.left.actor ≠ t.actor ∧ t.dependent g.left = true ∧
      ∀ m, IsGreatest (positionsOf (departures fs) t.actor) m → ¬ HappensBefore (departures fs) i m := by
    simp [Races, hu]
  rw [hraces]
  unfold visit
  split_ifs with hunrelated hcovered
  · refine ⟨fun hrace => ?_, fun _ => rfl⟩
    simp [hrace.1, hrace.2.1] at hunrelated
  · refine ⟨fun hrace => ?_, fun _ => rfl⟩
    obtain ⟨m, hm, hbefore⟩ := (latestClock_covers hfs hleft hlast hu hrace.1).mp hcovered
    exact absurd hbefore (hrace.2.2 m hm)
  · have hrelated : g.left.actor ≠ t.actor ∧ t.dependent g.left = true := by simpa using hunrelated
    refine ⟨fun _ => ?_, fun hno => absurd ⟨hrelated.1, hrelated.2, fun m hm hbefore => hcovered ?_⟩ hno⟩
    · rw [← schedule_eq_scheduled t g.left hw]
    · exact (latestClock_covers hfs hleft hlast hu hrelated.1).mpr ⟨m, hm, hbefore⟩

end Race

end Frames

namespace Search

variable {σ κ : Type} {drv : Driver σ κ} {o : Options} {s s' : Search σ κ}

/-- Clocks do not go stale: whatever is popped, put back or left again, the frames keep the clocks of their
transitions. -/
theorem Act.timed (ho : o.reduction = .dpor) (h : Act drv o s s') (hs : Upright s.stack) (htimed : Timed s.stack) :
    Timed s'.stack := by
  cases h with
  | note hnote => exact hnote.stack ▸ htimed
  | @execute top below a r state m clock hstack hexec _ hclock =>
    rw [hstack] at hs htimed
    obtain ⟨outcome, taken, -, -, -, rfl⟩ := State.execute_eq_ok hexec
    refine ⟨?_, htimed.2⟩
    rintro t ⟨⟩
    exact Race.clockOf_exact htimed.2 hs.left (hclock ho)
  | enter _ _ hnew _ =>
    refine ⟨fun t ht => ?_, htimed⟩
    rw [hnew] at ht
    cases ht
  | @pop f below below' es hstack hsettle =>
    rw [hstack] at hs htimed
    rw [logAll_events]
    exact htimed.2.remarked (settle_remarked hs.tail.wellFormed hsettle)
  | @resume f below below' es hstack hsettle =>
    rw [hstack] at hs htimed
    rw [logAll_events]
    exact htimed.remarked (.cons (.refl f) (settle_remarked hs.tail.wellFormed hsettle))
  | _ => exact htimed

theorem Acts.timed (ho : o.reduction = .dpor) (h : Acts drv o s s') (hs : Upright s.stack) (htimed : Timed s.stack) :
    Timed s'.stack := by
  induction h with
  | refl => exact htimed
  | tail hacts hact ih => exact hact.timed ho (Acts.upright hacts hs) ih

variable [Snapshot κ]

/-- Every head of an iteration is reached by operations and every turn is made of them, so the searches at which
backtracking pops a frame are among those that operations lead to. -/
theorem race_analysis_exact (drv : Driver σ κ) (ho : o.reduction = .dpor) (m : σ) :
    (∀ s, Reached drv o m s → s.phase ≠ .done → Acts drv o (new o m) s ∧ Conducts drv o s (turn drv o s)) ∧
      ∀ s f below t, Acts drv o (new o m) s → s.stack = f :: below → f.state.transition = some t →
        ∃ below' es, Race.analyse t below = .ok (below', es) ∧ below'.length = below.length ∧
          ∀ (i : Nat) (g : Frame κ), below.reverse[i]? = some g →
            g.state.transition = (departures below)[i]? ∧
            (Races (departures below) t i →
              below'.reverse[i]? = some { g with state := g.state.scheduled t.actor }) ∧
            (¬ Races (departures below) t i → below'.reverse[i]? = some g) ∧
            ∀ (j : Nat) (u : Transition), (departures below)[j]? = some u → j ≤ i →
              (g.clock.covers u.actor j = true ↔ j = i ∨ HappensBefore (departures below) j i) := by
  refine ⟨fun s hs hphase => ⟨hs.conducts.acts hphase, turn_conducts hs.orderly.upright⟩, ?_⟩
  intro s f below t hs hstack ht
  have hupright : Upright (f :: below) := hstack ▸ Acts.upright hs .nil
  have htimed : Timed (f :: below) := hstack ▸ Acts.timed ho hs .nil trivial
  obtain ⟨⟨below', es⟩, hanalyse⟩ := Race.analyse_ok hupright.left t
  obtain ⟨last, hlast, hvisit⟩ := Race.analyse_eq_ok hanalyse
  refine ⟨below', es, hanalyse, Race.visitAll_length hvisit, fun i g hg => ?_⟩
  have hmem : g ∈ below := List.mem_reverse.mp (List.mem_of_getElem? hg)
  obtain ⟨hmarked, hkept⟩ := Race.visit_exact htimed.2 hupright.left hlast hg (hupright.tail.wellFormed g hmem)
  rw [Race.visitAll_getElem? hvisit hg]
  refine ⟨?_, fun hrace => congrArg some (hmarked hrace), fun hno => congrArg some (hkept hno), fun j u hu hji => ?_⟩
  · obtain ⟨u, hu⟩ := Option.isSome_iff_exists.mp (hupright.left g hmem)
    rw [getElem?_departures, hg, hu, Option.map_some, Frame.left_eq hu]
  · exact (htimed.2.exact hupright.left hg).covers_iff hji hu

def lateCheck : Program :=
  ⟨.empty, [[.write "a" 1], [.write "b" 1], [.read "b", .expect "a" 1]], none⟩

theorem race_analysis_exact_lateCheck :
    ∃ s f below t, Acts lateCheck.driver ⟨0, .dpor, 0, 0, false⟩ (new ⟨0, .dpor, 0, 0, false⟩ lateCheck.initial) s ∧
      s.stack = f :: below ∧ f.state.transition = some t ∧ t.kind = .assert ∧
      Races (departures below) t 0 ∧ ¬ Races (departures below) t 1 := by
  obtain ⟨hheads, hexact⟩ := race_analysis_exact lateCheck.driver (o := ⟨0, .dpor, 0, 0, false⟩) rfl
    lateCheck.initial
  -- The first path ends with the check; below it stand the frames of the two writes and of the read.
  obtain ⟨s, hs, hphase, top, f, below, t, hstack, hnew, ht, hkind, hcounts⟩ :
      ∃ s, Reached lateCheck.driver ⟨0, .dpor, 0, 0, false⟩ lateCheck.initial s ∧ s.phase = .running ∧
      ∃ top f below t, s.stack = top :: f :: below ∧ top.state.transition = none ∧
        f.state.transition = some t ∧ t.kind = .assert ∧
        ∃ below' es g₀ g₁, Race.analyse t below = .ok (below', es) ∧
          below.reverse[0]? = some g₀ ∧ below.reverse[1]? = some g₁ ∧
          (below'.reverse[0]?).map (·.state.todoCount) ≠ some g₀.state.todoCount ∧
          (below'.reverse[1]?).map (·.state.todoCount) ≠ some (g₁.state.scheduled t.actor).todoCount :=
    ⟨_, .turn (.turn (.turn (.turn (.start rfl) rfl rfl) rfl rfl) rfl rfl) rfl rfl, rfl,
      _, _, _, _, rfl, rfl, rfl, rfl, _, _, _, _, rfl, rfl, rfl, by decide, by decide⟩
  obtain ⟨below', es, g₀, g₁, hanalyse, hg₀, hg₁, hmarked, hkept⟩ := hcounts
  have hsettle : settle ⟨0, .dpor, 0, 0, false⟩ top (f :: below) = .ok (f :: below, []) := by
    simp [settle, hnew]
  have hrunning : s.phase ≠ .done := by simp [hphase]
  have hpopped := ((hheads s hs hrunning).1.tail .backtrack).tail (.pop hstack hsettle)
  obtain ⟨below'', es', hanalyse', -, hframes⟩ := hexact _ f below t hpopped rfl ht
  rw [hanalyse] at hanalyse'
  cases hanalyse'
  refine ⟨_, f, below, t, hpopped, rfl, ht, hkind, ?_, ?_⟩
  · by_contra hno
    obtain ⟨-, -, hsame, -⟩ := hframes 0 g₀ hg₀
    rw [hsame hno] at hmarked
    exact hmarked rfl
  · intro hrace
    obtain ⟨-, hscheduled, -, -⟩ := hframes 1 g₁ hg₁
    rw [hscheduled hrace] at hkept
    exact hkept rfl

end Search

end Interleave
