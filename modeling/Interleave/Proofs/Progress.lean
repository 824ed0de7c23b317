import Interleave.Proofs.Moves

/-! A search of a deterministic driver aborts only where the driver refuses a call: every frame below the top has
been left by a transition, the steps to the top frame can be replayed from the nearest snapshot, and no state is
added to the visited set twice. -/

namespace Interleave

variable {σ κ π : Type}

namespace Race

variable {fs : List (Frame κ)} (h : ∀ f ∈ fs, f.state.transition.isSome = true)

include h

theorem clockOf_ok (t : Transition) : ∃ c, clockOf t fs = .ok c := by
  have hjoined : ∃ c, joined t fs = .ok c := by
    induction fs with
    | nil => exact ⟨[], rfl⟩
    | cons f below ih =>
      rw [List.forall_mem_cons] at h
      obtain ⟨earlier, hleft⟩ := Option.isSome_iff_exists.mp h.1
      obtain ⟨c, hc⟩ := ih h.2
      simp only [joined, outgoing_eq_ok.mpr hleft, hc, bind, Except.bind]
      exact ⟨_, rfl⟩
  obtain ⟨c, hc⟩ := hjoined
  simp only [clockOf, hc, bind, Except.bind]
  exact ⟨_, rfl⟩

theorem latestClock_ok (a : ActorId) : ∃ last, latestClock a fs = .ok last := by
  induction fs with
  | nil => exact ⟨none, rfl⟩
  | cons f below ih =>
    rw [List.forall_mem_cons] at h
    obtain ⟨t, hleft⟩ := Option.isSome_iff_exists.mp h.1
    simp only [latestClock, outgoing_eq_ok.mpr hleft, bind, Except.bind]
    split_ifs
    · exact ⟨_, rfl⟩
    · exact ih h.2

theorem visitAll_ok (t : Transition) (last : Option Clock) : ∃ result, visitAll t last fs = .ok result := by
  induction fs with
  | nil => exact ⟨_, rfl⟩
  | cons f below ih =>
    rw [List.forall_mem_cons] at h
    obtain ⟨earlier, hleft⟩ := Option.isSome_iff_exists.mp h.1
    obtain ⟨result, hresult⟩ := ih h.2
    simp only [visitAll, outgoing_eq_ok.mpr hleft, hresult, bind, Except.bind]
    exact ⟨_, rfl⟩

theorem analyse_ok (t : Transition) : ∃ result, analyse t fs = .ok result := by
  obtain ⟨last, hlast⟩ := latestClock_ok h t.actor
  simp only [analyse, hlast, bind, Except.bind]
  exact visitAll_ok h t last

end Race

theorem Search.settle_ok (o : Options) (f : Frame κ) {below : List (Frame κ)}
    (h : ∀ g ∈ below, g.state.transition.isSome = true) : ∃ result, settle o f below = .ok result := by
  unfold settle
  split
  · exact Race.analyse_ok h _
  · exact ⟨_, rfl⟩

namespace Driver

/-- There is always a snapshot to give. -/
def GivesSnapshots (drv : Driver σ κ) : Prop := ∀ m, (drv.snapshot m).1 ≠ .ok none

def Blamed (drv : Driver σ κ) (a : Abort) : Prop :=
  a.cause?.isSome = true ∨ ((a = .fault .noSnapshot ∨ a = .crash) ∧ ¬ drv.GivesSnapshots)

inductive Refuses (drv : Driver σ κ) (root : Node σ) : Abort → Prop
  | interrupted {m : σ} {cause : Interruption} (h : drv.interrupted m = some cause) :
      Refuses drv root (.interrupted cause)
  | execute {path : List Step} {n : Node σ} {x : Step} {num : Int} {e : Failure}
      (hwalk : drv.walk? root path = some n) (hoff : n.state.offers x = true)
      (h : drv.advance? n x = none) : Refuses drv root (.execute x.actor num e)
  | snapshot {m : σ} {num : Int} {e : Failure} (h : (drv.snapshot m).1 = .error e) :
      Refuses drv root (.snapshot num e)
  | checkpoint {m : σ} {num : Int} {e : Failure} (h : (drv.snapshot m).1 = .error e) :
      Refuses drv root (.checkpoint num e)
  | restore {k : κ} {m : σ} {num : Int} {e : Failure} (h : (drv.restore k m).1 = .error e) :
      Refuses drv root (.restore num e)
  | noSnapshot {m : σ} {a : Abort} (h : (drv.snapshot m).1 = .ok none) (ha : a = .fault .noSnapshot ∨ a = .crash) :
      Refuses drv root a

/-- The driver refuses neither a snapshot, nor to go back to one, nor a step that an execution from the root
offers. -/
structure Reliable (drv : Driver σ κ) (root : Node σ) : Prop where
  interrupted : ∀ m, drv.interrupted m = none
  snapshot : ∀ m, ∃ k, (drv.snapshot m).1 = .ok (some k)
  restore : ∀ k m, (drv.restore k m).1 = .ok ()
  execute : ∀ {path n x}, drv.walk? root path = some n → n.state.offers x = true →
    ∃ n', drv.advance? n x = some n'

variable {drv : Driver σ κ} {root : Node σ}

theorem Reliable.givesSnapshots (h : drv.Reliable root) : drv.GivesSnapshots := by
  intro m hnone
  obtain ⟨k, hk⟩ := h.snapshot m
  cases hk.symm.trans hnone

theorem Reliable.not_refuses (h : drv.Reliable root) (a : Abort) : ¬ drv.Refuses root a := by
  intro hrefuses
  have hsnapshot : ∀ {m e}, (drv.snapshot m).1 ≠ .error e := by
    intro m e herror
    obtain ⟨k, hk⟩ := h.snapshot m
    cases hk.symm.trans herror
  cases hrefuses with
  | interrupted hcause => cases (h.interrupted _).symm.trans hcause
  | execute hwalk hoff hnone =>
    obtain ⟨n', hadv⟩ := h.execute hwalk hoff
    cases hadv.symm.trans hnone
  | snapshot herror => exact hsnapshot herror
  | checkpoint herror => exact hsnapshot herror
  | restore herror => cases (h.restore _ _).symm.trans herror
  | noSnapshot hnone _ => exact h.givesSnapshots _ hnone

theorem Refuses.blame {a : Abort} (h : drv.Refuses root a) : drv.Blamed a := by
  cases h with
  | @noSnapshot m _ hnone ha => exact .inr ⟨ha, fun hgives => hgives m hnone⟩
  | _ => exact .inl rfl

end Driver

namespace Trail

variable {drv : Driver σ κ} {view : σ → π} {o : Options} {root : Node σ}

def Grounded (spots : List (Spot σ κ)) : Prop :=
  ∀ p, spots.getLast? = some p → p.frame.snapshot.isSome = true

theorem grounded_nil : Grounded ([] : List (Spot σ κ)) := fun _ h => by simp at h

theorem Grounded.tail {p : Spot σ κ} {below : List (Spot σ κ)} (h : Grounded (p :: below)) :
    Grounded below := by
  cases below with
  | nil => exact grounded_nil
  | cons q below => exact fun r hr => h r (by rwa [List.getLast?_cons_cons])

theorem Grounded.cons {p : Spot σ κ} {below : List (Spot σ κ)} (h : Grounded below)
    (hp : below = [] → p.frame.snapshot.isSome = true) : Grounded (p :: below) := by
  cases below with
  | nil =>
    rintro q ⟨⟩
    exact hp rfl
  | cons q below =>
    intro r hr
    rw [List.getLast?_cons_cons] at hr
    exact h r hr

theorem Grounded.head {p : Spot σ κ} {below : List (Spot σ κ)} (h : Grounded (p :: below))
    (hnil : below = []) : p.frame.snapshot.isSome = true := by
  subst hnil
  exact h p rfl

theorem Grounded.remarked {spots spots' : List (Spot σ κ)} (h : Grounded spots)
    (hr : List.Forall₂ Spot.Remarked spots spots') : Grounded spots' := by
  induction hr with
  | nil => exact h
  | cons hq hrest ih =>
    refine (ih h.tail).cons fun hnil => ?_
    subst hnil
    cases hrest
    rw [hq.frame.snapshot]
    exact h.head rfl

theorem Takes.grounded {p p' : Spot σ κ} {below : List (Spot σ κ)} {x : Step} {t : Transition} {n : Node σ}
    (h : Takes drv o p below x t n p') (hg : Grounded (p :: below)) : Grounded (p' :: below) :=
  hg.tail.cons fun hnil => by
    rw [h.snapshot]
    exact hg.head hnil

theorem Settles.grounded {p : Spot σ κ} {below below' : List (Spot σ κ)} (h : Settles o p below below')
    (hs : Sound drv view o root (p :: below)) (hg : Grounded (p :: below)) : Grounded (p :: below') :=
  hg.remarked (.cons ⟨.refl _, rfl⟩ (h.remarked hs.tail))

theorem Unwinds.grounded {T T' : Trail σ κ} (h : Unwinds o T T') (hs : Sound drv view o root T.spots)
    (hg : Grounded T.spots) : Grounded T'.spots := by
  induction h with
  | emptied => exact hg
  | resumed _ _ hsettle _ _ => exact hsettle.grounded hs hg
  | dropped hsettle _ _ ih => exact ih (hsettle.sound hs).tail (hsettle.grounded hs hg).tail

theorem Shift.grounded [Snapshot κ] {T T' : Trail σ κ} (h : Shift drv view o T T')
    (hs : Sound drv view o root T.spots) (hg : Grounded T.spots) : Grounded T'.spots := by
  cases h with
  | entered _ htakes _ _ _ _ _ _ => exact (htakes.grounded hg).cons nofun
  | skipped _ htakes _ _ _ => exact htakes.grounded hg
  | cut => exact hg
  | unwound _ hunwinds => exact hunwinds.grounded hs hg

theorem Visits.grounded [Snapshot κ] {T : Trail σ κ} (h : Visits drv view o root T)
    (hgives : drv.GivesSnapshots) (hroot : root.state.Fresh) : Grounded T.spots := by
  refine (h.induction hroot (fun T hstarts => ?_) fun _ _ hs hg hshift => hshift.grounded hs hg).2
  obtain ⟨p, hspots, -, -, m, -, hsnapshot⟩ := hstarts.spots
  rw [hspots]
  refine grounded_nil.cons fun _ => Option.isSome_iff_ne_none.mpr fun hnone => ?_
  exact hgives m (hnone ▸ hsnapshot)

theorem Grounded.nearestSnapshot {p : Spot σ κ} {below : List (Spot σ κ)} (h : Grounded (p :: below)) :
    ∃ above base k, Search.nearestSnapshot ((p :: below).map Spot.frame) = some (above, base, k) := by
  induction below generalizing p with
  | nil =>
    obtain ⟨k, hk⟩ := Option.isSome_iff_exists.mp (h.head rfl)
    exact ⟨[], p.frame, k, by simp [Search.nearestSnapshot, hk]⟩
  | cons q below ih =>
    cases hk : p.frame.snapshot with
    | some k => exact ⟨[], p.frame, k, by simp [Search.nearestSnapshot, hk]⟩
    | none =>
      obtain ⟨above, base, k, hnear⟩ := ih h.tail
      exact ⟨p.frame :: above, base, k, by rw [List.map_cons, Search.nearestSnapshot, hk, hnear]; rfl⟩

theorem Sound.left {p : Spot σ κ} {below : List (Spot σ κ)} (h : Sound drv view o root (p :: below)) :
    ∀ f ∈ below.map Spot.frame, f.state.transition.isSome = true := by
  induction below generalizing p with
  | nil => nofun
  | cons q below ih =>
    cases h with
    | link hbelow _ hout _ _ _ =>
      rw [List.map_cons, List.forall_mem_cons]
      exact ⟨Option.isSome_iff_exists.mpr ⟨_, hout⟩, ih hbelow⟩

variable (hdet : drv.Deterministic view)

include hdet

theorem Sound.restoreTop_refuses {s : Search σ κ} {p : Spot σ κ} {below : List (Spot σ κ)}
    (hs : Sound drv view o root (p :: below)) (hg : drv.GivesSnapshots → Grounded (p :: below))
    (hstack : s.stack = (p :: below).map Spot.frame) {a : Abort}
    (h : (Search.restoreTop drv s).1 = some a) : drv.Refuses root a := by
  unfold Search.restoreTop at h
  rw [hstack, List.map_cons] at h
  cases hnear : Search.nearestSnapshot (p.frame :: below.map Spot.frame) with
  | none =>
    have hmissing : ¬ drv.GivesSnapshots := by
      intro hgives
      obtain ⟨above, base, k, hsome⟩ := (hg hgives).nearestSnapshot
      cases hsome.symm.trans hnear
    obtain ⟨m, hm⟩ := not_forall.mp hmissing
    rw [hnear] at h
    cases h
    exact .noSnapshot (not_not.mp hm) (.inl rfl)
  | some near =>
    obtain ⟨above, base, k⟩ := near
    rw [hnear] at h
    dsimp only at h
    split at h
    · rename_i e m hrestore
      cases h
      exact .restore (congrArg Prod.fst hrestore)
    · rename_i m hrestore
      obtain ⟨n, ⟨m₀, hview₀, hsnap⟩, hreplay⟩ := hs.replays hdet hnear
      have hview := hdet.restore_view hsnap (congrArg Prod.fst hrestore)
      rw [hrestore, hview₀] at hview
      obtain ⟨m', hsteps, -⟩ := hreplay 0 m hview
      rw [hsteps] at h
      cases h

theorem unwind_refuses (count : Nat) {s : Search σ κ} {spots : List (Spot σ κ)}
    (hstack : s.stack = spots.map Spot.frame) (hs : Sound drv view o root spots)
    (hg : drv.GivesSnapshots → Grounded spots) {a : Abort} (h : (Search.unwind drv o count s).1 = some a) :
    drv.Refuses root a := by
  induction count generalizing s spots with
  | zero => cases h
  | succ count ih =>
    cases spots with
    | nil =>
      rw [Search.unwind, hstack] at h
      cases h
    | cons p below =>
      rw [unwind_succ count hstack] at h
      obtain ⟨⟨frames, es⟩, hsettle⟩ := Search.settle_ok o p.frame hs.left
      have hmarks := Search.settle_remarked hs.tail.wellFormed hsettle
      obtain ⟨below', rfl, hnodes⟩ := exists_spots (hmarks.length_eq.symm.trans (List.length_map _))
      have hsettles : Settles o p below below' := ⟨⟨es, hsettle⟩, hnodes⟩
      have hs' := hsettles.sound hs
      have hg' : drv.GivesSnapshots → Grounded (p :: below') := fun hgives => hsettles.grounded hs (hg hgives)
      have hlogged : ({ s with stack := below'.map Spot.frame }.logAll es).stack = below'.map Spot.frame :=
        congrArg Core.stack (Search.logAll_core _ es)
      rw [hsettle] at h
      dsimp only at h
      split_ifs at h
      · refine hs'.restoreTop_refuses (s := (Search.logAll _ es).push p.frame) hdet hg'
          (congrArg (p.frame :: ·) hlogged) ?_
        split at h
        · cases h
        · rename_i hrestore
          rw [hrestore]
          exact h
      · exact ih (s := Search.log _ _) hlogged hs'.tail (fun hgives => (hg' hgives).tail) h

theorem backtrack_refuses {s : Search σ κ} {spots : List (Spot σ κ)} (hstack : s.stack = spots.map Spot.frame)
    (hs : Sound drv view o root spots) (hg : drv.GivesSnapshots → Grounded spots) {a : Abort}
    (h : (Search.backtrack drv o s).1 = some a) : drv.Refuses root a := by
  unfold Search.backtrack at h
  dsimp only at h
  refine unwind_refuses hdet _ ?_ hs hg h
  exact hstack

theorem Sound.skip_refuses {s : Search σ κ} {p : Spot σ κ} {below : List (Spot σ κ)}
    (hs : Sound drv view o root (p :: below)) (hg : drv.GivesSnapshots → Grounded (p :: below))
    (hstack : s.stack = (p :: below).map Spot.frame) {next : State} {old : VisitedEntry κ} {a : Abort}
    (h : (Search.skip drv o s p.frame next old).1 = some a) : drv.Refuses root a := by
  unfold Search.skip at h
  dsimp only at h
  generalize hs₁ : Search.log _ _ = s₁ at h
  have hcore : s₁.core = s.core := by
    rw [← hs₁, Search.log_core, Search.addNode_core]
    rfl
  have hstack₁ : s₁.stack = (p :: below).map Spot.frame := (congrArg Core.stack hcore).trans hstack
  split_ifs at h
  · exact backtrack_refuses hdet hstack₁ hs hg h
  · exact hs.restoreTop_refuses hdet hg hstack₁ h

theorem Tracks.execute_refuses {c : Core σ κ} {p : Spot σ κ} {below : List (Spot σ κ)} {visited : VisitedSet κ}
    {truncated : Option (List Transition)}
    (ht : Tracks drv view o root c ⟨p :: below, visited, truncated⟩) {a : ActorId}
    (hnext : p.state.next? = some a) {e : ExecuteError} {state : State} {m : σ}
    (h : p.state.execute drv.execute a c.machine = (.error e, state, m)) :
    ∃ failure, e = .driver failure ∧ ∀ num, drv.Refuses root (.execute a num failure) := by
  have hfits := ht.sound.fits
  obtain ⟨outcome, taken, htake⟩ := State.take_ok hfits.wellFormed hnext
  have hoff : p.node.state.offers ⟨a, outcome⟩ = true :=
    State.offers_of_profile_eq hfits.profile (State.take_offers htake hfits.wellFormed)
  have hanswer := (hdet.execute a outcome (ht.position p below rfl)).1
  unfold State.execute at h
  rw [htake] at h
  dsimp only at h
  split at h
  · rename_i failure m' hrun
    cases h
    rw [hrun] at hanswer
    have hnone : drv.advance? p.node ⟨a, outcome⟩ = none := by
      rw [Driver.advance?, if_pos hoff]
      split
      · rename_i r m'' hexec
        rw [hexec] at hanswer
        cases hanswer
      · rfl
    exact ⟨failure, rfl, fun num => .execute (x := ⟨a, outcome⟩) ht.sound.walk_path hoff hnone⟩
  · rename_i r m' hrun
    have hactor : r.transition.actor = a := congrArg Step.actor (hdet.echo (congrArg Prod.fst hrun))
    rw [if_pos hactor] at h
    cases h

theorem Sound.arrive_refuses [Snapshot κ] {s : Search σ κ} {p : Spot σ κ} {below : List (Spot σ κ)}
    (hs : Sound drv view o root (p :: below)) (hg : drv.GivesSnapshots → Grounded (p :: below))
    (hstack : s.stack = (p :: below).map Spot.frame) {next : State}
    (hnum : 0 < o.maxVisited → ∀ e ∈ s.visited.entries, e.num < next.num) {a : Abort}
    (h : (Search.arrive drv o s p.frame next).1 = some a) : drv.Refuses root a := by
  unfold Search.arrive at h
  split_ifs at h with hpositive
  · split at h
    · rename_i e m hsnap
      cases h
      exact .snapshot (congrArg Prod.fst hsnap)
    · rename_i m hsnap
      cases h
      exact .noSnapshot (congrArg Prod.fst hsnap) (.inr rfl)
    · rename_i k m hsnap
      dsimp only at h
      split at h
      · rename_i hrepeated
        exact absurd hrepeated (VisitedSet.add_ne_repeated (hnum hpositive))
      · refine hs.skip_refuses hdet hg ?_ h
        exact hstack
      · cases h
  · split at h
    · rename_i e m hsnap
      cases h
      exact .checkpoint (congrArg Prod.fst hsnap)
    · cases h

theorem Tracks.advance_refuses [Snapshot κ] {s : Search σ κ} {p : Spot σ κ}
    {below : List (Spot σ κ)} {visited : VisitedSet κ} {truncated : Option (List Transition)}
    (ht : Tracks drv view o root s.core ⟨p :: below, visited, truncated⟩)
    (hg : drv.GivesSnapshots → Grounded (p :: below)) (hnum : 0 < o.maxVisited → s.ledger.Numbered)
    (hwithin : o.withinDepth below.length = true) {x : ActorId} (hnext : p.state.next? = some x) {a : Abort}
    (h : (Search.advance drv o s p.frame (below.map Spot.frame) x).1 = some a) : drv.Refuses root a := by
  unfold Search.advance at h
  split at h
  · rename_i e state m hexec
    obtain ⟨failure, rfl, hrefuses⟩ := ht.execute_refuses hdet hnext hexec
    cases h
    exact hrefuses _
  · rename_i r state m hexec
    dsimp only at h
    split at h
    · rename_i fault hclock
      obtain ⟨clock, hok⟩ := Race.clockOf_ok ht.sound.left r.transition
      cases ho : o.reduction <;> simp [ho, hok] at hclock
    · rename_i clock hclock
      have hclock : o.reduction = .dpor →
          Race.clockOf r.transition (below.map Spot.frame) = .ok clock :=
        fun ho => by simpa only [ho] using hclock
      obtain ⟨y, n, htakes, -⟩ := ht.takes hdet hwithin hnext hexec hclock
      split at h
      · cases h
      · split_ifs at h
        refine (htakes.sound ht.sound).arrive_refuses (p := ⟨{ p.frame with state, clock }, p.node⟩) hdet
          (fun hgives => htakes.grounded (hg hgives)) ?_ ?_ h
        · rfl
        · -- The new state is numbered after all that have been visited.
          intro hpositive e he
          have hlt : e.num < s.nextNum := hnum hpositive e he
          show e.num < s.nextNum + 1 - 1
          omega

theorem Tracks.turn_refuses [Snapshot κ] {s : Search σ κ} {T : Trail σ κ}
    (ht : Tracks drv view o root s.core T) (hg : drv.GivesSnapshots → Grounded T.spots)
    (hnum : 0 < o.maxVisited → s.ledger.Numbered) {a : Abort} (h : (Search.turn drv o s).1 = some a) :
    drv.Refuses root a := by
  obtain ⟨spots, visited, truncated⟩ := T
  have hstack : s.stack = spots.map Spot.frame := ht.stack
  unfold Search.turn at h
  split at h
  · rename_i cause hcause
    cases h
    exact .interrupted hcause
  · cases spots with
    | nil =>
      rw [hstack] at h
      cases h
    | cons p below =>
      rw [hstack, List.map_cons] at h
      dsimp only at h
      rw [List.length_map] at h
      split_ifs at h with hbound
      · exact backtrack_refuses hdet (s := Search.cut s p.frame) hstack ht.sound hg h
      · exact backtrack_refuses hdet hstack ht.sound hg h
      · split at h
        · exact backtrack_refuses hdet hstack ht.sound hg h
        · rename_i x hnext
          exact ht.advance_refuses hdet hg hnum (by simpa using hbound) hnext h

theorem Tracks.turn_ok [Snapshot κ] (hrel : drv.Reliable root) (hnone : o.maxVisited = 0) {s : Search σ κ}
    {T : Trail σ κ} (ht : Tracks drv view o root s.core T) (hg : Grounded T.spots) :
    ∃ s', Search.turn drv o s = (none, s') := by
  cases h : (Search.turn drv o s).1 with
  | some a =>
    have hnum : 0 < o.maxVisited → s.ledger.Numbered := fun hpositive => by omega
    exact absurd (ht.turn_refuses hdet (fun _ => hg) hnum h) (hrel.not_refuses a)
  | none => exact ⟨_, Prod.ext h rfl⟩

omit hdet in
theorem start_ok [Snapshot κ] (hrel : drv.Reliable root) (hnone : o.maxVisited = 0) {m : σ}
    (hroot : drv.root? m = some root) : ∃ s, Search.start drv o (Search.new o m) = (none, s) := by
  obtain ⟨actors, hinit, -⟩ := Driver.root?_eq_some hroot
  obtain ⟨k, hk⟩ := hrel.snapshot root.machine
  unfold Search.start
  rw [show drv.initialActors (Search.new o m : Search σ κ).machine = _ from hinit]
  dsimp only
  rw [show drv.snapshot root.machine = (.ok (some k), (drv.snapshot root.machine).2) from Prod.ext hk rfl]
  dsimp only
  rw [if_neg (by simp [hnone])]
  exact ⟨_, rfl⟩

end Trail

namespace Search

variable [Snapshot κ] {drv : Driver σ κ} {view : σ → π} {o : Options}

theorem start_blamed {m : σ} {a : Abort} {s : Search σ κ} (h : start drv o (new o m) = (some a, s)) :
    drv.Blamed a := by
  unfold start at h
  split at h
  · cases h
    exact .inl rfl
  · dsimp only at h
    split at h
    · cases h
      exact .inl rfl
    · rename_i snapshot m₁ hsnap
      split at h
      · rename_i hentered
        have hnone : snapshot = none := by
          split_ifs at hentered
          cases snapshot with
          | none => rfl
          | some k => cases hentered
        cases h
        exact .inr ⟨.inr rfl, fun hgives => hgives _ (hnone ▸ congrArg Prod.fst hsnap)⟩
      · cases h

theorem Reached.turn_blamed (hdet : drv.Deterministic view) {m : σ} {s s' : Search σ κ} {a : Abort}
    (h : Reached drv o m s) (hopen : s.finished = false) (hturn : Search.turn drv o s = (some a, s')) :
    drv.Blamed a := by
  obtain ⟨root, T, -, -, hroot, hvisits, ht, -⟩ := Trail.tracks_of_open hdet h hopen
  have hg : drv.GivesSnapshots → Trail.Grounded T.spots :=
    fun hgives => hvisits.grounded hgives (Driver.root?_fresh hroot)
  exact (ht.turn_refuses hdet hg (fun _ => h.numbered) (congrArg Prod.fst hturn)).blame

theorem loop_blamed (hdet : drv.Deterministic view) {m : σ} {fuel : Nat} {s s' : Search σ κ} {a : Abort}
    (h : Reached drv o m s) (hloop : loop drv o fuel s = some (some a, s')) : drv.Blamed a := by
  induction fuel generalizing s with
  | zero =>
    simp only [loop] at hloop
    split_ifs at hloop
    cases hloop
  | succ fuel ih =>
    simp only [loop] at hloop
    split_ifs at hloop with hfin
    · cases hloop
    · have hopen : s.finished = false := by simpa using hfin
      split at hloop
      · rename_i a' s₁ hturn
        cases hloop
        exact h.turn_blamed hdet hopen hturn
      · rename_i s₁ hturn
        exact ih (.turn h hopen hturn) hloop

theorem run_blamed (hdet : drv.Deterministic view) {m : σ} {fuel : Nat} {s : Search σ κ} {a : Abort}
    (h : run drv o fuel m = some (some a, s)) : drv.Blamed a := by
  have hclose : ∀ {a' : Abort} {s' : Search σ κ}, close (some a', s') = (some a, s) → a' = a := by
    intro a' s' heq
    cases a' <;> cases heq <;> rfl
  unfold run at h
  split at h
  · rename_i a' s₀ hstart
    cases hclose (Option.some.inj h)
    exact start_blamed hstart
  · rename_i s₀ hstart
    obtain ⟨⟨abort, s₁⟩, hloop, heq⟩ := Option.map_eq_some_iff.mp h
    cases abort with
    | none => cases heq
    | some a' =>
      cases hclose heq
      exact loop_blamed hdet (.start hstart) hloop

end Search

end Interleave
