import Interleave.Proofs.Trail

/-! Moving the driver back: restoring the nearest snapshot and replaying the transitions above it leads a
deterministic driver to the program state of the top frame. -/

namespace Interleave

variable {σ κ π : Type} {drv : Driver σ κ} {view : σ → π} {o : Options} {root : Node σ}

theorem Replay.steps_append (drv : Driver σ κ) (xs ys : List Step) {index : Nat} {m m' : σ}
    (h : Replay.steps drv index xs m = (none, m')) :
    Replay.steps drv index (xs ++ ys) m = Replay.steps drv (index + xs.length) ys m' := by
  induction xs generalizing index m with
  | nil =>
    cases h
    rfl
  | cons x xs ih =>
    simp only [List.cons_append, Replay.steps] at h ⊢
    split at h
    · cases h
    · split at h
      · cases h
      · rw [ih h, List.length_cons]
        congr 1
        omega

namespace Search

theorem nearestSnapshot_eq_some {fs above : List (Frame κ)} {base : Frame κ} {k : κ}
    (h : nearestSnapshot fs = some (above, base, k)) : ∃ rest, fs = above ++ base :: rest := by
  induction fs generalizing above with
  | nil => cases h
  | cons f fs ih =>
    simp only [nearestSnapshot] at h
    split at h
    · cases h
      exact ⟨fs, rfl⟩
    · obtain ⟨⟨above', base', k'⟩, hbelow, heq⟩ := Option.map_eq_some_iff.mp h
      cases heq
      obtain ⟨rest, hrest⟩ := ih hbelow
      exact ⟨rest, by rw [hrest, List.cons_append]⟩

theorem restoreTop_eq_none {s s' : Search σ κ} (h : restoreTop drv s = (none, s')) :
    ∃ top below above base k m₁ m, s.stack = top :: below ∧
      nearestSnapshot s.stack = some (above, base, k) ∧ drv.restore k s.machine = (.ok (), m₁) ∧
      Replay.steps drv 0 (stepsToTop above base) m₁ = (none, m) ∧
      s' = { s with machine := m }.log
        (.restored top.state.num base.state.num (stepsToTop above base).length) := by
  unfold restoreTop at h
  split at h
  · rename_i top below above base k hstack hnear
    split at h
    · cases h
    · rename_i m₁ hrestore
      dsimp only at h
      split at h
      · cases h
      · rename_i m hsteps
        cases h
        exact ⟨top, below, above, base, k, m₁, m, hstack, hnear, hrestore, hsteps, rfl⟩
  · cases h

theorem restoreTop_stack {s s' : Search σ κ} (h : restoreTop drv s = (none, s')) : s'.stack = s.stack := by
  obtain ⟨top, below, above, base, k, m₁, m, -, -, -, -, rfl⟩ := restoreTop_eq_none h
  rfl

theorem stepsToTop_cons {f : Frame κ} {above : List (Frame κ)} {base g : Frame κ}
    {fs rest : List (Frame κ)} {t : Transition} (hsplit : g :: fs = above ++ base :: rest)
    (hg : g.state.transition = some t) :
    stepsToTop (f :: above) base = stepsToTop above base ++ [t.step] := by
  have hhead : ∃ tail, above ++ [base] = g :: tail := by
    cases above with
    | nil =>
      cases hsplit
      exact ⟨[], rfl⟩
    | cons a above =>
      cases hsplit
      exact ⟨above ++ [base], rfl⟩
  obtain ⟨tail, htail⟩ := hhead
  simp only [stepsToTop, List.cons_append, List.drop_succ_cons, List.drop_zero, htail,
    List.reverse_cons, List.filterMap_append]
  simp [hg]

end Search

namespace Trail

theorem replay_link (hdet : drv.Deterministic view) {p : Spot σ κ} {n : Node σ} {x : Step} {m : σ}
    (hadv : drv.advance? n x = some p.node) (hp : ¬ p.node.Failing) (hview : view m = view n.machine)
    (index : Nat) :
    ∃ m', Replay.steps drv index [x] m = (none, m') ∧ view m' = view p.node.machine := by
  obtain ⟨-, r, hexec, -, -, hviolation⟩ := Driver.advance?_eq_some hadv
  obtain ⟨hanswer, hview'⟩ := hdet.execute x.actor x.outcome hview
  rw [hexec] at hanswer hview'
  obtain ⟨m', hrun⟩ : ∃ m', drv.execute x.actor x.outcome m = (.ok r, m') :=
    ⟨(drv.execute x.actor x.outcome m).2, Prod.ext hanswer rfl⟩
  rw [hrun] at hview'
  have hactor : r.transition.actor = x.actor := congrArg Step.actor (hdet.echo (congrArg Prod.fst hrun))
  have hnone : r.violation = none := hviolation ▸ Node.violation_eq_none hp
  refine ⟨m', ?_, hview'⟩
  simp only [Replay.steps, Replay.executeStep, hrun, hactor, if_true, hnone]

theorem Sound.replays (hdet : drv.Deterministic view) {p : Spot σ κ} {below : List (Spot σ κ)}
    (hs : Sound drv view o root (p :: below)) {above : List (Frame κ)} {base : Frame κ} {k : κ}
    (hnear : Search.nearestSnapshot ((p :: below).map Spot.frame) = some (above, base, k)) :
    ∃ n : Node σ, drv.Captures view k n.machine ∧ ∀ index m, view m = view n.machine →
      ∃ m', Replay.steps drv index (Search.stepsToTop above base) m = (none, m') ∧
        view m' = view p.node.machine := by
  induction below generalizing p above with
  | nil =>
    cases hk : p.frame.snapshot with
    | none => simp [Search.nearestSnapshot, hk] at hnear
    | some k' =>
      simp only [List.map_cons, Search.nearestSnapshot, hk, Option.some.injEq, Prod.mk.injEq] at hnear
      obtain ⟨rfl, rfl, rfl⟩ := hnear
      exact ⟨p.node, hs.fits.snapshot _ hk, fun index m hm => ⟨m, rfl, hm⟩⟩
  | cons q below ih =>
    cases hk : p.frame.snapshot with
    | some k' =>
      simp only [List.map_cons, Search.nearestSnapshot, hk, Option.some.injEq, Prod.mk.injEq] at hnear
      obtain ⟨rfl, rfl, rfl⟩ := hnear
      exact ⟨p.node, hs.fits.snapshot _ hk, fun index m hm => ⟨m, rfl, hm⟩⟩
    | none =>
      -- The snapshot belongs to a spot below, and one more step is replayed to reach this one.
      have hp := hs.fits.notFailing
      rw [List.map_cons, Search.nearestSnapshot, hk] at hnear
      obtain ⟨⟨above', base', k'⟩, hbelow, heq⟩ := Option.map_eq_some_iff.mp hnear
      cases heq
      obtain ⟨rest, hsplit⟩ := Search.nearestSnapshot_eq_some hbelow
      cases hs with
      | link hlower _ hout hadv _ _ =>
        obtain ⟨n, hcapt, hreplay⟩ := ih hlower hbelow
        refine ⟨n, hcapt, fun index m hm => ?_⟩
        obtain ⟨m₁, hsteps, hview₁⟩ := hreplay index m hm
        rw [Search.stepsToTop_cons hsplit hout, Replay.steps_append drv _ _ hsteps]
        exact replay_link hdet hadv hp hview₁ _

/-- A successful restore moves the machine only, to the program state of the top frame. -/
theorem Sound.restoreTop (hdet : drv.Deterministic view) {s s' : Search σ κ} {p : Spot σ κ}
    {below : List (Spot σ κ)} (hs : Sound drv view o root (p :: below))
    (hstack : s.stack = (p :: below).map Spot.frame) (h : Search.restoreTop drv s = (none, s')) :
    ∃ m e, s' = { s with machine := m }.log e ∧ view m = view p.node.machine := by
  obtain ⟨top, rest, above, base, k, m₁, m, -, hnear, hrestore, hsteps, rfl⟩ := Search.restoreTop_eq_none h
  rw [hstack] at hnear
  obtain ⟨n, ⟨m₀, hview₀, hsnap⟩, hreplay⟩ := hs.replays hdet hnear
  have hview₁ : view m₁ = view n.machine := by
    have hok : (drv.restore k s.machine).1 = .ok () := by rw [hrestore]
    have hback := hdet.restore_view hsnap hok
    rwa [hrestore, hview₀] at hback
  obtain ⟨m', hsteps', hview'⟩ := hreplay 0 m₁ hview₁
  rw [hsteps] at hsteps'
  cases hsteps'
  exact ⟨m, _, rfl, hview'⟩

end Trail

end Interleave
