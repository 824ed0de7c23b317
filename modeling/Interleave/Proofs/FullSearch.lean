import Interleave.Proofs.StackPath

/-! A search without reduction and without visited set tries every execution within its depth bound, in
lexicographic order, and reports the first one that fails. -/

namespace Interleave

variable {σ κ π : Type}

def Step.Before (x y : Step) : Prop := x.actor < y.actor ∨ (x.actor = y.actor ∧ x.outcome < y.outcome)

theorem Step.before_or_eq_or_before (x y : Step) : x.Before y ∨ x = y ∨ y.Before x := by
  rcases lt_trichotomy x.actor y.actor with hactor | hactor | hactor
  · exact .inl (.inl hactor)
  · rcases lt_trichotomy x.outcome y.outcome with houtcome | houtcome | houtcome
    · exact .inl (.inr ⟨hactor, houtcome⟩)
    · obtain ⟨a, i⟩ := x
      cases hactor
      cases houtcome
      exact .inr (.inl rfl)
    · exact .inr (.inr (.inr ⟨hactor.symm, houtcome⟩))
  · exact .inr (.inr (.inl hactor))

theorem lex_append_singleton {as bs : List Step} {b : Step}
    (h : List.Lex Step.Before as (bs ++ [b])) :
    List.Lex Step.Before as bs ∨ as = bs ∨ ∃ c cs, as = bs ++ c :: cs ∧ c.Before b := by
  induction bs generalizing as with
  | nil =>
    cases h with
    | nil => exact .inr (.inl rfl)
    | rel hc => exact .inr (.inr ⟨_, _, rfl, hc⟩)
    | cons hrest => cases hrest
  | cons d bs ih =>
    cases h with
    | nil => exact .inl .nil
    | rel hc => exact .inl (.rel hc)
    | cons hrest =>
      rcases ih hrest with hlex | rfl | ⟨c, cs, rfl, hc⟩
      · exact .inl (.cons hlex)
      · exact .inr (.inl rfl)
      · exact .inr (.inr ⟨c, cs, rfl, hc⟩)

theorem lex_total (as bs : List Step) :
    List.Lex Step.Before as bs ∨ as = bs ∨ List.Lex Step.Before bs as := by
  induction as generalizing bs with
  | nil =>
    cases bs with
    | nil => exact .inr (.inl rfl)
    | cons b bs => exact .inl .nil
  | cons a as ih =>
    cases bs with
    | nil => exact .inr (.inr .nil)
    | cons b bs =>
      rcases a.before_or_eq_or_before b with hab | rfl | hba
      · exact .inl (.rel hab)
      · rcases ih bs with h | rfl | h
        · exact .inl (.cons h)
        · exact .inr (.inl rfl)
        · exact .inr (.inr (.cons h))
      · exact .inr (.inr (.rel hba))

def Options.Admits (o : Options) (length : Nat) : Prop := o.maxDepth < 1 ∨ (length : Int) ≤ o.maxDepth

theorem Options.admits_succ_iff {o : Options} {d : Nat} : o.Admits (d + 1) ↔ o.withinDepth d = true := by
  simp only [Options.Admits, Options.withinDepth, Bool.or_eq_true, decide_eq_true_eq]
  omega

theorem Options.Admits.mono {o : Options} {d e : Nat} (h : o.Admits e) (hle : d ≤ e) : o.Admits d := by
  simp only [Options.Admits] at h ⊢
  omega

/-- The first path, in the order in which they are tried, that has a property. -/
def Earliest (P : List Step → Prop) (path : List Step) : Prop :=
  P path ∧ ∀ path', P path' → path' = path ∨ List.Lex Step.Before path path'

theorem earliest_of_not_before {P : List Step → Prop} {path : List Step} (hpath : P path)
    (h : ∀ path', List.Lex Step.Before path' path → ¬ P path') : Earliest P path := by
  refine ⟨hpath, fun path' hpath' => ?_⟩
  rcases lex_total path' path with hlex | heq | hlex
  · exact absurd hpath' (h path' hlex)
  · exact .inl heq
  · exact .inr hlex

namespace Trail

variable (drv : Driver σ κ) (o : Options) (truncated : Option (List Transition))

def Clears (d : Nat) (n : Node σ) : Prop :=
  ∀ path n', drv.walk? n path = some n' → o.Admits (d + path.length) →
    ¬ n'.Failing ∧ (truncated = none → o.withinDepth (d + path.length) = false → n'.state.enabledIds = [])

structure Scanned (current : Option Step) (d : Nat) (p : Spot σ κ) : Prop where
  allMarked : p.state.AllMarked
  clears : ∀ x n, p.state.Tried x → some x ≠ current → drv.advance? p.node x = some n →
    Clears drv o truncated (d + 1) n
  ordered : ∀ x y, current = some y → p.state.offers x = true → x.Before y → p.state.Tried x

def Scanning : List (Spot σ κ) → Prop
  | [] => True
  | p :: below => Scanned drv o truncated p.outgoing below.length p ∧ Scanning below

def Surveyed (root : Node σ) : List (Spot σ κ) → Prop
  | [] => Clears drv o truncated 0 root
  | p :: below => Scanned drv o truncated none below.length p ∧ Scanning drv o truncated below

variable {drv o truncated} {view : σ → π} {root : Node σ}

theorem Scanning.clears_before {spots : List (Spot σ κ)} (hscan : Scanning drv o truncated spots)
    (hs : Sound drv view o root spots) {as : List Step} {n : Node σ}
    (hlex : List.Lex Step.Before as (path spots)) (hwalk : drv.walk? root as = some n)
    (hadmits : o.Admits as.length) :
    ¬ n.Failing ∧ (truncated = none → o.withinDepth as.length = false → n.state.enabledIds = []) := by
  induction spots with
  | nil => cases hlex
  | cons p below ih =>
    have hpath := hs.walk_path
    have hlength := hs.length_path
    cases hout : p.outgoing with
    | none =>
      rw [path, hout] at hlex
      simp only [Option.toList_none, List.append_nil] at hlex
      exact ih hscan.2 hs.tail hlex
    | some y =>
      rw [path, hout] at hlex
      rcases lex_append_singleton hlex with hlex | rfl | ⟨x, rest, rfl, hbefore⟩
      · exact ih hscan.2 hs.tail hlex
      · -- The execution leads to `p` itself, which has been left and so is within the bound.
        obtain rfl : p.node = n := Option.some.inj (hpath.symm.trans hwalk)
        refine ⟨hs.fits.notFailing, fun _ hbound => ?_⟩
        rw [hlength] at hbound
        have hnone := (hs.fits.untouched hbound).1
        simp [Spot.outgoing, hnone] at hout
      · -- It branches off at `p` by a smaller step, which was tried before the outgoing one.
        rw [Driver.walk?_append, hpath, Option.bind_some] at hwalk
        obtain ⟨n₁, hadv, hwalk⟩ := Driver.walk?_cons_eq_some.mp hwalk
        have hoff : p.state.offers x = true := by
          rw [State.offers_congr hs.fits.profile]
          exact (Driver.advance?_eq_some hadv).1
        have hne : some x ≠ p.outgoing := by
          rw [hout]
          rintro ⟨⟩
          simp [Step.Before] at hbefore
        have htried := hscan.1.ordered x y hout hoff hbefore
        have hclears := hscan.1.clears x n₁ htried hne hadv rest n hwalk
        rw [List.length_append, hlength, List.length_cons] at hadmits ⊢
        rw [show below.length + (rest.length + 1) = below.length + 1 + rest.length by omega] at hadmits ⊢
        exact hclears hadmits

theorem Scanned.clears_node {p : Spot σ κ} {d : Nat} (h : Scanned drv o truncated none d p)
    (hp : p.Fits drv view o d)
    (hover : p.state.todoCount = 0 ∨ (o.withinDepth d = false ∧ truncated.isSome = true)) :
    Clears drv o truncated d p.node := by
  have htried : p.state.todoCount = 0 → ∀ x, p.state.offers x = true → p.state.Tried x := by
    intro htodo x hx
    exact State.tried_of_exhausted hp.wellFormed htodo (h.allMarked _ (State.isEnabled_of_offers hx)) hx
  intro as n' hwalk hadmits
  cases as with
  | nil =>
    cases hwalk
    refine ⟨hp.notFailing, fun hnone hbound => ?_⟩
    -- Beyond the bound nothing is ever tried, so nothing left to try means nothing enabled.
    have htodo : p.state.todoCount = 0 := hover.resolve_right (by simp [hnone])
    rw [← State.enabledIds_congr hp.profile, List.eq_nil_iff_forall_not_mem]
    intro a ha
    have hoff := hp.wellFormed.offers_zero ((State.mem_enabledIds hp.wellFormed).mp ha)
    exact (hp.untouched hbound).2 _ (htried htodo _ hoff)
  | cons x rest =>
    obtain ⟨n₁, hadv, hwalk⟩ := Driver.walk?_cons_eq_some.mp hwalk
    have hwithin : o.withinDepth d = true :=
      Options.admits_succ_iff.mp (hadmits.mono (by simp))
    have htodo : p.state.todoCount = 0 := hover.resolve_right (by simp [hwithin])
    have hoff : p.state.offers x = true := by
      rw [State.offers_congr hp.profile]
      exact (Driver.advance?_eq_some hadv).1
    have hclears := h.clears x n₁ (htried htodo x hoff) nofun hadv rest n' hwalk
    rw [List.length_cons, show d + (rest.length + 1) = d + 1 + rest.length by omega] at hadmits ⊢
    exact hclears hadmits

theorem Takes.scanned {p p' : Spot σ κ} {below : List (Spot σ κ)} {x : Step} {t : Transition} {n : Node σ}
    (h : Takes drv o p below x t n p') (hw : p.state.WellFormed)
    (hp : Scanned drv o truncated none below.length p) :
    Scanned drv o truncated p'.outgoing below.length p' where
  allMarked := h.allMarked hw hp.allMarked
  clears := by
    intro y n' hy hne hadv
    rw [h.outgoing] at hne
    have htried : p.state.Tried y := ((h.tried_iff hw y).mp hy).resolve_right fun he => hne (congrArg some he)
    exact hp.clears y n' htried nofun (h.node ▸ hadv)
  ordered := by
    intro y z hz hoff hbefore
    obtain rfl : x = z := Option.some.inj (h.outgoing.symm.trans hz)
    rw [State.offers_congr (h.profile hw)] at hoff
    obtain ⟨st, hst, hen, h0, -⟩ := State.offers_iff.mp hoff
    refine (h.tried_iff hw y).mpr (.inl ?_)
    -- The next actor is the smallest that can run, and its outcomes are handed out in order.
    rcases hbefore with hlt | ⟨hactor, hlt⟩
    · exact State.tried_of_not_runnable hw hst ((State.next?_eq_some hw h.next).2 _ _ hst hlt)
        (hp.allMarked _ (State.isEnabled_iff.mpr ⟨st, hst, hen⟩)) hoff
    · obtain ⟨taken, htake, -⟩ := h.take
      obtain ⟨st', hst', -, -, houtcome, -⟩ := State.take_eq_ok htake
      cases hst.symm.trans (hactor ▸ hst')
      exact ⟨st, hst, h0, houtcome ▸ hlt⟩

theorem scanned_of_fresh {p : Spot σ κ} {d : Nat} {st : State} (ho : o.reduction = .none)
    (hst : st.Fresh) (hp : p.state = Search.consider o st) : Scanned drv o truncated none d p where
  allMarked := hp ▸ consider_allMarked ho st
  clears := by
    intro x n hx _ _
    have hmarks : st.Remarked p.state := hp ▸ consider_remarked o st
    exact absurd ((hmarks.tried_iff x).mp hx) (hst.not_tried x)
  ordered := nofun

theorem Clears.mono {d : Nat} {n : Node σ} (h : Clears drv o truncated d n) (trace : List Transition) :
    Clears drv o (some trace) d n :=
  fun path n' hwalk hadmits => ⟨(h path n' hwalk hadmits).1, nofun⟩

theorem Scanned.mono {current : Option Step} {d : Nat} {p : Spot σ κ}
    (h : Scanned drv o truncated current d p) (trace : List Transition) :
    Scanned drv o (some trace) current d p :=
  ⟨h.allMarked, fun x n hx hne hadv => (h.clears x n hx hne hadv).mono trace, h.ordered⟩

theorem Scanning.mono {spots : List (Spot σ κ)} (h : Scanning drv o truncated spots)
    (trace : List Transition) : Scanning drv o (some trace) spots := by
  induction spots with
  | nil => trivial
  | cons p below ih => exact ⟨h.1.mono trace, ih h.2⟩

theorem surveyed_tail {p : Spot σ κ} {below : List (Spot σ κ)}
    (hs : Sound drv view o root (p :: below)) (hclears : Clears drv o truncated below.length p.node)
    (hscan : Scanning drv o truncated below) : Surveyed drv o truncated root below := by
  cases hs with
  | root _ hnode => exact hnode ▸ hclears
  | @link _ q below t _ _ hout hadv _ _ =>
    refine ⟨⟨hscan.1.allMarked, fun x n hx _ hx' => ?_, nofun⟩, hscan.2⟩
    by_cases hcurrent : some x = q.outgoing
    · rw [Spot.outgoing, hout, Option.map_some, Option.some.injEq] at hcurrent
      obtain rfl : p.node = n := Option.some.inj (hadv.symm.trans (hcurrent ▸ hx'))
      exact hclears
    · exact hscan.1.clears x n hx hcurrent hx'

theorem Unwinds.surveyed {T T' : Trail σ κ} (h : Unwinds o T T') (ho : o.reduction = .none)
    (hs : Sound drv view o root T.spots) (hT : Surveyed drv o T.truncated root T.spots) :
    Surveyed drv o T'.truncated root T'.spots := by
  induction h with
  | emptied => exact hT
  | resumed _ _ hsettle _ _ =>
    cases hsettle.eq_of_none ho
    exact hT
  | dropped hsettle hover _ ih =>
    cases hsettle.eq_of_none ho
    exact ih hs.tail (surveyed_tail hs (hT.1.clears_node hs.fits hover) hT.2)

theorem Sound.admits {p : Spot σ κ} {below : List (Spot σ κ)}
    (hs : Sound drv view o root (p :: below)) : o.Admits below.length := by
  cases below with
  | nil =>
    simp only [Options.Admits, List.length_nil]
    omega
  | cons q below => exact Options.admits_succ_iff.mpr hs.within_of_link

def FailsAt (drv : Driver σ κ) (o : Options) (root : Node σ) (path : List Step) : Prop :=
  o.Admits path.length ∧ ∃ n, drv.walk? root path = some n ∧ n.Failing

def CutAt (drv : Driver σ κ) (o : Options) (root : Node σ) (path : List Step) : Prop :=
  o.Admits path.length ∧ o.withinDepth path.length = false ∧
    ∃ n, drv.walk? root path = some n ∧ n.state.enabledIds ≠ []

theorem Scanning.earliest_fails {spots : List (Spot σ κ)} (hscan : Scanning drv o truncated spots)
    (hs : Sound drv view o root spots) (hfails : FailsAt drv o root (path spots)) :
    Earliest (FailsAt drv o root) (path spots) := by
  refine earliest_of_not_before hfails fun path' hlex => ?_
  rintro ⟨hadmits, n, hwalk, hfail⟩
  exact (hscan.clears_before hs hlex hwalk hadmits).1 hfail

theorem Scanning.earliest_cut {spots : List (Spot σ κ)} (hscan : Scanning drv o none spots)
    (hs : Sound drv view o root spots) (hcut : CutAt drv o root (path spots)) :
    Earliest (CutAt drv o root) (path spots) := by
  refine earliest_of_not_before hcut fun path' hlex => ?_
  rintro ⟨hadmits, hbound, n, hwalk, hen⟩
  exact hen ((hscan.clears_before hs hlex hwalk hadmits).2 rfl hbound)

/-- What a full search keeps from turn to turn: all that it has tried is clear, and the path that it has cut is
the first one that can go on at the bound. -/
structure Survey (drv : Driver σ κ) (o : Options) (root : Node σ) (T : Trail σ κ) : Prop where
  surveyed : Surveyed drv o T.truncated root T.spots
  cut : ∀ trace, T.truncated = some trace → ∃ path n, Earliest (CutAt drv o root) path ∧
    drv.walk? root path = some n ∧ trace = n.trace

theorem Takes.scanning {p p' : Spot σ κ} {below : List (Spot σ κ)} {x : Step} {t : Transition} {n : Node σ}
    (h : Takes drv o p below x t n p') (hs : Sound drv view o root (p :: below))
    (hT : Surveyed drv o truncated root (p :: below)) : Scanning drv o truncated (p' :: below) :=
  ⟨h.scanned hs.fits.wellFormed hT.1, hT.2⟩

theorem survey_of_cut {p : Spot σ κ} {below : List (Spot σ κ)} {visited : VisitedSet κ}
    (hs : Sound drv view o root (p :: below)) (hT : Survey drv o root ⟨p :: below, visited, truncated⟩)
    (hbound : o.withinDepth below.length = false) (htodo : 0 < p.state.todoCount) :
    Survey drv o root ⟨p :: below, visited, some (truncated.getD p.node.trace)⟩ where
  surveyed := ⟨hT.surveyed.1.mono _, hT.surveyed.2.mono _⟩
  cut := by
    intro trace htrace
    cases truncated with
    | some _ => exact hT.cut _ htrace
    | none =>
      cases htrace
      have hen : p.node.state.enabledIds ≠ [] := by
        rw [← State.enabledIds_congr hs.fits.profile]
        exact State.enabledIds_ne_nil hs.fits.wellFormed htodo
      refine ⟨path below, p.node, hT.surveyed.2.earliest_cut hs.tail ?_, hs.walk_path, rfl⟩
      rw [CutAt, hs.length_path]
      exact ⟨hs.admits, hbound, p.node, hs.walk_path, hen⟩

variable [Snapshot κ]

theorem Starts.survey {T : Trail σ κ} (h : Starts drv view o root T) (ho : o.reduction = .none)
    (hroot : root.state.Fresh) : Survey drv o root T where
  surveyed := by
    obtain ⟨p, hspots, -, hstate, -⟩ := h.spots
    rw [hspots]
    exact ⟨scanned_of_fresh ho hroot hstate, trivial⟩
  cut := by simp [h.truncated]

theorem Shift.survey {T T' : Trail σ κ} (h : Shift drv view o T T') (ho : o.reduction = .none)
    (hnone : o.maxVisited = 0) (hs : Sound drv view o root T.spots) (hT : Survey drv o root T) :
    Survey drv o root T' := by
  cases h with
  | @entered p p' q below _ _ x t n num _ htakes _ _ hstate _ _ _ =>
    have hfresh := (Driver.advance?_fresh hs.fits.fresh htakes.advance).renumbered num
    exact ⟨⟨scanned_of_fresh ho hfresh hstate, htakes.scanning hs hT.surveyed⟩, hT.cut⟩
  | skipped _ _ _ hpositive _ => exact absurd hpositive (by simp [hnone])
  | cut _ _ hbound htodo => exact survey_of_cut hs hT hbound htodo
  | unwound _ hunwinds =>
    exact ⟨hunwinds.surveyed ho hs hT.surveyed, hunwinds.truncated_eq ▸ hT.cut⟩

theorem Visits.survey {T : Trail σ κ} (h : Visits drv view o root T) (ho : o.reduction = .none)
    (hnone : o.maxVisited = 0) (hroot : root.state.Fresh) :
    Sound drv view o root T.spots ∧ Survey drv o root T :=
  h.induction hroot (fun _ hstarts => hstarts.survey ho hroot)
    fun _ _ hs hT hshift => hshift.survey ho hnone hs hT

theorem full_cases (hdet : drv.Deterministic view) (ho : o.reduction = .none) (hnone : o.maxVisited = 0)
    {m : σ} {fuel : Nat} {s : Search σ κ} (h : Search.run drv o fuel m = some (none, s)) :
    ∃ root, drv.root? m = some root ∧
      ((s.violation = none ∧ Clears drv o s.truncated 0 root ∧
          ∀ trace, s.truncated = some trace → ∃ path n, Earliest (CutAt drv o root) path ∧
            drv.walk? root path = some n ∧ trace = n.trace) ∨
        (s.violation.isSome = true ∧ ∃ path n, Earliest (FailsAt drv o root) path ∧
          drv.walk? root path = some n ∧ s.trace = n.trace)) := by
  obtain ⟨root, hroot, hends⟩ := run_cases hdet h
  have hfresh := Driver.root?_fresh hroot
  refine ⟨root, hroot, ?_⟩
  rcases hends with ⟨T, hvisits, hspots, hviolation, htruncated⟩ | hfail | hreports
  · obtain ⟨-, hsurveyed, hcut⟩ := hvisits.survey ho hnone hfresh
    rw [hspots, ← htruncated] at hsurveyed
    rw [← htruncated] at hcut
    exact .inl ⟨hviolation, hsurveyed, hcut⟩
  · obtain ⟨hfail, -, hviolation, htrace, -⟩ := hfail
    have hadmits : o.Admits 0 := by
      simp only [Options.Admits]
      omega
    refine .inr ⟨Option.isSome_iff_exists.mpr ⟨_, hviolation⟩, [], root, ⟨⟨hadmits, root, rfl, hfail⟩, ?_⟩,
      rfl, htrace⟩
    intro path _
    cases path with
    | nil => exact .inl rfl
    | cons x path => exact .inr .nil
  · obtain ⟨T, hvisits, p, below, x, t, n, p', hspots, htakes, hfail, -, hviolation, htrace, -⟩ := hreports
    obtain ⟨hs, hsurveyed, -⟩ := hvisits.survey ho hnone hfresh
    rw [hspots] at hs hsurveyed
    have hpath : path (p' :: below) = path below ++ [x] := by rw [path, htakes.outgoing]; rfl
    have hwalk : drv.walk? root (path (p' :: below)) = some n := by
      rw [hpath, Driver.walk?_snoc, hs.walk_path]
      exact htakes.advance
    have hadmits : o.Admits (path (p' :: below)).length := by
      rw [hpath, List.length_append, hs.length_path]
      exact Options.admits_succ_iff.mpr htakes.within
    exact .inr ⟨Option.isSome_iff_exists.mpr ⟨_, hviolation⟩, path (p' :: below), n,
      (htakes.scanning hs hsurveyed).earliest_fails (htakes.sound hs) ⟨hadmits, n, hwalk, hfail⟩,
      hwalk, htrace⟩

theorem not_failing_of_full (hdet : drv.Deterministic view) (ho : o.reduction = .none)
    (hnone : o.maxVisited = 0) {m : σ} (hroot : drv.root? m = some root) {fuel : Nat} {s : Search σ κ}
    (h : Search.run drv o fuel m = some (none, s)) (hclean : s.result.outcome = .noViolation)
    {path : List Step} {n : Node σ} (hwalk : drv.walk? root path = some n) (hadmits : o.Admits path.length) :
    ¬ n.Failing := by
  obtain ⟨root', hroot', hends⟩ := full_cases hdet ho hnone h
  cases hroot.symm.trans hroot'
  rcases hends with ⟨-, hclears, -⟩ | ⟨hviolation, -⟩
  · exact (hclears path n hwalk (by rwa [Nat.zero_add])).1
  · simp [Search.result, Search.outcome, hviolation] at hclean

end Trail

namespace Driver

variable {drv : Driver σ κ} {view : σ → π}

/-- An execution of at most `bound` steps that ends in a violating step or in a deadlock. -/
def FailsWithin (drv : Driver σ κ) (m : σ) (bound : Int) (path : List Step) : Prop :=
  path.length ≤ bound ∧ ∃ n, drv.execution? m path = some n ∧ n.Failing

/-- An execution of exactly `bound` steps that ends with an enabled actor. -/
def GoesOnAt (drv : Driver σ κ) (m : σ) (bound : Int) (path : List Step) : Prop :=
  path.length = bound ∧ ∃ n, drv.execution? m path = some n ∧ n.state.enabledIds ≠ []

theorem Deterministic.walk?_steps (hdet : drv.Deterministic view) {n n' : Node σ} {path : List Step}
    (h : drv.walk? n path = some n') :
    n'.trace.map Transition.step = n.trace.map Transition.step ++ path := by
  induction path generalizing n with
  | nil =>
    cases h
    simp
  | cons x path ih =>
    obtain ⟨n₁, hadv, hwalk⟩ := walk?_cons_eq_some.mp h
    obtain ⟨-, r, hexec, -, htrace, -⟩ := advance?_eq_some hadv
    have hstep : r.transition.step = x := hdet.echo (congrArg Prod.fst hexec)
    rw [ih hwalk, htrace, List.map_append, List.map_singleton, hstep, List.append_assoc]
    rfl

theorem failsAt_eq {m : σ} {root : Node σ} {o : Options} (hroot : drv.root? m = some root)
    (hdepth : 1 ≤ o.maxDepth) : Trail.FailsAt drv o root = drv.FailsWithin m o.maxDepth := by
  funext path
  have hadmits : o.Admits path.length ↔ (path.length : Int) ≤ o.maxDepth := by
    simp only [Options.Admits]
    omega
  rw [Trail.FailsAt, FailsWithin, hadmits, execution?_of_root? hroot]

theorem cutAt_eq {m : σ} {root : Node σ} {o : Options} (hroot : drv.root? m = some root)
    (hdepth : 1 ≤ o.maxDepth) : Trail.CutAt drv o root = drv.GoesOnAt m o.maxDepth := by
  funext path
  have hadmits : (o.Admits path.length ∧ o.withinDepth path.length = false) ↔
      (path.length : Int) = o.maxDepth := by
    simp only [Options.Admits, Options.withinDepth, Bool.or_eq_false_iff, decide_eq_false_iff_not]
    omega
  rw [Trail.CutAt, GoesOnAt, ← hadmits, and_assoc, execution?_of_root? hroot]

end Driver

def Search.Shows (drv : Driver σ κ) (m : σ) (P : List Step → Prop) (r : Result) : Prop :=
  ∃ n, Earliest P (r.trace.map Transition.step) ∧
    drv.execution? m (r.trace.map Transition.step) = some n ∧ r.trace = n.trace

theorem Driver.Deterministic.shows {drv : Driver σ κ} {view : σ → π} (hdet : drv.Deterministic view) {m : σ}
    {root n : Node σ} {P : List Step → Prop} {path : List Step} {r : Result}
    (hroot : drv.root? m = some root) (hpath : Earliest P path) (hwalk : drv.walk? root path = some n)
    (htrace : r.trace = n.trace) : Search.Shows drv m P r := by
  obtain ⟨-, -, -, hnil, -⟩ := Driver.root?_eq_some hroot
  have hsteps : r.trace.map Transition.step = path := by
    rw [htrace, hdet.walk?_steps hwalk, hnil]
    rfl
  exact ⟨n, hsteps ▸ hpath, by rw [hsteps, Driver.execution?_of_root? hroot, hwalk], htrace⟩

section Exactness

variable [Snapshot κ] {drv : Driver σ κ} {view : σ → π}

theorem full_result_cases (hdet : drv.Deterministic view) {o : Options} (hreduction : o.reduction = .none)
    (hvisited : o.maxVisited = 0) (hdepth : 1 ≤ o.maxDepth) {m : σ} {fuel : Nat} {s : Search σ κ}
    (hrun : Search.run drv o fuel m = some (none, s)) :
    (s.result.outcome = .violation ∧ Search.Shows drv m (drv.FailsWithin m o.maxDepth) s.result) ∨
      (s.result.outcome = .nonTermination ∧ (¬ ∃ path, drv.FailsWithin m o.maxDepth path) ∧
        Search.Shows drv m (drv.GoesOnAt m o.maxDepth) s.result) ∨
      (s.result.outcome = .noViolation ∧ (¬ ∃ path, drv.FailsWithin m o.maxDepth path) ∧
        (¬ ∃ path, drv.GoesOnAt m o.maxDepth path) ∧ s.result.trace = []) := by
  have hdone := Trail.run_phase hrun
  obtain ⟨root, hroot, hends⟩ := Trail.full_cases hdet hreduction hvisited hrun
  rw [Driver.failsAt_eq hroot hdepth, Driver.cutAt_eq hroot hdepth] at hends
  rcases hends with ⟨hviolation, hclears, hcut⟩ | ⟨hviolation, path, n, hpath, hwalk, htrace⟩
  · have hnofail : ¬ ∃ path, drv.FailsWithin m o.maxDepth path := by
      rw [← Driver.failsAt_eq hroot hdepth]
      rintro ⟨path, hadmits, n, hwalk, hfail⟩
      exact (hclears path n hwalk (by rwa [Nat.zero_add])).1 hfail
    cases htruncated : s.truncated with
    | none =>
      have hnocut : ¬ ∃ path, drv.GoesOnAt m o.maxDepth path := by
        rw [← Driver.cutAt_eq hroot hdepth]
        rintro ⟨path, hadmits, hbound, n, hwalk, hen⟩
        exact hen ((hclears path n hwalk (by rwa [Nat.zero_add])).2 htruncated (by rwa [Nat.zero_add]))
      have hout : s.outcome = .noViolation := by simp [Search.outcome, hviolation, htruncated]
      exact .inr (.inr ⟨hout, hnofail, hnocut, by simp [Search.result, Search.reportedTrace, hdone, hout]⟩)
    | some trace =>
      obtain ⟨path, n, hpath, hwalk, htrace⟩ := hcut trace htruncated
      have hout : s.outcome = .nonTermination := by simp [Search.outcome, hviolation, htruncated]
      exact .inr (.inl ⟨hout, hnofail, hdet.shows hroot hpath hwalk
        (by simp [Search.result, Search.reportedTrace, hdone, hout, htruncated, htrace])⟩)
  · have hout : s.outcome = .violation := by simp [Search.outcome, hviolation]
    exact .inl ⟨hout, hdet.shows hroot hpath hwalk
      (by simp [Search.result, Search.reportedTrace, hdone, hout, htrace])⟩

/-- A full search to a depth bound is exact: it reports a violation if and only if an execution within the bound
fails, otherwise that it has not ended if and only if an execution can go on at the bound, and the trace of its
report is the first such execution. -/
theorem full_search_exact (hdet : drv.Deterministic view) {o : Options} (hreduction : o.reduction = .none)
    (hvisited : o.maxVisited = 0) (hdepth : 1 ≤ o.maxDepth) {m : σ} {fuel : Nat} {s : Search σ κ}
    (hrun : Search.run drv o fuel m = some (none, s)) :
    (s.result.outcome = .violation ↔ ∃ path, drv.FailsWithin m o.maxDepth path) ∧
      (s.result.outcome = .violation → Search.Shows drv m (drv.FailsWithin m o.maxDepth) s.result) ∧
      (s.result.outcome = .nonTermination ↔ (¬ ∃ path, drv.FailsWithin m o.maxDepth path) ∧
        ∃ path, drv.GoesOnAt m o.maxDepth path) ∧
      (s.result.outcome = .nonTermination →
        Search.Shows drv m (drv.GoesOnAt m o.maxDepth) s.result) ∧
      (s.result.outcome = .noViolation ↔ (¬ ∃ path, drv.FailsWithin m o.maxDepth path) ∧
        ¬ ∃ path, drv.GoesOnAt m o.maxDepth path) := by
  rcases full_result_cases hdet hreduction hvisited hdepth hrun with
    ⟨hout, hshows⟩ | ⟨hout, hnofail, hshows⟩ | ⟨hout, hnofail, hnocut, -⟩
  · have hfails : ∃ path, drv.FailsWithin m o.maxDepth path := ⟨_, hshows.choose_spec.1.1⟩
    simp [hout, hshows, hfails]
  · have hcut : ∃ path, drv.GoesOnAt m o.maxDepth path := ⟨_, hshows.choose_spec.1.1⟩
    simp only [not_exists] at hnofail
    simp [hout, hshows, hnofail, hcut]
  · simp only [not_exists] at hnofail hnocut
    simp [hout, hnofail, hnocut]

theorem full_search_exact_checkedCounter :
    ∃ path, Program.checkedCounter.driver.FailsWithin Program.checkedCounter.initial 2 path := by
  obtain ⟨s, hrun, hout⟩ : ∃ s, Search.run Program.checkedCounter.driver ⟨2, .none, 0, 0, false⟩ 9
      Program.checkedCounter.initial = some (none, s) ∧ s.result.outcome = .violation := ⟨_, rfl, rfl⟩
  exact (full_search_exact Program.checkedCounter.driver_deterministic rfl rfl (by decide) hrun).1.mp hout

end Exactness

end Interleave
