import Interleave.Proofs.StackPath
import Interleave.Proofs.VisitedSet
import Mathlib.Data.List.Induction

/-! A search that skips the states it has visited before. The program states that were entered are closed under
all steps but those that some state on the stack still has to try, and those from states at the depth bound.
When the stack is empty and no path has been cut they are closed, so they contain every reachable state, whatever
entries the visited set has lost. -/

namespace Interleave

variable {σ κ π : Type}

namespace Driver

variable {drv : Driver σ κ} {view : σ → π}

/-- Executions that end in the same program state leave the same actors alive and offer the same steps. -/
def StatusByState (drv : Driver σ κ) (view : σ → π) (m : σ) : Prop :=
  ∀ path path' n n', drv.execution? m path = some n → drv.execution? m path' = some n' →
    view n.machine = view n'.machine →
    n.state.ids = n'.state.ids ∧ ∀ x, n.state.offers x = n'.state.offers x

/-- Snapshots that compare equal were taken in the same program state. -/
def Faithful [Snapshot κ] (drv : Driver σ κ) (view : σ → π) : Prop :=
  ∀ k k' m m', drv.Captures view k m → drv.Captures view k' m' → Snapshot.same k k' = true →
    view m = view m'

theorem Deterministic.advance?_congr (hdet : drv.Deterministic view) {n₁ n₂ n₁' n₂' : Node σ} {x : Step}
    (hview : view n₁.machine = view n₂.machine) (h₁ : drv.advance? n₁ x = some n₁')
    (h₂ : drv.advance? n₂ x = some n₂') :
    view n₁'.machine = view n₂'.machine ∧ n₁'.violation = n₂'.violation := by
  obtain ⟨-, r₁, hexec₁, -, -, hviolation₁⟩ := advance?_eq_some h₁
  obtain ⟨-, r₂, hexec₂, -, -, hviolation₂⟩ := advance?_eq_some h₂
  obtain ⟨hanswer, hview'⟩ := hdet.execute x.actor x.outcome hview
  rw [hexec₁, hexec₂] at hanswer hview'
  cases hanswer
  exact ⟨hview', hviolation₁.trans hviolation₂.symm⟩

end Driver

theorem State.isDeadlock_of_alike {s s' : State} (hs : s.Fresh) (hs' : s'.Fresh) (hids : s.ids = s'.ids)
    (hoffers : ∀ x, s.offers x = s'.offers x) (h : s.isDeadlock = true) : s'.isDeadlock = true := by
  simp only [isDeadlock, Bool.and_eq_true, Bool.not_eq_true', List.isEmpty_iff,
    List.isEmpty_eq_false_iff] at h ⊢
  refine ⟨fun hnil => h.1 ?_, ?_⟩
  · have hempty : s.ids = [] := by rw [hids, ids, hnil, List.map_nil]
    exact List.map_eq_nil_iff.mp hempty
  · rw [List.eq_nil_iff_forall_not_mem]
    intro a ha
    have hoff := hs'.wellFormed.offers_zero ((mem_enabledIds hs'.wellFormed).mp ha)
    rw [← hoffers] at hoff
    have hmem := (mem_enabledIds hs.wellFormed).mpr (isEnabled_of_offers hoff)
    rw [h.2] at hmem
    cases hmem

namespace Trail

variable {drv : Driver σ κ} {view : σ → π} {o : Options} {root : Node σ}

def Awaits (view : σ → π) (spots : List (Spot σ κ)) (v : π) (x : Step) : Prop :=
  ∃ p ∈ spots, view p.node.machine = v ∧ ¬ p.state.Tried x

def Excused (drv : Driver σ κ) (view : σ → π) (o : Options) (root : Node σ)
    (truncated : Option (List Transition)) (v : π) : Prop :=
  truncated.isSome = true ∧
    ∃ path n, drv.walk? root path = some n ∧ (path.length : Int) = o.maxDepth ∧ view n.machine = v

/-- The program states that have been entered: every step from them has been tried from some spot, or some spot
will try it, unless the state is excused. -/
structure Entered (drv : Driver σ κ) (view : σ → π) (root : Node σ) (excused seen : π → Prop)
    (T : Trail σ κ) : Prop where
  initial : seen (view root.machine)
  allMarked : ∀ p ∈ T.spots, p.state.AllMarked
  entries : ∀ e ∈ T.visited.entries, ∃ m, drv.Captures view e.snapshot m ∧ seen (view m)
  closed : ∀ path n x n', drv.walk? root path = some n → seen (view n.machine) →
    drv.advance? n x = some n' →
    (¬ n'.Failing ∧ seen (view n'.machine)) ∨ Awaits view T.spots (view n.machine) x ∨ excused (view n.machine)

def Strays (drv : Driver σ κ) (view : σ → π) (root : Node σ) (excused : π → Prop) (path : List Step) : Prop :=
  ∃ before x behind n, path = before ++ x :: behind ∧ drv.walk? root before = some n ∧ excused (view n.machine)

theorem Entered.strays {excused seen : π → Prop} {T : Trail σ κ} (h : Entered drv view root excused seen T)
    (hspots : T.spots = []) (hroot : ¬ root.Failing) {path : List Step} {n : Node σ}
    (hwalk : drv.walk? root path = some n) :
    (¬ n.Failing ∧ seen (view n.machine)) ∨ Strays drv view root excused path := by
  induction path using List.reverseRecOn generalizing n with
  | nil =>
    cases hwalk
    exact .inl ⟨hroot, h.initial⟩
  | append_singleton path x ih =>
    rw [Driver.walk?_snoc, Option.bind_eq_some_iff] at hwalk
    obtain ⟨n₁, hwalk, hadv⟩ := hwalk
    rcases ih hwalk with ⟨-, hseen⟩ | ⟨before, y, behind, n₂, rfl, hwalk₂, hexcused⟩
    · rcases h.closed path n₁ x n hwalk hseen hadv with hdone | ⟨p, hp, -⟩ | hexcused
      · exact .inl hdone
      · rw [hspots] at hp
        cases hp
      · exact .inr ⟨path, x, [], n₁, rfl, hwalk, hexcused⟩
    · exact .inr ⟨before, y, behind ++ [x], n₂, by simp, hwalk₂, hexcused⟩

theorem Entered.not_failing {seen : π → Prop} {T : Trail σ κ}
    (h : Entered drv view root (fun _ => False) seen T) (hspots : T.spots = []) (hroot : ¬ root.Failing)
    {path : List Step} {n : Node σ} (hwalk : drv.walk? root path = some n) :
    ¬ n.Failing ∧ seen (view n.machine) := by
  refine (h.strays hspots hroot hwalk).resolve_right ?_
  rintro ⟨-, -, -, -, -, -, hexcused⟩
  exact hexcused

theorem Awaits.mono {spots spots' : List (Spot σ κ)} {v : π} {x : Step} (h : Awaits view spots v x)
    (hsub : ∀ p ∈ spots, p ∈ spots') : Awaits view spots' v x := by
  obtain ⟨p, hp, hawaits⟩ := h
  exact ⟨p, hsub p hp, hawaits⟩

theorem Takes.awaits (hdet : drv.Deterministic view) {m : σ} (hstatus : drv.StatusByState view m)
    (hroot : drv.root? m = some root) {p p' : Spot σ κ} {below : List (Spot σ κ)} {x : Step}
    {t : Transition} {n : Node σ} (h : Takes drv o p below x t n p')
    (hs : Sound drv view o root (p :: below)) (hn : ¬ n.Failing) {path : List Step} {n₁ n₂ : Node σ}
    {y : Step} (hwalk : drv.walk? root path = some n₁) (hadv : drv.advance? n₁ y = some n₂)
    (hawaits : Awaits view (p :: below) (view n₁.machine) y) :
    (¬ n₂.Failing ∧ view n₂.machine = view n.machine) ∨
      Awaits view (p' :: below) (view n₁.machine) y := by
  obtain ⟨q, hq, hview, htried⟩ := hawaits
  rcases List.mem_cons.mp hq with rfl | hq
  · by_cases hxy : y = x
    · subst hxy
      obtain ⟨hview', hviolation⟩ := hdet.advance?_congr hview h.advance hadv
      have hfresh := Driver.root?_fresh hroot
      have hwalk₂ : drv.walk? root (path ++ [y]) = some n₂ := by
        rw [Driver.walk?_snoc, hwalk]
        exact hadv
      have hwalk' : drv.walk? root (Trail.path below ++ [y]) = some n := by
        rw [Driver.walk?_snoc, hs.walk_path]
        exact h.advance
      obtain ⟨hids, hoffers⟩ := hstatus _ _ n₂ n
        (by rw [Driver.execution?_of_root? hroot, hwalk₂])
        (by rw [Driver.execution?_of_root? hroot, hwalk']) hview'.symm
      refine .inl ⟨?_, hview'.symm⟩
      rintro (hfail | hfail)
      · exact hn (.inl (hviolation ▸ hfail))
      · exact hn (.inr (State.isDeadlock_of_alike (Driver.walk?_fresh hfresh hwalk₂)
          (Driver.walk?_fresh hfresh hwalk') hids hoffers hfail))
    · refine .inr ⟨p', List.mem_cons_self, h.node ▸ hview, fun hy => ?_⟩
      rcases (h.tried_iff hs.fits.wellFormed y).mp hy with hy | hy
      · exact htried hy
      · exact hxy hy
  · exact .inr ⟨q, List.mem_cons_of_mem _ hq, hview, htried⟩

theorem Unwinds.entered {seen : π → Prop} {T T' : Trail σ κ} (h : Unwinds o T T') (ho : o.reduction = .none)
    {m : σ} (hstatus : drv.StatusByState view m) (hroot : drv.root? m = some root)
    (hs : Sound drv view o root T.spots)
    (hT : Entered drv view root (Excused drv view o root T.truncated) seen T) :
    Entered drv view root (Excused drv view o root T'.truncated) seen T' := by
  induction h with
  | emptied => exact hT
  | resumed _ _ hsettle _ _ =>
    cases hsettle.eq_of_none ho
    exact hT
  | @dropped p below below' visited truncated T hsettle hover _ ih =>
    cases hsettle.eq_of_none ho
    refine ih hs.tail ⟨hT.initial, fun q hq => hT.allMarked q (List.mem_cons_of_mem _ hq), hT.entries, ?_⟩
    intro path n x n' hwalk hseen hadv
    refine (hT.closed path n x n' hwalk hseen hadv).imp_right ?_
    rintro (⟨q, hq, hview, htried⟩ | hexcused)
    · rcases List.mem_cons.mp hq with rfl | hq
      · rcases hover with htodo | ⟨hbound, htruncated⟩
        · -- The spot that goes has tried all that it offers, so it awaits nothing.
          have hoff : q.state.offers x = true := by
            obtain ⟨-, hoffers⟩ := hstatus _ _ n q.node
              (by rw [Driver.execution?_of_root? hroot, hwalk])
              (by rw [Driver.execution?_of_root? hroot, hs.walk_path]) hview.symm
            rw [State.offers_congr hs.fits.profile, ← hoffers]
            exact (Driver.advance?_eq_some hadv).1
          have hmarked := hT.allMarked q List.mem_cons_self _ (State.isEnabled_of_offers hoff)
          exact absurd (State.tried_of_exhausted hs.fits.wellFormed htodo hmarked hoff) htried
        · exact .inr ⟨htruncated, Trail.path below, q.node, hs.walk_path, hs.length_eq_bound hbound, hview⟩
      · exact .inl ⟨q, hq, hview, htried⟩
    · exact .inr hexcused

variable [Snapshot κ]

theorem Adds.entries {n : Node σ} {num : Int} {visited visited' : VisitedSet κ} {k : κ}
    {addition : Addition κ} (h : Adds drv view n num visited visited' k addition) {seen : π → Prop}
    (hseen : seen (view n.machine))
    (hentries : ∀ e ∈ visited.entries, ∃ m, drv.Captures view e.snapshot m ∧ seen (view m)) :
    ∀ e ∈ visited'.entries, ∃ m, drv.Captures view e.snapshot m ∧ seen (view m) := by
  obtain ⟨hcaptures, compared, hadd⟩ := h
  intro e he
  have hvisited : (visited.add num k).1 = visited' := congrArg Prod.fst hadd
  rw [← hvisited] at he
  rcases VisitedSet.mem_add he with hold | ⟨-, rfl⟩
  · exact hentries e hold
  · exact ⟨n.machine, hcaptures, hseen⟩

theorem Adds.seen_of_duplicate {n : Node σ} {num : Int} {visited visited' : VisitedSet κ} {k : κ}
    {old : VisitedEntry κ} (h : Adds drv view n num visited visited' k (.duplicate old))
    (hfaithful : drv.Faithful view) {seen : π → Prop}
    (hentries : ∀ e ∈ visited.entries, ∃ m, drv.Captures view e.snapshot m ∧ seen (view m)) :
    seen (view n.machine) := by
  obtain ⟨hcaptures, compared, hadd⟩ := h
  obtain ⟨hold, hsame⟩ := VisitedSet.add_duplicate (congrArg (fun r => r.2.1) hadd)
  obtain ⟨m, hcaptures', hseen⟩ := hentries old hold
  exact hfaithful _ _ _ _ hcaptures' hcaptures hsame ▸ hseen

theorem Starts.entered {T : Trail σ κ} (h : Starts drv view o root T) (ho : o.reduction = .none)
    (hfresh : root.state.Fresh) (excused : π → Prop) :
    Entered drv view root excused (· = view root.machine) T := by
  obtain ⟨p, hspots, hnode, hstate, -⟩ := h.spots
  have hmarks : root.state.Remarked p.state := hstate ▸ consider_remarked o _
  refine ⟨rfl, ?_, ?_, ?_⟩
  · rw [hspots]
    rintro q hq
    obtain rfl := List.mem_singleton.mp hq
    exact hstate ▸ consider_allMarked ho _
  · intro e he
    rcases h.visited with ⟨-, hvisited⟩ | ⟨k, hcaptures, hvisited⟩ <;> rw [hvisited] at he
    · cases he
    · rcases VisitedSet.mem_add he with hold | ⟨-, rfl⟩
      · cases hold
      · exact ⟨root.machine, hcaptures, rfl⟩
  · intro path n x n' _ hseen _
    rw [hspots, hseen]
    exact .inr (.inl ⟨p, List.mem_singleton_self p, hnode ▸ rfl, fun hx =>
      hfresh.not_tried x ((hmarks.tried_iff x).mp hx)⟩)

theorem Shift.entered_seen (hdet : drv.Deterministic view) (hfaithful : drv.Faithful view)
    (ho : o.reduction = .none) {m : σ} (hstatus : drv.StatusByState view m)
    (hroot : drv.root? m = some root) {T T' : Trail σ κ} (h : Shift drv view o T T')
    (hs : Sound drv view o root T.spots)
    (hT : ∃ seen, Entered drv view root (Excused drv view o root T.truncated) seen T) :
    ∃ seen, Entered drv view root (Excused drv view o root T'.truncated) seen T' := by
  obtain ⟨seen, hseen⟩ := hT
  cases h with
  | @entered p p' q below visited visited' x t n num _ htakes hn hnode hstate _ _ hvisited =>
    have hfresh := (Driver.advance?_fresh hs.fits.fresh htakes.advance).renumbered num
    have hmarks : State.Remarked { n.state with num := num } q.state := hstate ▸ consider_remarked o _
    let seen' : π → Prop := fun v => seen v ∨ v = view n.machine
    refine ⟨seen', .inl hseen.initial, ?_, ?_, ?_⟩
    · rw [List.forall_mem_cons, List.forall_mem_cons]
      have hmarked := List.forall_mem_cons.mp hseen.allMarked
      exact ⟨hstate ▸ consider_allMarked ho _, htakes.allMarked hs.fits.wellFormed hmarked.1, hmarked.2⟩
    · have hold : ∀ e ∈ visited.entries, ∃ m, drv.Captures view e.snapshot m ∧ seen' (view m) := fun e he => by
        obtain ⟨m, hcaptures, hm⟩ := hseen.entries e he
        exact ⟨m, hcaptures, .inl hm⟩
      have hnew : seen' (view n.machine) := .inr rfl
      rcases hvisited with ⟨-, rfl⟩ | ⟨k, total, gone, hadds⟩
      · exact hold
      · exact hadds.entries hnew hold
    · -- The new program state is awaited by its own spot; for the others the step taken makes the difference.
      rintro path n₁ y n₂ hwalk (hn₁ | hn₁) hadv
      · rcases hseen.closed path n₁ y n₂ hwalk hn₁ hadv with ⟨hn₂, hseen₂⟩ | hawaits | hexcused
        · exact .inl ⟨hn₂, .inl hseen₂⟩
        · rcases htakes.awaits hdet hstatus hroot hs hn hwalk hadv hawaits with ⟨hn₂, hview⟩ | hawaits
          · exact .inl ⟨hn₂, .inr hview⟩
          · exact .inr (.inl (hawaits.mono fun _ => List.mem_cons_of_mem q))
        · exact .inr (.inr hexcused)
      · exact .inr (.inl ⟨q, List.mem_cons_self, by rw [hnode, hn₁], fun hy =>
          hfresh.not_tried y ((hmarks.tried_iff y).mp hy)⟩)
  | @skipped p p' below visited visited' x t n num k old _ htakes hn _ hadds =>
    -- Where the skipped step has led was entered before, even if that spot is long gone.
    have hn' := hadds.seen_of_duplicate hfaithful hseen.entries
    refine ⟨seen, hseen.initial, ?_, hadds.entries hn' hseen.entries, ?_⟩
    · have hmarked := List.forall_mem_cons.mp hseen.allMarked
      exact List.forall_mem_cons.mpr ⟨htakes.allMarked hs.fits.wellFormed hmarked.1, hmarked.2⟩
    · intro path n₁ y n₂ hwalk hn₁ hadv
      rcases hseen.closed path n₁ y n₂ hwalk hn₁ hadv with hdone | hawaits | hexcused
      · exact .inl hdone
      · rcases htakes.awaits hdet hstatus hroot hs hn hwalk hadv hawaits with ⟨hn₂, hview⟩ | hawaits
        · exact .inl ⟨hn₂, hview ▸ hn'⟩
        · exact .inr (.inl hawaits)
      · exact .inr (.inr hexcused)
  | cut =>
    refine ⟨seen, hseen.initial, hseen.allMarked, hseen.entries, fun path n x n' hwalk hn hadv => ?_⟩
    refine (hseen.closed path n x n' hwalk hn hadv).imp_right (Or.imp_right ?_)
    exact fun hexcused => ⟨rfl, hexcused.2⟩
  | unwound _ hunwinds => exact ⟨seen, hunwinds.entered ho hstatus hroot hs hseen⟩

theorem Visits.entered (hdet : drv.Deterministic view) (hfaithful : drv.Faithful view)
    (ho : o.reduction = .none) {m : σ} (hstatus : drv.StatusByState view m)
    (hroot : drv.root? m = some root) {T : Trail σ κ} (h : Visits drv view o root T) :
    ∃ seen, Entered drv view root (Excused drv view o root T.truncated) seen T :=
  (h.induction (P := fun T => ∃ seen, Entered drv view root (Excused drv view o root T.truncated) seen T)
    (Driver.root?_fresh hroot) (fun _ hstarts => ⟨_, hstarts.entered ho (Driver.root?_fresh hroot) _⟩)
    fun _ _ hs hT hshift => hshift.entered_seen hdet hfaithful ho hstatus hroot hs hT).2

theorem Visits.prunes (hdet : drv.Deterministic view) (hfaithful : drv.Faithful view)
    (ho : o.reduction = .none) {m : σ} (hstatus : drv.StatusByState view m)
    (hroot : drv.root? m = some root) {T : Trail σ κ} (h : Visits drv view o root T)
    (htruncated : T.truncated = none) : ∃ seen, Entered drv view root (fun _ => False) seen T := by
  obtain ⟨seen, hseen⟩ := h.entered hdet hfaithful ho hstatus hroot
  refine ⟨seen, hseen.initial, hseen.allMarked, hseen.entries, fun path n x n' hwalk hn hadv => ?_⟩
  refine (hseen.closed path n x n' hwalk hn hadv).imp_right (Or.imp_right ?_)
  rintro ⟨hsome, -⟩
  simp [htruncated] at hsome

end Trail

/-- Skipping visited states loses nothing, however few of them are kept: if the search finds no violation, then
no execution of any length ends in a violating step or in a deadlock. -/
theorem pruned_search_sound [Snapshot κ] {drv : Driver σ κ} {view : σ → π}
    (hdet : drv.Deterministic view) (hfaithful : drv.Faithful view) {m : σ}
    (hstatus : drv.StatusByState view m) {o : Options} (hreduction : o.reduction = .none)
    {fuel : Nat} {s : Search σ κ} (hrun : Search.run drv o fuel m = some (none, s))
    (hclean : s.result.outcome = .noViolation) {path : List Step} {n : Node σ}
    (hn : drv.execution? m path = some n) : ¬ n.Failing := by
  obtain ⟨root, T, hroot, hvisits, hspots, htruncated⟩ := Trail.run_clean hdet hrun hclean
  obtain ⟨seen, hseen⟩ := hvisits.prunes hdet hfaithful hreduction hstatus hroot htruncated
  rw [Driver.execution?_of_root? hroot] at hn
  exact (hseen.not_failing hspots hvisits.1 hn).1

inductive Switch where
  | off | on
deriving DecidableEq

namespace Switch

instance : Snapshot Switch where
  actorCount _ := 1
  heapBytes _ := 1
  same k k' := k = k'

def flip : Switch → Switch
  | off => on
  | on => off

def driver : Driver Switch Switch where
  initialActors m := (.ok [⟨1, true, 1⟩], m)
  execute a outcome m :=
    (.ok { transition :=
             { actor := a, kind := .write, resource := "switch", outcome, args := "", guarded := false }
           enabled := [⟨a, true, 1⟩], disabled := [], finished := [], violation := none }, m.flip)
  snapshot m := (.ok (some m), m)
  restore k _ := (.ok (), k)
  interrupted _ := none

theorem driver_deterministic : driver.Deterministic id := by
  refine Driver.deterministic_id (fun _ => rfl) ?_ ?_
  · rintro m m' k ⟨⟩
    rfl
  · rintro a outcome m r ⟨⟩
    rfl

theorem driver_faithful : driver.Faithful id := by
  rintro k k' m m' ⟨m₁, rfl, ⟨⟩⟩ ⟨m₂, rfl, ⟨⟩⟩ hsame
  exact of_decide_eq_true hsame

theorem actors_of_walk {n n' : Node Switch} {path : List Step} (hn : n.state.actors = [(1, .fresh true 1)])
    (h : driver.walk? n path = some n') : n'.state.actors = [(1, .fresh true 1)] := by
  induction path generalizing n with
  | nil =>
    cases h
    exact hn
  | cons x path ih =>
    obtain ⟨n₁, hadv, hwalk⟩ := Driver.walk?_cons_eq_some.mp h
    obtain ⟨hoff, r, hexec, hstate, -⟩ := Driver.advance?_eq_some hadv
    obtain rfl := Except.ok.inj (congrArg Prod.fst hexec)
    refine ih ?_ hwalk
    have hactor : x.actor = 1 := by
      obtain ⟨st, hst, -⟩ := State.offers_iff.mp hoff
      by_contra hne
      simp [State.status?, hn, Assoc.get?_cons, hne] at hst
    rw [hstate]
    simp only [State.after, State.successor, State.successorActors, hn, hactor]
    rfl

theorem driver_statusByState : driver.StatusByState id .off := by
  intro path path' n n' hn hn' _
  have hactors := actors_of_walk (n := ⟨State.new 0 [⟨1, true, 1⟩], .off, [], none⟩) rfl hn
  have hactors' := actors_of_walk (n := ⟨State.new 0 [⟨1, true, 1⟩], .off, [], none⟩) rfl hn'
  simp only [State.ids, State.offers, State.status?, hactors, hactors', implies_true, and_self]

end Switch

theorem pruned_search_sound_switch :
    ∃ n, Switch.driver.execution? .off [⟨1, 0⟩, ⟨1, 0⟩, ⟨1, 0⟩] = some n ∧ ¬ n.Failing := by
  obtain ⟨s, hrun, hclean⟩ : ∃ s, Search.run Switch.driver ⟨0, .none, 2, 0, false⟩ 9 .off = some (none, s) ∧
      s.result.outcome = .noViolation := ⟨_, rfl, rfl⟩
  obtain ⟨n, hn⟩ : ∃ n, Switch.driver.execution? .off [⟨1, 0⟩, ⟨1, 0⟩, ⟨1, 0⟩] = some n := ⟨_, rfl⟩
  exact ⟨n, hn, pruned_search_sound Switch.driver_deterministic Switch.driver_faithful
    Switch.driver_statusByState rfl hrun hclean hn⟩

end Interleave
