import Interleave.FaultInjection
import Interleave.Program
import Interleave.Proofs.Operations
import Interleave.Proofs.Termination
import Mathlib.Data.DFinsupp.WellFounded
import Mathlib.Order.PiLex

/-! A search with a depth bound ends, whatever the driver answers. Neither the height of the stack nor the number of
marked actors falls from turn to turn, and a new frame may be arbitrarily wide. What falls is the list of the
outcomes not yet handed out by the frames, read from the bottom of the stack to the top in dictionary order: a turn
takes an outcome from the top frame before it puts another one above it. -/

namespace Interleave

variable {σ κ : Type}

theorem Assoc.sum_modify_lt {α β : Type} [DecidableEq α] {value : α × β → Nat} {k : α} {w : β} {f : β → β}
    {m : List (α × β)} (hk : Assoc.get? k m = some w) (hlt : value (k, f w) < value (k, w)) :
    ((Assoc.modify k f m).map value).sum < (m.map value).sum := by
  induction m with
  | nil => cases hk
  | cons e m ih =>
    rw [Assoc.get?_cons] at hk
    rw [Assoc.modify]
    split_ifs at hk ⊢ with he
    · cases hk
      subst he
      rw [List.map_cons, List.map_cons, List.sum_cons, List.sum_cons]
      exact Nat.add_lt_add_right hlt _
    · rw [List.map_cons, List.map_cons, List.sum_cons, List.sum_cons]
      exact Nat.add_lt_add_left (ih hk) _

namespace State

def reserve (s : State) : Nat := (s.actors.map fun e => (e.2.limit - e.2.taken).toNat).sum

theorem Remarked.reserve {s s' : State} (h : s.Remarked s') : s'.reserve = s.reserve := by
  obtain ⟨-, -, h⟩ := h
  unfold State.reserve
  generalize s.actors = m, s'.actors = m' at h ⊢
  induction h with
  | nil => rfl
  | cons he _ ih => rw [List.map_cons, List.map_cons, List.sum_cons, List.sum_cons, ih, he.2.limit, he.2.taken]

theorem take_reserve_lt {s s' : State} {a : ActorId} {outcome : Int} (h : s.take a = .ok (outcome, s'))
    (hw : s.WellFormed) : s'.reserve < s.reserve := by
  obtain ⟨st, hst, -, hd, -, rfl⟩ := take_eq_ok h
  have hlt := (hw.status_tallied hst).lt_of_not_done hd
  rw [reserve, setStatus, Assoc.insert_eq_modify hw.ascending hst]
  apply Assoc.sum_modify_lt hst
  simp only [ActorStatus.consider_limit, ActorStatus.consider_taken]
  omega

theorem execute_reserve_lt {s s' : State} {exec : ActorId → Int → Action σ StepResult} {a : ActorId} {m m' : σ}
    {r : StepResult} (h : s.execute exec a m = (.ok r, s', m')) (hw : s.WellFormed) : s'.reserve < s.reserve := by
  obtain ⟨outcome, taken, htake, -, -, rfl⟩ := execute_eq_ok h
  have hlt : taken.reserve < s.reserve := take_reserve_lt htake hw
  exact hlt

end State

def reserves (fs : List (Frame κ)) : List Nat := fs.map (·.state.reserve)

theorem reserves_remarked {fs fs' : List (Frame κ)} (h : List.Forall₂ Frame.Remarked fs fs') :
    reserves fs' = reserves fs := by
  induction h with
  | nil => rfl
  | cons hf _ ih => exact congrArg₂ List.cons hf.state.reserve ih

/-- What a turn may do to the list of reserves, whose head belongs to the top frame: drop the head and possibly
more, lower the head, or lower the head and put a new one in front if fewer than `bound` others are behind it. -/
inductive Descends (bound : Nat) : List Nat → List Nat → Prop
  | dropped {r : Nat} {below l : List Nat} (h : l <:+ below) : Descends bound (r :: below) l
  | lowered {r r' : Nat} {below : List Nat} (h : r' < r) : Descends bound (r :: below) (r' :: below)
  | deepened {q r r' : Nat} {below : List Nat} (h : r' < r) (hbound : below.length < bound) :
      Descends bound (r :: below) (q :: r' :: below)

def gauge (n : Nat) (l : List Nat) : Lex (Fin n → Nat) := toLex fun i => (l.reverse[i.val]?).elim 0 (· + 1)

theorem gauge_lt {n i : Nat} {l k : List Nat} (hi : i < n) (hbelow : ∀ j < i, l.reverse[j]? = k.reverse[j]?)
    (hlt : (l.reverse[i]?).elim 0 (· + 1) < (k.reverse[i]?).elim 0 (· + 1)) : gauge n l < gauge n k := by
  refine ⟨⟨i, hi⟩, fun j hj => ?_, hlt⟩
  show (l.reverse[j.val]?).elim 0 (· + 1) = (k.reverse[j.val]?).elim 0 (· + 1)
  rw [hbelow j.val hj]

theorem gauge_lt_of_lower {n r r' : Nat} {below : List Nat} (above : List Nat) (hr : r' < r)
    (hn : below.length < n) : gauge n (above ++ r' :: below) < gauge n (r :: below) := by
  -- The gauges first differ at the height of the lowered head.
  apply gauge_lt hn
  · intro j hj
    rw [← List.length_reverse] at hj
    simp only [List.reverse_append, List.reverse_cons, List.append_assoc, List.getElem?_append_left hj]
  · have hat : (above ++ r' :: below).reverse[below.length]? = some r' := by
      simp
    have hat' : (r :: below).reverse[below.length]? = some r := by
      simp
    rw [hat, hat']
    exact Nat.succ_lt_succ hr

theorem gauge_lt_of_drop {n r : Nat} {above l : List Nat} (hn : (r :: (above ++ l)).length ≤ n) :
    gauge n l < gauge n (r :: (above ++ l)) := by
  -- The gauges first differ just above the shorter list.
  have hlength : l.length < n := by
    simp only [List.length_cons, List.length_append] at hn
    omega
  apply gauge_lt hlength
  · intro j hj
    rw [← List.length_reverse] at hj
    simp only [List.reverse_cons, List.reverse_append, List.append_assoc, List.getElem?_append_left hj]
  · have hnone : l.reverse[l.length]? = none := by simp
    have hsome : ∃ x, (r :: (above ++ l)).reverse[l.length]? = some x := by
      refine ⟨_, List.getElem?_eq_getElem ?_⟩
      simp only [List.length_reverse, List.length_cons, List.length_append]
      omega
    obtain ⟨x, hx⟩ := hsome
    rw [hnone, hx]
    exact Nat.succ_pos x

namespace Descends

variable {bound n : Nat} {k l : List Nat}

theorem length_le (h : Descends bound k l) (hbound : bound < n) (hk : k.length ≤ n) : l.length ≤ n := by
  cases h with
  | dropped h =>
    have hle := h.length_le
    rw [List.length_cons] at hk
    omega
  | lowered _ => exact hk
  | deepened _ hlt =>
    simp only [List.length_cons]
    omega

theorem gauge_lt (h : Descends bound k l) (hk : k.length ≤ n) : gauge n l < gauge n k := by
  cases h with
  | dropped h =>
    obtain ⟨above, rfl⟩ := h
    exact gauge_lt_of_drop hk
  | lowered h => exact gauge_lt_of_lower [] h hk
  | @deepened q _ _ _ h _ => exact gauge_lt_of_lower [q] h hk

end Descends

namespace Search

variable {drv : Driver σ κ} {o : Options} {s s' : Search σ κ} {top : Frame κ} {below : List (Frame κ)}

theorem unwind_cases {count : Nat} (hw : ∀ f ∈ s.stack, f.state.WellFormed) (hstack : s.stack = top :: below)
    (h : unwind drv o (count + 1) s = (none, s')) :
    (0 < top.state.todoCount ∧ o.withinDepth below.length = true ∧ reserves s'.stack = reserves s.stack) ∨
      ∃ s₁ : Search σ κ, (∀ f ∈ s₁.stack, f.state.WellFormed) ∧ reserves s₁.stack = reserves below ∧
        unwind drv o count s₁ = (none, s') := by
  rw [hstack, List.forall_mem_cons] at hw
  rw [Trail.unwind_succ count hstack] at h
  split at h
  · cases h
  · rename_i below' es hsettle
    -- Race analysis adds marks below the top, but no outcome comes back.
    have hmarks := settle_remarked hw.2 hsettle
    have hsame : reserves below' = reserves below := reserves_remarked hmarks
    have hlength : below'.length = below.length := hmarks.length_eq.symm
    dsimp only at h
    generalize hs₁ : Search.logAll _ es = s₁ at h
    have hbelow : s₁.stack = below' := hs₁ ▸ logAll_stack _ es
    split_ifs at h with hresume
    · rw [Bool.and_eq_true, decide_eq_true_iff, hlength] at hresume
      split at h
      · rename_i s₂ hrestore
        cases h
        have hstack₂ : s₂.stack = top :: s₁.stack := restoreTop_stack hrestore
        refine .inl ⟨hresume.1, hresume.2, ?_⟩
        show reserves s₂.stack = _
        rw [hstack₂, hbelow, hstack]
        exact congrArg (top.state.reserve :: ·) hsame
      · cases h
    · refine .inr ⟨_, ?_, ?_, h⟩
      · show ∀ f ∈ s₁.stack, _
        rw [hbelow]
        exact Frame.wellFormed_remarked hw.2 hmarks
      · show reserves s₁.stack = _
        rw [hbelow, hsame]

theorem unwind_reserves {count : Nat} (hw : ∀ f ∈ s.stack, f.state.WellFormed)
    (h : unwind drv o count s = (none, s')) : reserves s'.stack <:+ reserves s.stack := by
  induction count generalizing s with
  | zero =>
    cases h
    exact List.suffix_rfl
  | succ count ih =>
    cases hstack : s.stack with
    | nil =>
      rw [unwind, hstack] at h
      cases h
      rw [hstack]
    | cons top below =>
      rcases unwind_cases hw hstack h with ⟨-, -, hsame⟩ | ⟨s₁, hw₁, hsame, hrest⟩
      · rw [hsame, hstack]
      · have hsuffix : reserves s'.stack <:+ reserves below := hsame ▸ ih hw₁ hrest
        exact hsuffix.trans (List.suffix_cons _ _)

theorem backtrack_descends (hw : ∀ f ∈ s.stack, f.state.WellFormed) (hstack : s.stack = top :: below)
    (hspent : top.state.todoCount = 0 ∨ o.withinDepth below.length = false)
    (h : backtrack drv o s = (none, s')) : reserves s'.stack <:+ reserves below := by
  unfold backtrack at h
  dsimp only at h
  generalize hs₁ : Search.log _ _ = s₁ at h
  have hstack₁ : s₁.stack = s.stack := by
    rw [← hs₁]
    rfl
  rw [hstack, List.length_cons] at h
  rcases unwind_cases (hstack₁ ▸ hw) (hstack₁.trans hstack) h with
    ⟨htodo, hwithin, -⟩ | ⟨s₂, hw₂, hsame, hrest⟩
  · rcases hspent with hnone | hbeyond
    · omega
    · rw [hbeyond] at hwithin
      cases hwithin
  · exact hsame ▸ unwind_reserves hw₂ hrest

theorem skip_reserves (hw : ∀ f ∈ s.stack, f.state.WellFormed) (hstack : s.stack = top :: below) {next : State}
    {old : VisitedEntry κ} (h : skip drv o s top next old = (none, s')) :
    reserves s'.stack <:+ reserves s.stack := by
  unfold skip at h
  dsimp only at h
  generalize hs₁ : Search.log _ _ = s₁ at h
  have hstack₁ : s₁.stack = s.stack := by
    rw [← hs₁]
    exact addNode_stack _ _ _
  rw [← hstack₁] at hw ⊢
  split_ifs at h with htodo
  · have hdropped := backtrack_descends hw (hstack₁.trans hstack) (.inl htodo) h
    rw [hstack₁, hstack]
    exact hdropped.trans (List.suffix_cons _ _)
  · rw [restoreTop_stack h]

theorem enter_reserves (o : Options) (s : Search σ κ) (top : Frame κ) (next : State) (snapshot : Option κ) :
    reserves (s.enter o top next snapshot).stack = (consider o next).reserve :: reserves s.stack := by
  obtain ⟨node, hledger⟩ := enter_ledger o s top next snapshot
  exact congrArg (fun l : Ledger σ κ => reserves l.stack) hledger

variable [Snapshot κ]

theorem arrive_reserves (hw : ∀ f ∈ s.stack, f.state.WellFormed) (hstack : s.stack = top :: below) {next : State}
    (h : arrive drv o s top next = (none, s')) :
    reserves s'.stack <:+ reserves s.stack ∨ ∃ q, reserves s'.stack = q :: reserves s.stack := by
  unfold arrive at h
  split_ifs at h
  · split at h
    · cases h
    · cases h
    · dsimp only at h
      split at h
      · cases h
      · have hskipped := skip_reserves (by exact hw) (by exact hstack) h
        exact .inl hskipped
      · generalize hs₁ : Search.logAll _ _ = s₁ at h
        have hstack₁ : s₁.stack = s.stack := hs₁ ▸ logAll_stack _ _
        cases h
        exact .inr ⟨_, hstack₁ ▸ enter_reserves o s₁ top next _⟩
  · split at h
    · cases h
    · rename_i snapshot m hsnap
      cases h
      exact .inr ⟨_, enter_reserves o { s with machine := m } top next snapshot⟩
  · cases h
    exact .inr ⟨_, enter_reserves o s top next none⟩

theorem advance_descends {a : ActorId} (hw : ∀ f ∈ top :: below, f.state.WellFormed) {bound : Nat}
    (hbound : below.length < bound) (h : advance drv o s top below a = (none, s')) :
    s'.phase = .done ∨ Descends bound (reserves (top :: below)) (reserves s'.stack) := by
  obtain ⟨htop, hbelow⟩ := List.forall_mem_cons.mp hw
  unfold advance at h
  split at h
  · split at h <;> cases h
  · rename_i r state m hexec
    have hlt := State.execute_reserve_lt hexec htop
    have hstate := (State.execute_wellFormed htop hexec).1
    dsimp only at h
    split at h
    · cases h
    · rename_i clock _
      generalize hs₁ : Search.log _ _ = s₁ at h
      split at h
      · cases h
        exact .inl rfl
      · split_ifs at h
        · cases h
          exact .inl rfl
        · right
          have hstack₁ : s₁.stack = { top with state, clock } :: below := by
            rw [← hs₁]
            rfl
          have hw₁ : ∀ f ∈ s₁.stack, f.state.WellFormed := by
            rw [hstack₁]
            exact List.forall_mem_cons.mpr ⟨hstate, hbelow⟩
          have hlength : (reserves below).length < bound := by rwa [reserves, List.length_map]
          have harrived := arrive_reserves hw₁ hstack₁ h
          rw [hstack₁] at harrived
          rcases harrived with hsuffix | ⟨q, hentered⟩
          · rcases List.suffix_cons_iff.mp hsuffix with hsame | hdropped
            · rw [hsame]
              exact .lowered hlt
            · exact .dropped hdropped
          · rw [hentered]
            exact .deepened hlt hlength

theorem turn_descends (hdepth : 1 ≤ o.maxDepth) (hw : ∀ f ∈ s.stack, f.state.WellFormed)
    (hopen : s.finished = false) (h : turn drv o s = (none, s')) :
    s'.phase = .done ∨ Descends o.maxDepth.toNat (reserves s.stack) (reserves s'.stack) := by
  unfold turn at h
  split at h
  · cases h
  · cases hstack : s.stack with
    | nil =>
      have hfinished : s.finished = true := Trail.finished_iff.mpr (.inl hstack)
      rw [hfinished] at hopen
      cases hopen
    | cons top below =>
      rw [hstack] at h
      dsimp only at h
      split_ifs at h with hbeyond
      · have hspent : o.withinDepth below.length = false := by simpa using hbeyond
        exact .inr (.dropped (backtrack_descends (s := s.cut top) hw hstack (.inr hspent) h))
      · have hspent : o.withinDepth below.length = false := by simpa using hbeyond
        exact .inr (.dropped (backtrack_descends hw hstack (.inr hspent) h))
      · split at h
        · rename_i hnext
          have hspent : top.state.todoCount = 0 := State.next?_eq_none_iff.mp hnext
          exact .inr (.dropped (backtrack_descends hw hstack (.inl hspent) h))
        · have hbound : below.length < o.maxDepth.toNat := by
            simp only [Options.withinDepth, Bool.not_eq_true', Bool.not_eq_false, Bool.or_eq_true,
              decide_eq_true_iff] at hbeyond
            omega
          exact advance_descends (hstack ▸ hw) hbound h

theorem loop_ends_of_gauge (hdepth : 1 ≤ o.maxDepth) {n : Nat} (hn : o.maxDepth.toNat < n) {m : σ}
    (hs : Reached drv o m s) (hlength : (reserves s.stack).length ≤ n) :
    ∃ turns ended, ∀ fuel, turns ≤ fuel → loop drv o fuel s = some ended := by
  -- No bound on the turns can be given in advance: the width of a frame is known only once it has been entered.
  induction hgauge : gauge n (reserves s.stack) using WellFoundedLT.induction generalizing s with
  | ind x ih =>
    cases hfin : s.finished with
    | true => exact ⟨0, (none, s), fun fuel _ => Trail.loop_of_finished hfin fuel⟩
    | false =>
      rcases hturn : turn drv o s with ⟨_ | a, s'⟩
      · have hrest : ∃ turns ended, ∀ fuel, turns ≤ fuel → loop drv o fuel s' = some ended := by
          rcases turn_descends hdepth hs.orderly.wellFormed hfin hturn with hdone | hdescends
          · have hfinished : s'.finished = true := Trail.finished_iff.mpr (.inr hdone)
            exact ⟨0, (none, s'), fun fuel _ => Trail.loop_of_finished hfinished fuel⟩
          · have hlt : gauge n (reserves s'.stack) < x := hgauge ▸ hdescends.gauge_lt hlength
            exact ih _ hlt (.turn hs hfin hturn) (hdescends.length_le hn hlength) rfl
        obtain ⟨turns, ended, hended⟩ := hrest
        refine ⟨turns + 1, ended, fun fuel hfuel => ?_⟩
        cases fuel with
        | zero => omega
        | succ fuel =>
          simp only [loop, hfin, hturn, Bool.false_eq_true, if_false]
          exact hended fuel (by omega)
      · refine ⟨1, (some a, s'), fun fuel hfuel => ?_⟩
        cases fuel with
        | zero => omega
        | succ fuel => simp only [loop, hfin, hturn, Bool.false_eq_true, if_false]

end Search

theorem Search.run_ends [Snapshot κ] (drv : Driver σ κ) {o : Options} (hdepth : 1 ≤ o.maxDepth) (m : σ) :
    ∃ turns ended, ∀ fuel, turns ≤ fuel → run drv o fuel m = some ended := by
  rcases hstart : start drv o (new o m) with ⟨_ | a, s⟩
  · have hn : o.maxDepth.toNat < (reserves s.stack).length + o.maxDepth.toNat + 1 := by omega
    obtain ⟨turns, ended, hended⟩ := loop_ends_of_gauge hdepth hn (.start hstart) (by omega)
    refine ⟨turns, close ended, fun fuel hfuel => ?_⟩
    rw [run, hstart]
    dsimp only
    rw [hended fuel hfuel, Option.map_some]
  · refine ⟨0, close (some a, s), fun fuel _ => ?_⟩
    rw [run, hstart]

end Interleave
