import Interleave.Proofs.Progress
import Interleave.Proofs.Races
import Mathlib.Logic.Relation
import Mathlib.Order.Bounds.Basic

/-! Happens-before on the transitions of a stack, and what clocks make of it. The clock of a transition is exact: it
covers a transition at or below its own if and only if that one happens before it or is the same. -/

namespace Interleave

/-- The transitions at two positions of a sequence are in order and have the same actor or depend on each other. -/
def Precedes (ts : List Transition) (i j : Nat) : Prop :=
  i < j ∧ ∃ t u, ts[i]? = some t ∧ ts[j]? = some u ∧ (t.actor = u.actor ∨ t.dependent u = true)

def HappensBefore (ts : List Transition) : Nat → Nat → Prop := Relation.TransGen (Precedes ts)

section Order

variable {ts us : List Transition} {i j : Nat}

theorem HappensBefore.lt (h : HappensBefore ts i j) : i < j := by
  induction h with
  | single hprec => exact hprec.1
  | tail _ hprec ih => exact ih.trans hprec.1

theorem happensBefore_iff_precedes :
    HappensBefore ts i j ↔ ∃ k, Precedes ts k j ∧ (i = k ∨ HappensBefore ts i k) := by
  constructor
  · intro h
    cases h with
    | single hprec => exact ⟨i, hprec, .inl rfl⟩
    | tail hbefore hprec => exact ⟨_, hprec, .inr hbefore⟩
  · rintro ⟨k, hprec, rfl | hbefore⟩
    · exact .single hprec
    · exact .tail hbefore hprec

theorem precedes_append (hj : j < ts.length) : Precedes (ts ++ us) i j ↔ Precedes ts i j := by
  unfold Precedes
  refine and_congr_right fun hij => ?_
  rw [List.getElem?_append_left hj, List.getElem?_append_left (hij.trans hj)]

theorem happensBefore_append (hj : j < ts.length) : HappensBefore (ts ++ us) i j ↔ HappensBefore ts i j := by
  constructor
  · intro h
    induction h with
    | single hprec => exact .single ((precedes_append hj).mp hprec)
    | tail _ hprec ih => exact .tail (ih (hprec.1.trans hj)) ((precedes_append hj).mp hprec)
  · intro h
    induction h with
    | single hprec => exact .single ((precedes_append hj).mpr hprec)
    | tail _ hprec ih => exact .tail (ih (hprec.1.trans hj)) ((precedes_append hj).mpr hprec)

end Order

namespace Clock

variable {c d : Clock} {a b : ActorId} {i n : Nat}

theorem covers_iff : c.covers a i = true ↔ ∃ n, Assoc.get? a c = some n ∧ i ≤ n := by
  unfold covers
  cases Assoc.get? a c <;> simp

theorem covers_insert :
    covers (Assoc.insert b n c) a i = true ↔ (a = b ∧ i ≤ n) ∨ (a ≠ b ∧ c.covers a i = true) := by
  rw [covers_iff, covers_iff, Assoc.get?_insert]
  by_cases hab : a = b
  · simp [hab]
  · simp [hab]

theorem covers_advance : (c.advance b n).covers a i = true ↔ c.covers a i = true ∨ (a = b ∧ i ≤ n) := by
  unfold advance
  split
  · rename_i current hcurrent
    have hself : c.covers b i = true ↔ i ≤ current := by simp [covers_iff, hcurrent]
    split_ifs with hlt
    · rw [covers_insert]
      by_cases hab : a = b
      · subst hab
        rw [hself]
        constructor
        · rintro (⟨-, hle⟩ | ⟨hne, -⟩)
          · exact .inr ⟨rfl, hle⟩
          · exact absurd rfl hne
        · rintro (hle | ⟨-, hle⟩)
          · exact .inl ⟨rfl, hle.trans hlt.le⟩
          · exact .inl ⟨rfl, hle⟩
      · simp [hab]
    · constructor
      · exact .inl
      · rintro (hcovers | ⟨rfl, hle⟩)
        · exact hcovers
        · exact hself.mpr (hle.trans (not_lt.mp hlt))
  · rename_i hnone
    rw [covers_insert]
    by_cases hab : a = b
    · subst hab
      simp [covers_iff, hnone]
    · simp [hab]

theorem ascending_advance (hc : Assoc.Ascending c) : Assoc.Ascending (c.advance b n) := by
  unfold advance
  split
  · split_ifs
    · exact Assoc.ascending_insert hc
    · exact hc
  · exact Assoc.ascending_insert hc

theorem ascending_join (hc : Assoc.Ascending c) (d : Clock) : Assoc.Ascending (c.join d) := by
  unfold join
  induction d generalizing c with
  | nil => exact hc
  | cons e d ih => exact ih (ascending_advance hc)

theorem covers_foldl (d : Clock) : (c.join d).covers a i = true ↔ c.covers a i = true ∨ ∃ n, (a, n) ∈ d ∧ i ≤ n := by
  unfold join
  induction d generalizing c with
  | nil => simp
  | cons e d ih =>
    rw [List.foldl_cons, ih, covers_advance, or_assoc]
    refine or_congr_right ?_
    constructor
    · rintro (⟨rfl, hle⟩ | ⟨n, hmem, hle⟩)
      · exact ⟨e.2, List.mem_cons_self, hle⟩
      · exact ⟨n, List.mem_cons_of_mem e hmem, hle⟩
    · rintro ⟨n, hmem, hle⟩
      rcases List.mem_cons.mp hmem with rfl | hmem
      · exact .inl ⟨rfl, hle⟩
      · exact .inr ⟨n, hmem, hle⟩

theorem covers_join (hd : Assoc.Ascending d) :
    (c.join d).covers a i = true ↔ c.covers a i = true ∨ d.covers a i = true := by
  rw [covers_foldl, covers_iff (c := d)]
  simp only [Assoc.get?_eq_some_iff hd]

/-- The clock of the transition at a position: at or below it, exactly what happens before the transition and the
transition itself are covered, and nothing above it is. -/
structure Exact (c : Clock) (ts : List Transition) (j : Nat) : Prop where
  ascending : Assoc.Ascending c
  le_of_covers : ∀ {a i}, c.covers a i = true → i ≤ j
  covers_iff : ∀ {i u}, i ≤ j → ts[i]? = some u → (c.covers u.actor i = true ↔ i = j ∨ HappensBefore ts i j)

theorem Exact.append {ts : List Transition} {j : Nat} (h : c.Exact ts j) (hj : j < ts.length) (us : List Transition) :
    c.Exact (ts ++ us) j where
  ascending := h.ascending
  le_of_covers := h.le_of_covers
  covers_iff := by
    intro i u hij hu
    rw [List.getElem?_append_left (hij.trans_lt hj)] at hu
    rw [h.covers_iff hij hu, happensBefore_append hj]

end Clock

section Stack

variable {κ : Type} {f g : Frame κ} {fs fs' : List (Frame κ)} {t u : Transition} {c : Clock} {i j : Nat}

def departures (fs : List (Frame κ)) : List Transition := (fs.map Frame.left).reverse

theorem departures_cons (f : Frame κ) (fs : List (Frame κ)) : departures (f :: fs) = departures fs ++ [f.left] := by
  rw [departures, departures, List.map_cons, List.reverse_cons]

theorem length_departures (fs : List (Frame κ)) : (departures fs).length = fs.length := by
  rw [departures, List.length_reverse, List.length_map]

theorem getElem?_departures (fs : List (Frame κ)) (i : Nat) :
    (departures fs)[i]? = (fs.reverse[i]?).map Frame.left := by
  rw [departures, ← List.map_reverse, List.getElem?_map]

theorem getElem?_reverse_cons (f : Frame κ) (fs : List (Frame κ)) (i : Nat) (g : Frame κ) :
    (f :: fs).reverse[i]? = some g ↔ (i = fs.length ∧ f = g) ∨ fs.reverse[i]? = some g := by
  rw [List.reverse_cons]
  rcases lt_trichotomy i fs.length with hlt | rfl | hgt
  · rw [List.getElem?_append_left (by rwa [List.length_reverse])]
    exact ⟨.inr, fun h => h.resolve_left fun heq => hlt.ne heq.1⟩
  · rw [List.getElem?_append_right (by rw [List.length_reverse]), List.length_reverse, Nat.sub_self]
    simp
  · have hnone : fs.reverse[i]? = none := by simp [hgt.le]
    have hnone' : (fs.reverse ++ [f])[i]? = none := by
      rw [List.getElem?_eq_none_iff, List.length_append, List.length_reverse]
      exact hgt
    simp [hnone, hnone', hgt.ne']

theorem lt_of_getElem?_reverse (h : fs.reverse[i]? = some f) : i < fs.length := by
  have hlt := (List.getElem?_eq_some_iff.mp h).1
  rwa [List.length_reverse] at hlt

def Timed : List (Frame κ) → Prop
  | [] => True
  | f :: fs => (∀ t, f.state.transition = some t → f.clock.Exact (departures fs ++ [t]) fs.length) ∧ Timed fs

theorem departures_remarked (h : List.Forall₂ Frame.Remarked fs fs') : departures fs' = departures fs := by
  induction h with
  | nil => rfl
  | cons hf _ ih => rw [departures_cons, departures_cons, ih, hf.left]

theorem Timed.remarked (hfs : Timed fs) (h : List.Forall₂ Frame.Remarked fs fs') : Timed fs' := by
  induction h with
  | nil => trivial
  | cons hf hrest ih =>
    refine ⟨fun t ht => ?_, ih hfs.2⟩
    rw [hf.state.transition] at ht
    rw [hf.clock, departures_remarked hrest, ← hrest.length_eq]
    exact hfs.1 t ht

theorem Timed.exact (hfs : Timed fs) (hleft : ∀ g ∈ fs, g.state.transition.isSome = true)
    (h : fs.reverse[j]? = some f) : f.clock.Exact (departures fs) j := by
  induction fs with
  | nil => cases h
  | cons g fs ih =>
    obtain ⟨hg, hrest⟩ := List.forall_mem_cons.mp hleft
    rw [departures_cons]
    rcases (getElem?_reverse_cons g fs j f).mp h with ⟨rfl, rfl⟩ | h
    · obtain ⟨t, ht⟩ := Option.isSome_iff_exists.mp hg
      rw [Frame.left_eq ht]
      exact hfs.1 t ht
    · have hj : j < (departures fs).length := by
        rw [length_departures]
        exact lt_of_getElem?_reverse h
      exact (ih hfs.2 hrest h).append hj _

namespace Race

theorem covers_joined (hfs : Timed fs) (h : joined t fs = .ok c) :
    Assoc.Ascending c ∧ ∀ a i, c.covers a i = true ↔ ∃ (k : Nat) (g : Frame κ), fs.reverse[k]? = some g ∧
      (g.left.actor = t.actor ∨ g.left.dependent t = true) ∧ g.clock.covers a i = true := by
  induction fs generalizing c with
  | nil =>
    cases h
    exact ⟨Assoc.ascending_nil, fun a i => by simp [Clock.covers]⟩
  | cons f fs ih =>
    obtain ⟨earlier, c', hout, hrest, rfl⟩ := joined_cons_eq_ok h
    obtain ⟨hascending, hcovers⟩ := ih hfs.2 hrest
    have hexact := hfs.1 earlier hout
    have hrel : (earlier.actor = t.actor || t.dependent earlier) = true ↔
        f.left.actor = t.actor ∨ f.left.dependent t = true := by
      rw [Frame.left_eq hout, Bool.or_eq_true, decide_eq_true_iff, Transition.dependent_comm]
    -- The frame on top adds its own clock if its transition is related.
    have hsplit : ∀ a i, (∃ (k : Nat) (g : Frame κ), (f :: fs).reverse[k]? = some g ∧
        (g.left.actor = t.actor ∨ g.left.dependent t = true) ∧ g.clock.covers a i = true) ↔
        c'.covers a i = true ∨
          ((f.left.actor = t.actor ∨ f.left.dependent t = true) ∧ f.clock.covers a i = true) := by
      intro a i
      rw [hcovers]
      constructor
      · rintro ⟨k, g, hg, hrelated, hclock⟩
        rcases (getElem?_reverse_cons f fs k g).mp hg with ⟨-, rfl⟩ | hg
        · exact .inr ⟨hrelated, hclock⟩
        · exact .inl ⟨k, g, hg, hrelated, hclock⟩
      · rintro (⟨k, g, hg, hrelated, hclock⟩ | ⟨hrelated, hclock⟩)
        · exact ⟨k, g, (getElem?_reverse_cons f fs k g).mpr (.inr hg), hrelated, hclock⟩
        · exact ⟨fs.length, f, (getElem?_reverse_cons f fs _ f).mpr (.inl ⟨rfl, rfl⟩), hrelated, hclock⟩
    split_ifs with hrelated
    · refine ⟨Clock.ascending_join hascending _, fun a i => ?_⟩
      rw [hsplit, Clock.covers_join hexact.ascending, and_iff_right (hrel.mp hrelated)]
    · refine ⟨hascending, fun a i => ?_⟩
      rw [hsplit]
      exact ⟨.inl, fun h => h.resolve_right fun hf => hrelated (hrel.mpr hf.1)⟩

/-- The clock computed for a transition is exact. -/
theorem clockOf_exact (hfs : Timed fs) (hleft : ∀ g ∈ fs, g.state.transition.isSome = true)
    (h : clockOf t fs = .ok c) : c.Exact (departures fs ++ [t]) fs.length := by
  obtain ⟨c', hjoined, rfl⟩ := clockOf_eq_ok h
  obtain ⟨hascending, hcovers⟩ := covers_joined hfs hjoined
  have hlength := length_departures fs
  have htop : (departures fs ++ [t])[fs.length]? = some t := by
    rw [List.getElem?_append_right hlength.le, hlength, Nat.sub_self]
    rfl
  refine ⟨Assoc.ascending_insert hascending, ?_, ?_⟩
  · intro a i hcover
    rcases Clock.covers_insert.mp hcover with ⟨-, hle⟩ | ⟨-, hcover⟩
    · exact hle
    · obtain ⟨k, g, hg, -, hclock⟩ := (hcovers a i).mp hcover
      exact ((hfs.exact hleft hg).le_of_covers hclock).trans (lt_of_getElem?_reverse hg).le
  · intro i u hi hu
    rw [Clock.covers_insert]
    by_cases hactor : u.actor = t.actor
    · -- Transitions of the same actor are in order.
      refine iff_of_true (.inl ⟨hactor, hi⟩) ?_
      rcases hi.eq_or_lt with heq | hlt
      · exact .inl heq
      · exact .inr (.single ⟨hlt, u, t, hu, htop, .inl hactor⟩)
    · have hne : i ≠ fs.length := by
        rintro rfl
        rw [htop] at hu
        cases hu
        exact hactor rfl
      have hlt : i < (departures fs).length := hlength ▸ lt_of_le_of_ne hi hne
      rw [List.getElem?_append_left hlt] at hu
      -- The clocks below are exact, and a later transition changes nothing about what they cover.
      have hpast : ∀ {k : Nat} {g : Frame κ}, fs.reverse[k]? = some g → (g.clock.covers u.actor i = true ↔
          i = k ∨ HappensBefore (departures fs ++ [t]) i k) := by
        intro k g hg
        have hexact := hfs.exact hleft hg
        have hk : k < (departures fs).length := hlength ▸ lt_of_getElem?_reverse hg
        rw [happensBefore_append hk]
        rcases le_or_gt i k with hik | hki
        · exact hexact.covers_iff hik hu
        · refine iff_of_false (fun hclock => absurd (hexact.le_of_covers hclock) (not_le.mpr hki)) ?_
          rintro (rfl | hbefore)
          · exact lt_irrefl i hki
          · exact lt_asymm hki hbefore.lt
      rw [hcovers, happensBefore_iff_precedes]
      constructor
      · rintro (⟨heq, -⟩ | ⟨-, k, g, hg, hrelated, hclock⟩)
        · exact absurd heq hactor
        · refine .inr ⟨k, ⟨lt_of_getElem?_reverse hg, g.left, t, ?_, htop, hrelated⟩, (hpast hg).mp hclock⟩
          rw [List.getElem?_append_left (hlength ▸ lt_of_getElem?_reverse hg), getElem?_departures, hg]
          rfl
      · rintro (heq | ⟨k, ⟨hk, w, t', hw, ht', hrelated⟩, hik⟩)
        · exact absurd heq hne
        · rw [htop] at ht'
          cases ht'
          rw [List.getElem?_append_left (hlength ▸ hk), getElem?_departures] at hw
          obtain ⟨g, hg, rfl⟩ := Option.map_eq_some_iff.mp hw
          exact .inr ⟨hactor, k, g, hg, hrelated, (hpast hg).mpr hik⟩

end Race

end Stack

end Interleave
