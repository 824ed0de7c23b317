import Mathlib.Algebra.Order.Ring.Int
import Mathlib.Logic.Pairwise
import Mathlib.Tactic.SplitIfs
import Interleave.VisitedSet

/-! What adding a state does to the entries of a visited set, and when it answers with an earlier one. The entries
stay sorted by their keys, so halving finds all entries with the key of the candidate. -/

namespace Interleave

variable {κ : Type}

theorem narrow_spec {p : Nat → Bool} {lo hi : Nat} (hle : lo ≤ hi)
    (hp : ∀ i j, i ≤ j → j < hi → p i = true → p j = true) :
    narrow p lo hi ≤ hi ∧ (∀ i, lo ≤ i → i < narrow p lo hi → p i = false) ∧
      ∀ i, narrow p lo hi ≤ i → i < hi → p i = true := by
  fun_induction narrow p lo hi with
  | case1 lo hi hlt mid hmid ih =>
    obtain ⟨hbound, hbelow, habove⟩ := ih (by omega) fun i j hij hj => hp i j hij (by omega)
    refine ⟨by omega, hbelow, fun i hi' hi => ?_⟩
    by_cases hi'' : i < mid
    · exact habove i hi' hi''
    · exact hp mid i (by omega) hi hmid
  | case2 lo hi hlt mid hmid ih =>
    obtain ⟨hbound, hbelow, habove⟩ := ih (by omega) hp
    refine ⟨hbound, fun i hlo hi => ?_, habove⟩
    by_cases hi' : i ≤ mid
    · -- What holds at an index up to the middle holds at the middle.
      exact Bool.eq_false_iff.mpr fun htrue => hmid (hp i mid hi' (by omega) htrue)
    · exact hbelow i (by omega) hi
  | case3 lo hi hge => exact ⟨hle, by omega, by omega⟩

section Bisect

variable {α : Type} (p : α → Bool) (l : List α)

theorem bisect_append : (bisect p l).1 ++ (bisect p l).2 = l := by
  simp only [bisect, List.splitAt_eq, List.take_append_drop]

variable {p l}

theorem bisect_spec (hp : l.Pairwise fun a b => p a = true → p b = true) :
    (∀ a ∈ (bisect p l).1, p a = false) ∧ ∀ a ∈ (bisect p l).2, p a = true := by
  have hmono : ∀ i j, i ≤ j → j < l.length → (l[i]?.all p) = true → (l[j]?.all p) = true := by
    intro i j hij hj hi
    rcases hij.eq_or_lt with rfl | hlt
    · exact hi
    · simp only [List.getElem?_eq_getElem hj, List.getElem?_eq_getElem (hlt.trans hj), Option.all_some] at hi ⊢
      exact List.pairwise_iff_getElem.mp hp i j (hlt.trans hj) hj hlt hi
  obtain ⟨hle, hbelow, habove⟩ := narrow_spec (Nat.zero_le _) hmono
  simp only [bisect, List.splitAt_eq]
  constructor
  · intro a ha
    obtain ⟨i, hi, rfl⟩ := List.mem_take_iff_getElem.mp ha
    have hlt := lt_min_iff.mp hi
    simpa [List.getElem?_eq_getElem hlt.2] using hbelow i (Nat.zero_le _) hlt.1
  · intro a ha
    obtain ⟨i, hi, rfl⟩ := List.mem_drop_iff_getElem.mp ha
    have hlt := Nat.add_comm i _ ▸ hi
    simpa [List.getElem?_eq_getElem hlt] using habove _ (Nat.le_add_right _ i) hlt

end Bisect

namespace VisitedEntry

def key (e : VisitedEntry κ) : Int × Int := (e.actorCount, e.heapBytes)

theorem keyLt_iff {a b : VisitedEntry κ} : a.keyLt b = true ↔
    a.actorCount < b.actorCount ∨ (a.actorCount = b.actorCount ∧ a.heapBytes < b.heapBytes) := by
  simp [keyLt]

end VisitedEntry

namespace VisitedSet

/-- No entry has a smaller key than an earlier one. -/
def Sorted (entries : List (VisitedEntry κ)) : Prop := entries.Pairwise fun a b => ¬ b.keyLt a = true

theorem Sorted.of_keys {entries entries' : List (VisitedEntry κ)} (h : Sorted entries)
    (hkeys : entries'.map VisitedEntry.key = entries.map VisitedEntry.key) : Sorted entries' := by
  let Above (x y : Int × Int) : Prop := ¬ (y.1 < x.1 ∨ (y.1 = x.1 ∧ y.2 < x.2))
  have hview (l : List (VisitedEntry κ)) : Sorted l ↔ (l.map VisitedEntry.key).Pairwise Above := by
    simp only [Sorted, List.pairwise_map, VisitedEntry.keyLt_iff, VisitedEntry.key, Above]
  rw [hview] at h ⊢
  rwa [hkeys]

theorem partitionAt_append (e : VisitedEntry κ) (entries : List (VisitedEntry κ)) :
    (partitionAt e entries).1 ++ ((partitionAt e entries).2.1 ++ (partitionAt e entries).2.2) = entries := by
  simp only [partitionAt, bisect_append]

theorem partitionAt_spec (e : VisitedEntry κ) {entries : List (VisitedEntry κ)} (h : Sorted entries) :
    (∀ a ∈ (partitionAt e entries).1, a.keyLt e = true) ∧
      (∀ a ∈ (partitionAt e entries).2.1, ¬ a.keyLt e = true ∧ ¬ e.keyLt a = true) ∧
      ∀ a ∈ (partitionAt e entries).2.2, e.keyLt a = true := by
  have hlower : entries.Pairwise fun a b => (!a.keyLt e) = true → (!b.keyLt e) = true := by
    refine h.imp fun {a b} hab ha => ?_
    simp only [Bool.not_eq_true', ← Bool.not_eq_true, VisitedEntry.keyLt_iff] at hab ha ⊢
    omega
  have happend := bisect_append (!·.keyLt e) entries
  obtain ⟨hbelow, hrest⟩ := bisect_spec hlower
  have hupper : (bisect (!·.keyLt e) entries).2.Pairwise fun a b => e.keyLt a = true → e.keyLt b = true := by
    rw [← happend, Sorted, List.pairwise_append] at h
    refine h.2.1.imp fun {a b} hab ha => ?_
    simp only [VisitedEntry.keyLt_iff] at hab ha ⊢
    omega
  obtain ⟨hblock, habove⟩ := bisect_spec hupper
  refine ⟨fun a ha => by simpa using hbelow a ha, fun a ha => ⟨?_, by simpa using hblock a ha⟩, habove⟩
  have hmem : a ∈ (bisect (!·.keyLt e) entries).2 := by
    rw [← bisect_append e.keyLt (bisect (!·.keyLt e) entries).2]
    exact List.mem_append_left _ ha
  simpa using hrest a hmem

theorem oldest_eq_none {entries : List (VisitedEntry κ)} : oldest entries = none ↔ entries = [] := by
  cases entries with
  | nil => simp [oldest]
  | cons e entries =>
    simp only [oldest]
    split <;> simp

theorem oldest_spec {entries : List (VisitedEntry κ)} {num : Int} (h : oldest entries = some num) :
    (∃ e ∈ entries, e.num = num) ∧ ∀ e ∈ entries, num ≤ e.num := by
  induction entries generalizing num with
  | nil => cases h
  | cons e entries ih =>
    simp only [oldest] at h
    rw [List.forall_mem_cons]
    cases hrest : oldest entries with
    | none =>
      rw [hrest] at h
      cases h
      rw [oldest_eq_none] at hrest
      exact ⟨⟨e, List.mem_cons_self, rfl⟩, le_rfl, by simp [hrest]⟩
    | some n =>
      obtain ⟨⟨b, hb, hnum⟩, hle⟩ := ih hrest
      rw [hrest] at h
      cases h
      refine ⟨?_, min_le_left _ _, fun a ha => (min_le_right _ _).trans (hle a ha)⟩
      rcases min_choice e.num n with hmin | hmin <;> rw [hmin]
      · exact ⟨e, List.mem_cons_self, rfl⟩
      · exact ⟨b, List.mem_cons_of_mem e hb, hnum⟩

theorem evictOldest_sublist (count : Nat) (entries : List (VisitedEntry κ)) :
    (evictOldest count entries).1.Sublist entries := by
  induction count generalizing entries with
  | zero => exact .refl _
  | succ count ih =>
    simp only [evictOldest]
    split
    · exact .refl _
    · exact (ih _).trans List.eraseP_sublist

variable [Snapshot κ]

theorem lookup_found {e old : VisitedEntry κ} {block front back : List (VisitedEntry κ)}
    {compared : List (VisitedEntry κ)} (h : lookup e block = (.found front old back, compared)) :
    block = front ++ old :: back ∧ Snapshot.same old.snapshot e.snapshot = true := by
  induction block generalizing front compared with
  | nil => simp [lookup] at h
  | cons b block ih =>
    simp only [lookup] at h
    split_ifs at h with hnum hsame
    · cases h
    · cases h
      exact ⟨rfl, hsame⟩
    · cases hrest : lookup e block with
      | mk result rest =>
        rw [hrest] at h
        cases result with
        | repeated => cases h
        | novel => cases h
        | found front' old' back' =>
          cases h
          obtain ⟨hblock, hsame⟩ := ih hrest
          exact ⟨by rw [hblock]; rfl, hsame⟩

theorem mem_add {s : VisitedSet κ} {num : Int} {k : κ} {e : VisitedEntry κ}
    (h : e ∈ (s.add num k).1.entries) : e ∈ s.entries ∨ (e.num = num ∧ e.snapshot = k) := by
  have hparts := partitionAt_append (VisitedEntry.ofSnapshot num k) s.entries
  unfold add at h
  dsimp only at h
  generalize (partitionAt (VisitedEntry.ofSnapshot num k) s.entries).1 = below at h hparts
  generalize (partitionAt (VisitedEntry.ofSnapshot num k) s.entries).2.1 = block at h hparts
  generalize (partitionAt (VisitedEntry.ofSnapshot num k) s.entries).2.2 = above at h hparts
  split at h
  · exact .inl h
  · rename_i front old back compared hlookup
    obtain ⟨rfl, -⟩ := lookup_found hlookup
    simp only [List.mem_append, List.mem_cons] at h
    rw [← hparts]
    simp only [List.mem_append, List.mem_cons]
    rcases h with ((h | h) | rfl | h) | h
    · simp [h]
    · simp [h]
    · exact .inr ⟨rfl, rfl⟩
    · simp [h]
    · simp [h]
  · replace h := (evictOldest_sublist _ _).subset h
    simp only [List.mem_append, List.mem_cons] at h
    rw [← hparts]
    simp only [List.mem_append]
    rcases h with (h | rfl | h) | h
    · simp [h]
    · exact .inr ⟨rfl, rfl⟩
    · simp [h]
    · simp [h]

theorem add_duplicate {s : VisitedSet κ} {num : Int} {k : κ} {old : VisitedEntry κ}
    (h : (s.add num k).2.1 = .duplicate old) :
    old ∈ s.entries ∧ Snapshot.same old.snapshot k = true := by
  have hparts := partitionAt_append (VisitedEntry.ofSnapshot num k) s.entries
  unfold add at h
  dsimp only at h
  split at h
  · cases h
  · rename_i front old' back compared hlookup
    cases h
    obtain ⟨hblock, hsame⟩ := lookup_found hlookup
    refine ⟨?_, hsame⟩
    rw [← hparts, hblock]
    simp
  · cases h

theorem lookup_repeated {e : VisitedEntry κ} {block : List (VisitedEntry κ)}
    (h : (lookup e block).1 = .repeated) : ∃ old ∈ block, old.num = e.num := by
  induction block with
  | nil => cases h
  | cons b block ih =>
    simp only [lookup] at h
    split_ifs at h with hnum hsame
    · exact ⟨b, List.mem_cons_self, hnum⟩
    · have hrest : (lookup e block).1 = .repeated := by
        cases hresult : (lookup e block).1 with
        | repeated => rfl
        | novel => simp [hresult] at h
        | found front old back => simp [hresult] at h
      obtain ⟨old, hold, hnum⟩ := ih hrest
      exact ⟨old, List.mem_cons_of_mem b hold, hnum⟩

theorem add_ne_repeated {s : VisitedSet κ} {num : Int} {k : κ} (h : ∀ e ∈ s.entries, e.num < num) :
    (s.add num k).2.1 ≠ .repeated := by
  have hparts := partitionAt_append (VisitedEntry.ofSnapshot num k) s.entries
  unfold add
  dsimp only
  split
  · rename_i compared hlookup
    obtain ⟨old, hold, hnum⟩ := lookup_repeated (congrArg Prod.fst hlookup)
    have hmem : old ∈ s.entries := by
      rw [← hparts]
      simp [hold]
    exact absurd hnum (h old hmem).ne
  · exact nofun
  · exact nofun

theorem lookup_novel {e : VisitedEntry κ} {block : List (VisitedEntry κ)}
    (h : (lookup e block).1 = .novel) : ∀ old ∈ block, ¬ Snapshot.same old.snapshot e.snapshot = true := by
  induction block with
  | nil => simp
  | cons b block ih =>
    simp only [lookup] at h
    split_ifs at h with hnum hsame
    rw [List.forall_mem_cons]
    refine ⟨hsame, ih ?_⟩
    cases hresult : (lookup e block).1 with
    | novel => rfl
    | repeated => simp [hresult] at h
    | found front old back => simp [hresult] at h

/-- How a state is added to a sorted set. Only entries with the key of the state are compared with it. -/
inductive Adding (s : VisitedSet κ) (num : Int) (k : κ) : VisitedSet κ → Addition κ → Prop
  | repeated {old : VisitedEntry κ} (hold : old ∈ s.entries) (hnum : old.num = num) :
      Adding s num k s .repeated
  | duplicate {pre post : List (VisitedEntry κ)} {old : VisitedEntry κ}
      (hentries : s.entries = pre ++ old :: post)
      (hkey : old.actorCount = Snapshot.actorCount k ∧ old.heapBytes = Snapshot.heapBytes k)
      (hsame : Snapshot.same old.snapshot k = true) :
      Adding s num k
        { s with entries := pre ++ { VisitedEntry.ofSnapshot num k with firstNum := old.first } :: post }
        (.duplicate old)
  | inserted {pre post : List (VisitedEntry κ)} {count : Nat} (hentries : s.entries = pre ++ post)
      (hpre : ∀ e ∈ pre, e.keyLt (VisitedEntry.ofSnapshot num k) = true)
      (hpost : ∀ e ∈ post, ¬ e.keyLt (VisitedEntry.ofSnapshot num k) = true)
      (hnovel : ∀ e ∈ s.entries, e.actorCount = Snapshot.actorCount k → e.heapBytes = Snapshot.heapBytes k →
        ¬ Snapshot.same e.snapshot k = true)
      (hcount : count = s.entries.length + 1 - s.maxSize) :
      Adding s num k
        { s with entries := (evictOldest count (pre ++ VisitedEntry.ofSnapshot num k :: post)).1 }
        (.inserted s.size (evictOldest count (pre ++ VisitedEntry.ofSnapshot num k :: post)).2)

theorem add_adding {s : VisitedSet κ} (h : Sorted s.entries) (num : Int) (k : κ) :
    Adding s num k (s.add num k).1 (s.add num k).2.1 := by
  have hparts := partitionAt_append (VisitedEntry.ofSnapshot num k) s.entries
  obtain ⟨hbelow, hblock, habove⟩ := partitionAt_spec (VisitedEntry.ofSnapshot num k) h
  unfold add
  dsimp only
  generalize (partitionAt (VisitedEntry.ofSnapshot num k) s.entries).1 = below at *
  generalize (partitionAt (VisitedEntry.ofSnapshot num k) s.entries).2.1 = block at *
  generalize (partitionAt (VisitedEntry.ofSnapshot num k) s.entries).2.2 = above at *
  simp only [VisitedEntry.keyLt_iff] at hbelow hblock habove
  dsimp only [VisitedEntry.ofSnapshot] at hbelow hblock habove
  split
  · rename_i compared hlookup
    obtain ⟨old, hold, hnum⟩ := lookup_repeated (congrArg Prod.fst hlookup)
    have hmem : old ∈ s.entries := by
      rw [← hparts]
      simp [hold]
    exact .repeated hmem hnum
  · rename_i front old back compared hlookup
    obtain ⟨rfl, hsame⟩ := lookup_found hlookup
    have hkey := hblock old (by simp)
    rw [List.append_assoc (below ++ front), List.cons_append]
    refine .duplicate ?_ ⟨by omega, by omega⟩ hsame
    rw [← hparts]
    simp
  · rename_i compared hlookup
    have hnovel := lookup_novel (congrArg Prod.fst hlookup)
    have hlength : (below ++ VisitedEntry.ofSnapshot num k :: block ++ above).length =
        s.entries.length + 1 := by
      rw [← hparts]
      simp
      omega
    rw [hlength, List.append_assoc, List.cons_append]
    refine .inserted hparts.symm ?_ ?_ ?_ rfl
    · simp only [VisitedEntry.keyLt_iff]
      exact hbelow
    · intro e he
      rw [VisitedEntry.keyLt_iff]
      dsimp only [VisitedEntry.ofSnapshot]
      rcases List.mem_append.mp he with he | he
      · exact (hblock e he).1
      · have := habove e he
        omega
    · intro e he hactors hheap
      -- An entry with the key of the state is in the block.
      rw [← hparts, List.mem_append, List.mem_append] at he
      rcases he with he | he | he
      · have := hbelow e he
        omega
      · exact hnovel e he
      · have := habove e he
        omega

theorem sorted_add {s : VisitedSet κ} (h : Sorted s.entries) (num : Int) (k : κ) :
    Sorted (s.add num k).1.entries := by
  have hadd := add_adding h num k
  generalize (s.add num k).1 = s', (s.add num k).2.1 = answer at hadd ⊢
  cases hadd with
  | repeated => exact h
  | @duplicate pre post old hentries hkey =>
    refine h.of_keys ?_
    simp [hentries, VisitedEntry.key, VisitedEntry.ofSnapshot, hkey]
  | @inserted pre post count hentries hpre hpost =>
    have hgrown : Sorted (pre ++ VisitedEntry.ofSnapshot num k :: post) := by
      rw [Sorted, hentries, List.pairwise_append] at h
      obtain ⟨hbefore, hbehind, hacross⟩ := h
      refine List.pairwise_append.mpr ⟨hbefore, List.pairwise_cons.mpr ⟨hpost, hbehind⟩, ?_⟩
      intro a ha
      rw [List.forall_mem_cons]
      have hlt := hpre a ha
      simp only [VisitedEntry.keyLt_iff] at hlt ⊢
      exact ⟨by omega, by simpa only [VisitedEntry.keyLt_iff] using hacross a ha⟩
    exact hgrown.sublist (evictOldest_sublist _ _)

theorem entry_of_add {s : VisitedSet κ} (h : Sorted s.entries) {num : Int} {k : κ}
    {e : VisitedEntry κ} (he : e ∈ (s.add num k).1.entries) :
    e ∈ s.entries ∨
      ((∃ total gone, (s.add num k).2.1 = .inserted total gone) ∧ e = .ofSnapshot num k) ∨
      ∃ old, (s.add num k).2.1 = .duplicate old ∧
        e = { VisitedEntry.ofSnapshot num k with firstNum := old.first } := by
  have hadd := add_adding h num k
  generalize (s.add num k).1 = s', (s.add num k).2.1 = answer at hadd he ⊢
  cases hadd with
  | repeated => exact .inl he
  | @duplicate pre post old hentries =>
    simp only [hentries, List.mem_append, List.mem_cons] at he ⊢
    rcases he with he | rfl | he
    · exact .inl (.inl he)
    · exact .inr (.inr ⟨old, rfl, rfl⟩)
    · exact .inl (.inr (.inr he))
  | @inserted pre post count hentries =>
    have he := (evictOldest_sublist _ _).subset he
    simp only [List.mem_append, List.mem_cons] at he
    rw [hentries, List.mem_append]
    rcases he with he | rfl | he
    · exact .inl (.inl he)
    · exact .inr (.inl ⟨⟨_, _, rfl⟩, rfl⟩)
    · exact .inl (.inr he)

theorem first_nonneg_add {s : VisitedSet κ} (hs : Sorted s.entries) (h : ∀ e ∈ s.entries, 0 ≤ e.first) {num : Int}
    (hnum : 0 ≤ num) (k : κ) : ∀ e ∈ (s.add num k).1.entries, 0 ≤ e.first := by
  intro e he
  rcases entry_of_add hs he with hold | ⟨-, rfl⟩ | ⟨old, hfound, rfl⟩
  · exact h e hold
  · exact hnum
  · have hold : 0 ≤ old.first := h old (add_duplicate hfound).1
    show 0 ≤ if old.first = -1 then num else old.first
    split_ifs
    · exact hnum
    · exact hold

end VisitedSet

end Interleave
