import Interleave.Proofs.Recency
import Mathlib.Data.Prod.Lex

/-! How a visited set is laid out, whatever the numbers of the states and however snapshots are compared. The entries
are sorted by key and never too many, the entries with one key stand side by side, and a new state is compared with
these alone, from the first one up to the first equal one. -/

namespace Interleave

variable {κ : Type}

theorem VisitedEntry.keyLt_iff_key {a b : VisitedEntry κ} : a.keyLt b = true ↔ toLex a.key < toLex b.key := by
  rw [keyLt_iff, Prod.Lex.toLex_lt_toLex]
  rfl

namespace VisitedSet

theorem sorted_iff_key {entries : List (VisitedEntry κ)} :
    Sorted entries ↔ entries.Pairwise fun a b => toLex a.key ≤ toLex b.key := by
  simp only [Sorted, VisitedEntry.keyLt_iff_key, not_lt]

structure Splits (entries : List (VisitedEntry κ)) (e : VisitedEntry κ)
    (parts : List (VisitedEntry κ) × List (VisitedEntry κ) × List (VisitedEntry κ)) : Prop where
  entries_eq : entries = parts.1 ++ parts.2.1 ++ parts.2.2
  below_lt : ∀ a ∈ parts.1, toLex a.key < toLex e.key
  block_eq : parts.2.1 = entries.filter fun a => a.key = e.key
  lt_above : ∀ a ∈ parts.2.2, toLex e.key < toLex a.key

theorem partitionAt_splits (e : VisitedEntry κ) {entries : List (VisitedEntry κ)} (h : Sorted entries) :
    Splits entries e (partitionAt e entries) := by
  have hparts := partitionAt_append e entries
  obtain ⟨hbelow, hblock, habove⟩ := partitionAt_spec e h
  generalize partitionAt e entries = parts at *
  obtain ⟨below, block, above⟩ := parts
  simp only [VisitedEntry.keyLt_iff_key, not_lt] at hparts hbelow hblock habove
  have hnone : ∀ a ∈ below, ¬ decide (a.key = e.key) = true := by
    intro a ha
    simpa using fun heq => (hbelow a ha).ne (congrArg toLex heq)
  have hall : ∀ a ∈ block, decide (a.key = e.key) = true := by
    intro a ha
    have heq : toLex a.key = toLex e.key := le_antisymm (hblock a ha).2 (hblock a ha).1
    simpa using toLex.injective heq
  have hnone' : ∀ a ∈ above, ¬ decide (a.key = e.key) = true := by
    intro a ha
    simpa using fun heq => (habove a ha).ne' (congrArg toLex heq)
  refine ⟨by rw [← hparts, List.append_assoc], hbelow, ?_, habove⟩
  rw [← hparts, List.filter_append, List.filter_append, List.filter_eq_nil_iff.mpr hnone,
    List.filter_eq_self.mpr hall, List.filter_eq_nil_iff.mpr hnone', List.nil_append, List.append_nil]

theorem evictOldest_one {entries : List (VisitedEntry κ)} (h : entries ≠ []) :
    ∃ pre x post, entries = pre ++ x :: post ∧ (∀ a ∈ pre, x.num < a.num) ∧ (∀ a ∈ post, x.num ≤ a.num) ∧
      evictOldest 1 entries = (pre ++ post, [x.num]) := by
  obtain ⟨num, hnum⟩ : ∃ num, oldest entries = some num := by
    rw [← Option.isSome_iff_exists, Option.isSome_iff_ne_none]
    exact fun hnone => h (oldest_eq_none.mp hnone)
  obtain ⟨⟨e, he, hmin⟩, hle⟩ := oldest_spec hnum
  obtain ⟨x, pre, post, hpre, hx, hsplit, herase⟩ :=
    List.exists_of_eraseP (p := fun e : VisitedEntry κ => decide (e.num = num)) he (by simpa using hmin)
  replace hx : x.num = num := by simpa using hx
  subst hx
  refine ⟨pre, x, post, hsplit, ?_, ?_, ?_⟩
  · intro a ha
    have hne : a.num ≠ x.num := by simpa using hpre a ha
    exact lt_of_le_of_ne (hle a (by simp [hsplit, ha])) hne.symm
  · intro a ha
    exact hle a (by simp [hsplit, ha])
  · simp only [evictOldest, hnum, evict, herase]

variable [Snapshot κ]

def Passed (e a : VisitedEntry κ) : Prop := a.num ≠ e.num ∧ Snapshot.same a.snapshot e.snapshot = false

/-- How the search of a block for the candidate `e` can end, and which entries were compared. -/
inductive Searched (e : VisitedEntry κ) : List (VisitedEntry κ) → Lookup κ × List (VisitedEntry κ) → Prop
  | repeated {front back : List (VisitedEntry κ)} {old : VisitedEntry κ} (hfront : ∀ a ∈ front, Passed e a)
      (hnum : old.num = e.num) : Searched e (front ++ old :: back) (.repeated, front)
  | found {front back : List (VisitedEntry κ)} {old : VisitedEntry κ} (hfront : ∀ a ∈ front, Passed e a)
      (hnum : old.num ≠ e.num) (hsame : Snapshot.same old.snapshot e.snapshot = true) :
      Searched e (front ++ old :: back) (.found front old back, front ++ [old])
  | novel {block : List (VisitedEntry κ)} (hblock : ∀ a ∈ block, Passed e a) : Searched e block (.novel, block)

theorem lookup_searched (e : VisitedEntry κ) (block : List (VisitedEntry κ)) :
    Searched e block (lookup e block) := by
  induction block with
  | nil => exact .novel (by simp)
  | cons b block ih =>
    rw [lookup]
    split_ifs with hnum hsame
    · exact .repeated (List.forall_mem_nil _) hnum
    · exact .found (List.forall_mem_nil _) hnum hsame
    · have hpassed : Passed e b := ⟨hnum, by simpa using hsame⟩
      -- The rest of the block is searched in the same way, with one more entry in front.
      generalize lookup e block = result at ih ⊢
      cases ih with
      | repeated hfront hnum' =>
        exact .repeated (List.forall_mem_cons.mpr ⟨hpassed, hfront⟩) hnum'
      | found hfront hnum' hsame' =>
        exact .found (List.forall_mem_cons.mpr ⟨hpassed, hfront⟩) hnum' hsame'
      | novel hblock => exact .novel (List.forall_mem_cons.mpr ⟨hpassed, hblock⟩)

/-- What adding the candidate `e` does to a set whose entries are parted at the key of `e`: the new set, the answer
and the entries compared. -/
inductive Treated (s : VisitedSet κ) (e : VisitedEntry κ) :
    List (VisitedEntry κ) × List (VisitedEntry κ) × List (VisitedEntry κ) →
      VisitedSet κ × Addition κ × List (VisitedEntry κ) → Prop
  | repeated {below front back above : List (VisitedEntry κ)} {old : VisitedEntry κ}
      (hfront : ∀ a ∈ front, Passed e a) (hnum : old.num = e.num) :
      Treated s e (below, front ++ old :: back, above) (s, .repeated, front)
  | replaced {below front back above : List (VisitedEntry κ)} {old : VisitedEntry κ}
      (hfront : ∀ a ∈ front, Passed e a) (hnum : old.num ≠ e.num)
      (hsame : Snapshot.same old.snapshot e.snapshot = true) :
      Treated s e (below, front ++ old :: back, above)
        ({ s with entries := below ++ front ++ { e with firstNum := old.first } :: back ++ above },
          .duplicate old, front ++ [old])
  | inserted {below block above : List (VisitedEntry κ)} (hblock : ∀ a ∈ block, Passed e a)
      (hroom : s.size + 1 ≤ s.maxSize) :
      Treated s e (below, block, above)
        ({ s with entries := below ++ e :: block ++ above }, .inserted s.size [], block)
  | exchanged {below block above pre post : List (VisitedEntry κ)} {oldest : VisitedEntry κ}
      (hblock : ∀ a ∈ block, Passed e a) (hfull : s.maxSize < s.size + 1)
      (hgrown : below ++ e :: block ++ above = pre ++ oldest :: post)
      (hpre : ∀ a ∈ pre, oldest.num < a.num) (hpost : ∀ a ∈ post, oldest.num ≤ a.num) :
      Treated s e (below, block, above) ({ s with entries := pre ++ post }, .inserted s.size [oldest.num], block)

theorem add_treated {s : VisitedSet κ} (hsize : s.size ≤ s.maxSize) (num : Int) (k : κ) :
    Treated s (.ofSnapshot num k) (partitionAt (.ofSnapshot num k) s.entries) (s.add num k) := by
  have hparts := partitionAt_append (VisitedEntry.ofSnapshot num k) s.entries
  unfold add
  dsimp only
  generalize VisitedEntry.ofSnapshot num k = e at hparts ⊢
  generalize partitionAt e s.entries = parts at hparts ⊢
  obtain ⟨below, block, above⟩ := parts
  dsimp only at hparts ⊢
  have hlength : (below ++ e :: block ++ above).length = s.size + 1 := by
    rw [size, ← hparts]
    simp only [List.length_append, List.length_cons]
    omega
  have hlookup := lookup_searched e block
  generalize lookup e block = result at hlookup ⊢
  cases hlookup with
  | repeated hfront hnum => exact .repeated hfront hnum
  | found hfront hnum hsame => exact .replaced hfront hnum hsame
  | novel hblock =>
    dsimp only
    rw [hlength]
    by_cases hroom : s.size + 1 ≤ s.maxSize
    · rw [Nat.sub_eq_zero_of_le hroom]
      exact .inserted hblock hroom
    · have hone : s.size + 1 - s.maxSize = 1 := by omega
      obtain ⟨pre, x, post, hgrown, hpre, hpost, hevict⟩ :=
        evictOldest_one (List.ne_nil_of_length_eq_add_one hlength)
      rw [hone, hevict]
      exact .exchanged hblock (not_le.mp hroom) hgrown hpre hpost

section Treated

variable {s : VisitedSet κ} {e : VisitedEntry κ}
  {parts : List (VisitedEntry κ) × List (VisitedEntry κ) × List (VisitedEntry κ)}
  {result : VisitedSet κ × Addition κ × List (VisitedEntry κ)}

theorem Treated.maxSize_eq (h : Treated s e parts result) : result.1.maxSize = s.maxSize := by
  cases h <;> rfl

theorem Treated.size_le (h : Treated s e parts result) (hsize : s.size ≤ s.maxSize)
    (hparts : parts.1 ++ (parts.2.1 ++ parts.2.2) = s.entries) : result.1.size ≤ s.maxSize := by
  have hcount : parts.1.length + (parts.2.1.length + parts.2.2.length) = s.size := by
    rw [size, ← hparts, List.length_append, List.length_append]
  cases h with
  | repeated => exact hsize
  | replaced =>
    simp only [size, List.length_append, List.length_cons] at hcount hsize ⊢
    omega
  | inserted hblock hroom =>
    simp only [size, List.length_append, List.length_cons] at hcount hroom ⊢
    omega
  | exchanged hblock hfull hgrown =>
    have hlength := congrArg List.length hgrown
    simp only [size, List.length_append, List.length_cons] at hcount hsize hlength ⊢
    omega

end Treated

/-- The entries are sorted by key and not too many, and halving finds the block of any key. -/
structure LaidOut (maxSize : Nat) (s : VisitedSet κ) : Prop where
  maxSize_eq : s.maxSize = maxSize
  size_le : s.size ≤ maxSize
  sorted : s.entries.Pairwise fun a b => toLex a.key ≤ toLex b.key
  splits : ∀ e, Splits s.entries e (partitionAt e s.entries)

omit [Snapshot κ] in
theorem LaidOut.of_sorted {maxSize : Nat} {s : VisitedSet κ} (hmax : s.maxSize = maxSize) (hsize : s.size ≤ maxSize)
    (h : Sorted s.entries) : s.LaidOut maxSize :=
  ⟨hmax, hsize, sorted_iff_key.mp h, fun e => partitionAt_splits e h⟩

omit [Snapshot κ] in
theorem LaidOut.hasRoom {maxSize : Nat} {s : VisitedSet κ} (h : s.LaidOut maxSize) : s.size ≤ s.maxSize :=
  h.size_le.trans_eq h.maxSize_eq.symm

theorem LaidOut.add {maxSize : Nat} {s : VisitedSet κ} (h : s.LaidOut maxSize) (num : Int) (k : κ) :
    (s.add num k).1.LaidOut maxSize := by
  have htreated := add_treated h.hasRoom num k
  have hsize := htreated.size_le h.hasRoom (partitionAt_append _ _)
  have hsorted := sorted_add (sorted_iff_key.mpr h.sorted) num k
  exact .of_sorted (htreated.maxSize_eq.trans h.maxSize_eq) (hsize.trans_eq h.maxSize_eq) hsorted

theorem filled_laidOut (maxSize : Nat) (h : History κ) : (filled maxSize h).LaidOut maxSize := by
  induction h with
  | nil => exact .of_sorted rfl (Nat.zero_le _) .nil
  | cons a earlier ih => exact ih.add a.1 a.2

abbrev comparedBy (same : κ → κ → Bool) : Snapshot κ where
  actorCount := Snapshot.actorCount
  heapBytes := Snapshot.heapBytes
  same

theorem lookup_comparedBy {same : κ → κ → Bool} {e : VisitedEntry κ} {block : List (VisitedEntry κ)}
    (h : ∀ a ∈ (lookup e block).2, same a.snapshot e.snapshot = Snapshot.same a.snapshot e.snapshot) :
    @lookup κ (comparedBy same) e block = lookup e block := by
  induction block with
  | nil => rfl
  | cons b block ih =>
    simp only [lookup] at h ⊢
    by_cases hnum : b.num = e.num
    · simp only [if_pos hnum]
    · simp only [if_neg hnum] at h ⊢
      have hb : @Snapshot.same κ (comparedBy same) b.snapshot e.snapshot = Snapshot.same b.snapshot e.snapshot :=
        h b (by split_ifs <;> exact List.mem_cons_self)
      rw [hb]
      by_cases hsame : Snapshot.same b.snapshot e.snapshot = true
      · simp only [if_pos hsame]
      · simp only [if_neg hsame] at h ⊢
        rw [ih fun a ha => h a (List.mem_cons_of_mem b ha)]

theorem add_comparedBy {s : VisitedSet κ} {num : Int} {k : κ} {same : κ → κ → Bool}
    (h : ∀ a ∈ (s.add num k).2.2, same a.snapshot k = Snapshot.same a.snapshot k) :
    @add κ (comparedBy same) s num k = s.add num k := by
  have hlog : (s.add num k).2.2 =
      (lookup (.ofSnapshot num k) (partitionAt (.ofSnapshot num k) s.entries).2.1).2 := by
    unfold add
    dsimp only
    split <;> simp only [*]
  rw [hlog] at h
  have hlookup := lookup_comparedBy h
  have hentry : @VisitedEntry.ofSnapshot κ (comparedBy same) num k = .ofSnapshot num k := rfl
  unfold add
  dsimp only
  rw [hentry, hlookup]

/-- After any additions, of states with any numbers and of snapshots that are compared in any way, the set is laid out
by key. The next addition compares the new state with entries of its block only, each once, from the first one up to
the first equal one; what other comparisons would say does not matter. -/
theorem visited_set_layout (maxSize : Nat) (h : History κ) :
    (filled maxSize h).LaidOut maxSize ∧
      ∀ num k,
        Treated (filled maxSize h) (.ofSnapshot num k) (partitionAt (.ofSnapshot num k) (filled maxSize h).entries)
          ((filled maxSize h).add num k) ∧
        ∀ same : κ → κ → Bool,
          (∀ a ∈ ((filled maxSize h).add num k).2.2, same a.snapshot k = Snapshot.same a.snapshot k) →
            @add κ (comparedBy same) (filled maxSize h) num k = (filled maxSize h).add num k := by
  have hlaid := filled_laidOut maxSize h
  exact ⟨hlaid, fun num k => ⟨add_treated hlaid.hasRoom num k, fun same hagree => add_comparedBy hagree⟩⟩

end VisitedSet

end Interleave
