import Interleave.Program
import Interleave.Proofs.VisitedSet
import Mathlib.Data.List.Basic

/-! A visited set keeps what was added last: of the classes of equal snapshots it holds as many as it has room for,
those of the latest additions, and drops the one that has not been added for longest. -/

namespace Interleave

open scoped List

variable {κ : Type} [Snapshot κ]

/-- Comparing snapshots is an equivalence, and equal snapshots have the same counts. -/
structure Snapshot.Lawful (κ : Type) [Snapshot κ] : Prop where
  refl : ∀ k : κ, Snapshot.same k k = true
  symm : ∀ {k k' : κ}, Snapshot.same k k' = true → Snapshot.same k' k = true
  trans : ∀ {k k' k'' : κ}, Snapshot.same k k' = true → Snapshot.same k' k'' = true → Snapshot.same k k'' = true
  actorCount : ∀ {k k' : κ}, Snapshot.same k k' = true → Snapshot.actorCount k = Snapshot.actorCount k'
  heapBytes : ∀ {k k' : κ}, Snapshot.same k k' = true → Snapshot.heapBytes k = Snapshot.heapBytes k'

namespace Snapshot.Lawful

variable (hlaw : Snapshot.Lawful κ)

include hlaw

theorem same_comm (k k' : κ) : Snapshot.same k k' = Snapshot.same k' k :=
  Bool.eq_iff_iff.mpr ⟨hlaw.symm, hlaw.symm⟩

theorem same_congr {k k' : κ} (h : Snapshot.same k k' = true) (j : κ) : Snapshot.same j k = Snapshot.same j k' :=
  Bool.eq_iff_iff.mpr ⟨fun hj => hlaw.trans hj h, fun hj => hlaw.trans hj (hlaw.symm h)⟩

end Snapshot.Lawful

/-- The states that were added to a visited set, the latest one first. -/
abbrev History (κ : Type) := List (Int × κ)

namespace History

def recent : History κ → History κ
  | [] => []
  | a :: earlier => a :: (recent earlier).filter fun b => !Snapshot.same b.2 a.2

/-- The latest additions of the `size` classes that were added last. -/
def kept (size : Nat) (h : History κ) : History κ := h.recent.take size

def latest? (k : κ) (h : History κ) : Option Int := (h.find? fun a => Snapshot.same a.2 k).map (·.1)

/-- The number of the latest addition of a snapshot equal to `k` that found no such snapshot kept. -/
def novel? (size : Nat) (k : κ) : History κ → Option Int
  | [] => none
  | a :: earlier =>
    if Snapshot.same a.2 k && !(kept size earlier).any (Snapshot.same ·.2 k) then some a.1
    else novel? size k earlier

def Numbered (h : History κ) : Prop := h.Pairwise fun a b => b.1 < a.1

theorem recent_sublist (h : History κ) : h.recent.Sublist h := by
  induction h with
  | nil => exact .slnil
  | cons a earlier ih => exact (List.filter_sublist.trans ih).cons_cons a

theorem recent_distinct (h : History κ) : h.recent.Pairwise fun a b => ¬ Snapshot.same b.2 a.2 = true := by
  induction h with
  | nil => exact .nil
  | cons a earlier ih =>
    refine List.pairwise_cons.mpr ⟨fun b hb => ?_, ih.filter _⟩
    simpa using (List.mem_filter.mp hb).2

variable (hlaw : Snapshot.Lawful κ)

include hlaw

theorem latest?_of_mem_recent {h : History κ} {a : Int × κ} (ha : a ∈ h.recent) :
    h.latest? a.2 = some a.1 := by
  induction h with
  | nil => cases ha
  | cons b earlier ih =>
    rw [latest?, List.find?_cons]
    rcases List.mem_cons.mp ha with rfl | ha
    · rw [hlaw.refl]
      rfl
    · obtain ⟨ha, hne⟩ := List.mem_filter.mp ha
      rw [hlaw.same_comm, Bool.not_eq_true'] at hne
      rw [hne]
      exact ih ha

theorem latest?_congr {k k' : κ} (hk : Snapshot.same k k' = true) (h : History κ) :
    h.latest? k = h.latest? k' := by
  simp only [latest?, hlaw.same_congr hk]

theorem novel?_congr {k k' : κ} (hk : Snapshot.same k k' = true) (size : Nat) (h : History κ) :
    h.novel? size k = h.novel? size k' := by
  induction h with
  | nil => rfl
  | cons a earlier ih => simp only [novel?, hlaw.same_congr hk, ih]

theorem filter_other {front back : History κ} {a : Int × κ} {k : κ} (hsame : Snapshot.same a.2 k = true)
    (hdistinct : (front ++ a :: back).Pairwise fun a b => ¬ Snapshot.same b.2 a.2 = true) :
    (front ++ a :: back).filter (fun b => !Snapshot.same b.2 k) = front ++ back := by
  obtain ⟨-, hbehind, hacross⟩ := List.pairwise_append.mp hdistinct
  have hother : ∀ b ∈ front ++ back, (!Snapshot.same b.2 k) = true := by
    intro b hb
    rw [← hlaw.same_congr hsame, Bool.not_eq_true', ← Bool.not_eq_true]
    rcases List.mem_append.mp hb with hb | hb
    · rw [hlaw.same_comm]
      exact hacross b hb a List.mem_cons_self
    · exact (List.pairwise_cons.mp hbehind).1 b hb
  rw [List.filter_append, List.filter_cons, hsame, ← List.filter_eq_self.mpr hother, List.filter_append]
  simp

theorem kept_cons_of_mem {size : Nat} {h : History κ} {a : Int × κ} (ha : a ∈ h.kept size) (num : Int) {k : κ}
    (hsame : Snapshot.same a.2 k = true) :
    kept size ((num, k) :: h) = (num, k) :: (h.kept size).filter fun b => !Snapshot.same b.2 k := by
  obtain ⟨n, rfl⟩ : ∃ n, size = n + 1 := by
    refine Nat.exists_eq_add_one.mpr (Nat.pos_of_ne_zero ?_)
    rintro rfl
    simp [kept] at ha
  unfold kept at ha ⊢
  rw [recent, List.take_succ_cons]
  congr 1
  obtain ⟨front, back, hsplit⟩ := List.append_of_mem ha
  have hdistinct := (recent_distinct h).sublist (List.take_sublist (n + 1) _)
  rw [hsplit] at hdistinct
  have hfilter := filter_other hlaw hsame hdistinct
  have hlength : (front ++ back).length + 1 = min (n + 1) h.recent.length := by
    rw [← List.length_take, hsplit]
    simp
    omega
  calc (h.recent.filter fun b => !Snapshot.same b.2 k).take n
      = ((front ++ back) ++ (h.recent.drop (n + 1)).filter fun b => !Snapshot.same b.2 k).take n := by
        rw [← hfilter, ← hsplit, ← List.filter_append, List.take_append_drop]
    _ = front ++ back := by
        -- Where the classes kept are not all there are, they take up all the room.
        by_cases hall : h.recent.length ≤ n + 1
        · rw [List.drop_eq_nil_of_le hall, List.filter_nil, List.append_nil]
          exact List.take_of_length_le (by omega)
        · exact List.take_left' (by omega)
    _ = ((h.recent.take (n + 1)).filter fun b => !Snapshot.same b.2 k) := by rw [hsplit, hfilter]

omit hlaw in
theorem kept_cons_of_novel {size : Nat} {h : History κ} (num : Int) {k : κ}
    (hnovel : ∀ a ∈ h.kept size, ¬ Snapshot.same a.2 k = true) :
    kept size ((num, k) :: h) = ((num, k) :: h.kept size).take size := by
  unfold kept at hnovel ⊢
  have hfilter : (h.recent.filter fun b => !Snapshot.same b.2 k) =
      h.recent.take size ++ (h.recent.drop size).filter fun b => !Snapshot.same b.2 k := by
    conv_lhs => rw [← List.take_append_drop size h.recent, List.filter_append]
    rw [List.filter_eq_self.mpr]
    intro a ha
    simpa using hnovel a ha
  cases size with
  | zero => rfl
  | succ n =>
    rw [recent, List.take_succ_cons, List.take_succ_cons, hfilter]
    congr 1
    by_cases hall : h.recent.length ≤ n
    · rw [List.drop_eq_nil_of_le (by omega), List.filter_nil, List.append_nil]
    · exact List.take_append_of_le_length (by simp; omega)

theorem novel?_cons_of_ne {size : Nat} {h : History κ} (num : Int) {k k' : κ}
    (hne : ¬ Snapshot.same k k' = true) : novel? size k ((num, k') :: h) = h.novel? size k := by
  rw [hlaw.same_comm, Bool.not_eq_true] at hne
  simp [novel?, hne]

omit hlaw in
theorem novel?_cons_of_mem {size : Nat} {h : History κ} {a : Int × κ} (ha : a ∈ h.kept size) (num : Int) {k : κ}
    (hsame : Snapshot.same a.2 k = true) : novel? size k ((num, k) :: h) = h.novel? size k := by
  have hheld : (h.kept size).any (Snapshot.same ·.2 k) = true := List.any_eq_true.mpr ⟨a, ha, hsame⟩
  simp [novel?, hheld]

omit hlaw in
theorem mem_of_novel? {size : Nat} {k : κ} {h : History κ} {num : Int} (hnovel : h.novel? size k = some num) :
    ∃ a ∈ h, a.1 = num := by
  induction h with
  | nil => cases hnovel
  | cons a earlier ih =>
    simp only [novel?] at hnovel
    split_ifs at hnovel
    · exact ⟨a, List.mem_cons_self, Option.some.inj hnovel⟩
    · obtain ⟨b, hb, hnum⟩ := ih hnovel
      exact ⟨b, List.mem_cons_of_mem a hb, hnum⟩

end History

namespace VisitedEntry

def addition (e : VisitedEntry κ) : Int × κ := (e.num, e.snapshot)

end VisitedEntry

namespace VisitedSet

open VisitedEntry (addition)

omit [Snapshot κ] in
theorem evictOldest_perm (count : Nat) {entries : List (VisitedEntry κ)} {h : History κ} (hnum : h.Numbered)
    (hperm : entries.map addition ~ h) :
    (evictOldest count entries).1.map addition ~ h.take (h.length - count) := by
  induction count generalizing entries h with
  | zero => simpa [evictOldest] using hperm
  | succ count ih =>
    simp only [evictOldest]
    split
    · rename_i hnone
      rw [oldest_eq_none] at hnone
      subst hnone
      have hnil : h = [] := List.nil_perm.mp hperm
      simp [hnil]
    · rename_i num hsome
      obtain ⟨⟨e, he, hmin⟩, hle⟩ := oldest_spec hsome
      obtain ⟨a, front, back, -, ha, hsplit, herase⟩ :=
        List.exists_of_eraseP (p := fun e : VisitedEntry κ => decide (e.num = num)) he (by simpa using hmin)
      have hne : h ≠ [] := by
        rintro rfl
        simp [hsplit] at hperm
      obtain ⟨newer, z, rfl⟩ : ∃ newer z, h = newer ++ [z] :=
        ⟨h.dropLast, h.getLast hne, (List.dropLast_append_getLast hne).symm⟩
      have hlater := List.pairwise_append.mp hnum
      -- The entry with the smallest number is that of the earliest addition.
      have hlast : addition a = z := by
        have hmem : addition a ∈ newer ++ [z] := hperm.subset (List.mem_map_of_mem (by simp [hsplit]))
        rcases List.mem_append.mp hmem with hnewer | hz
        · obtain ⟨b, hb, rfl⟩ := List.mem_map.mp (hperm.symm.subset (by simp : z ∈ newer ++ [z]))
          have hlt : b.num < a.num := hlater.2.2 _ hnewer _ (List.mem_singleton_self _)
          have hnum : a.num = num := by simpa using ha
          have := hle b hb
          omega
        · exact List.mem_singleton.mp hz
      have hrest : (evict num entries).map addition ~ newer := by
        rw [evict, herase]
        refine (List.perm_cons z).mp ?_
        calc z :: (front ++ back).map addition
            ~ (front ++ a :: back).map addition := by
              rw [List.map_append, List.map_append, List.map_cons, hlast]
              exact List.perm_middle.symm
          _ ~ newer ++ [z] := hsplit ▸ hperm
          _ ~ z :: newer := List.perm_append_singleton z newer
      refine (ih hlater.1 hrest).trans (.of_eq ?_)
      rw [List.length_append, List.length_singleton, List.take_append_of_le_length (by omega)]
      congr 1
      omega

def filled (size : Nat) : History κ → VisitedSet κ
  | [] => empty size
  | a :: earlier => ((filled size earlier).add a.1 a.2).1

/-- The set holds the classes that a history keeps, each with its latest number and the number under which it was
last inserted. -/
structure Reflects (s : VisitedSet κ) (size : Nat) (h : History κ) : Prop where
  maxSize : s.maxSize = size
  sorted : Sorted s.entries
  entries : s.entries.map addition ~ h.kept size
  keyed : ∀ e ∈ s.entries, e.key = (Snapshot.actorCount e.snapshot, Snapshot.heapBytes e.snapshot)
  novel : ∀ e ∈ s.entries, h.novel? size e.snapshot = some e.first

namespace Reflects

variable {s : VisitedSet κ} {size : Nat} {h : History κ} (hs : s.Reflects size h)

include hs

theorem mem_kept {e : VisitedEntry κ} (he : e ∈ s.entries) : addition e ∈ h.kept size :=
  hs.entries.subset (List.mem_map_of_mem he)

theorem mem_history {e : VisitedEntry κ} (he : e ∈ s.entries) : addition e ∈ h :=
  (h.recent_sublist.subset (List.mem_of_mem_take (hs.mem_kept he)))

theorem distinct (hlaw : Snapshot.Lawful κ) :
    (s.entries.map addition).Pairwise fun a b => ¬ Snapshot.same b.2 a.2 = true := by
  have hkept := h.recent_distinct.sublist (List.take_sublist size _)
  refine hkept.perm hs.entries.symm fun {a b} hab => ?_
  rwa [hlaw.same_comm]

theorem novel_of_key (hlaw : Snapshot.Lawful κ) {k : κ}
    (hnovel : ∀ e ∈ s.entries, e.actorCount = Snapshot.actorCount k → e.heapBytes = Snapshot.heapBytes k →
      ¬ Snapshot.same e.snapshot k = true) :
    ∀ e ∈ s.entries, ¬ Snapshot.same e.snapshot k = true := by
  intro e he hsame
  have hkey := hs.keyed e he
  refine hnovel e he ?_ ?_ hsame
  · exact (congrArg Prod.fst hkey).trans (hlaw.actorCount hsame)
  · exact (congrArg Prod.snd hkey).trans (hlaw.heapBytes hsame)

theorem novel_cons (hlaw : Snapshot.Lawful κ) (num : Int) {k : κ} {e : VisitedEntry κ} (he : e ∈ s.entries)
    (hne : ¬ Snapshot.same e.snapshot k = true) :
    History.novel? size e.snapshot ((num, k) :: h) = some e.first :=
  (History.novel?_cons_of_ne hlaw num hne).trans (hs.novel e he)

theorem replace (hlaw : Snapshot.Lawful κ) (hnonneg : ∀ a ∈ h, 0 ≤ a.1) {pre post : List (VisitedEntry κ)}
    {old new : VisitedEntry κ} (hentries : s.entries = pre ++ old :: post) {num : Int} {k : κ}
    (hnew : new = { VisitedEntry.ofSnapshot num k with firstNum := old.first })
    (hsame : Snapshot.same old.snapshot k = true) (hsorted : Sorted (pre ++ new :: post)) :
    Reflects { s with entries := pre ++ new :: post } size ((num, k) :: h) := by
  have hold : old ∈ s.entries := by simp [hentries]
  have hsplit : s.entries.map addition = pre.map addition ++ addition old :: post.map addition := by
    rw [hentries, List.map_append, List.map_cons]
  -- Only one entry is of the class of `k`.
  have hothers : (s.entries.map addition).filter (fun b => !Snapshot.same b.2 k) = (pre ++ post).map addition := by
    have hdistinct := hs.distinct hlaw
    rw [hsplit] at hdistinct ⊢
    rw [History.filter_other hlaw hsame hdistinct, List.map_append]
  have hne : ∀ e ∈ pre ++ post, e ∈ s.entries ∧ ¬ Snapshot.same e.snapshot k = true := by
    intro e he
    refine ⟨by simp only [hentries, List.mem_append, List.mem_cons] at he ⊢; tauto, ?_⟩
    have hmem : addition e ∈ (pre ++ post).map addition := List.mem_map_of_mem he
    rw [← hothers] at hmem
    simpa [addition] using (List.mem_filter.mp hmem).2
  have hcases : ∀ e ∈ pre ++ new :: post, e = new ∨ e ∈ pre ++ post := by
    intro e he
    simp only [List.mem_append, List.mem_cons] at he ⊢
    tauto
  refine ⟨hs.maxSize, hsorted, ?_, ?_, ?_⟩
  · calc (pre ++ new :: post).map addition
        ~ (num, k) :: (pre ++ post).map addition := by
          simp only [List.map_append, List.map_cons, hnew]
          exact List.perm_middle
      _ ~ (num, k) :: (h.kept size).filter fun b => !Snapshot.same b.2 k := by
          rw [← hothers]
          exact (hs.entries.filter _).cons _
      _ = History.kept size ((num, k) :: h) := (History.kept_cons_of_mem hlaw (hs.mem_kept hold) num hsame).symm
  · intro e he
    rcases hcases e he with rfl | he
    · rw [hnew]
      rfl
    · exact hs.keyed e (hne e he).1
  · intro e he
    rcases hcases e he with rfl | he
    · -- The new entry stands for the insertion that the old one stood for.
      have hnovel := hs.novel old hold
      obtain ⟨a, ha, hnum⟩ := History.mem_of_novel? hnovel
      have hfirst : old.first ≠ -1 := by
        have := hnonneg a ha
        omega
      rw [show e.snapshot = k from hnew ▸ rfl, show e.first = old.first from hnew ▸ if_neg hfirst,
        History.novel?_cons_of_mem (hs.mem_kept hold) num hsame, ← History.novel?_congr hlaw hsame, hnovel]
    · exact hs.novel_cons hlaw num (hne e he).1 (hne e he).2

theorem insert (hlaw : Snapshot.Lawful κ) (hnum : h.Numbered) {num : Int} (hlatest : ∀ a ∈ h, a.1 < num)
    {pre post : List (VisitedEntry κ)} {new : VisitedEntry κ} (hentries : s.entries = pre ++ post) {k : κ}
    (hnew : new = VisitedEntry.ofSnapshot num k)
    (hnovel : ∀ e ∈ s.entries, ¬ Snapshot.same e.snapshot k = true) {count : Nat}
    (hcount : count = s.entries.length + 1 - s.maxSize)
    (hsorted : Sorted (evictOldest count (pre ++ new :: post)).1) :
    Reflects { s with entries := (evictOldest count (pre ++ new :: post)).1 } size ((num, k) :: h) := by
  have hother : ∀ a ∈ h.kept size, ¬ Snapshot.same a.2 k = true := by
    intro a ha
    obtain ⟨e, he, rfl⟩ := List.mem_map.mp (hs.entries.symm.subset ha)
    exact hnovel e he
  have hgrown : (pre ++ new :: post).map addition ~ (num, k) :: h.kept size := by
    calc (pre ++ new :: post).map addition
        ~ (num, k) :: (pre ++ post).map addition := by
          simp only [List.map_append, List.map_cons, hnew]
          exact List.perm_middle
      _ ~ (num, k) :: h.kept size := (hentries ▸ hs.entries).cons _
  -- Numbers descend along the history, so evictions cut off its end.
  have hkept : ((num, k) :: h.kept size).Pairwise fun a b => b.1 < a.1 := by
    have hsub : (h.kept size).Sublist h := (List.take_sublist _ _).trans h.recent_sublist
    exact List.pairwise_cons.mpr ⟨fun a ha => hlatest a (hsub.subset ha), hnum.sublist hsub⟩
  have hcases : ∀ e ∈ (evictOldest count (pre ++ new :: post)).1, e = new ∨ e ∈ s.entries := by
    intro e he
    have hmem := (evictOldest_sublist _ _).subset he
    simp only [hentries, List.mem_append, List.mem_cons] at hmem ⊢
    tauto
  refine ⟨hs.maxSize, hsorted, ?_, ?_, ?_⟩
  · calc (evictOldest count (pre ++ new :: post)).1.map addition
        ~ ((num, k) :: h.kept size).take (((num, k) :: h.kept size).length - count) :=
          evictOldest_perm count hkept hgrown
      _ = ((num, k) :: h.kept size).take size := by
          have hlength := hs.entries.length_eq
          rw [List.length_map] at hlength
          rw [List.take_eq_take_iff, List.length_cons, hcount, hs.maxSize, hlength]
          omega
      _ = History.kept size ((num, k) :: h) := (History.kept_cons_of_novel num hother).symm
  · intro e he
    rcases hcases e he with rfl | he
    · rw [hnew]
      rfl
    · exact hs.keyed e he
  · intro e he
    rcases hcases e he with rfl | he
    · have hnone : (h.kept size).any (Snapshot.same ·.2 k) = false := by
        simpa using hother
      rw [hnew]
      simp [History.novel?, VisitedEntry.ofSnapshot, VisitedEntry.first, hlaw.refl, hnone]
    · exact hs.novel_cons hlaw num he (hnovel e he)

theorem add (hlaw : Snapshot.Lawful κ) (hnum : h.Numbered) (hnonneg : ∀ a ∈ h, 0 ≤ a.1) {num : Int}
    (hlatest : ∀ a ∈ h, a.1 < num) (k : κ) : (s.add num k).1.Reflects size ((num, k) :: h) := by
  have hsorted := sorted_add hs.sorted num k
  have hadd := add_adding hs.sorted num k
  generalize (s.add num k).1 = s', (s.add num k).2.1 = answer at hadd hsorted ⊢
  cases hadd with
  | repeated hold hsame =>
    have hlt : _ < num := hlatest _ (hs.mem_history hold)
    exact absurd hsame hlt.ne
  | duplicate hentries _ hsame => exact hs.replace hlaw hnonneg hentries rfl hsame hsorted
  | inserted hentries _ _ hnovel hcount =>
    exact hs.insert hlaw hnum hlatest hentries rfl (hs.novel_of_key hlaw hnovel) hcount hsorted

theorem answer (hlaw : Snapshot.Lawful κ) {num : Int} (hlatest : ∀ a ∈ h, a.1 < num) (k : κ) :
    (∃ old ∈ s.entries, Snapshot.same old.snapshot k = true ∧ (s.add num k).2.1 = .duplicate old) ∨
      ((∀ e ∈ s.entries, ¬ Snapshot.same e.snapshot k = true) ∧
        ∃ gone, (s.add num k).2.1 = .inserted s.size gone) := by
  have hadd := add_adding hs.sorted num k
  generalize (s.add num k).1 = s', (s.add num k).2.1 = answer at hadd ⊢
  cases hadd with
  | repeated hold hsame =>
    have hlt : _ < num := hlatest _ (hs.mem_history hold)
    exact absurd hsame hlt.ne
  | @duplicate pre post old hentries _ hsame => exact .inl ⟨old, by simp [hentries], hsame, rfl⟩
  | inserted _ _ _ hnovel _ => exact .inr ⟨hs.novel_of_key hlaw hnovel, _, rfl⟩

end Reflects

theorem filled_reflects (hlaw : Snapshot.Lawful κ) (size : Nat) {h : History κ} (hnum : h.Numbered)
    (hnonneg : ∀ a ∈ h, 0 ≤ a.1) : (filled size h).Reflects size h := by
  induction h with
  | nil =>
    refine ⟨rfl, .nil, ?_, by simp [filled, empty], by simp [filled, empty]⟩
    simp [filled, empty, History.kept, History.recent]
  | cons a earlier ih =>
    obtain ⟨hlatest, hnum⟩ := List.pairwise_cons.mp hnum
    rw [List.forall_mem_cons] at hnonneg
    exact (ih hnum hnonneg.2).add hlaw hnum hnonneg.2 hlatest a.2

/-- A visited set is a cache of classes of equal snapshots from which the class added least recently is evicted. It
answers with the entry of the class, which has the latest number of the class and refers to the addition that
inserted it. -/
theorem visited_set_is_lru_cache (hlaw : Snapshot.Lawful κ) (size : Nat) {h : History κ} (hnum : h.Numbered)
    (hnonneg : ∀ a ∈ h, 0 ≤ a.1) :
    (filled size h).entries.map addition ~ h.kept size ∧
      (∀ e ∈ (filled size h).entries, h.latest? e.snapshot = some e.num) ∧
      ∀ num k, (∀ a ∈ h, a.1 < num) →
        ((filled size h).add num k).2.1 ≠ .repeated ∧
        ((∃ old, ((filled size h).add num k).2.1 = .duplicate old) ↔
          ∃ e ∈ (filled size h).entries, Snapshot.same e.snapshot k = true) ∧
        ∀ old, ((filled size h).add num k).2.1 = .duplicate old →
          h.latest? k = some old.num ∧ h.novel? size k = some old.first := by
  have hs := filled_reflects hlaw size hnum hnonneg
  have hlast : ∀ e ∈ (filled size h).entries, h.latest? e.snapshot = some e.num := by
    intro e he
    have hrecent : addition e ∈ h.recent := List.mem_of_mem_take (hs.mem_kept he)
    exact History.latest?_of_mem_recent hlaw hrecent
  refine ⟨hs.entries, hlast, fun num k hlatest => ?_⟩
  rcases hs.answer hlaw hlatest k with ⟨old, hold, hsame, hadd⟩ | ⟨hnovel, gone, hadd⟩
  · rw [hadd]
    refine ⟨by rintro ⟨⟩, ⟨fun _ => ⟨old, hold, hsame⟩, fun _ => ⟨old, rfl⟩⟩, ?_⟩
    rintro _ ⟨rfl⟩
    constructor
    · rw [← History.latest?_congr hlaw hsame]
      exact hlast old hold
    · rw [← History.novel?_congr hlaw hsame]
      exact hs.novel old hold
  · rw [hadd]
    refine ⟨by rintro ⟨⟩, ⟨?_, ?_⟩, by rintro _ ⟨⟩⟩
    · rintro ⟨_, ⟨⟩⟩
    · rintro ⟨e, he, hsame⟩
      exact absurd hsame (hnovel e he)

end VisitedSet

theorem Program.captured_lawful : Snapshot.Lawful Program.Captured where
  refl k := by simp [Snapshot.same]
  symm h := by simp_all [Snapshot.same]
  trans h h' := by simp_all [Snapshot.same]
  actorCount h := by simp_all [Snapshot.same, Snapshot.actorCount]
  heapBytes h := by simp_all [Snapshot.same, Snapshot.heapBytes]

def Program.Captured.labelled (key : String) : Program.Captured := ⟨key, 1, default⟩

def History.labelled : History Program.Captured :=
  [(3, .labelled "z"), (2, .labelled "x"), (1, .labelled "y"), (0, .labelled "x")]

theorem VisitedSet.visited_set_is_lru_cache_labelled :
    History.labelled.Numbered ∧ (∀ a ∈ History.labelled, 0 ≤ a.1 ∧ a.1 < 4) ∧
      (filled 2 History.labelled).entries.map VisitedEntry.addition ~ [(3, .labelled "z"), (2, .labelled "x")] ∧
      ∃ old, ((filled 2 History.labelled).add 4 (.labelled "x")).2.1 = .duplicate old ∧ old.num = 2 ∧
        old.first = 0 := by
  have hnum : History.labelled.Numbered := by simp [History.labelled, History.Numbered]
  have hbounds : ∀ a ∈ History.labelled, 0 ≤ a.1 ∧ a.1 < 4 := by simp [History.labelled]
  obtain ⟨hentries, -, hadd⟩ := visited_set_is_lru_cache Program.captured_lawful 2 hnum fun a ha => (hbounds a ha).1
  have hkept : History.labelled.kept 2 = [(3, .labelled "z"), (2, .labelled "x")] := by decide
  rw [hkept] at hentries
  refine ⟨hnum, hbounds, hentries, ?_⟩
  obtain ⟨-, hstored, hanswer⟩ := hadd 4 (.labelled "x") fun a ha => (hbounds a ha).2
  have hmem : (2, .labelled "x") ∈ (filled 2 History.labelled).entries.map VisitedEntry.addition :=
    hentries.symm.subset (List.mem_cons_of_mem _ (List.mem_singleton_self _))
  obtain ⟨e, he, heq⟩ := List.mem_map.mp hmem
  have hsame : Snapshot.same e.snapshot (Program.Captured.labelled "x") = true := by
    rw [show e.snapshot = .labelled "x" from congrArg Prod.snd heq]
    decide
  obtain ⟨old, hold⟩ := hstored.mpr ⟨e, he, hsame⟩
  obtain ⟨hlatest, hnovel⟩ := hanswer old hold
  have hlatest' : History.labelled.latest? (.labelled "x") = some 2 := by decide
  have hnovel' : History.labelled.novel? 2 (.labelled "x") = some 0 := by decide
  refine ⟨old, hold, ?_, ?_⟩
  · exact Option.some.inj (hlatest.symm.trans hlatest')
  · exact Option.some.inj (hnovel.symm.trans hnovel')

end Interleave
