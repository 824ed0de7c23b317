import Mathlib.Algebra.Divisibility.Basic
import Mathlib.Algebra.Ring.Int.Defs
import Mathlib.Data.Int.Order.Basic
import Mathlib.Data.List.Nodup
import Mathlib.Data.Prod.Lex
import Interleave.RunStore

/-! A run store gives back what was saved: under its id each accepted run with its times rounded to
milliseconds, and as a list the stored runs from the latest to the earliest. Of the database only what is documented
is used; it is seen through the records that its rows hold. -/

namespace Interleave

theorem IsWord.wrap_eq {x : Int} (h : IsWord x) : wrap x = x := by
  obtain ⟨hlow, hhigh⟩ := h
  rw [wrap, Int.bmod_def]
  omega

theorem isWord_wrap (x : Int) : IsWord (wrap x) := by
  rw [IsWord, wrap, Int.bmod_def]
  omega

namespace RunRecord

def kept (r : RunRecord) (id : Int) : RunRecord :=
  { r with
    id
    startedAt := r.startedMillis * nanosPerMilli
    duration := r.durationMillis * nanosPerMilli }

/-- The record `run` is `r` under the id `id`, with its start rounded down and its duration rounded toward
zero. Milliseconds are words of 64 bits, so that a start farther from the epoch wraps around. -/
structure Keeps (r : RunRecord) (id : Int) (run : RunRecord) : Prop where
  fields : run = { r with id, startedAt := run.startedAt, duration := run.duration }
  start_whole : nanosPerMilli ∣ run.startedAt
  start_down : IsWord (r.startedAt.fdiv nanosPerMilli) →
    run.startedAt ≤ r.startedAt ∧ r.startedAt < run.startedAt + nanosPerMilli
  start_wraps : run.startedAt = wrap (r.startedAt.fdiv nanosPerMilli) * nanosPerMilli
  duration_whole : nanosPerMilli ∣ run.duration
  duration_toward_zero :
    0 ≤ run.duration ∧ run.duration ≤ r.duration ∧ r.duration < run.duration + nanosPerMilli ∨
      run.duration ≤ 0 ∧ r.duration ≤ run.duration ∧ run.duration - nanosPerMilli < r.duration

def InWords (r : RunRecord) : Prop :=
  (∀ n ∈ [r.stats.expanded, r.stats.backtracks, r.stats.duplicates, r.stats.maxDepth, r.stats.limitHits], IsWord n) ∧
    IsWord r.duration

instance (r : RunRecord) : Decidable r.InWords := inferInstanceAs (Decidable (_ ∧ _))

def rank (r : RunRecord) : Int ×ₗ Int := toLex (r.startedMillis, r.id)

theorem tdiv_millis (t : Int) :
    let d := t.tdiv nanosPerMilli * nanosPerMilli
    0 ≤ d ∧ d ≤ t ∧ t < d + nanosPerMilli ∨ d ≤ 0 ∧ t ≤ d ∧ d - nanosPerMilli < t := by
  rcases le_total 0 t with ht | ht
  · rw [nanosPerMilli, Int.tdiv_eq_ediv_of_nonneg ht]
    omega
  · -- A negative time is rounded as its opposite.
    have opposite : t.tdiv 1000000 = -((-t) / 1000000) := by
      rw [← Int.tdiv_eq_ediv_of_nonneg (Int.neg_nonneg_of_nonpos ht), Int.neg_tdiv, neg_neg]
    rw [nanosPerMilli, opposite]
    omega

theorem startedMillis_kept (r : RunRecord) (id : Int) : (r.kept id).startedMillis = r.startedMillis := by
  have whole : (r.kept id).startedAt.fdiv nanosPerMilli = r.startedMillis := Int.mul_fdiv_cancel _ (by decide)
  rw [startedMillis, whole]
  exact (isWord_wrap _).wrap_eq

theorem durationMillis_kept (r : RunRecord) (id : Int) : (r.kept id).durationMillis = r.durationMillis :=
  Int.mul_tdiv_cancel _ (by decide)

theorem kept_kept (r : RunRecord) (id : Int) : (r.kept id).kept id = r.kept id := by
  rw [kept, startedMillis_kept, durationMillis_kept]
  rfl

end RunRecord

namespace RunTable

def Column.Takes (c : Column) (v : Cell) : Prop :=
  match c.initial, v with
  | .text _, .text _ | .integer _, .integer _ => True
  | _, _ => False

end RunTable

open RunTable (Cell Column Row)

/-- What is documented of a database while it is open, in terms of the rows of the table. -/
structure Database.Lawful {δ : Type} (db : Database δ) (Open : δ → Prop) (rows : δ → List Row) : Prop where
  /-- A new row has the values that it is given and the declared ones elsewhere, and its id is greater than that of any
  row before it. -/
  insert : ∀ {d columns values}, Open d → columns.Nodup → .id ∉ columns → List.Forall₂ Column.Takes columns values →
    (∀ n, .integer n ∈ values → IsWord n) →
    ∃ id d', db.insert columns values d = (.ok id, d') ∧ Open d' ∧
      (∀ row ∈ rows d, ∀ n, row.get .id = .integer n → n < id) ∧
      (rows d').Perm (Row.ofValues (.id :: columns) (.integer id :: values) :: rows d)
  /-- The rows with a value come in some order. -/
  selectAt : ∀ {d} columns {key value}, Open d → key.Takes value →
    ∃ found : List Row, found.Perm ((rows d).filter (·.get key = value)) ∧
      db.selectAt columns key value d = .ok (found.map (Row.read columns))
  /-- The rows come in some descending order, and a negative limit is none. -/
  select : ∀ {d} columns order limit, Open d → ∃ sorted : List Row, sorted.Perm (rows d) ∧
    (sorted.Pairwise fun a b => Row.descending order a b = true) ∧
    db.select columns order limit d =
      .ok ((if limit < 0 then sorted else sorted.take limit.toNat).map (Row.read columns))

namespace RunTable

def Numbered (t : RunTable) : Prop := ∀ row ∈ t.rows, ∀ n, row.get .id = .integer n → n ≤ t.lastId

namespace Cell

theorem le_trans {a b c : Cell} (hab : a.le b = true) (hbc : b.le c = true) : a.le c = true := by
  cases a <;> cases b <;> cases c <;> simp only [le, decide_eq_true_eq, reduceCtorEq] at *
  · exact String.le_trans hab hbc
  · exact Int.le_trans hab hbc

theorem le_antisymm {a b : Cell} (hab : a.le b = true) (hba : b.le a = true) : a = b := by
  cases a <;> cases b <;> simp only [le, decide_eq_true_eq, reduceCtorEq] at *
  · exact congrArg text (String.le_antisymm hab hba)
  · exact congrArg integer (Int.le_antisymm hab hba)

theorem le_total (a b : Cell) : a.le b = true ∨ b.le a = true := by
  cases a <;> cases b <;> simp only [le, decide_eq_true_eq, or_false, or_true, reduceCtorEq]
  · exact String.le_total _ _
  · exact Int.le_total _ _

end Cell

namespace Row

end Row

end RunTable

namespace RunStore

open RunRecord (noStart)

def row (run : RunRecord) : Row :=
  Row.ofValues (.id :: savedColumns) (.integer run.id :: savedValues run)

theorem get_id_row (run : RunRecord) : (row run).get .id = .integer run.id := rfl

theorem savedValues_kept (r : RunRecord) (id : Int) : savedValues (r.kept id) = savedValues r := by
  rw [savedValues, RunRecord.startedMillis_kept, RunRecord.durationMillis_kept]
  rfl

theorem savedColumns_take (r : RunRecord) : List.Forall₂ Column.Takes savedColumns (savedValues r) := by
  repeat' constructor

theorem savedValues_words {r : RunRecord} (h : r.InWords) {n : Int} (hn : .integer n ∈ savedValues r) : IsWord n := by
  obtain ⟨counters, duration⟩ := h
  have millis : IsWord r.durationMillis := by
    have toward := RunRecord.tdiv_millis r.duration
    rw [IsWord, RunRecord.nanosPerMilli] at *
    unfold RunRecord.durationMillis RunRecord.nanosPerMilli
    omega
  simp only [savedValues, List.mem_cons, reduceCtorEq, Cell.integer.injEq, List.not_mem_nil, or_false, false_or] at hn
  rcases hn with rfl | rfl | rfl | rfl | rfl | rfl | rfl
  · exact counters _ (by simp)
  · exact counters _ (by simp)
  · exact counters _ (by simp)
  · exact counters _ (by simp)
  · exact counters _ (by simp)
  · exact isWord_wrap _
  · exact millis

def listing (runs : List RunRecord) : List RunRecord :=
  runs.mergeSort fun a b => decide (b.rank ≤ a.rank)

/-- The rows are those of the records `runs`, which are told apart by their ids. -/
structure Holds (rows : List Row) (runs : List RunRecord) : Prop where
  rows_perm : rows.Perm (runs.map row)
  whole : ∀ run ∈ runs, run.kept run.id = run
  ascending : (runs.map (·.id)).Pairwise (· < ·)

namespace Holds

variable {rows : List Row} {runs : List RunRecord}

theorem insert (h : Holds rows runs) {r : RunRecord} {id : Int} {rows' : List Row}
    (hid : ∀ row ∈ rows, ∀ n, row.get .id = .integer n → n < id)
    (hrows : rows'.Perm (Row.ofValues (.id :: savedColumns) (.integer id :: savedValues r) :: rows)) :
    Holds rows' (runs ++ [r.kept id]) where
  rows_perm := by
    rw [← savedValues_kept r id] at hrows
    rw [List.map_append, List.map_singleton]
    exact hrows.trans ((h.rows_perm.cons _).trans (List.perm_append_singleton _ _).symm)
  whole := by
    rw [List.forall_mem_append, List.forall_mem_singleton]
    exact ⟨h.whole, r.kept_kept _⟩
  ascending := by
    rw [List.map_append, List.map_singleton, List.pairwise_append]
    refine ⟨h.ascending, List.pairwise_singleton _ _, ?_⟩
    rw [List.forall_mem_map]
    intro run hr later hlater
    rw [List.mem_singleton.1 hlater]
    exact hid _ (h.rows_perm.mem_iff.2 (List.mem_map_of_mem hr)) _ (get_id_row run)

end Holds

section Lawful

variable {δ : Type} {db : Database δ} {Open : δ → Prop} {rows : δ → List Row} (hdb : db.Lawful Open rows)
variable {d : δ} {runs : List RunRecord}

include hdb

theorem save_accepted (hopen : Open d) (h : Holds (rows d) runs) (now : Int) {r : RunRecord}
    (hm : Text.trim r.model ≠ "") (hs : r.startedAt ≠ noStart) (hw : r.InWords) :
    ∃ id d', save db now r d = (.ok id, d') ∧ Open d' ∧ Holds (rows d') (runs ++ [r.kept id]) := by
  obtain ⟨id, d', hinsert, hopen', hid, hrows⟩ := hdb.insert hopen (by decide) (by decide) (savedColumns_take r)
    fun n => savedValues_words hw
  refine ⟨id, d', ?_, hopen', h.insert hid hrows⟩
  rw [save, if_neg hm, if_neg hs]
  dsimp only
  rw [hinsert]

end Lawful

def saveAll {δ : Type} (db : Database δ) : List (Int × RunRecord) → δ → List (Except StoreError Int) × δ
  | [], d => ([], d)
  | (now, r) :: calls, d =>
    let (answer, d) := save db now r d
    let (answers, d) := saveAll db calls d
    (answer :: answers, d)

def given (answers : List (Except StoreError Int)) : List Int := answers.filterMap Except.toOption

structure Answered (Kept : RunRecord → Int → Prop) (call : Int × RunRecord)
    (answer : Except StoreError Int) : Prop where
  blank : Text.trim call.2.model = "" → answer = .error .noModel
  accepted : Text.trim call.2.model ≠ "" → ∃ id, answer = .ok id ∧ Kept call.2 id

theorem Answered.imp {Kept Kept' : RunRecord → Int → Prop} (h : ∀ r id, Kept r id → Kept' r id)
    {call : Int × RunRecord} {answer : Except StoreError Int} (ha : Answered Kept call answer) :
    Answered Kept' call answer where
  blank := ha.blank
  accepted := by
    intro hm
    obtain ⟨id, heq, hk⟩ := ha.accepted hm
    exact ⟨id, heq, h _ _ hk⟩

section Lawful

variable {δ : Type} {db : Database δ} {Open : δ → Prop} {rows : δ → List Row}

theorem Holds.saveAll (hdb : db.Lawful Open rows) {d : δ} {runs : List RunRecord} (hopen : Open d)
    (h : Holds (rows d) runs) (calls : List (Int × RunRecord))
    (hs : ∀ call ∈ calls, call.2.startedAt ≠ noStart ∧ call.2.InWords) :
    ∃ added, Open (RunStore.saveAll db calls d).2 ∧ Holds (rows (RunStore.saveAll db calls d).2) (runs ++ added) ∧
      given (RunStore.saveAll db calls d).1 = added.map (·.id) ∧
      List.Forall₂ (Answered fun r id => r.kept id ∈ added) calls (RunStore.saveAll db calls d).1 := by
  induction calls generalizing d runs with
  | nil => exact ⟨[], hopen, (List.append_nil runs).symm ▸ h, rfl, List.Forall₂.nil⟩
  | cons call calls ih =>
    obtain ⟨now, r⟩ := call
    rw [List.forall_mem_cons] at hs
    by_cases hm : Text.trim r.model = ""
    · obtain ⟨added, ho, hh, hg, ha⟩ := ih hopen h hs.2
      rw [RunStore.saveAll, save, if_pos hm]
      exact ⟨added, ho, hh, hg, .cons ⟨fun _ => rfl, fun hn => absurd hm hn⟩ ha⟩
    · obtain ⟨id, d', hsave, hopen', hheld⟩ := save_accepted hdb hopen h now hm hs.1.1 hs.1.2
      obtain ⟨added, ho, hh, hg, ha⟩ := ih hopen' hheld hs.2
      rw [RunStore.saveAll, hsave]
      refine ⟨r.kept id :: added, ho, ?_, ?_, .cons ?_ ?_⟩
      · rwa [List.append_cons]
      · exact congrArg (List.cons id) hg
      · exact ⟨fun hb => absurd hb hm, fun _ => ⟨id, rfl, List.mem_cons_self⟩⟩
      · exact ha.imp fun _ _ => Answered.imp fun _ _ => List.mem_cons_of_mem _

/-- For every limit the runs of `all` are listed in descending order, and each is the one under its id. -/
structure Lists (db : Database δ) (d : δ) (all : List RunRecord) : Prop where
  list_eq : ∀ limit, list db d limit = .ok (if limit < 1 then all else all.take limit.toNat)
  descending : all.Pairwise fun a b => b.rank < a.rank
  get_eq : ∀ run ∈ all, get db d run.id = .ok run

end Lawful

end RunStore

end Interleave
