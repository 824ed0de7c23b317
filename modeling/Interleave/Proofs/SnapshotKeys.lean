import Interleave.Program.Cached
import Interleave.Proofs.Conversation
import Interleave.Proofs.StatusReports
import Interleave.Proofs.TraceText

/-! The text that a snapshot of a program is compared by. It is no key for arbitrary variables, since names are written
as they are. But the names of the variables follow from the positions of the actors, wherever the calls have led, and
between known names the values can be read off. -/

namespace Interleave

namespace Assoc

variable {α β : Type} [LT α] [DecidableEq α] [DecidableLT α]

theorem mem_keys_insert {k k' : α} {v : β} {m : List (α × β)} :
    k' ∈ (insert k v m).map Prod.fst ↔ k' = k ∨ k' ∈ m.map Prod.fst := by
  induction m with
  | nil => simp [insert]
  | cons e m ih =>
    simp only [insert]
    split_ifs with hlt heq
    · simp
    · simp [heq]
    · rw [List.map_cons, List.mem_cons, ih, List.map_cons, List.mem_cons]
      exact or_left_comm

omit [DecidableLT α] in
theorem ext_get? [IsStrictTotalOrder α (· < ·)] {m m' : List (α × β)} (hm : Ascending m) (hm' : Ascending m')
    (h : ∀ k, get? k m = get? k m') : m = m' := by
  have hirrefl : Std.Irrefl fun x y : α × β => x.1 < y.1 := ⟨fun x => Std.Irrefl.irrefl (r := (· < ·)) x.1⟩
  have hantisymm : Std.Antisymm fun x y : α × β => x.1 < y.1 :=
    ⟨fun x y hxy hyx => absurd (IsTrans.trans (r := (· < ·)) _ _ _ hxy hyx) (Std.Irrefl.irrefl x.1)⟩
  refine List.Pairwise.eq_of_mem_iff hm hm' fun e => ?_
  rw [← get?_eq_some_iff hm, h, get?_eq_some_iff hm']

end Assoc

namespace Program

def positionsText (positions : List Nat) : List Char := [' '].intercalate (positions.map fun n => n.repr.toList)

def entriesText (entries : List (String × Int)) : List Char :=
  entries.flatMap fun e => ' ' :: (e.1.toList ++ '=' :: e.2.repr.toList)

theorem toList_defaultKey (positions : List Nat) (vars : Vars) :
    (defaultKey positions vars).toList =
      "pcs=[".toList ++ (positionsText positions ++ ']' :: entriesText vars.entries) := by
  have hentries : (String.join (vars.entries.map fun e => s!" {e.1}={e.2}")).toList = entriesText vars.entries := by
    rw [String.toList_join, List.flatMap_map]
    refine List.flatMap_congr fun e _ => ?_
    simp only [String.toList_append]
    exact (List.append_assoc _ _ _).trans (List.append_assoc _ _ _)
  have hplaces : (" ".intercalate (positions.map fun n => s!"{n}")).toList = positionsText positions := by
    rw [String.toList_intercalate, List.map_map]
    rfl
  rw [defaultKey, String.toList_append, String.toList_append, String.toList_append]
  change "pcs=[".toList ++ (" ".intercalate (positions.map fun n => s!"{n}")).toList ++ [']'] ++
    (String.join (vars.entries.map fun e => s!" {e.1}={e.2}")).toList = _
  rw [hplaces, hentries, List.append_assoc, List.append_assoc]
  rfl

theorem append_inj_of_blank {as bs cs ds : List Char} (has : ' ' ∉ as) (hbs : ' ' ∉ bs)
    (hcs : ∀ c ∈ cs.head?, c = ' ') (hds : ∀ c ∈ ds.head?, c = ' ') (h : as ++ cs = bs ++ ds) : as = bs ∧ cs = ds := by
  have hcut {xs ys : List Char} (hxs : ' ' ∉ xs) (hys : ∀ c ∈ ys.head?, c = ' ') :
      RecordTrace.cutAt ' ' (xs ++ ys) = (xs, ys.tail?) := by
    cases ys with
    | nil => rw [List.append_nil, RecordTrace.cutAt_of_not_mem hxs]; rfl
    | cons y ys =>
      rw [hys y rfl, RecordTrace.cutAt_append hxs]
      rfl
  have heq : as = bs := by
    have hcuts := congrArg (RecordTrace.cutAt ' ') h
    rw [hcut has hcs, hcut hbs hds] at hcuts
    exact congrArg Prod.fst hcuts
  subst heq
  exact ⟨rfl, List.append_cancel_left h⟩

theorem head?_entriesText (entries : List (String × Int)) : ∀ c ∈ (entriesText entries).head?, c = ' ' := by
  cases entries <;> simp [entriesText]

theorem blank_not_mem_repr (i : Int) : ' ' ∉ i.repr.toList := by
  intro h
  rw [← Int.toString_eq_repr] at h
  rcases Text.isNumeral_of_mem_toString h with h | h <;> exact absurd h (by decide)

theorem toDigits_inj {m n : Nat} (h : Nat.toDigits 10 m = Nat.toDigits 10 n) : m = n :=
  calc
    m = Nat.ofDigitChars 10 (Nat.toDigits 10 m) 0 := Nat.ofDigitChars_ten_toDigits.symm
    _ = n := h ▸ Nat.ofDigitChars_ten_toDigits

theorem toList_repr_inj {i j : Int} (h : i.repr.toList = j.repr.toList) : i = j := by
  have hsign (n : Nat) (cs : List Char) : Nat.toDigits 10 n ≠ '-' :: cs := by
    intro hdigits
    have hminus : '-' ∈ Nat.toDigits 10 n := hdigits ▸ List.mem_cons_self
    exact absurd (Nat.isDigit_of_mem_toDigits (by decide) (by decide) hminus) (by decide)
  rw [← Int.toString_eq_repr, ← Int.toString_eq_repr, Text.toList_toString_int, Text.toList_toString_int] at h
  split_ifs at h
  · have := toDigits_inj h
    omega
  · exact absurd h (hsign _ _)
  · exact absurd h.symm (hsign _ _)
  · have := toDigits_inj (List.cons.inj h).2
    omega

theorem entriesText_inj {entries entries' : List (String × Int)}
    (hnames : entries.map Prod.fst = entries'.map Prod.fst) (h : entriesText entries = entriesText entries') :
    entries = entries' := by
  induction entries generalizing entries' with
  | nil => exact (List.map_eq_nil_iff.mp hnames.symm).symm
  | cons e entries ih =>
    cases entries' with
    | nil => cases hnames
    | cons e' entries' =>
      obtain ⟨name, value⟩ := e
      obtain ⟨name', value'⟩ := e'
      rw [List.map_cons, List.map_cons, List.cons.injEq] at hnames
      obtain ⟨rfl, hnames⟩ : name = name' ∧ _ := hnames
      rw [entriesText, entriesText, List.flatMap_cons, List.flatMap_cons, List.cons_append, List.cons_append,
        List.cons.injEq, List.append_assoc, List.append_assoc] at h
      have htail := List.append_cancel_left h.2
      rw [List.cons_append, List.cons_append, List.cons.injEq] at htail
      obtain ⟨hvalue, hrest⟩ := append_inj_of_blank (blank_not_mem_repr value) (blank_not_mem_repr value')
        (head?_entriesText entries) (head?_entriesText entries') htail.2
      rw [ih hnames hrest, toList_repr_inj hvalue]

theorem isDigit_of_mem_repr {n : Nat} {c : Char} (h : c ∈ n.repr.toList) : c.isDigit = true := by
  rw [Nat.toList_repr] at h
  exact Nat.isDigit_of_mem_toDigits (by decide) (by decide) h

theorem bracket_not_mem_positionsText (positions : List Nat) : ']' ∉ positionsText positions := by
  intro h
  rcases RecordTrace.mem_intercalate h with h | ⟨part, hpart, hmem⟩
  · exact absurd h (by decide)
  · obtain ⟨n, -, rfl⟩ := List.mem_map.mp hpart
    exact absurd (isDigit_of_mem_repr hmem) (by decide)

theorem splitAt_positionsText (n : Nat) (positions : List Nat) :
    RecordTrace.splitAt ' ' (positionsText (n :: positions)) = (n :: positions).map fun n => n.repr.toList := by
  refine RecordTrace.splitAt_intercalate fun part hpart hmem => ?_
  rw [← List.map_cons (f := fun n : Nat => n.repr.toList)] at hpart
  obtain ⟨m, -, rfl⟩ := List.mem_map.mp hpart
  exact absurd (isDigit_of_mem_repr hmem) (by decide)

theorem positionsText_cons_ne_nil (n : Nat) (positions : List Nat) : positionsText (n :: positions) ≠ [] := by
  intro h
  have hsplit := splitAt_positionsText n positions
  rw [h, List.map_cons] at hsplit
  have hempty : [] = n.repr.toList := (List.cons.inj hsplit).1
  rw [Nat.toList_repr] at hempty
  exact Nat.toDigits_ne_nil hempty.symm

theorem positionsText_inj {positions positions' : List Nat} (h : positionsText positions = positionsText positions') :
    positions = positions' := by
  cases positions with
  | nil =>
    cases positions' with
    | nil => rfl
    | cons n' positions' => exact absurd h.symm (positionsText_cons_ne_nil n' positions')
  | cons n positions =>
    cases positions' with
    | nil => exact absurd h (positionsText_cons_ne_nil n positions)
    | cons n' positions' =>
      have hparts := congrArg (RecordTrace.splitAt ' ') h
      rw [splitAt_positionsText, splitAt_positionsText] at hparts
      refine List.map_injective_iff.mpr (fun a b hab => toDigits_inj ?_) hparts
      rwa [Nat.toList_repr, Nat.toList_repr] at hab

theorem defaultKey_inj {positions positions' : List Nat} {vars vars' : Vars}
    (h : defaultKey positions vars = defaultKey positions' vars') :
    positions = positions' ∧
      (vars.entries.map Prod.fst = vars'.entries.map Prod.fst → vars = vars') := by
  have htext := congrArg String.toList h
  rw [toList_defaultKey, toList_defaultKey] at htext
  have hcuts := congrArg (RecordTrace.cutAt ']') (List.append_cancel_left htext)
  rw [RecordTrace.cutAt_append (bracket_not_mem_positionsText _),
    RecordTrace.cutAt_append (bracket_not_mem_positionsText _), Prod.mk.injEq, Option.some.injEq] at hcuts
  refine ⟨positionsText_inj hcuts.1, fun hnames => ?_⟩
  have hentries : vars.entries = vars'.entries := entriesText_inj hnames hcuts.2
  exact congrArg Vars.mk hentries

-- Without the names the values can not be read off.
example : defaultKey [0] ⟨[("a", 1), ("b", 2)]⟩ = defaultKey [0] ⟨[("a=1 b", 2)]⟩ := by decide +kernel

end Program

def Vars.names (v : Vars) : List String := v.entries.map Prod.fst

theorem Vars.mem_names_set {v : Vars} {name name' : String} {value : Int} :
    name' ∈ (v.set name value).names ↔ name' = name ∨ name' ∈ v.names := Assoc.mem_keys_insert

namespace Program

namespace Step

def added (s : Step) : List String := (s.act .empty 0).1.names

/-- Which names a step adds depends neither on the variables nor on the outcome, and a step that is taken again and
again adds none. -/
structure Predictable (s : Step) : Prop where
  names : ∀ v outcome name, name ∈ (s.act v outcome).1.names ↔ name ∈ v.names ∨ name ∈ s.added
  ascending : ∀ v outcome, Assoc.Ascending v.entries → Assoc.Ascending (s.act v outcome).1.entries
  loop : s.loop = true → s.added = []

theorem Predictable.of_idle {s : Step} (h : ∀ v outcome, (s.act v outcome).1 = v) : s.Predictable := by
  have hadded : s.added = [] := by rw [added, h]; rfl
  refine ⟨fun v outcome name => ?_, fun v outcome hv => ?_, fun _ => hadded⟩
  · simp [h, hadded]
  · rwa [h]

theorem Predictable.of_store {s : Step} {resource : String}
    (h : ∀ v outcome, ∃ value, (s.act v outcome).1 = v.set resource value) (hloop : s.loop = false) :
    s.Predictable := by
  have hnames : ∀ v outcome name, name ∈ (s.act v outcome).1.names ↔ name = resource ∨ name ∈ v.names := by
    intro v outcome name
    obtain ⟨value, hvalue⟩ := h v outcome
    rw [hvalue, Vars.mem_names_set]
  refine ⟨fun v outcome name => ?_, fun v outcome hv => ?_, fun hlooping => ?_⟩
  · have hempty : name ∉ Vars.empty.names := List.not_mem_nil
    rw [hnames, added, hnames, or_iff_left hempty, or_comm]
  · obtain ⟨value, hvalue⟩ := h v outcome
    rw [hvalue]
    exact Assoc.ascending_insert hv
  · rw [hloop] at hlooping
    cases hlooping

inductive Constructed : Step → Prop
  | standard {s : Step} (hs : s.Standard) : Constructed s
  | choose (resource : String) (n : Int) : Constructed (choose resource n)
  | when {s : Step} (hs : Constructed s) (guard : Vars → Bool) : Constructed (s.when guard)

theorem Standard.predictable {s : Step} (h : s.Standard) : s.Predictable := by
  induction h with
  | write _ _ => exact .of_store (fun _ _ => ⟨_, rfl⟩) rfl
  | incr _ => exact .of_store (fun _ _ => ⟨_, rfl⟩) rfl
  | read _ => exact .of_idle fun _ _ => rfl
  | lock _ => exact .of_store (fun _ _ => ⟨_, rfl⟩) rfl
  | unlock _ => exact .of_store (fun _ _ => ⟨_, rfl⟩) rfl
  | fail _ => exact .of_idle fun _ _ => rfl
  | expect _ _ => exact .of_idle fun _ _ => rfl
  | choose _ _ => exact .of_store (fun _ _ => ⟨_, rfl⟩) rfl
  | spin => exact .of_idle fun _ _ => rfl
  | when _ _ ih => exact ⟨ih.names, ih.ascending, ih.loop⟩

theorem Constructed.predictable {s : Step} (h : s.Constructed) : s.Predictable := by
  induction h with
  | standard hs => exact hs.predictable
  | choose _ _ => exact .of_store (fun _ _ => ⟨_, rfl⟩) rfl
  | when _ _ ih => exact ⟨ih.names, ih.ascending, ih.loop⟩

end Step

variable {p : Program} {c d : Configuration}

def passed (p : Program) (positions : List Nat) (i : Nat) : List Step :=
  (p.actors[i]?.getD []).take (positions[i]?.getD 0)

theorem mem_passed_modify {i j : Nat} {s s' : Step} (h : p.pending c i = some s) :
    s' ∈ p.passed (c.positions.modify i (· + 1)) j ↔ s' ∈ p.passed c.positions j ∨ i = j ∧ s' = s := by
  simp only [pending, Option.bind_eq_bind, Option.bind_eq_some_iff] at h
  obtain ⟨steps, hsteps, position, hposition, hs⟩ := h
  by_cases hij : i = j
  · subst hij
    simp [passed, hsteps, hposition, hs, List.take_add_one]
  · simp [passed, hij]

/-- The names of the variables are those at the start and those added by the steps that were passed. -/
structure Named (p : Program) (c : Configuration) : Prop where
  ascending : Assoc.Ascending c.vars.entries
  names : ∀ name, name ∈ c.vars.names ↔ name ∈ p.vars.names ∨ ∃ i, ∃ s ∈ p.passed c.positions i, name ∈ s.added

theorem Named.initial (h : Assoc.Ascending p.vars.entries) : p.Named p.initial := by
  refine ⟨h, fun name => (or_iff_left ?_).symm⟩
  rintro ⟨i, s, hmem, -⟩
  have hposition : (p.initial.positions[i]?).getD 0 = 0 := by
    rw [Program.initial, List.getElem?_map]
    cases p.actors[i]? <;> rfl
  rw [passed, hposition] at hmem
  cases hmem

theorem Named.afterStep {i : Nat} {s : Step} (h : p.Named c) (hs : s.Predictable) (hpending : p.pending c i = some s)
    (outcome : Int) : p.Named (afterStep c i s outcome).1 := by
  rw [afterStep_eq]
  refine ⟨hs.ascending _ _ h.ascending, fun name => ?_⟩
  dsimp only
  rw [hs.names, h.names, or_assoc]
  apply or_congr_right
  split_ifs with hloop
  · simp [hs.loop hloop]
  · simp only [mem_passed_modify hpending, or_and_right, exists_or, and_assoc, exists_and_left, exists_eq_left,
      exists_eq_left']

theorem Named.names_eq (hc : p.Named c) (hd : p.Named d) (hpositions : c.positions = d.positions) :
    c.vars.names = d.vars.names := by
  refine List.Pairwise.eq_of_mem_iff (Assoc.ascending_iff_keys.mp hc.ascending)
    (Assoc.ascending_iff_keys.mp hd.ascending) fun name => ?_
  rw [hc.names, hd.names, hpositions]

namespace Cached

theorem isEnabled_eq (m : p.Cached) (i : Nat) : m.isEnabled i = p.isEnabled m.configuration i := by
  rw [isEnabled, m.fresh, flags, indices, List.getD_eq_getElem?_getD, List.getElem?_map]
  by_cases hi : i < p.actors.length
  · rw [List.getElem?_range hi]
    rfl
  · have hpending : p.pending m.configuration i = none := by simp [pending, List.getElem?_eq_none (not_lt.mp hi)]
    rw [List.getElem?_eq_none (by simpa using hi), Program.isEnabled, hpending]
    rfl

theorem actorAt?_eq (m : p.Cached) (i : Nat) : m.actorAt? i = p.actorAt? m.configuration i := by
  simp only [actorAt?, Program.actorAt?, isEnabled_eq]

theorem changeAt_eq (m m' : p.Cached) (mover i : Nat) :
    m'.changeAt m.enabled mover i = p.changeAt m.configuration m'.configuration mover i := by
  have hbefore : m.enabled.getD i false = p.isEnabled m.configuration i := m.isEnabled_eq i
  unfold changeAt
  rw [actorAt?_eq, hbefore]
  rfl

theorem result_eq (m m' : p.Cached) (mover : Nat) (t : Transition) (v : Option Violation) :
    m'.result m.enabled mover t v = p.result m.configuration m'.configuration mover t v := by
  have hchanges : p.indices.map (m'.changeAt m.enabled mover) =
      p.indices.map (p.changeAt m.configuration m'.configuration mover) :=
    List.map_congr_left fun i _ => changeAt_eq m m' mover i
  unfold result
  rw [hchanges]
  rfl

theorem execute_eq (a : ActorId) (outcome : Int) (m : p.Cached) :
    p.execute a outcome m.configuration = Prod.map id configuration (execute a outcome m) := by
  unfold Program.execute execute
  cases p.index? a with
  | none => rfl
  | some i =>
    dsimp only
    cases p.pending m.configuration i with
    | none => rfl
    | some step =>
      dsimp only
      rw [isEnabled_eq]
      split_ifs
      · rfl
      · simp only [result_eq, Prod.map, id, look]

end Cached

/-- Flags follow from positions and variables: a driver that keeps them and one that looks at the guards when it is asked
give the same answers, so that what holds of the runs of one holds of those of the other. -/
theorem cached_projects (p : Program) : Driver.Projects Cached.configuration p.cached p.driver where
  initialActors m := by
    simp only [driver, cached, aliveActors, Prod.map, id, ← funext m.actorAt?_eq]
  execute := Cached.execute_eq
  snapshot _ := rfl
  restore _ _ := rfl
  interrupted _ := rfl

/-- Where calls of the driver lead, successful or not. A snapshot that is restored was taken somewhere. -/
inductive Reachable (p : Program) : Configuration → Prop
  | initial : Reachable p p.initial
  | executed {c : Configuration} (h : Reachable p c) (a : ActorId) (outcome : Int) :
      Reachable p (p.driver.execute a outcome c).2
  | restored {c origin : Configuration} {k : Captured} (h : Reachable p c) (horigin : Reachable p origin)
      (hk : (p.driver.snapshot origin).1 = .ok (some k)) : Reachable p (p.driver.restore k c).2
  | refused {c : Configuration} (h : Reachable p c) (typeName : String) :
      Reachable p (Program.restore (.foreign typeName) c).2

theorem execute_moves (p : Program) (a : ActorId) (outcome : Int) (c : Configuration) :
    (p.driver.execute a outcome c).2 = c ∨
      ∃ i s, p.pending c i = some s ∧ (p.driver.execute a outcome c).2 = (afterStep c i s outcome).1 := by
  change (p.execute a outcome c).2 = c ∨
    ∃ i s, p.pending c i = some s ∧ (p.execute a outcome c).2 = (afterStep c i s outcome).1
  unfold execute
  split
  · exact .inl rfl
  · rename_i i _
    split
    · exact .inl rfl
    · rename_i s hpending
      split_ifs
      · exact .inl rfl
      · exact .inr ⟨i, s, hpending, rfl⟩

theorem Reachable.named (hp : ∀ steps ∈ p.actors, ∀ s ∈ steps, s.Predictable) (hvars : Assoc.Ascending p.vars.entries)
    (h : p.Reachable c) : p.Named c := by
  induction h with
  | initial => exact .initial hvars
  | @executed c _ a outcome ih =>
    rcases p.execute_moves a outcome c with hstays | ⟨i, s, hpending, hmoves⟩
    · rwa [hstays]
    · obtain ⟨steps, hsteps, hs⟩ := mem_of_pending hpending
      rw [hmoves]
      exact ih.afterStep (hp steps hsteps s hs) hpending outcome
  | restored _ _ hk _ ih =>
    cases hk
    exact ih
  | refused _ _ ih => exact ih

theorem Named.same_capture_iff (hkey : p.key = none) (hc : p.Named c) (hd : p.Named d) :
    Snapshot.same (p.capture c) (p.capture d) = true ↔ c = d := by
  constructor
  · intro h
    have hkeys : defaultKey c.positions c.vars = defaultKey d.positions d.vars := by
      simp only [Snapshot.same, capture, hkey, Option.getD_none, Bool.and_eq_true, decide_eq_true_eq] at h
      exact h.2
    obtain ⟨hpositions, hvars⟩ := defaultKey_inj hkeys
    obtain ⟨positions, vars⟩ := c
    obtain ⟨positions', vars'⟩ := d
    rw [show positions = positions' from hpositions, show vars = vars' from hvars (hc.names_eq hd hpositions)]
  · rintro rfl
    simp [Snapshot.same]

theorem Named.eq_iff (hc : p.Named c) (hd : p.Named d) :
    c = d ↔ c.positions = d.positions ∧ ∀ name, Assoc.get? name c.vars.entries = Assoc.get? name d.vars.entries := by
  constructor
  · rintro rfl
    exact ⟨rfl, fun _ => rfl⟩
  · rintro ⟨hpositions, hlookups⟩
    have hentries : c.vars.entries = d.vars.entries := Assoc.ext_get? hc.ascending hd.ascending hlookups
    obtain ⟨positions, ⟨entries⟩⟩ := c
    obtain ⟨positions', ⟨entries'⟩⟩ := d
    rw [show positions = positions' from hpositions, show entries = entries' from hentries]

/-- Two configurations that calls lead to have equal snapshots if and only if the positions and the variables are equal,
equal snapshots count the same actors and bytes, and restoring a snapshot brings back what it was taken of, wherever the
program has got to, with the flags that were kept then. -/
theorem default_snapshots_exact (hp : ∀ steps ∈ p.actors, ∀ s ∈ steps, s.Constructed)
    (hvars : Assoc.Ascending p.vars.entries) (hkey : p.key = none) (hc : p.Reachable c) (hd : p.Reachable d) :
    p.driver.snapshot c = (.ok (some (p.capture c)), c) ∧
      (Snapshot.same (p.capture c) (p.capture d) = true ↔
        c.positions = d.positions ∧ ∀ name, Assoc.get? name c.vars.entries = Assoc.get? name d.vars.entries) ∧
      (Snapshot.same (p.capture c) (p.capture d) = true →
        Snapshot.actorCount (p.capture c) = Snapshot.actorCount (p.capture d) ∧
          Snapshot.heapBytes (p.capture c) = Snapshot.heapBytes (p.capture d)) ∧
      ∃ c', p.driver.restore (p.capture c) d = (.ok (), c') ∧ c'.positions = c.positions ∧
        (∀ name, Assoc.get? name c'.vars.entries = Assoc.get? name c.vars.entries) ∧
        (∀ i, p.isEnabled c' i = p.isEnabled c i) ∧
        ∀ m m' : p.Cached, m.configuration = c → m'.configuration = d →
          ∃ m'', p.cached.restore (p.capture c) m' = (.ok (), m'') ∧ m''.configuration = c' ∧ m''.enabled = m.enabled := by
  have hpredictable : ∀ steps ∈ p.actors, ∀ s ∈ steps, s.Predictable := fun steps hsteps s hs =>
    (hp steps hsteps s hs).predictable
  have hc := hc.named hpredictable hvars
  have hd := hd.named hpredictable hvars
  have hsame := hc.same_capture_iff hkey hd
  refine ⟨rfl, hsame.trans (hc.eq_iff hd), fun h => ?_, c, rfl, rfl, fun _ => rfl, fun _ => rfl, ?_⟩
  · cases hsame.mp h
    exact ⟨rfl, rfl⟩
  · rintro m m' rfl -
    exact ⟨_, rfl, rfl, m.fresh.symm⟩

def spacedNames : Program := ⟨.ofList [("a=0 b", 7)], [[.write "a" 0], [.choose "" 2]], none⟩

theorem spacedNames_constructed : ∀ steps ∈ spacedNames.actors, ∀ s ∈ steps, s.Constructed := by
  simp only [spacedNames, List.forall_mem_cons, List.not_mem_nil, IsEmpty.forall_iff, implies_true, and_true]
  exact ⟨.standard (.write "a" 0), .choose "" 2⟩

theorem default_snapshots_exact_spacedNames :
    ∃ c d, spacedNames.Reachable c ∧ spacedNames.Reachable d ∧ c.positions = d.positions ∧
      c.vars.names = ["", "a", "a=0 b"] ∧
      Snapshot.same (spacedNames.capture c) (spacedNames.capture d) = false ∧
      ∃ c', spacedNames.driver.restore (spacedNames.capture c) d = (.ok (), c') ∧ c'.positions = [1, 1] := by
  have hreach {c c' : Configuration} (h : spacedNames.Reachable c) (a : ActorId) (outcome : Int)
      (hexec : (spacedNames.driver.execute a outcome c).2 = c') : spacedNames.Reachable c' := hexec ▸ h.executed a outcome
  have hwritten : spacedNames.Reachable ⟨[1, 0], ⟨[("a", 0), ("a=0 b", 7)]⟩⟩ :=
    hreach .initial 1 0 (by decide +kernel)
  have hzero : spacedNames.Reachable ⟨[1, 1], ⟨[("", 0), ("a", 0), ("a=0 b", 7)]⟩⟩ :=
    hreach hwritten 2 0 (by decide +kernel)
  have hone : spacedNames.Reachable ⟨[1, 1], ⟨[("", 1), ("a", 0), ("a=0 b", 7)]⟩⟩ :=
    hreach hwritten 2 1 (by decide +kernel)
  obtain ⟨-, hsame, -, c', hrestore, hpositions, -⟩ :=
    default_snapshots_exact spacedNames_constructed (Assoc.ascending_ofList _) rfl hzero hone
  refine ⟨_, _, hzero, hone, rfl, rfl, ?_, c', hrestore, hpositions⟩
  rw [Bool.eq_false_iff, ne_eq, hsame]
  rintro ⟨-, hlookups⟩
  exact absurd (hlookups "") (by decide)

end Program

end Interleave
