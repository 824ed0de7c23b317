import Interleave.Proofs.TraceText
import Mathlib.Data.List.Basic
import Mathlib.Data.List.Forall2
import Mathlib.Data.List.TakeWhile

/-! Which texts are read as a record trace, and as which one. The rules are those of the written form, loosened by white
space around the text and around its parts, and by signs and leading zeros. -/

namespace Interleave

namespace Text

structure Bare (cs : List Char) : Prop where
  head : ∀ c ∈ cs.head?, isBlank c = false
  last : ∀ c ∈ cs.getLast?, isBlank c = false

structure Trims (cs core : List Char) : Prop where
  bare : Bare core
  around : ∃ left right, (∀ c ∈ left, isBlank c = true) ∧ (∀ c ∈ right, isBlank c = true) ∧ cs = left ++ core ++ right

theorem head?_dropWhile_blank (cs : List Char) : ∀ c ∈ (cs.dropWhile isBlank).head?, isBlank c = false := by
  intro c hc
  have hhead := List.head?_dropWhile_not isBlank cs
  rwa [hc] at hhead

theorem dropWhile_of_head? {cs : List Char} (h : ∀ c ∈ cs.head?, isBlank c = false) : cs.dropWhile isBlank = cs := by
  cases cs with
  | nil => rfl
  | cons c cs => simp [h c rfl]

theorem trims_trimChars (cs : List Char) : Trims cs (trimChars cs) := by
  set rest := cs.dropWhile isBlank with hrest
  set core := (rest.reverse.dropWhile isBlank).reverse with hcore
  set right := (rest.reverse.takeWhile isBlank).reverse with hright
  have hsplit : rest = core ++ right := by
    rw [hcore, hright, ← List.reverse_append, List.takeWhile_append_dropWhile, List.reverse_reverse]
  refine ⟨⟨?_, ?_⟩, cs.takeWhile isBlank, right, fun c hc => List.mem_takeWhile_imp hc, ?_, ?_⟩
  · intro c hc
    refine head?_dropWhile_blank cs c ?_
    change core.head? = some c at hc
    rw [← hrest, hsplit, List.head?_append, hc]
    rfl
  · intro c hc
    change core.getLast? = some c at hc
    rw [hcore, List.getLast?_reverse] at hc
    exact head?_dropWhile_blank _ c hc
  · intro c hc
    rw [hright, List.mem_reverse] at hc
    exact List.mem_takeWhile_imp hc
  · change cs = cs.takeWhile isBlank ++ core ++ right
    rw [List.append_assoc, ← hsplit, hrest, List.takeWhile_append_dropWhile]

theorem Trims.trimChars_eq {cs core : List Char} (h : Trims cs core) : trimChars cs = core := by
  obtain ⟨⟨hhead, hlast⟩, left, right, hleft, hright, rfl⟩ := h
  have hright' : ∀ c ∈ right.reverse, isBlank c = true := fun c hc => hright c (List.mem_reverse.mp hc)
  rw [trimChars, List.append_assoc, List.dropWhile_append_of_pos hleft]
  by_cases hempty : core = []
  · subst hempty
    rw [List.nil_append, List.dropWhile_eq_nil_iff.mpr hright]
    rfl
  · have hstart : ∀ c ∈ (core ++ right).head?, isBlank c = false := by
      rwa [List.head?_append_of_ne_nil _ hempty]
    have hend : ∀ c ∈ core.reverse.head?, isBlank c = false := by rwa [List.head?_reverse]
    rw [dropWhile_of_head? hstart, List.reverse_append, List.dropWhile_append_of_pos hright', dropWhile_of_head? hend,
      List.reverse_reverse]

theorem trimChars_eq_iff {cs core : List Char} : trimChars cs = core ↔ Trims cs core :=
  ⟨fun h => h ▸ trims_trimChars cs, Trims.trimChars_eq⟩

/-- A decimal with an optional sign, and the integer that it stands for. -/
inductive Decimal : List Char → Int → Prop
  | plain {ds : List Char} (hne : ds ≠ []) (hds : ∀ d ∈ ds, d.isDigit = true) :
      Decimal ds (Nat.ofDigitChars 10 ds 0)
  | plus {ds : List Char} (hne : ds ≠ []) (hds : ∀ d ∈ ds, d.isDigit = true) :
      Decimal ('+' :: ds) (Nat.ofDigitChars 10 ds 0)
  | minus {ds : List Char} (hne : ds ≠ []) (hds : ∀ d ∈ ds, d.isDigit = true) :
      Decimal ('-' :: ds) (-(Nat.ofDigitChars 10 ds 0))

theorem slash_not_mem_of_decimal {cs : List Char} {i : Int} (h : Decimal cs i) : '/' ∉ cs := by
  have hdigits {ds : List Char} (hds : ∀ d ∈ ds, d.isDigit = true) : '/' ∉ ds := fun hmem =>
    absurd (hds '/' hmem) (by decide)
  cases h with
  | plain _ hds => exact hdigits hds
  | plus _ hds => exact List.not_mem_cons_of_ne_of_not_mem (by decide) (hdigits hds)
  | minus _ hds => exact List.not_mem_cons_of_ne_of_not_mem (by decide) (hdigits hds)

theorem isDigit_of_digitValue {c : Char} {d : Nat} (h : digitValue c = some d) (hd : d < 10) : c.isDigit = true := by
  -- Letters have values of ten and more.
  unfold digitValue at h
  split_ifs at h with hdigit
  · simp only [Char.isDigit, Bool.and_eq_true, decide_eq_true_eq, ge_iff_le]
    exact hdigit
  all_goals
    rw [Option.some.injEq] at h
    omega

theorem of_readDigits {limit : Nat} {cs : List Char} {n v : Nat} (h : readDigits 10 limit false cs n = .ok v)
    (hn : n ≤ limit) : (∀ c ∈ cs, c.isDigit = true) ∧ Nat.ofDigitChars 10 cs n = v ∧ v ≤ limit := by
  induction cs generalizing n with
  | nil =>
    cases h
    exact ⟨List.forall_mem_nil _, Nat.ofDigitChars_nil, hn⟩
  | cons c cs ih =>
    rw [readDigits] at h
    simp only [Bool.false_and, Bool.false_eq_true, if_false] at h
    split at h
    · cases h
    · rename_i d hvalue
      split_ifs at h with hbase hlimit
      have hdigit := isDigit_of_digitValue hvalue (by omega)
      obtain ⟨hdigits, hdenotes, hle⟩ := ih h (by omega)
      rw [(digitValue_of_isDigit hdigit).1, Option.some.injEq] at hvalue
      refine ⟨List.forall_mem_cons.mpr ⟨hdigit, hdigits⟩, ?_, hle⟩
      rw [Nat.ofDigitChars_cons, Nat.mul_comm, hvalue, hdenotes]

theorem signed_eq_ok_iff {negative : Bool} {n : Nat} {i : Int} :
    signed 64 negative n = .ok i ↔ i = (if negative then -(n : Int) else n) ∧ IsWord i := by
  have h63 : Nat.pow 2 (64 - 1) = 2 ^ 63 := rfl
  unfold signed IsWord
  rw [h63]
  split_ifs
  · rw [false_iff]
    omega
  · rw [Except.ok.injEq]
    omega
  · rw [false_iff]
    omega
  · rw [Except.ok.injEq]
    omega

theorem readSigned_eq_ok_iff {negative : Bool} {ds : List Char} {i : Int} :
    (readDigits 10 (Nat.pow 2 64 - 1) false ds 0 >>= signed 64 negative) = .ok i ↔
      (∀ d ∈ ds, d.isDigit = true) ∧
        i = (if negative then -(Nat.ofDigitChars 10 ds 0 : Int) else Nat.ofDigitChars 10 ds 0) ∧ IsWord i := by
  constructor
  · intro h
    cases hread : readDigits 10 (Nat.pow 2 64 - 1) false ds 0 with
    | error e => simp [hread, bind, Except.bind] at h
    | ok n =>
      obtain ⟨hdigits, rfl, -⟩ := of_readDigits hread (Nat.zero_le _)
      rw [hread] at h
      exact ⟨hdigits, signed_eq_ok_iff.mp h⟩
  · rintro ⟨hdigits, hvalue, hword⟩
    have h64 : Nat.pow 2 64 = 2 ^ 64 := rfl
    have hlimit : Nat.ofDigitChars 10 ds 0 ≤ Nat.pow 2 64 - 1 := by
      obtain ⟨hlow, hhigh⟩ := hword
      cases negative <;> simp only [Bool.false_eq_true, if_true, if_false] at hvalue <;> omega
    rw [readDigits_of_isDigit hdigits hlimit]
    exact signed_eq_ok_iff.mpr ⟨hvalue, hword⟩

theorem readInteger_eq_ok_iff {cs : List Char} {i : Int} : readInteger 64 cs = .ok i ↔ Decimal cs i ∧ IsWord i := by
  have hempty {ds : List Char} (hne : ds ≠ []) : ds.isEmpty = false := by simpa using hne
  constructor
  · intro h
    unfold readInteger splitSign at h
    split at h
    rename_i negative digits hsplit
    split_ifs at h with hnil
    have hne : digits ≠ [] := by simpa using hnil
    obtain ⟨hdigits, hvalue, hword⟩ := readSigned_eq_ok_iff.mp h
    subst hvalue
    refine ⟨?_, hword⟩
    split at hsplit <;> cases hsplit
    · exact .minus hne hdigits
    · exact .plus hne hdigits
    · exact .plain hne hdigits
  · rintro ⟨hdecimal, hword⟩
    unfold readInteger
    cases hdecimal with
    | plain hne hds =>
      rw [splitSign_of_isDigit hds]
      simp only [hempty hne, Bool.false_eq_true, if_false]
      exact readSigned_eq_ok_iff.mpr ⟨hds, rfl, hword⟩
    | plus hne hds =>
      simp only [splitSign, hempty hne, Bool.false_eq_true, if_false]
      exact readSigned_eq_ok_iff.mpr ⟨hds, rfl, hword⟩
    | minus hne hds =>
      simp only [splitSign, hempty hne, Bool.false_eq_true, if_false]
      exact readSigned_eq_ok_iff.mpr ⟨hds, rfl, hword⟩

end Text

/-- The text of one step, without white space around it: an actor, or an actor and an outcome. -/
inductive Step.Written : List Char → Step → Prop
  | actor {cs : List Char} {a : ActorId} (hactor : Text.Decimal cs a) (hword : Text.IsWord a) : Written cs ⟨a, 0⟩
  | outcome {cs ds : List Char} {a : ActorId} {n : Int} (hactor : Text.Decimal cs a) (hword : Text.IsWord a)
      (houtcome : Text.Decimal ds n) (hnonneg : 0 ≤ n) (hlimit : n < 2 ^ 63) : Written (cs ++ '/' :: ds) ⟨a, n⟩

namespace RecordTrace

/-- The text stands for the trace: without the white space around it, it is empty, or its parts between semicolons are
the texts of the steps in order, with white space around them. -/
inductive Denotes (text : String) : RecordTrace → Prop
  | empty (htrim : Text.Trims text.toList []) : Denotes text []
  | parts {parts : List (List Char)} {trace : RecordTrace} (hparts : ∀ part ∈ parts, ';' ∉ part)
      (htrim : Text.Trims text.toList ([';'].intercalate parts)) (hne : [';'].intercalate parts ≠ [])
      (hsteps : List.Forall₂ (fun part x => ∃ core, Text.Trims part core ∧ Step.Written core x) parts trace) :
      Denotes text trace

theorem parseStep_of_written {core part : List Char} {x : Step} (h : Step.Written core x)
    (htrim : Text.Trims part core) (index : Nat) : parseStep index part = .ok x := by
  unfold parseStep
  rw [htrim.trimChars_eq]
  cases h with
  | actor hactor hword =>
    rw [cutAt_of_not_mem (Text.slash_not_mem_of_decimal hactor)]
    simp only [Text.readInteger_eq_ok_iff.mpr ⟨hactor, hword⟩]
  | outcome hactor hword houtcome hnonneg hlimit =>
    rw [cutAt_append (Text.slash_not_mem_of_decimal hactor)]
    simp only [Text.readInteger_eq_ok_iff.mpr ⟨hactor, hword⟩,
      Text.readInteger_eq_ok_iff.mpr ⟨houtcome, by unfold Text.IsWord; omega⟩, Int.not_lt.mpr hnonneg, if_false]

theorem written_of_parseStep {index : Nat} {part : List Char} {x : Step} (h : parseStep index part = .ok x) :
    Step.Written (Text.trimChars part) x := by
  unfold parseStep at h
  generalize Text.trimChars part = core at h ⊢
  by_cases hslash : '/' ∈ core
  · obtain ⟨before, after, rfl, hbefore⟩ := List.eq_append_cons_of_mem hslash
    rw [cutAt_append hbefore] at h
    dsimp only at h
    split at h
    · cases h
    · rename_i a hactor
      split at h
      · rename_i n houtcome
        split_ifs at h with hneg
        cases h
        obtain ⟨hactor, hword⟩ := Text.readInteger_eq_ok_iff.mp hactor
        obtain ⟨houtcome, -, hlimit⟩ := Text.readInteger_eq_ok_iff.mp houtcome
        exact .outcome hactor hword houtcome (Int.not_lt.mp hneg) hlimit
      · cases h
  · rw [cutAt_of_not_mem hslash] at h
    dsimp only at h
    split at h
    · cases h
    · rename_i a hactor
      cases h
      obtain ⟨hactor, hword⟩ := Text.readInteger_eq_ok_iff.mp hactor
      exact .actor hactor hword

theorem parseStep_eq_ok_iff {index : Nat} {part : List Char} {x : Step} :
    parseStep index part = .ok x ↔ ∃ core, Text.Trims part core ∧ Step.Written core x := by
  constructor
  · intro h
    exact ⟨_, Text.trims_trimChars part, written_of_parseStep h⟩
  · rintro ⟨core, htrim, hwritten⟩
    exact parseStep_of_written hwritten htrim index

theorem parseSteps_eq_ok_iff {index : Nat} {parts : List (List Char)} {trace : RecordTrace} :
    parseSteps index parts = .ok trace ↔
      List.Forall₂ (fun part x => ∃ core, Text.Trims part core ∧ Step.Written core x) parts trace := by
  induction parts generalizing index trace with
  | nil => simp [parseSteps, eq_comm]
  | cons part parts ih =>
    rw [List.forall₂_cons_left_iff, parseSteps]
    constructor
    · intro h
      cases hstep : parseStep index part with
      | error e => simp [hstep, bind, Except.bind] at h
      | ok x =>
        cases hrest : parseSteps (index + 1) parts with
        | error e => simp [hstep, hrest, bind, Except.bind] at h
        | ok rest =>
          simp only [hstep, hrest, bind, Except.bind, pure, Except.pure, Except.ok.injEq] at h
          exact ⟨x, rest, parseStep_eq_ok_iff.mp hstep, ih.mp hrest, h.symm⟩
    · rintro ⟨x, rest, hstep, hrest, rfl⟩
      rw [parseStep_eq_ok_iff.mpr hstep, ih.mpr hrest]
      rfl

theorem splitAt_spec (sep : Char) (cs : List Char) :
    [sep].intercalate (splitAt sep cs) = cs ∧ ∀ part ∈ splitAt sep cs, sep ∉ part := by
  induction cs with
  | nil => simp [splitAt]
  | cons c cs ih =>
    obtain ⟨part, parts, hparts⟩ := List.exists_cons_of_ne_nil (splitAt_ne_nil sep cs)
    rw [splitAt, hparts]
    rw [hparts, List.forall_mem_cons] at ih
    obtain ⟨hjoin, hpart, hrest⟩ := ih
    dsimp only
    split_ifs with hc
    · subst hc
      rw [List.intercalate_cons_cons, hjoin, List.forall_mem_cons, List.forall_mem_cons]
      exact ⟨rfl, List.not_mem_nil, hpart, hrest⟩
    · rw [List.forall_mem_cons]
      refine ⟨?_, List.not_mem_cons_of_ne_of_not_mem (Ne.symm hc) hpart, hrest⟩
      cases parts with
      | nil =>
        rw [List.intercalate_singleton] at hjoin ⊢
        rw [hjoin]
      | cons next parts =>
        rw [List.intercalate_cons_cons] at hjoin ⊢
        rw [List.cons_append, List.cons_append, hjoin]

theorem splitAt_of_intercalate {sep : Char} {cs : List Char} {parts : List (List Char)}
    (hparts : ∀ part ∈ parts, sep ∉ part) (hjoin : [sep].intercalate parts = cs) (hcs : cs ≠ []) :
    splitAt sep cs = parts := by
  cases parts with
  | nil => exact absurd hjoin.symm hcs
  | cons part parts => rw [← hjoin, splitAt_intercalate hparts]

theorem parse_eq_ok_iff {text : String} {trace : RecordTrace} : parse text = .ok trace ↔ Denotes text trace := by
  unfold parse
  dsimp only
  constructor
  · intro h
    split_ifs at h with hempty
    · cases h
      exact .empty (Text.trimChars_eq_iff.mp (List.isEmpty_iff.mp hempty))
    · obtain ⟨hjoin, hparts⟩ := splitAt_spec ';' (Text.trimChars text.toList)
      refine .parts hparts ?_ ?_ (parseSteps_eq_ok_iff.mp h)
      · rw [hjoin]
        exact Text.trims_trimChars _
      · simpa [hjoin] using hempty
  · rintro (⟨htrim⟩ | ⟨hparts, htrim, hne, hsteps⟩)
    · simp only [htrim.trimChars_eq, List.isEmpty_nil, if_true]
    · rw [htrim.trimChars_eq, if_neg (by rwa [List.isEmpty_iff]), splitAt_of_intercalate hparts rfl hne]
      exact parseSteps_eq_ok_iff.mpr hsteps

/-- A written trace is read back, and a text is read as a trace exactly if it stands for it. -/
theorem traces_round_trip :
    (∀ trace : RecordTrace, (∀ x ∈ trace, Text.IsWord x.actor ∧ Text.IsWord x.outcome ∧ 0 ≤ x.outcome) →
      parse (render trace) = .ok trace) ∧
    ∀ (text : String) (trace : RecordTrace), parse text = .ok trace ↔ Denotes text trace := by
  refine ⟨fun trace h => parse_of_render fun x hx => ?_, fun text trace => parse_eq_ok_iff⟩
  obtain ⟨hactor, houtcome, hnonneg⟩ := h x hx
  exact ⟨hactor, houtcome, hnonneg⟩

theorem traces_round_trip_extremes :
    parse (render [⟨-2 ^ 63, 0⟩, ⟨7, 2 ^ 63 - 1⟩]) = .ok [⟨-2 ^ 63, 0⟩, ⟨7, 2 ^ 63 - 1⟩] ∧
      Denotes " +007 ;\t-3/-0\n" [⟨7, 0⟩, ⟨-3, 0⟩] := by
  refine ⟨traces_round_trip.1 _ ?_, (traces_round_trip.2 _ _).mp (by rfl)⟩
  simp [Text.IsWord]

end RecordTrace

end Interleave
