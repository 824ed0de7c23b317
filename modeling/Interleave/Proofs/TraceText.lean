import Mathlib.Algebra.Order.Ring.Int
import Interleave.Text.Blank
import Interleave.Trace

/-! The text of a record trace: the numbers are written in decimal, the parts are split where they were joined,
so reading a written trace gives it back. -/

namespace Interleave

namespace Text

/-- The integers of a signed 64-bit word. -/
def IsWord (i : Int) : Prop := -2 ^ 63 ≤ i ∧ i < 2 ^ 63

theorem digitValue_of_isDigit {c : Char} (h : c.isDigit = true) :
    digitValue c = some (c.toNat - '0'.toNat) ∧ c.toNat - '0'.toNat < 10 := by
  simp only [Char.isDigit, Bool.and_eq_true, decide_eq_true_eq, ge_iff_le] at h
  have hrange : '0' ≤ c ∧ c ≤ '9' := h
  refine ⟨by rw [digitValue, if_pos hrange], ?_⟩
  have hle : c.toNat ≤ '9'.toNat := h.2
  have h9 : '9'.toNat = 57 := rfl
  have h0 : '0'.toNat = 48 := rfl
  omega

theorem le_ofDigitChars (cs : List Char) (n : Nat) : n ≤ Nat.ofDigitChars 10 cs n := by
  induction cs generalizing n with
  | nil => exact Nat.ofDigitChars_nil.ge
  | cons c cs ih =>
    rw [Nat.ofDigitChars_cons]
    refine le_trans ?_ (ih _)
    omega

theorem readDigits_of_isDigit {limit : Nat} {cs : List Char} (hcs : ∀ c ∈ cs, c.isDigit = true) {n : Nat}
    (hlimit : Nat.ofDigitChars 10 cs n ≤ limit) :
    readDigits 10 limit false cs n = .ok (Nat.ofDigitChars 10 cs n) := by
  induction cs generalizing n with
  | nil => rfl
  | cons c cs ih =>
    rw [List.forall_mem_cons] at hcs
    obtain ⟨hvalue, hlt⟩ := digitValue_of_isDigit hcs.1
    rw [Nat.ofDigitChars_cons, Nat.mul_comm] at hlimit ⊢
    have hpartial := (le_ofDigitChars cs (n * 10 + (c.toNat - '0'.toNat))).trans hlimit
    rw [readDigits, hvalue]
    simp only [Bool.false_and, Bool.false_eq_true, if_false, Nat.not_le.mpr hlt, Nat.not_lt.mpr hpartial]
    exact ih hcs.2 hlimit

theorem toList_toString_int (i : Int) :
    (toString i).toList =
      if 0 ≤ i then Nat.toDigits 10 i.toNat else '-' :: Nat.toDigits 10 (-i).toNat := by
  rw [Int.toString_eq_repr, Int.repr_eq_if]
  split_ifs
  · exact Nat.toList_repr
  · rw [String.toList_append, Nat.toList_repr]
    rfl

theorem splitSign_of_isDigit {cs : List Char} (hcs : ∀ c ∈ cs, c.isDigit = true) :
    splitSign cs = (false, cs) := by
  unfold splitSign
  split
  · exact absurd (hcs '-' List.mem_cons_self) (by decide)
  · exact absurd (hcs '+' List.mem_cons_self) (by decide)
  · rfl

theorem readInteger_toString {i : Int} (hi : IsWord i) : readInteger 64 (toString i).toList = .ok i := by
  have hdigits (n : Nat) : ∀ c ∈ Nat.toDigits 10 n, c.isDigit = true :=
    fun c hc => Nat.isDigit_of_mem_toDigits (by decide) (by decide) hc
  have hread (n : Nat) (hn : n ≤ Nat.pow 2 64 - 1) :
      readDigits 10 (Nat.pow 2 64 - 1) false (Nat.toDigits 10 n) 0 = .ok n := by
    have hvalue : Nat.ofDigitChars 10 (Nat.toDigits 10 n) 0 = n := Nat.ofDigitChars_ten_toDigits
    rw [readDigits_of_isDigit (hdigits n) (hvalue.trans_le hn), hvalue]
  have hnonempty (n : Nat) : (Nat.toDigits 10 n).isEmpty = false := by
    simp [Nat.toDigits_ne_nil]
  have h64 : Nat.pow 2 64 = 2 ^ 64 := rfl
  have h63 : Nat.pow 2 (64 - 1) = 2 ^ 63 := rfl
  obtain ⟨hlow, hhigh⟩ := hi
  rw [toList_toString_int, readInteger]
  split_ifs with hsign
  · rw [splitSign_of_isDigit (hdigits _)]
    simp only [hnonempty, Bool.false_eq_true, if_false]
    rw [hread _ (by omega)]
    simp only [bind, Except.bind, signed, Bool.false_eq_true, if_false, h63]
    rw [if_neg (by omega), Int.toNat_of_nonneg hsign]
  · simp only [splitSign, hnonempty, Bool.false_eq_true, if_false]
    rw [hread _ (by omega)]
    simp only [bind, Except.bind, signed, if_true, h63]
    rw [if_neg (by omega), Int.toNat_of_nonneg (by omega), neg_neg]

def IsNumeral (c : Char) : Prop := c = '-' ∨ c.isDigit = true

theorem isNumeral_of_mem_toString {i : Int} {c : Char} (h : c ∈ (toString i).toList) : IsNumeral c := by
  have hdigit (n : Nat) (hc : c ∈ Nat.toDigits 10 n) : IsNumeral c :=
    .inr (Nat.isDigit_of_mem_toDigits (by decide) (by decide) hc)
  rw [toList_toString_int] at h
  split_ifs at h
  · exact hdigit _ h
  · rcases List.mem_cons.mp h with rfl | h
    · exact .inl rfl
    · exact hdigit _ h

theorem toList_toString_ne_nil (i : Int) : (toString i).toList ≠ [] := by
  rw [toList_toString_int]
  split_ifs
  · exact Nat.toDigits_ne_nil
  · exact List.cons_ne_nil _ _

theorem IsNumeral.not_blank {c : Char} (h : IsNumeral c) : isBlank c = false := by
  rcases h with rfl | h
  · rfl
  · simp only [Char.isDigit, Bool.and_eq_true, decide_eq_true_eq, ge_iff_le] at h
    have h0 : 48 ≤ c.toNat := h.1
    have h9 : c.toNat ≤ 57 := h.2
    simp only [isBlank, Bool.or_eq_false_iff, Bool.and_eq_false_iff, decide_eq_false_iff_not,
      beq_eq_false_iff_ne]
    omega

theorem trimChars_of_not_blank {cs : List Char} (h : ∀ c ∈ cs, isBlank c = false) : trimChars cs = cs := by
  have hdrop (ds : List Char) (hds : ∀ c ∈ ds, isBlank c = false) : ds.dropWhile isBlank = ds := by
    cases ds with
    | nil => rfl
    | cons d ds => simp [hds d List.mem_cons_self]
  rw [trimChars, hdrop cs h, hdrop _ (fun c hc => h c (List.mem_reverse.mp hc)), List.reverse_reverse]

end Text

namespace Step

structure Writable (x : Step) : Prop where
  actor : Text.IsWord x.actor
  outcome : Text.IsWord x.outcome
  nonneg : 0 ≤ x.outcome

theorem toList_render (x : Step) : x.render.toList =
    (toString x.actor).toList ++ if 0 < x.outcome then '/' :: (toString x.outcome).toList else [] := by
  unfold render
  split_ifs
  · rw [String.toList_append, String.toList_append]
    exact List.append_assoc _ _ _
  · exact (List.append_nil _).symm

theorem mem_render {x : Step} {c : Char} (h : c ∈ x.render.toList) : c = '/' ∨ Text.IsNumeral c := by
  rw [toList_render, List.mem_append] at h
  split_ifs at h
  · rcases h with h | h
    · exact .inr (Text.isNumeral_of_mem_toString h)
    · exact (List.mem_cons.mp h).imp_right Text.isNumeral_of_mem_toString
  · exact .inr (Text.isNumeral_of_mem_toString (h.resolve_right List.not_mem_nil))

theorem not_blank_of_mem_render {x : Step} {c : Char} (h : c ∈ x.render.toList) : Text.isBlank c = false := by
  rcases mem_render h with rfl | h
  · rfl
  · exact h.not_blank

theorem separator_not_mem_render (x : Step) : ';' ∉ x.render.toList := by
  intro h
  rcases mem_render h with h | h | h <;> exact absurd h (by decide)

theorem render_ne_nil (x : Step) : x.render.toList ≠ [] := by
  rw [toList_render]
  exact List.append_ne_nil_of_left_ne_nil (Text.toList_toString_ne_nil _) _

end Step

namespace RecordTrace

theorem cutAt_of_not_mem {sep : Char} {cs : List Char} (h : sep ∉ cs) : cutAt sep cs = (cs, none) := by
  induction cs with
  | nil => rfl
  | cons c cs ih =>
    rw [List.mem_cons, not_or] at h
    rw [cutAt, if_neg (Ne.symm h.1), ih h.2]

theorem cutAt_append {sep : Char} {cs : List Char} (h : sep ∉ cs) (ds : List Char) :
    cutAt sep (cs ++ sep :: ds) = (cs, some ds) := by
  induction cs with
  | nil => simp [cutAt]
  | cons c cs ih =>
    rw [List.mem_cons, not_or] at h
    rw [List.cons_append, cutAt, if_neg (Ne.symm h.1), ih h.2]

theorem splitAt_of_not_mem {sep : Char} {cs : List Char} (h : sep ∉ cs) : splitAt sep cs = [cs] := by
  induction cs with
  | nil => rfl
  | cons c cs ih =>
    rw [List.mem_cons, not_or] at h
    rw [splitAt, ih h.2]
    simp [Ne.symm h.1]

theorem splitAt_ne_nil (sep : Char) (cs : List Char) : splitAt sep cs ≠ [] := by
  cases cs with
  | nil => exact List.cons_ne_nil _ _
  | cons c cs =>
    rw [splitAt]
    split
    · exact List.cons_ne_nil _ _
    · split_ifs <;> exact List.cons_ne_nil _ _

theorem splitAt_append {sep : Char} {cs : List Char} (h : sep ∉ cs) (ds : List Char) :
    splitAt sep (cs ++ sep :: ds) = cs :: splitAt sep ds := by
  induction cs with
  | nil =>
    rw [List.nil_append, splitAt]
    split
    · rename_i hnil
      exact absurd hnil (splitAt_ne_nil sep ds)
    · rename_i part parts hparts
      rw [if_pos rfl, hparts]
  | cons c cs ih =>
    rw [List.mem_cons, not_or] at h
    rw [List.cons_append, splitAt, ih h.2]
    simp [Ne.symm h.1]

theorem splitAt_intercalate {sep : Char} {part : List Char} {parts : List (List Char)}
    (h : ∀ p ∈ part :: parts, sep ∉ p) :
    splitAt sep ([sep].intercalate (part :: parts)) = part :: parts := by
  induction parts generalizing part with
  | nil =>
    rw [List.intercalate_singleton]
    exact splitAt_of_not_mem (h part List.mem_cons_self)
  | cons next parts ih =>
    rw [List.forall_mem_cons] at h
    rw [List.intercalate_cons_cons, List.append_assoc, List.singleton_append, splitAt_append h.1, ih h.2]

theorem parseStep_render {x : Step} (hx : x.Writable) (index : Nat) :
    parseStep index x.render.toList = .ok x := by
  have hslash : '/' ∉ (toString x.actor).toList := by
    intro h
    rcases Text.isNumeral_of_mem_toString h with h | h <;> exact absurd h (by decide)
  unfold parseStep
  rw [Text.trimChars_of_not_blank fun c hc => Step.not_blank_of_mem_render hc, Step.toList_render]
  split_ifs with hpos
  · rw [cutAt_append hslash]
    simp only [Text.readInteger_toString hx.actor, Text.readInteger_toString hx.outcome,
      Int.not_lt.mpr hx.nonneg, if_false]
  · have hzero : x.outcome = 0 := le_antisymm (Int.not_lt.mp hpos) hx.nonneg
    rw [List.append_nil, cutAt_of_not_mem hslash]
    simp only [Text.readInteger_toString hx.actor]
    rw [← hzero]

theorem parseSteps_render {trace : RecordTrace} (h : ∀ x ∈ trace, x.Writable) (index : Nat) :
    parseSteps index (trace.map fun x => x.render.toList) = .ok trace := by
  induction trace generalizing index with
  | nil => rfl
  | cons x trace ih =>
    rw [List.forall_mem_cons] at h
    rw [List.map_cons, parseSteps, parseStep_render h.1, ih h.2]
    rfl

theorem toList_render (trace : RecordTrace) :
    (render trace).toList = [';'].intercalate (trace.map fun x => x.render.toList) := by
  rw [render, String.toList_intercalate, List.map_map]
  rfl

theorem mem_intercalate {sep c : Char} {parts : List (List Char)} (h : c ∈ [sep].intercalate parts) :
    c = sep ∨ ∃ part ∈ parts, c ∈ part := by
  induction parts with
  | nil => cases h
  | cons part parts ih =>
    cases parts with
    | nil =>
      rw [List.intercalate_singleton] at h
      exact .inr ⟨part, List.mem_cons_self, h⟩
    | cons next parts =>
      rw [List.intercalate_cons_cons, List.mem_append, List.mem_append, List.mem_singleton] at h
      rcases h with (h | h) | h
      · exact .inr ⟨part, List.mem_cons_self, h⟩
      · exact .inl h
      · exact (ih h).imp_right fun ⟨p, hp, hc⟩ => ⟨p, List.mem_cons_of_mem _ hp, hc⟩

theorem not_blank_of_mem_render {trace : RecordTrace} {c : Char} (h : c ∈ (render trace).toList) :
    Text.isBlank c = false := by
  rw [toList_render] at h
  rcases mem_intercalate h with rfl | ⟨part, hpart, hc⟩
  · rfl
  · obtain ⟨x, -, rfl⟩ := List.mem_map.mp hpart
    exact Step.not_blank_of_mem_render hc

theorem parse_of_render {trace : RecordTrace} (h : ∀ x ∈ trace, x.Writable) : parse (render trace) = .ok trace := by
  cases trace with
  | nil => rfl
  | cons x trace =>
    unfold parse
    rw [Text.trimChars_of_not_blank fun c hc => not_blank_of_mem_render hc]
    have hsplit : splitAt ';' (render (x :: trace)).toList = (x :: trace).map fun x => x.render.toList := by
      rw [toList_render, List.map_cons, splitAt_intercalate]
      intro part hpart
      rw [← List.map_cons (f := fun x : Step => x.render.toList)] at hpart
      obtain ⟨y, -, rfl⟩ := List.mem_map.mp hpart
      exact y.separator_not_mem_render
    have hnonempty : (render (x :: trace)).toList ≠ [] := by
      intro hnil
      rw [hnil] at hsplit
      exact x.render_ne_nil (List.cons.inj hsplit).1.symm
    simp only [List.isEmpty_iff, hnonempty, if_false]
    rw [hsplit, parseSteps_render h]

end RecordTrace

end Interleave
