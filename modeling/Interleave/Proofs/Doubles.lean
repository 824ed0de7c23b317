import Interleave.Double
import Mathlib.Algebra.Ring.Nat
import Mathlib.Data.Nat.Log
import Mathlib.Tactic.Set

/-! Which numbers stand for an integer: every integer up to `2 ^ 53` in absolute value is held exactly, larger ones stay
large, and a number without a fraction is the one that its integer is converted to. -/

namespace Interleave.Double

theorem toNat_bits_pack {exponent fraction : Nat} (negative : Bool) (he : exponent < 2 ^ 11) (hf : fraction < 2 ^ 52) :
    (pack negative exponent fraction).bits.toNat =
      (if negative then 2 ^ 63 else 0) + exponent * 2 ^ 52 + fraction := by
  simp only [pack, UInt64.toNat_ofNat', Nat.pow_eq]
  apply Nat.mod_eq_of_lt
  cases negative <;> simp only [Bool.false_eq_true, if_true, if_false] <;> omega

theorem exponentField_pack {exponent fraction : Nat} (negative : Bool) (he : exponent < 2 ^ 11)
    (hf : fraction < 2 ^ 52) : (pack negative exponent fraction).exponentField = exponent := by
  rw [exponentField, toNat_bits_pack negative he hf]
  simp only [Nat.pow_eq]
  cases negative <;> simp only [Bool.false_eq_true, if_true, if_false] <;> omega

theorem fraction_pack {exponent fraction : Nat} (negative : Bool) (he : exponent < 2 ^ 11) (hf : fraction < 2 ^ 52) :
    (pack negative exponent fraction).fraction = fraction := by
  rw [Double.fraction, toNat_bits_pack negative he hf]
  simp only [Nat.pow_eq]
  cases negative <;> simp only [Bool.false_eq_true, if_true, if_false] <;> omega

theorem isNegative_pack {exponent fraction : Nat} (negative : Bool) (he : exponent < 2 ^ 11) (hf : fraction < 2 ^ 52) :
    (pack negative exponent fraction).isNegative = negative := by
  rw [isNegative, toNat_bits_pack negative he hf]
  simp only [Nat.pow_eq]
  cases negative <;> simp only [Bool.false_eq_true, if_true, if_false, decide_eq_true_eq, decide_eq_false_iff_not] <;>
    omega

theorem pack_of_parts (x : Double) : pack x.isNegative x.exponentField x.fraction = x := by
  obtain ⟨bits⟩ := x
  have hlt : bits.toNat < 2 ^ 64 := bits.toNat_lt
  simp only [pack, isNegative, exponentField, Double.fraction, Nat.pow_eq, Double.mk.injEq]
  rw [← UInt64.toNat_inj, UInt64.toNat_ofNat']
  by_cases hneg : 2 ^ 63 ≤ bits.toNat <;> simp only [hneg, decide_true, decide_false, if_true, if_false,
    Bool.false_eq_true] <;> omega

theorem parts_pack {q : Nat} {e : Int} (negative : Bool) (hfull : 2 ^ 52 ≤ q) (hshort : q < 2 ^ 53) (hlow : -1074 ≤ e)
    (hhigh : e ≤ 971) :
    (pack negative (e + 1075).toNat (q - 2 ^ 52)).magnitude = (q, e) ∧
      (pack negative (e + 1075).toNat (q - 2 ^ 52)).isFinite = true ∧
      (pack negative (e + 1075).toNat (q - 2 ^ 52)).isNegative = negative := by
  have hfield : (e + 1075).toNat < 2 ^ 11 := by omega
  have hfraction : q - 2 ^ 52 < 2 ^ 52 := by omega
  refine ⟨?_, ?_, isNegative_pack _ hfield hfraction⟩
  · rw [magnitude, exponentField_pack _ hfield hfraction, fraction_pack _ hfield hfraction, if_neg (by omega)]
    simp only [Nat.pow_eq, Prod.mk.injEq]
    omega
  · rw [isFinite, exponentField_pack _ hfield hfraction, bne_iff_ne]
    omega

/-- The integer `n` has the significand `q` at the exponent `e`. -/
structure Significand (n q : Nat) (e : Int) : Prop where
  full : 2 ^ 52 ≤ q
  short : q < 2 ^ 53
  large : 0 ≤ e → n = q * 2 ^ e.toNat
  small : e < 0 → n * 2 ^ (-e).toNat = q

theorem Significand.log2 {n q : Nat} {e : Int} (h : Significand n q e) : n ≠ 0 ∧ (n.log2 : Int) = 52 + e := by
  obtain ⟨hfull, hshort, hlarge, hsmall⟩ := h
  rcases le_or_gt 0 e with he | he
  · obtain ⟨k, rfl⟩ := Int.eq_ofNat_of_zero_le he
    have hn : n = q * 2 ^ k := hlarge he
    have hlow : 2 ^ (52 + k) ≤ n := by
      rw [hn, Nat.pow_add]
      exact Nat.mul_le_mul_right _ hfull
    have hhigh : n < 2 ^ (52 + k + 1) := by
      rw [hn, show 52 + k + 1 = 53 + k by omega, Nat.pow_add]
      exact Nat.mul_lt_mul_of_pos_right hshort (Nat.two_pow_pos k)
    have hne : n ≠ 0 := (lt_of_lt_of_le (Nat.two_pow_pos _) hlow).ne'
    refine ⟨hne, ?_⟩
    rw [(Nat.log2_eq_iff hne).mpr ⟨hlow, hhigh⟩]
    push_cast
    rfl
  · obtain ⟨k, hk⟩ := Int.eq_ofNat_of_zero_le (Int.neg_nonneg_of_nonpos he.le)
    have hn : n * 2 ^ k = q := by
      have hscaled := hsmall he
      rwa [hk] at hscaled
    have hne : n ≠ 0 := by
      rintro rfl
      omega
    have hbelow : 2 ^ k < 2 ^ 53 := by
      calc 2 ^ k ≤ n * 2 ^ k := Nat.le_mul_of_pos_left _ (Nat.pos_of_ne_zero hne)
        _ < 2 ^ 53 := by omega
    have hk52 : k ≤ 52 := Nat.lt_succ_iff.mp ((Nat.pow_lt_pow_iff_right (by decide)).mp hbelow)
    have hlow : 2 ^ (52 - k) ≤ n := by
      refine Nat.le_of_mul_le_mul_right ?_ (Nat.two_pow_pos k)
      rwa [← Nat.pow_add, Nat.sub_add_cancel hk52, hn]
    have hhigh : n < 2 ^ (52 - k + 1) := by
      refine Nat.lt_of_mul_lt_mul_right (a := 2 ^ k) ?_
      rwa [← Nat.pow_add, show 52 - k + 1 + k = 53 by omega, hn]
    refine ⟨hne, ?_⟩
    rw [(Nat.log2_eq_iff hne).mpr ⟨hlow, hhigh⟩]
    omega

theorem roundDiv_mul (q : Nat) {d : Nat} (hd : 0 < d) : roundDiv (q * d) d = q := by
  simp [roundDiv, Nat.mul_div_cancel _ hd, hd]

theorem Significand.ofScaled {n q : Nat} {e : Int} (h : Significand n q e) (he : e ≤ 971) (negative : Bool) :
    ofScaled negative n 0 = pack negative (e + 1075).toNat (q - 2 ^ 52) := by
  obtain ⟨hne, hlog⟩ := h.log2
  obtain ⟨hfull, hshort, hlarge, hsmall⟩ := h
  have hshift : max ((n.log2 : Int) - 52) (-1074 - 0) = e := by omega
  have hq : (if e ≤ 0 then n * 2 ^ (-e).toNat else roundDiv n (2 ^ e.toNat)) = q := by
    split_ifs with hle
    · rcases hle.lt_or_eq with hneg | rfl
      · exact hsmall hneg
      · simpa using hlarge le_rfl
    · rw [hlarge (by omega)]
      exact roundDiv_mul q (Nat.two_pow_pos _)
  simp only [Double.ofScaled, if_neg hne, Nat.pow_eq, hshift, hq, if_neg hshort.ne]
  rw [if_neg (by omega), if_neg (by omega)]
  simp

theorem Significand.le {n q : Nat} {e : Int} (h : Significand n q e) (hn : n ≤ 2 ^ 53) : e ≤ 1 := by
  obtain ⟨hne, hlog⟩ := h.log2
  have hlt : n.log2 < 54 := (Nat.log2_lt hne).mpr (by omega)
  omega

theorem exists_significand {n : Nat} (hne : n ≠ 0) (hn : n ≤ 2 ^ 53) :
    ∃ q, Significand n q ((n.log2 : Int) - 52) := by
  rcases hn.eq_or_lt with rfl | hn
  · rw [Nat.log2_two_pow]
    exact ⟨2 ^ 52, le_rfl, by decide, fun _ => by decide, fun he => absurd he (by decide)⟩
  have hlog : n.log2 < 53 := (Nat.log2_lt hne).mpr hn
  obtain ⟨hlow, hhigh⟩ := (Nat.log2_eq_iff hne).mp rfl
  refine ⟨n * 2 ^ (52 - n.log2), ?_, ?_, fun he => ?_, fun he => ?_⟩
  · calc 2 ^ 52 = 2 ^ n.log2 * 2 ^ (52 - n.log2) := by rw [← Nat.pow_add]; congr 1; omega
      _ ≤ n * 2 ^ (52 - n.log2) := Nat.mul_le_mul_right _ hlow
  · calc n * 2 ^ (52 - n.log2) < 2 ^ (n.log2 + 1) * 2 ^ (52 - n.log2) :=
          Nat.mul_lt_mul_of_pos_right hhigh (Nat.two_pow_pos _)
      _ = 2 ^ 53 := by rw [← Nat.pow_add]; congr 1; omega
  · have hzero : n.log2 = 52 := by omega
    simp [hzero]
  · rw [show (-((n.log2 : Int) - 52)).toNat = 52 - n.log2 by omega]

theorem truncate?_ofInt {n : Int} (hn : n.natAbs ≤ 2 ^ 53) : (ofInt n).truncate? = some n := by
  by_cases hzero : n = 0
  · subst hzero
    decide +kernel
  · have hne : n.natAbs ≠ 0 := Int.natAbs_ne_zero.mpr hzero
    obtain ⟨q, hq⟩ := exists_significand hne hn
    set e : Int := (n.natAbs.log2 : Int) - 52 with he
    have hle : e ≤ 1 := hq.le hn
    obtain ⟨hmagnitude, hfinite, hsign⟩ :=
      parts_pack (e := e) (decide (n < 0)) hq.full hq.short (by omega) (by omega)
    rw [← show ofInt n = _ from hq.ofScaled (by omega) _] at hmagnitude hfinite hsign
    have hwhole : (if 0 ≤ e then q * 2 ^ e.toNat else q / 2 ^ (-e).toNat) = n.natAbs := by
      split_ifs with hnonneg
      · exact (hq.large hnonneg).symm
      · rw [← hq.small (by omega)]
        exact Nat.mul_div_cancel _ (Nat.two_pow_pos _)
    simp only [truncate?, hfinite, if_true, hmagnitude, hsign, Nat.pow_eq, hwhole, decide_eq_true_eq]
    congr 1
    split_ifs <;> omega

theorem toWord_ofInt {n : Int} (hn : n.natAbs ≤ 2 ^ 53) : (ofInt n).toWord = n := by
  rw [toWord, truncate?_ofInt hn]
  have hbound : -wordLimit ≤ n ∧ n < wordLimit := by
    simp only [wordLimit]
    omega
  simp only [if_pos hbound]

theorem roundDiv_bounds (n d : Nat) : n / d ≤ roundDiv n d ∧ roundDiv n d ≤ n / d + 1 := by
  unfold roundDiv
  dsimp only
  split_ifs <;> omega

theorem ofScaled_far {n : Nat} (negative : Bool) (hn : 2 ^ 53 ≤ n) :
    ofScaled negative n 0 = infinity negative ∨ ∃ (q : Nat) (e : Int), 2 ^ 52 ≤ q ∧ q < 2 ^ 53 ∧ 1 ≤ e ∧ e ≤ 971 ∧
      ofScaled negative n 0 = pack negative (e + 1075).toNat (q - 2 ^ 52) := by
  have hne : n ≠ 0 := by omega
  obtain ⟨hlow, hhigh⟩ := (Nat.log2_eq_iff hne).mp rfl
  have hlog : 53 ≤ n.log2 := (Nat.le_log2 hne).mpr hn
  obtain ⟨k, hk⟩ : ∃ k, n.log2 = 53 + k := ⟨n.log2 - 53, by omega⟩
  rw [hk] at hlow hhigh
  have hshift : max ((n.log2 : Int) - 52) (-1074 - 0) = (k + 1 : Nat) := by omega
  have hpow : 2 ^ 52 ≤ n / 2 ^ (k + 1) ∧ n / 2 ^ (k + 1) < 2 ^ 53 := by
    constructor
    · rw [Nat.le_div_iff_mul_le (Nat.two_pow_pos _), ← Nat.pow_add]
      rwa [show 52 + (k + 1) = 53 + k by omega]
    · rw [Nat.div_lt_iff_lt_mul (Nat.two_pow_pos _), ← Nat.pow_add]
      rwa [show 53 + (k + 1) = 53 + k + 1 by omega]
  obtain ⟨hround, hround'⟩ := roundDiv_bounds n (2 ^ (k + 1))
  have hpositive : ¬ ((k + 1 : Nat) : Int) ≤ 0 := by omega
  simp only [Double.ofScaled, if_neg hne, Nat.pow_eq, hshift, if_neg hpositive, Int.toNat_natCast, Int.zero_add]
  generalize roundDiv n (2 ^ (k + 1)) = q at hround hround'
  by_cases hfull : q = 2 ^ 53
  · simp only [if_pos hfull, lt_irrefl, if_false]
    split_ifs with hbig
    · exact .inl rfl
    · exact .inr ⟨2 ^ 52, _, le_rfl, by decide, by omega, by omega, rfl⟩
  · simp only [if_neg hfull, if_neg (show ¬ q < 2 ^ 52 by omega)]
    split_ifs with hbig
    · exact .inl rfl
    · exact .inr ⟨q, _, by omega, by omega, by omega, by omega, rfl⟩

theorem toWord_ofInt_far {n : Int} (hn : 2 ^ 53 ≤ n.natAbs) : 2 ^ 53 ≤ (ofInt n).toWord.natAbs := by
  have hleast : 2 ^ 53 ≤ (-wordLimit).natAbs := by decide
  rcases ofScaled_far (decide (n < 0)) hn with hinfinite | ⟨q, e, hfull, hshort, hlow, hhigh, hpack⟩
  · have hnone : (ofInt n).truncate? = none := by
      rw [ofInt, hinfinite]
      cases decide (n < 0) <;> decide +kernel
    simpa only [toWord, hnone] using hleast
  · obtain ⟨hmagnitude, hfinite, -⟩ := parts_pack (decide (n < 0)) hfull hshort (by omega) hhigh
    rw [← hpack] at hmagnitude hfinite
    have hlarge : 2 ^ 53 ≤ q * 2 ^ e.toNat := by
      calc 2 ^ 53 = 2 ^ 52 * 2 ^ 1 := rfl
        _ ≤ q * 2 ^ e.toNat := Nat.mul_le_mul hfull (Nat.pow_le_pow_right (by decide) (by omega))
    have htruncate : ∃ w : Int, (ofInt n).truncate? = some w ∧ w.natAbs = q * 2 ^ e.toNat := by
      simp only [truncate?, ofInt, hfinite, if_true, hmagnitude, if_pos (show 0 ≤ e by omega), Nat.pow_eq]
      exact ⟨_, rfl, by split_ifs <;> omega⟩
    obtain ⟨w, htruncated, hw⟩ := htruncate
    simp only [toWord, htruncated]
    split_ifs
    · omega
    · exact hleast

theorem ofInt_of_toInt? {x : Double} {n : Int} (h : x.toInt? = some n) (hn : 1 ≤ n) : ofInt n = x := by
  unfold toInt? at h
  split_ifs at h with hintegral
  simp only [isIntegral, Bool.and_eq_true] at hintegral
  obtain ⟨hfinite, hwhole⟩ := hintegral
  simp only [truncate?, hfinite, if_true, Option.some.injEq, Nat.pow_eq] at h
  simp only [Nat.pow_eq, Bool.or_eq_true, decide_eq_true_eq, beq_iff_eq] at hwhole
  have hsign : x.isNegative = false := by
    by_contra hneg
    rw [Bool.not_eq_false] at hneg
    rw [if_pos hneg] at h
    omega
  rw [hsign, if_neg Bool.false_ne_true] at h
  have hfraction : x.fraction < 2 ^ 52 := Nat.mod_lt _ (Nat.two_pow_pos 52)
  have hfield : x.exponentField < 2 ^ 11 := Nat.mod_lt _ (Nat.two_pow_pos 11)
  have hnormal : x.exponentField ≠ 0 := by
    -- A number with an empty exponent field is below one.
    intro hsubnormal
    obtain ⟨e, he, hmagnitude⟩ : ∃ e : Int, e ≤ -52 ∧ x.magnitude = (x.fraction, e) :=
      ⟨-1074, by decide, if_pos hsubnormal⟩
    rw [hmagnitude] at h
    dsimp only at h
    have hsmall : x.fraction < 2 ^ (-e).toNat := hfraction.trans_le (Nat.pow_le_pow_right (by decide) (by omega))
    rw [if_neg (by omega), Nat.div_eq_of_lt hsmall] at h
    omega
  set e : Int := (x.exponentField : Int) - 1075 with he
  have hmagnitude : x.magnitude = (2 ^ 52 + x.fraction, e) := if_neg hnormal
  rw [hmagnitude] at h hwhole
  have hsig : Significand n.natAbs (2 ^ 52 + x.fraction) e := by
    refine ⟨by omega, by omega, fun hnonneg => ?_, fun hneg => ?_⟩
    · rw [if_pos hnonneg] at h
      rw [← h, Int.natAbs_natCast]
    · rw [if_neg (not_le.mpr hneg)] at h
      have hdvd := hwhole.resolve_left (not_le.mpr hneg)
      rw [← h, Int.natAbs_natCast]
      exact Nat.div_mul_cancel (Nat.dvd_of_mod_eq_zero hdvd)
  have hbound : e ≤ 971 := by
    rw [isFinite, bne_iff_ne] at hfinite
    omega
  have hpack : ofInt n = pack (decide (n < 0)) (e + 1075).toNat (2 ^ 52 + x.fraction - 2 ^ 52) := hsig.ofScaled hbound _
  rw [hpack, show decide (n < 0) = x.isNegative by rw [hsign]; exact decide_eq_false (by omega),
    show (e + 1075).toNat = x.exponentField by omega, Nat.add_sub_cancel_left]
  exact pack_of_parts x

end Interleave.Double
