import Mathlib.Algebra.Order.Ring.Nat
import Mathlib.Algebra.Order.Sub.Basic
import Mathlib.Tactic.Ring.RingNF
import Mathlib.Tactic.SplitIfs
import Interleave.Text.Integer
import Interleave.Text.Quoted

/-! Quoted texts can be read back. A byte string is the sequence of the characters that it encodes and of the bytes in
between, and each of them is written in a way that tells where it ends. -/

namespace Interleave.Text

theorem fromUTF8?_eq_some_iff {s : ByteArray} {text : String} : String.fromUTF8? s = some text ↔ s = text.toUTF8 := by
  unfold String.fromUTF8?
  constructor
  · intro h
    split_ifs at h
    cases h
    rfl
  · rintro rfl
    exact dif_pos text.isValidUTF8

theorem ofBytes_toUTF8 (text : String) : ofBytes text.toUTF8 = text := by
  rw [ofBytes, fromUTF8?_eq_some_iff.mpr rfl]

theorem toNat_ofNat {n : Nat} (h : n.isValidChar) : (Char.ofNat n).toNat = n := by
  rw [Char.ofNat, dif_pos h]
  rfl

theorem ofNat_eq_byte {n : Nat} (b : UInt8) (h : n = b.toNat) : UInt8.ofNat n = b := by
  rw [h, UInt8.ofNat_toNat]

theorem ne_zero_of_continuation {b : UInt8} (h : b.toNat / 64 = 2) : b ≠ 0 := by
  rintro rfl
  simp at h

theorem utf8EncodeChar_ofNat {n : Nat} (h : n.isValidChar) :
    String.utf8EncodeChar (Char.ofNat n) =
      if n ≤ 0x7f then [UInt8.ofNat n]
      else if n ≤ 0x7ff then [UInt8.ofNat (n / 64 % 32 + 192), UInt8.ofNat (n % 64 + 128)]
      else if n ≤ 0xffff then
        [UInt8.ofNat (n / 4096 % 16 + 224), UInt8.ofNat (n / 64 % 64 + 128), UInt8.ofNat (n % 64 + 128)]
      else
        [UInt8.ofNat (n / 262144 % 8 + 240), UInt8.ofNat (n / 4096 % 64 + 128), UInt8.ofNat (n / 64 % 64 + 128),
          UInt8.ofNat (n % 64 + 128)] := by
  have hval : (Char.ofNat n).val.toNat = n := toNat_ofNat h
  simp only [String.utf8EncodeChar, hval]

theorem utf8EncodeChar_of_charAt? {a b c d : UInt8} {rest : List UInt8} {x : Char} {width : Nat}
    (h : charAt? (a :: b :: c :: d :: rest) = some (x, width)) :
    width = 1 ∧ String.utf8EncodeChar x = [a] ∨
      width = 2 ∧ String.utf8EncodeChar x = [a, b] ∧ b ≠ 0 ∨
      width = 3 ∧ String.utf8EncodeChar x = [a, b, c] ∧ b ≠ 0 ∧ c ≠ 0 ∨
      width = 4 ∧ String.utf8EncodeChar x = [a, b, c, d] ∧ b ≠ 0 ∧ c ≠ 0 ∧ d ≠ 0 := by
  -- A character that is read is encoded by the bytes that it takes. Those after the first one are not zero, so they
  -- never come from the padding at the end of a byte string.
  simp only [charAt?] at h
  split_ifs at h with hone htwo hthree hrange hfour hrange
  · cases h
    refine .inl ⟨rfl, ?_⟩
    rw [utf8EncodeChar_ofNat (.inl (by omega)), if_pos (by omega), ofNat_eq_byte a rfl]
  · cases h
    obtain ⟨hlow, hhigh, hb⟩ := htwo
    refine .inr (.inl ⟨rfl, ?_, ne_zero_of_continuation hb⟩)
    rw [utf8EncodeChar_ofNat (.inl (by omega)), if_neg (by omega), if_pos (by omega), ofNat_eq_byte a (by omega),
      ofNat_eq_byte b (by omega)]
  · cases h
    obtain ⟨hlow, hhigh, hb, hc⟩ := hthree
    have hvalid : (a.toNat % 16 * 4096 + b.toNat % 64 * 64 + c.toNat % 64).isValidChar := by
      unfold Nat.isValidChar
      omega
    refine .inr (.inr (.inl ⟨rfl, ?_, ne_zero_of_continuation hb, ne_zero_of_continuation hc⟩))
    rw [utf8EncodeChar_ofNat hvalid, if_neg (by omega), if_neg (by omega), if_pos (by omega),
      ofNat_eq_byte a (by omega), ofNat_eq_byte b (by omega), ofNat_eq_byte c (by omega)]
  · cases h
    obtain ⟨hlow, hhigh, hb, hc, hd⟩ := hfour
    refine .inr (.inr (.inr ⟨rfl, ?_, ne_zero_of_continuation hb, ne_zero_of_continuation hc,
      ne_zero_of_continuation hd⟩))
    rw [utf8EncodeChar_ofNat (.inr (by omega)), if_neg (by omega), if_neg (by omega), if_neg (by omega),
      ofNat_eq_byte a (by omega), ofNat_eq_byte b (by omega), ofNat_eq_byte c (by omega), ofNat_eq_byte d (by omega)]

theorem eq_append_of_charAt? {b : UInt8} {rest : List UInt8} {x : Char} {width : Nat}
    (h : charAt? (b :: (rest.take 3 ++ [0, 0, 0])) = some (x, width)) :
    b :: rest = String.utf8EncodeChar x ++ rest.drop (width - 1) := by
  -- The first four bytes are bytes of the string or zeros of the padding.
  obtain _ | ⟨b₁, _ | ⟨b₂, _ | ⟨b₃, rest⟩⟩⟩ := rest <;>
    obtain ⟨rfl, hx⟩ | ⟨rfl, hx, hne⟩ | ⟨rfl, hx, hne⟩ | ⟨rfl, hx, hne⟩ := utf8EncodeChar_of_charAt? h <;>
    simp_all

/-- What is read of a quoted text: the bytes so far, and the part of an escape that is not complete yet. -/
inductive Unquoting where
  | plain (bytes : List UInt8)
  | escape (bytes : List UInt8)
  | digits (bytes : List UInt8) (isByte : Bool) (left value : Nat)

def unescape? : Char → Option Char
  | 'a' => some '\x07'
  | 'b' => some '\x08'
  | 't' => some '\t'
  | 'n' => some '\n'
  | 'v' => some '\x0b'
  | 'f' => some '\x0c'
  | 'r' => some '\r'
  | '"' => some '"'
  | '\\' => some '\\'
  | _ => none

namespace Unquoting

def meaning (isByte : Bool) (value : Nat) : List UInt8 :=
  if isByte then [UInt8.ofNat value] else String.utf8EncodeChar (Char.ofNat value)

def next : Unquoting → Char → Option Unquoting
  | plain bytes, c =>
    if c = '"' then none
    else if c = '\\' then some (escape bytes)
    else some (plain (bytes ++ String.utf8EncodeChar c))
  | escape bytes, c =>
    if c = 'x' then some (digits bytes true 2 0)
    else if c = 'u' then some (digits bytes false 4 0)
    else if c = 'U' then some (digits bytes false 8 0)
    else (unescape? c).map fun d => plain (bytes ++ String.utf8EncodeChar d)
  | digits bytes isByte left value, c =>
    (digitValue c).map fun d =>
      if left ≤ 1 then plain (bytes ++ meaning isByte (value * 16 + d))
      else digits bytes isByte (left - 1) (value * 16 + d)

def run (u : Unquoting) (cs : List Char) : Option Unquoting := cs.foldlM next u

@[simp]
theorem run_nil (u : Unquoting) : u.run [] = some u := rfl

@[simp]
theorem run_cons (u : Unquoting) (c : Char) (cs : List Char) : u.run (c :: cs) = (u.next c).bind (run · cs) :=
  List.foldlM_cons ..

theorem run_append (u : Unquoting) (cs cs' : List Char) : u.run (cs ++ cs') = (u.run cs).bind (run · cs') :=
  List.foldlM_append ..

theorem digitValue_hexDigit (n : Nat) : digitValue (hexDigit (n % 16)) = some (n % 16) := by
  have hdigits : ∀ d < 16, digitValue (hexDigit d) = some d := by decide
  exact hdigits _ (Nat.mod_lt n (by decide))

theorem mod_pow_succ (n width : Nat) : n % 16 ^ (width + 1) = n / 16 % 16 ^ width * 16 + n % 16 := by
  rw [pow_succ', Nat.mod_mul]
  ring

theorem run_hexDigits (bytes : List UInt8) (isByte : Bool) (width left value n : Nat) :
    (digits bytes isByte (left + 1 + width) value).run (hexDigits width n) =
      some (digits bytes isByte (left + 1) (value * 16 ^ width + n % 16 ^ width)) := by
  induction width generalizing left n with
  | zero => simp [hexDigits, Nat.mod_one]
  | succ width ih =>
    have hsum : (value * 16 ^ width + n / 16 % 16 ^ width) * 16 + n % 16 =
        value * 16 ^ (width + 1) + n % 16 ^ (width + 1) := by
      rw [mod_pow_succ]
      ring
    rw [hexDigits, run_append, show left + 1 + (width + 1) = left + 1 + 1 + width by omega, ih]
    simp [next, digitValue_hexDigit, hsum]

theorem run_hexDigits_last (bytes : List UInt8) (isByte : Bool) (width n : Nat) :
    (digits bytes isByte (width + 1) 0).run (hexDigits (width + 1) n) =
      some (plain (bytes ++ meaning isByte (n % 16 ^ (width + 1)))) := by
  have hfirst := run_hexDigits bytes isByte width 0 0 (n / 16)
  rw [show 0 + 1 + width = width + 1 by omega] at hfirst
  rw [hexDigits, run_append, hfirst, mod_pow_succ]
  simp [next, digitValue_hexDigit]

theorem unescape?_of_letterEscape {c l : Char} (h : letterEscape c = some l) : unescape? l = some c := by
  have hc : Char.ofNat c.toNat = c := Char.ofNat_toNat c
  unfold letterEscape at h
  split at h <;> cases h <;> rw [← hc, ‹c.toNat = _›] <;> rfl

theorem run_escape (bytes : List UInt8) {c l : Char} (h : unescape? l = some c) :
    (plain bytes).run ['\\', l] = some (plain (bytes ++ String.utf8EncodeChar c)) := by
  have hne {x : Char} (hx : unescape? x = none) : l ≠ x := by
    rintro rfl
    rw [h] at hx
    cases hx
  have hx : l ≠ 'x' := hne rfl
  have hu : l ≠ 'u' := hne rfl
  have hU : l ≠ 'U' := hne rfl
  simp [next, hx, hu, hU, h]

theorem run_quoteChar (bytes : List UInt8) (c : Char) :
    (plain bytes).run (quoteChar c) = some (plain (bytes ++ String.utf8EncodeChar c)) := by
  unfold quoteChar
  by_cases hquote : c = '"' ∨ c = '\\'
  · rw [if_pos hquote]
    apply run_escape
    obtain rfl | rfl := hquote <;> rfl
  rw [if_neg hquote]
  push Not at hquote
  by_cases hprint : isPrintable c
  · rw [if_pos hprint]
    simp [next, hquote]
  rw [if_neg hprint]
  cases hletter : letterEscape c with
  | some l => exact run_escape bytes (unescape?_of_letterEscape hletter)
  | none =>
    have hc : Char.ofNat c.toNat = c := Char.ofNat_toNat c
    dsimp only
    split_ifs with hascii hshort
    · have hcode : String.utf8EncodeChar c = [UInt8.ofNat c.toNat] := by
        rw [← hc, utf8EncodeChar_ofNat (.inl (by omega)), if_pos (by omega), hc]
      have hdigits := run_hexDigits_last bytes true 1 c.toNat
      rw [Nat.mod_eq_of_lt (by omega)] at hdigits
      simp [next, hdigits, meaning, hcode]
    · have hdigits := run_hexDigits_last bytes false 3 c.toNat
      rw [Nat.mod_eq_of_lt (by omega)] at hdigits
      simp [next, hdigits, meaning, hc]
    · have hbound : c.toNat < 16 ^ 8 := c.val.toNat_lt
      have hdigits := run_hexDigits_last bytes false 7 c.toNat
      rw [Nat.mod_eq_of_lt hbound] at hdigits
      simp [next, hdigits, meaning, hc]

theorem run_quoteByte (bytes : List UInt8) (b : UInt8) :
    (plain bytes).run (quoteByte b) = some (plain (bytes ++ [b])) := by
  have hdigits := run_hexDigits_last bytes true 1 b.toNat
  simp [quoteByte, next, hdigits, meaning]

end Unquoting

section Skipping

variable {α : Type} (char : Char → α) (stray : UInt8 → List α)

theorem decodeBytes_skip (skip : Nat) (broken : Bool) (bytes : List UInt8) :
    decodeBytes char (fun _ b => stray b) skip broken bytes =
      decodeBytes char (fun _ b => stray b) 0 false (bytes.drop skip) := by
  induction bytes generalizing skip broken with
  | nil => cases skip <;> simp [decodeBytes]
  | cons b rest ih =>
    cases skip with
    | zero => simp only [decodeBytes, List.drop_zero]
    | succ skip => rw [decodeBytes, ih, List.drop_succ_cons]

end Skipping

def quotedBody (bytes : List UInt8) : List Char :=
  (decodeBytes quoteChar (fun _ b => [quoteByte b]) 0 false bytes).flatten

theorem toList_quoteBytes (bytes : ByteArray) :
    (quoteBytes bytes).toList = '"' :: quotedBody bytes.data.toList ++ ['"'] := by
  simp [quoteBytes, quotedBody]

theorem quotedBody_char {b : UInt8} {rest : List UInt8} {c : Char} {width : Nat}
    (h : charAt? (b :: (rest.take 3 ++ [0, 0, 0])) = some (c, width)) :
    quotedBody (b :: rest) = quoteChar c ++ quotedBody (rest.drop (width - 1)) := by
  simp only [quotedBody, decodeBytes, h, List.flatten_cons]
  rw [decodeBytes_skip]

theorem quotedBody_stray {b : UInt8} {rest : List UInt8} (h : charAt? (b :: (rest.take 3 ++ [0, 0, 0])) = none) :
    quotedBody (b :: rest) = quoteByte b ++ quotedBody rest := by
  simp only [quotedBody, decodeBytes, h, List.flatten_append, List.flatten_singleton]
  rw [decodeBytes_skip, List.drop_zero]

theorem run_quotedBody (acc bytes : List UInt8) :
    (Unquoting.plain acc).run (quotedBody bytes) = some (.plain (acc ++ bytes)) := by
  -- A character takes one byte or more, so the induction is on the length.
  induction hlength : bytes.length using Nat.strong_induction_on generalizing acc bytes with
  | _ length ih =>
    subst hlength
    cases bytes with
    | nil => simp [quotedBody, decodeBytes]
    | cons b rest =>
      cases hread : charAt? (b :: (rest.take 3 ++ [0, 0, 0])) with
      | none =>
        rw [quotedBody_stray hread, Unquoting.run_append, Unquoting.run_quoteByte, Option.bind_some,
          ih rest.length (by simp) _ rest rfl, List.append_assoc, List.singleton_append]
      | some read =>
        obtain ⟨c, width⟩ := read
        have hshorter : (rest.drop (width - 1)).length < (b :: rest).length := by
          simp only [List.length_drop, List.length_cons]
          omega
        rw [quotedBody_char hread, Unquoting.run_append, Unquoting.run_quoteChar, Option.bind_some,
          ih _ hshorter _ _ rfl, List.append_assoc, ← eq_append_of_charAt? hread]

end Interleave.Text
