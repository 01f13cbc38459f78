import Bignum.AddSub
import Mathlib.Data.Nat.ModEq

set_option autoImplicit false

/- Shifts and single-bit operations of bignum.c, the bit length `bn_bitcount`, and
`bn_mult_half`, which folds the conditional addition of the prime into the right shift. -/
namespace Bignum

/-- The loop of `bn_lshift` from the top limb down, given the original next lower limb:
`a[i] = ((a[i] << 1) & 0x3FFFFFFF) | ((a[i - 1] & 0x20000000) >> 29)`. -/
def lshiftLoop : BitVec 32 → List (BitVec 32) → List (BitVec 32)
  | _, [] => []
  | lower, a :: rest =>
      (((a <<< 1) &&& 0x3FFFFFFF#32) ||| ((lower &&& 0x20000000#32) >>> 29)) :: lshiftLoop a rest

@[simp] theorem lshiftLoop_length (lower : BitVec 32) (as : List (BitVec 32)) :
    (lshiftLoop lower as).length = as.length := by
  induction as generalizing lower <;> simp [lshiftLoop, *]

/-- `bn_lshift`: multiply by 2, dropping bit 270. -/
def bnLshift (a : Bignum256) : Bignum256 :=
  ⟨((a.limb 0 <<< 1) &&& 0x3FFFFFFF#32) :: lshiftLoop (a.limb 0) a.val.tail, by
    simp [a.length_val]⟩

/-- The loop of `bn_rshift` from the bottom limb up:
`a[i] = (a[i] >> 1) | ((a[i + 1] & 1) << 29)`, and `a[8] >>= 1`. -/
def rshiftLoop : List (BitVec 32) → List (BitVec 32)
  | [] => []
  | [a] => [a >>> 1]
  | a :: b :: rest => ((a >>> 1) ||| ((b &&& 1#32) <<< 29)) :: rshiftLoop (b :: rest)

@[simp] theorem rshiftLoop_length (as : List (BitVec 32)) :
    (rshiftLoop as).length = as.length := by
  induction as with
  | nil => rfl
  | cons a as ih => cases as <;> simp_all [rshiftLoop]

/-- `bn_rshift`: divide by 2, rounding down. -/
def bnRshift (a : Bignum256) : Bignum256 :=
  ⟨rshiftLoop a.val, by simp [a.length_val]⟩

/-- `bn_setbit`: `a->val[bit / 30] |= 1u << (bit % 30)`. -/
def bnSetbit (a : Bignum256) (bit : BitVec 8) : Bignum256 :=
  ⟨a.val.modify (fun l => l ||| (1#32 <<< (bit.toNat % 30))) (bit.toNat / 30), by
    simp [a.length_val]⟩

/-- `bn_clearbit`: `a->val[bit / 30] &= ~(1u << (bit % 30))`. -/
def bnClearbit (a : Bignum256) (bit : BitVec 8) : Bignum256 :=
  ⟨a.val.modify (fun l => l &&& ~~~(1#32 <<< (bit.toNat % 30))) (bit.toNat / 30), by
    simp [a.length_val]⟩

/-- `bn_testbit`: `a->val[bit / 30] & (1u << (bit % 30))`. -/
def bnTestbit (a : Bignum256) (bit : BitVec 8) : BitVec 32 :=
  a.val.getD (bit.toNat / 30) 0 &&& (1#32 <<< (bit.toNat % 30))

/-- `bn_xor`: `a = b ^ c` limb by limb. -/
def bnXor (b c : Bignum256) : Bignum256 :=
  ⟨List.zipWith (· ^^^ ·) b.val c.val, by simp [b.length_val, c.length_val]⟩

/-- `__builtin_clz(x)` scanned from bit `n - 1` down: the zero bits above the highest set one
among the low `n`. -/
def clzLoop (x : BitVec 32) : Nat → Nat
  | 0 => 0
  | n + 1 => if x.getLsbD n then 0 else clzLoop x n + 1

/-- `__builtin_clz(x)`, the leading zero bits of a 32-bit word (`32` for `0`, which
`bn_bitcount` never passes). -/
def clz (x : BitVec 32) : Nat := clzLoop x 32

/-- The loop `for (i = 8; i >= 0; i--)` of `bn_bitcount` with limbs `i - 1, ..., 0` to go:
the first nonzero limb `tmp = a->val[i]` gives `i * 30 + (32 - __builtin_clz(tmp))`. -/
def bitcountLoop (a : Bignum256) : Nat → Nat
  | 0 => 0
  | i + 1 =>
      let tmp := a.val.getD i 0
      if tmp ≠ 0 then i * 30 + (32 - clz tmp) else bitcountLoop a i

/-- `bn_bitcount`, for a normalized `a` (whose limbs fit the `int tmp`). -/
def bnBitcount (a : Bignum256) : Nat := bitcountLoop a 9

/-- The loop of `bn_mult_half` over limbs `1, ..., 8`:
`tmp2 = x[j+1] + (prime[j+1] & xodd); tmp1 += (tmp2 & 1) << 29; x[j] = tmp1 & 0x3fffffff;
tmp1 >>= 30; tmp1 += tmp2 >> 1`, and `x[8] = tmp1` after the loop. -/
def multHalfLoop (xodd : BitVec 32) : List (BitVec 32) → List (BitVec 32) → BitVec 32 →
    List (BitVec 32)
  | x :: xs, p :: ps, tmp1 =>
      let tmp2 := x + (p &&& xodd)
      let tmp1 := tmp1 + ((tmp2 &&& 1#32) <<< 29)
      (tmp1 &&& 0x3fffffff#32) :: multHalfLoop xodd xs ps ((tmp1 >>> 30) + (tmp2 >>> 1))
  | _, _, tmp1 => [tmp1]

theorem multHalfLoop_length (xodd : BitVec 32) (xs ps : List (BitVec 32)) (t : BitVec 32)
    (h : xs.length = ps.length) : (multHalfLoop xodd xs ps t).length = xs.length + 1 := by
  induction xs generalizing ps t with
  | nil => cases ps <;> rfl
  | cons x xs ih =>
      obtain _ | ⟨p, ps⟩ := ps; · simp at h
      simp [multHalfLoop, ih ps _ (by simpa using h)]

/-- `bn_mult_half`: `x = (x & 1) ? (x + prime) >> 1 : x >> 1`, with
`xodd = -(x[0] & 1)` masking the prime and `tmp1 = (x[0] + (prime[0] & xodd)) >> 1`. -/
def bnMultHalf (x prime : Bignum256) : Bignum256 :=
  let xodd := -(x.limb 0 &&& 1#32)
  ⟨multHalfLoop xodd x.val.tail prime.val.tail ((x.limb 0 + (prime.limb 0 &&& xodd)) >>> 1), by
    rw [multHalfLoop_length _ _ _ _ (by simp [x.length_val, prime.length_val])]
    simp [x.length_val]⟩

theorem bnMultHalf_val (x p : Bignum256) : (bnMultHalf x p).val =
    multHalfLoop (-(x.limb 0 &&& 1#32)) x.val.tail p.val.tail
      ((x.limb 0 + (p.limb 0 &&& -(x.limb 0 &&& 1#32))) >>> 1) := rfl

theorem toNat_rshift_limb (a b : BitVec 32) (ha : a.toNat < 2 ^ 30) :
    ((a >>> 1) ||| ((b &&& 1#32) <<< 29)).toNat = a.toNat / 2 + 2 ^ 29 * (b.toNat % 2) := by
  rw [BitVec.toNat_or, BitVec.toNat_ushiftRight, BitVec.toNat_shiftLeft, toNat_and_one,
    Nat.shiftRight_eq_div_pow, Nat.shiftLeft_eq, Nat.mod_eq_of_lt (by omega), Nat.or_comm,
    Nat.mul_comm, ← Nat.mul_add_lt_is_or (by omega), Nat.add_comm]

theorem rshiftLoop_spec (as : List (BitVec 32)) (ha : Normalized as) :
    Normalized (rshiftLoop as) ∧ value (rshiftLoop as) = value as / 2 := by
  induction as using rshiftLoop.induct with
  | case1 => simp [rshiftLoop]
  | case2 a =>
      have h := ((normalized_cons _ _).1 ha).1
      have hs : (a >>> 1).toNat = a.toNat / 2 := by rw [toNat_ushiftRight_eq_div, pow_one]
      refine ⟨(normalized_cons _ _).2 ⟨by omega, normalized_nil⟩, ?_⟩
      rw [rshiftLoop, value_cons, value_cons, hs, value_nil]
      omega
  | case3 a b rest ih =>
      have hab := (normalized_cons _ _).1 ha
      obtain ⟨hn, hv⟩ := ih hab.2
      have hb := ((normalized_cons _ _).1 hab.2).1
      have hV : value (b :: rest) % 2 = b.toNat % 2 := by rw [value_cons]; omega
      rw [rshiftLoop, normalized_cons, value_cons, hv, toNat_rshift_limb a b hab.1, value_cons a]
      exact ⟨⟨by omega, hn⟩, by omega⟩

/-- `bn_rshift` halves a normalized number, rounding down. -/
theorem bnRshift_spec (a : Bignum256) (ha : a.Normalized) :
    (bnRshift a).Normalized ∧ (bnRshift a).value = a.value / 2 :=
  rshiftLoop_spec a.val ha

theorem toNat_bit29 (x : BitVec 32) (hx : x.toNat < 2 ^ 30) :
    ((x &&& 0x20000000#32) >>> 29).toNat = x.toNat / 2 ^ 29 := by
  rw [BitVec.ushiftRight_and_distrib, show 0x20000000#32 >>> 29 = 1#32 from rfl, toNat_and_one,
    toNat_ushiftRight_eq_div]
  omega

theorem toNat_lshift_limb (a lower : BitVec 32) (hl : lower.toNat < 2 ^ 30) :
    (((a <<< 1) &&& 0x3FFFFFFF#32) ||| ((lower &&& 0x20000000#32) >>> 29)).toNat =
      2 * (a.toNat % 2 ^ 29) + lower.toNat / 2 ^ 29 := by
  have hlo : ((a <<< 1) &&& 0x3FFFFFFF#32).toNat = 2 ^ 1 * (a.toNat % 2 ^ 29) := by
    rw [toNat_and_mask, BitVec.toNat_shiftLeft, Nat.shiftLeft_eq]
    omega
  rw [BitVec.toNat_or, hlo, toNat_bit29 lower hl, ← Nat.mul_add_lt_is_or (by omega), pow_one]


theorem lshiftLoop_spec (lower : BitVec 32) (hl : lower.toNat < 2 ^ 30) (as : List (BitVec 32))
    (ha : Normalized as) :
    Normalized (lshiftLoop lower as) ∧
      value (lshiftLoop lower as) =
        (2 * value as + lower.toNat / 2 ^ 29) % 2 ^ (30 * as.length) := by
  induction as generalizing lower with
  | nil => simp [lshiftLoop, Nat.mod_one]
  | cons a as ih =>
      rw [normalized_cons] at ha
      obtain ⟨hn, hv⟩ := ih a ha.1 ha.2
      have h1 : (2 * a.toNat + lower.toNat / 2 ^ 29) % 2 ^ 30 =
          2 * (a.toNat % 2 ^ 29) + lower.toNat / 2 ^ 29 := by omega
      have h2 : (2 * a.toNat + lower.toNat / 2 ^ 29) / 2 ^ 30 = a.toNat / 2 ^ 29 := by omega
      rw [lshiftLoop, normalized_cons, value_cons, toNat_lshift_limb a lower hl, hv]
      refine ⟨⟨by omega, hn⟩, ?_⟩
      rw [← h1, ← h2, Nat.add_comm (2 * value as), mod_digit, value_cons, List.length_cons,
        Nat.mul_succ, Nat.pow_add, Nat.mul_comm (2 ^ _) (2 ^ 30)]
      congr 1
      ring

theorem bnLshift_val (a : Bignum256) : (bnLshift a).val = lshiftLoop 0 a.val := by
  conv_rhs => rw [limbs_tail a]
  simp [bnLshift, lshiftLoop]

/-- `bn_lshift` doubles a normalized number modulo `2^270`. -/
theorem bnLshift_spec (a : Bignum256) (ha : a.Normalized) :
    (bnLshift a).Normalized ∧ (bnLshift a).value = 2 * a.value % 2 ^ 270 := by
  have h := lshiftLoop_spec 0 (by decide) a.val ha
  rw [a.length_val, show (0 : BitVec 32).toNat = 0 from rfl, Nat.zero_div, Nat.add_zero] at h
  rw [Bignum256.Normalized, Bignum256.value, bnLshift_val]
  exact h

/-- `bn_lshift` doubles a normalized number modulo `2^270` and `bn_rshift` halves it, rounding
down, both into normalized limbs. -/
theorem bnLshift_bnRshift_correct (a : Bignum256) (ha : a.Normalized) :
    ((bnLshift a).Normalized ∧ (bnLshift a).value = 2 * a.value % 2 ^ 270) ∧
      ((bnRshift a).Normalized ∧ (bnRshift a).value = a.value / 2) :=
  ⟨bnLshift_spec a ha, bnRshift_spec a ha⟩

theorem bnLshift_bnRshift_correct_p : secp256k1P.Normalized ∧
    (((bnLshift secp256k1P).Normalized ∧
        (bnLshift secp256k1P).value = 2 * secp256k1P.value % 2 ^ 270) ∧
      ((bnRshift secp256k1P).Normalized ∧ (bnRshift secp256k1P).value = secp256k1P.value / 2)) :=
  ⟨by decide, bnLshift_bnRshift_correct secp256k1P (by decide)⟩

/-- `bn_rshift` undoes `bn_lshift` on normalized numbers below `2^269`, and `bn_lshift` undoes
`bn_rshift` on even ones. -/
theorem bnRshift_bnLshift (a : Bignum256) (ha : a.Normalized) :
    (a.value < 2 ^ 269 → bnRshift (bnLshift a) = a) ∧
      (a.value % 2 = 0 → bnLshift (bnRshift a) = a) := by
  obtain ⟨hln, hlv⟩ := bnLshift_spec a ha
  obtain ⟨hrn, hrv⟩ := bnRshift_spec a ha
  refine ⟨fun h => ?_, fun h => ?_⟩
  · obtain ⟨hn, hv⟩ := bnRshift_spec _ hln
    refine Bignum256.eq_of_value_eq hn ha ?_
    rw [hv, hlv, Nat.mod_eq_of_lt (by omega), Nat.mul_div_cancel_left _ (by norm_num)]
  · obtain ⟨hn, hv⟩ := bnLshift_spec _ hrn
    refine Bignum256.eq_of_value_eq hn ha ?_
    rw [hv, hrv, Nat.mul_div_cancel' (Nat.dvd_of_mod_eq_zero h), Nat.mod_eq_of_lt (a.value_lt ha)]

theorem bnRshift_bnLshift_p : secp256k1P.Normalized ∧
    ((secp256k1P.value < 2 ^ 269 → bnRshift (bnLshift secp256k1P) = secp256k1P) ∧
      (secp256k1P.value % 2 = 0 → bnLshift (bnRshift secp256k1P) = secp256k1P)) :=
  ⟨by decide, bnRshift_bnLshift secp256k1P (by decide)⟩

theorem clzLoop_add_log (x : BitVec 32) (n : Nat) (hx0 : 0 < x.toNat) (hx : x.toNat < 2 ^ n) :
    clzLoop x n + Nat.log 2 x.toNat + 1 = n := by
  induction n with
  | zero => simp at hx; omega
  | succ n ih =>
      rw [clzLoop]
      by_cases hlt : x.toNat < 2 ^ n
      · have hbit : x.getLsbD n = false := Nat.testBit_lt_two_pow hlt
        rw [if_neg (by simp [hbit])]
        have := ih hlt
        omega
      · have hsplit : x.toNat = 2 ^ n + (x.toNat - 2 ^ n) := by omega
        have hbit : x.getLsbD n = true := by
          rw [← BitVec.testBit_toNat, hsplit, Nat.testBit_two_pow_add_eq,
            Nat.testBit_lt_two_pow (by rw [pow_succ] at hx; omega)]
          rfl
        rw [if_pos hbit, Nat.log_eq_of_pow_le_of_lt_pow (not_lt.1 hlt) hx]
        omega

theorem sub_clz (x : BitVec 32) (hx0 : x ≠ 0) : 32 - clz x = Nat.log 2 x.toNat + 1 := by
  have h0 : 0 < x.toNat := Nat.pos_of_ne_zero fun h => hx0 (BitVec.eq_of_toNat_eq h)
  have := clzLoop_add_log x 32 h0 x.isLt
  rw [clz]
  omega

theorem bitcountLoop_eq (a : Bignum256) (ha : a.Normalized) (i : Nat) :
    bitcountLoop a i =
      if value (a.val.take i) = 0 then 0 else Nat.log 2 (value (a.val.take i)) + 1 := by
  induction i with
  | zero => simp [bitcountLoop]
  | succ i ih =>
      have hlow : value (a.val.take i) < 2 ^ (30 * i) :=
        lt_of_lt_of_le (value_lt fun l hl => ha l (List.mem_of_mem_take hl))
          (Nat.pow_le_pow_right (by norm_num) (by simp))
      rw [bitcountLoop, value_take_succ]
      by_cases h0 : a.val.getD i 0 = 0
      · rw [h0]
        simp [ih]
      · have ht : (a.val.getD i 0).toNat ≠ 0 := fun h => h0 (BitVec.eq_of_toNat_eq h)
        have hpos := Nat.mul_pos (Nat.two_pow_pos (30 * i)) (Nat.pos_of_ne_zero ht)
        rw [if_pos h0, sub_clz _ h0, if_neg (by omega), Nat.add_comm (value _),
          log_pow_mul_add (by norm_num) _ _ _ ht hlow]
        ring

/-- `bn_bitcount` is the bit length of a normalized number: `0` for zero, and
`log2 a + 1` otherwise. -/
theorem bnBitcount_eq_bit_length (a : Bignum256) (ha : a.Normalized) :
    bnBitcount a = if a.value = 0 then 0 else Nat.log 2 a.value + 1 := by
  rw [bnBitcount, bitcountLoop_eq a ha, List.take_of_length_le (by rw [a.length_val])]
  rfl

theorem bnBitcount_eq_bit_length_p : secp256k1P.Normalized ∧
    bnBitcount secp256k1P =
      if secp256k1P.value = 0 then 0 else Nat.log 2 secp256k1P.value + 1 :=
  ⟨by decide, bnBitcount_eq_bit_length secp256k1P (by decide)⟩

theorem toNat_and_xodd (x0 p : BitVec 32) :
    (p &&& -(x0 &&& 1#32)).toNat = x0.toNat % 2 * p.toNat := by
  have hbit := toNat_and_one x0
  rcases Nat.mod_two_eq_zero_or_one x0.toNat with h | h
  · have : x0 &&& 1#32 = 0#32 := BitVec.eq_of_toNat_eq (by rw [hbit, h]; rfl)
    rw [this, h, show -0#32 = 0#32 from rfl, BitVec.and_zero]
    simp
  · have : x0 &&& 1#32 = 1#32 := BitVec.eq_of_toNat_eq (by rw [hbit, h]; rfl)
    rw [this, h, show -1#32 = BitVec.allOnes 32 from rfl, BitVec.and_allOnes, Nat.one_mul]

theorem multHalfLoop_spec (xodd : BitVec 32) (c : Nat) (hc : c ≤ 1)
    (hodd : ∀ p : BitVec 32, (p &&& xodd).toNat = c * p.toNat) :
    ∀ (xs ps : List (BitVec 32)) (t : BitVec 32), Normalized xs → Normalized ps →
      xs.length = ps.length → t.toNat ≤ 2 ^ 30 →
      ∃ ys z, multHalfLoop xodd xs ps t = ys ++ [z] ∧ ys.length = xs.length ∧
        Normalized ys ∧
        value (multHalfLoop xodd xs ps t) = t.toNat + 2 ^ 29 * (value xs + c * value ps) := by
  intro xs
  induction xs with
  | nil =>
      intro ps t _ _ hl _
      obtain rfl : ps = [] := List.length_eq_zero.1 hl.symm
      exact ⟨[], t, rfl, rfl, normalized_nil, by simp [multHalfLoop]⟩
  | cons x xs ih =>
      intro ps t hx hp hl ht
      obtain _ | ⟨p, ps⟩ := ps; · simp at hl
      simp only [normalized_cons, List.length_cons, add_left_inj] at hx hp hl
      have hcp : c * p.toNat ≤ p.toNat := (Nat.mul_le_mul_right _ hc).trans_eq (Nat.one_mul _)
      have hs : (x + (p &&& xodd)).toNat = x.toNat + c * p.toNat := by
        rw [BitVec.toNat_add_of_lt (by rw [hodd]; omega), hodd]
      generalize hS : x.toNat + c * p.toNat = S at hs
      have hbit : (((x + (p &&& xodd)) &&& 1#32) <<< 29).toNat = S % 2 * 2 ^ 29 := by
        rw [BitVec.toNat_shiftLeft, toNat_and_one, hs, Nat.shiftLeft_eq]
        exact Nat.mod_eq_of_lt (by omega)
      have ht' : (t + ((x + (p &&& xodd)) &&& 1#32) <<< 29).toNat = t.toNat + S % 2 * 2 ^ 29 := by
        rw [BitVec.toNat_add_of_lt (by rw [hbit]; omega), hbit]
      have hnext : ((t + ((x + (p &&& xodd)) &&& 1#32) <<< 29) >>> 30 +
          (x + (p &&& xodd)) >>> 1).toNat = (t.toNat + S % 2 * 2 ^ 29) / 2 ^ 30 + S / 2 := by
        rw [BitVec.toNat_add_of_lt] <;>
          simp only [toNat_ushiftRight_eq_div, ht', hs, pow_one]
        omega
      obtain ⟨ys, z, hsplit, hlen, hys, hval⟩ := ih ps _ hx.2 hp.2 hl (by rw [hnext]; omega)
      refine ⟨_ :: ys, z, by rw [multHalfLoop, hsplit]; rfl, by simp [hlen],
        (normalized_cons _ _).2 ⟨and_mask_lt _, hys⟩, ?_⟩
      rw [multHalfLoop, value_cons, hval, hnext, toNat_and_mask, ht', value_cons, value_cons,
        Nat.mul_add c, Nat.mul_left_comm c]
      omega

/-- `bn_mult_half` halves `x`, after adding the odd prime when `x` is odd: exactly
`(x + (x mod 2) * prime) / 2`, normalized, so `2 x' = x (mod prime)` and partly reduced
inputs give partly reduced outputs. -/
theorem bnMultHalf_spec (x p : Bignum256) (hx : x.Normalized) (hp : p.Normalized)
    (hodd : p.value % 2 = 1) :
    (bnMultHalf x p).Normalized ∧
      (bnMultHalf x p).value = (x.value + x.value % 2 * p.value) / 2 ∧
      2 * (bnMultHalf x p).value ≡ x.value [MOD p.value] ∧
      (x.value < 2 * p.value → (bnMultHalf x p).value < 2 * p.value) := by
  have hx0 := x.limb_lt hx 0
  have hp0 := p.limb_lt hp 0
  have hxval := value_limbs_tail x
  have hpval := value_limbs_tail p
  set c := (x.limb 0).toNat % 2 with hc
  have hcx : x.value % 2 = c := by omega
  have hcp0 : c * (p.limb 0).toNat ≤ (p.limb 0).toNat :=
    (Nat.mul_le_mul_right _ (by omega : c ≤ 1)).trans_eq (Nat.one_mul _)
  have hcP : x.value % 2 * p.value ≤ p.value :=
    (Nat.mul_le_mul_right _ (by omega : x.value % 2 ≤ 1)).trans_eq (Nat.one_mul _)
  have hand := toNat_and_xodd (x.limb 0) (p.limb 0)
  rw [← hc] at hand
  have hinit : ((x.limb 0 + (p.limb 0 &&& -(x.limb 0 &&& 1#32))) >>> 1).toNat =
      ((x.limb 0).toNat + c * (p.limb 0).toNat) / 2 := by
    rw [toNat_ushiftRight_eq_div, BitVec.toNat_add_of_lt (by omega), hand, pow_one]
  obtain ⟨ys, z, hsplit, hlen, hys, hval⟩ := multHalfLoop_spec _ c (by omega)
    (toNat_and_xodd (x.limb 0)) _ _ _ (normalized_tail hx) (normalized_tail hp)
    (by simp [x.length_val, p.length_val]) (by rw [hinit]; omega)
  have hv : (bnMultHalf x p).value = (x.value + x.value % 2 * p.value) / 2 := by
    rw [Bignum256.value, bnMultHalf_val, hval, hinit, hcx, hxval, hpval, Nat.mul_add c,
      Nat.mul_left_comm c]
    omega
  have hsum : 2 * ((x.value + x.value % 2 * p.value) / 2) = x.value + x.value % 2 * p.value := by
    rcases Nat.mod_two_eq_zero_or_one x.value with h | h <;> rw [h] <;> omega
  refine ⟨?_, hv, ?_, fun h => by omega⟩
  · have hlt : (bnMultHalf x p).value < 2 ^ 270 := by
      have := x.value_lt hx
      have := p.value_lt hp
      omega
    rw [Bignum256.value, bnMultHalf_val, hsplit, value_append, hlen] at hlt
    show Normalized (bnMultHalf x p).val
    rw [bnMultHalf_val, hsplit, normalized_append]
    refine ⟨hys, (normalized_cons _ _).2 ⟨?_, normalized_nil⟩⟩
    simp [x.length_val] at hlt
    omega
  · rw [hv, hsum]
    exact Nat.add_mul_mod_self_right _ _ _

theorem bnMultHalf_spec_one : bnOne.Normalized ∧ secp256k1P.Normalized ∧
    secp256k1P.value % 2 = 1 ∧
    ((bnMultHalf bnOne secp256k1P).Normalized ∧
      (bnMultHalf bnOne secp256k1P).value =
        (bnOne.value + bnOne.value % 2 * secp256k1P.value) / 2 ∧
      2 * (bnMultHalf bnOne secp256k1P).value ≡ bnOne.value [MOD secp256k1P.value] ∧
      (bnOne.value < 2 * secp256k1P.value →
        (bnMultHalf bnOne secp256k1P).value < 2 * secp256k1P.value)) :=
  ⟨by decide, by decide, by decide,
    bnMultHalf_spec bnOne secp256k1P (by decide) (by decide) (by decide)⟩

end Bignum
