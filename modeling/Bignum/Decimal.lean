import Bignum.Limbs
import Mathlib.Data.Nat.Digits

set_option autoImplicit false

/- Division by a small constant, `bn_divmod58` and `bn_divmod1000`, and the decimal digit count
`bn_digitcount` built on the latter. -/
namespace Bignum

/-- The loop over limbs `7` down to `0` (given most significant first), with
`2^30 = q * d + r`: `tmp = rem * r + a[i]; a[i] = rem * q + tmp / d; rem = tmp % d`.
It returns the new limbs, most significant first, and the last `rem`. -/
def divmodLoop (d q r : BitVec 32) :
    List (BitVec 32) → BitVec 32 → List (BitVec 32) × BitVec 32
  | [], rem => ([], rem)
  | l :: ls, rem =>
      let tmp := rem * r + l
      let rest := divmodLoop d q r ls (tmp % d)
      ((rem * q + tmp / d) :: rest.1, rest.2)

@[simp] theorem divmodLoop_length (d q r : BitVec 32) (ls : List (BitVec 32)) (rem : BitVec 32) :
    (divmodLoop d q r ls rem).1.length = ls.length := by
  induction ls generalizing rem with
  | nil => rfl
  | cons l ls ih => simp [divmodLoop, ih]

/-- The common body of `bn_divmod58` and `bn_divmod1000`: `rem = a[8] % d; a[8] /= d;` then
the loop; it returns the quotient and `*r = rem`. -/
def bnDivmod (d q r : BitVec 32) (a : Bignum256) : Bignum256 × BitVec 32 :=
  let res := divmodLoop d q r (a.val.take 8).reverse (a.limb 8 % d)
  (⟨res.1.reverse ++ [a.limb 8 / d], by simp [res, a.length_val]⟩, res.2)

/-- `bn_divmod58`, with `2^30 == 18512790*58 + 4`. -/
def bnDivmod58 (a : Bignum256) : Bignum256 × BitVec 32 := bnDivmod 58#32 18512790#32 4#32 a

/-- `bn_divmod1000`, with `2^30 == 1073741*1000 + 824`. -/
def bnDivmod1000 (a : Bignum256) : Bignum256 × BitVec 32 :=
  bnDivmod 1000#32 1073741#32 824#32 a

section Divmod

/- The constants of `bn_divmod58` and `bn_divmod1000`: `2^30 = q * d + r` with `r < d`, and
`d` small enough that `rem * r + a[i]` fits 32 bits. -/
variable (d q r : BitVec 32) (hqdr : q.toNat * d.toNat + r.toNat = 2 ^ 30)
  (hr : r.toNat < d.toNat) (hd : d.toNat ≤ 2 ^ 15)

include hqdr hr hd in
theorem divmod_step (rem l : BitVec 32) (hrem : rem.toNat < d.toNat) (hl : l.toNat < 2 ^ 30) :
    ((rem * q + (rem * r + l) / d).toNat < 2 ^ 30) ∧ ((rem * r + l) % d).toNat < d.toNat ∧
      d.toNat * (rem * q + (rem * r + l) / d).toNat + ((rem * r + l) % d).toNat =
        rem.toNat * 2 ^ 30 + l.toNat := by
  have hrr : rem.toNat * r.toNat < 2 ^ 30 :=
    calc rem.toNat * r.toNat < d.toNat * d.toNat := Nat.mul_lt_mul'' hrem hr
      _ ≤ 2 ^ 15 * 2 ^ 15 := Nat.mul_le_mul hd hd
      _ = 2 ^ 30 := by norm_num
  have hrq : rem.toNat * q.toNat ≤ 2 ^ 30 :=
    calc rem.toNat * q.toNat ≤ d.toNat * q.toNat := Nat.mul_le_mul_right _ hrem.le
      _ ≤ 2 ^ 30 := by rw [Nat.mul_comm]; omega
  have hmul : (rem * r).toNat = rem.toNat * r.toNat := BitVec.toNat_mul_of_lt (by omega)
  have htmp : (rem * r + l).toNat = rem.toNat * r.toNat + l.toNat :=
    by rw [BitVec.toNat_add_of_lt (by omega), hmul]
  have hdiv : ((rem * r + l) / d).toNat = (rem.toNat * r.toNat + l.toNat) / d.toNat := by
    rw [BitVec.toNat_udiv, htmp]
  have hmod : ((rem * r + l) % d).toNat = (rem.toNat * r.toNat + l.toNat) % d.toNat := by
    rw [BitVec.toNat_umod, htmp]
  have hdm := Nat.div_add_mod (rem.toNat * r.toNat + l.toNat) d.toNat
  have hq : (rem * q).toNat = rem.toNat * q.toNat := BitVec.toNat_mul_of_lt (by omega)
  -- the exact identity, before any bound on the quotient limb
  have hkey : d.toNat * (rem.toNat * q.toNat + (rem.toNat * r.toNat + l.toNat) / d.toNat) +
      (rem.toNat * r.toNat + l.toNat) % d.toNat = rem.toNat * 2 ^ 30 + l.toNat := by
    rw [Nat.mul_add, Nat.add_assoc, hdm, ← hqdr]
    ring
  have hdivle : (rem.toNat * r.toNat + l.toNat) / d.toNat ≤ rem.toNat * r.toNat + l.toNat :=
    Nat.div_le_self _ _
  have hsum : (rem * q + (rem * r + l) / d).toNat =
      rem.toNat * q.toNat + (rem.toNat * r.toNat + l.toNat) / d.toNat := by
    rw [BitVec.toNat_add_of_lt (by rw [hq, hdiv]; omega), hq, hdiv]
  refine ⟨?_, by rw [hmod]; exact Nat.mod_lt _ (by omega), by rw [hsum, hmod, hkey]⟩
  -- `d * limb <= rem * 2^30 + a[i] < d * 2^30`
  rw [hsum]
  refine Nat.lt_of_mul_lt_mul_left (a := d.toNat) ?_
  calc d.toNat * (rem.toNat * q.toNat + (rem.toNat * r.toNat + l.toNat) / d.toNat)
      ≤ rem.toNat * 2 ^ 30 + l.toNat := by omega
    _ < d.toNat * 2 ^ 30 := by omega

include hqdr hr hd in
theorem divmodLoop_spec (ls : List (BitVec 32)) (hls : Normalized ls) (rem : BitVec 32)
    (hrem : rem.toNat < d.toNat) :
    Normalized (divmodLoop d q r ls rem).1 ∧ (divmodLoop d q r ls rem).2.toNat < d.toNat ∧
      d.toNat * value (divmodLoop d q r ls rem).1.reverse + (divmodLoop d q r ls rem).2.toNat =
        rem.toNat * 2 ^ (30 * ls.length) + value ls.reverse := by
  induction ls generalizing rem with
  | nil => simpa [divmodLoop] using hrem
  | cons l ls ih =>
      rw [normalized_cons] at hls
      obtain ⟨hlimb, hrem', hstep⟩ := divmod_step d q r hqdr hr hd rem l hrem hls.1
      obtain ⟨hn, hlt, heq⟩ := ih hls.2 _ hrem'
      refine ⟨normalized_cons _ _ |>.2 ⟨hlimb, hn⟩, hlt, ?_⟩
      simp only [divmodLoop, List.reverse_cons, value_append, List.length_reverse,
        divmodLoop_length, value_cons, value_nil, List.length_cons, Nat.mul_zero, Nat.add_zero]
      set N := 2 ^ (30 * ls.length)
      set res := divmodLoop d q r ls ((rem * r + l) % d)
      set L := (rem * q + (rem * r + l) / d).toNat
      calc d.toNat * (value res.1.reverse + N * L) + res.2.toNat
          = (d.toNat * value res.1.reverse + res.2.toNat) + N * (d.toNat * L) := by ring
        _ = value ls.reverse + N * (d.toNat * L + ((rem * r + l) % d).toNat) := by
          rw [heq]; ring
        _ = rem.toNat * 2 ^ (30 * (ls.length + 1)) + (value ls.reverse + N * l.toNat) := by
          rw [hstep, Nat.mul_add 30, pow_add]; ring

include hqdr hr hd in
/-- `bn_divmod58` and `bn_divmod1000` in general: the quotient is normalized, the remainder is
below `d`, and `a = d * quotient + remainder`. -/
theorem bnDivmod_spec (a : Bignum256) (ha : a.Normalized) :
    (bnDivmod d q r a).1.Normalized ∧ (bnDivmod d q r a).2.toNat < d.toNat ∧
      a.value = d.toNat * (bnDivmod d q r a).1.value + (bnDivmod d q r a).2.toNat := by
  have h8 : (a.limb 8).toNat < 2 ^ 30 := Bignum256.limb_lt ha 8
  have hmod : (a.limb 8 % d).toNat < d.toNat := by
    rw [BitVec.toNat_umod]; exact Nat.mod_lt _ (by omega)
  have hdiv : (a.limb 8 / d).toNat = (a.limb 8).toNat / d.toNat := BitVec.toNat_udiv ..
  obtain ⟨hn, hlt, heq⟩ :=
    divmodLoop_spec d q r hqdr hr hd _ (normalized_take_reverse ha 8) _ hmod
  have htake : (a.val.take 8).length = 8 := by simp [a.length_val]
  rw [List.length_reverse, List.reverse_reverse, BitVec.toNat_umod, htake] at heq
  refine ⟨?_, hlt, ?_⟩
  · refine normalized_append _ _ |>.2 ⟨fun l hl => hn l (List.mem_reverse.1 hl), ?_⟩
    simpa [hdiv] using lt_of_le_of_lt (Nat.div_le_self _ _) h8
  · rw [value_limbs_top a]
    simp only [bnDivmod, Bignum256.value, value_append, value_cons, value_nil,
      List.length_reverse, divmodLoop_length, htake, Nat.mul_zero, Nat.add_zero, hdiv]
    set res := divmodLoop d q r (a.val.take 8).reverse (a.limb 8 % d)
    set a8 := (a.limb 8).toNat
    symm
    calc d.toNat * (value res.1.reverse + 2 ^ (30 * 8) * (a8 / d.toNat)) + res.2.toNat
        = (d.toNat * value res.1.reverse + res.2.toNat) +
            2 ^ (30 * 8) * (d.toNat * (a8 / d.toNat)) := by ring
      _ = value (a.val.take 8) + 2 ^ 240 * (d.toNat * (a8 / d.toNat) + a8 % d.toNat) := by
          rw [heq]; ring
      _ = value (a.val.take 8) + 2 ^ 240 * a8 := by rw [Nat.div_add_mod]

end Divmod

theorem bnDivmod58_spec (a : Bignum256) (ha : a.Normalized) :
    (bnDivmod58 a).1.Normalized ∧ (bnDivmod58 a).2.toNat < 58 ∧
      a.value = 58 * (bnDivmod58 a).1.value + (bnDivmod58 a).2.toNat :=
  bnDivmod_spec 58#32 18512790#32 4#32 (by decide) (by decide) (by decide) a ha

theorem bnDivmod1000_spec (a : Bignum256) (ha : a.Normalized) :
    (bnDivmod1000 a).1.Normalized ∧ (bnDivmod1000 a).2.toNat < 1000 ∧
      a.value = 1000 * (bnDivmod1000 a).1.value + (bnDivmod1000 a).2.toNat :=
  bnDivmod_spec 1000#32 1073741#32 824#32 (by decide) (by decide) (by decide) a ha

/-- `bn_divmod58` and `bn_divmod1000` divide every normalized `a` exactly: the quotient is
normalized and `a = 58 * a' + r` with `r < 58`, resp. `a = 1000 * a' + r` with `r < 1000`. -/
theorem bnDivmod58_bnDivmod1000_correct (a : Bignum256) (ha : a.Normalized) :
    ((bnDivmod58 a).1.Normalized ∧ (bnDivmod58 a).2.toNat < 58 ∧
        a.value = 58 * (bnDivmod58 a).1.value + (bnDivmod58 a).2.toNat) ∧
      ((bnDivmod1000 a).1.Normalized ∧ (bnDivmod1000 a).2.toNat < 1000 ∧
        a.value = 1000 * (bnDivmod1000 a).1.value + (bnDivmod1000 a).2.toNat) :=
  ⟨bnDivmod58_spec a ha, bnDivmod1000_spec a ha⟩

theorem bnDivmod58_bnDivmod1000_correct_one : bnOne.Normalized ∧
    (((bnDivmod58 bnOne).1.Normalized ∧ (bnDivmod58 bnOne).2.toNat < 58 ∧
        bnOne.value = 58 * (bnDivmod58 bnOne).1.value + (bnDivmod58 bnOne).2.toNat) ∧
      ((bnDivmod1000 bnOne).1.Normalized ∧ (bnDivmod1000 bnOne).2.toNat < 1000 ∧
        bnOne.value = 1000 * (bnDivmod1000 bnOne).1.value + (bnDivmod1000 bnOne).2.toNat)) :=
  ⟨bnOne_normalized, bnDivmod58_bnDivmod1000_correct bnOne bnOne_normalized⟩

/-- `#define DIGITS 78 // log10(2 ^ 256)`. -/
def DIGITS : Nat := 78

/-- The loop `for (i = 0; i < DIGITS; i += 3)` of `bn_digitcount` from `i` on, `n` iterations
to go: the digit count is raised to the position of the top nonzero digit of each
`bn_divmod1000` remainder. -/
def digitcountLoop : Nat → Nat → Bignum256 → Nat → Nat
  | 0, _, _, digits => digits
  | n + 1, i, val, digits =>
      let res := bnDivmod1000 val
      let digits :=
        if 100#32 ≤ res.2 then i + 3
        else if 10#32 ≤ res.2 then i + 2
        else if 1#32 ≤ res.2 then i + 1
        else digits
      digitcountLoop n (i + 3) res.1 digits

/-- `bn_digitcount`: `digits = 1`, then `DIGITS / 3` groups of three digits. -/
def bnDigitcount (a : Bignum256) : Nat := digitcountLoop (DIGITS / 3) 0 a 1

section Digitcount

theorem thousand_mul_add_mod (v r n : Nat) (hr : r < 1000) :
    (1000 * v + r) % 1000 ^ (n + 1) = 1000 * (v % 1000 ^ n) + r := by
  rw [pow_succ', Nat.mod_mul, Nat.mul_add_div (by norm_num), Nat.div_eq_of_lt hr, Nat.add_zero]
  omega

theorem digitGroup_eq (r : Nat) (hr : r < 1000) (i digits : Nat) :
    (if 100 ≤ r then i + 3 else if 10 ≤ r then i + 2 else if 1 ≤ r then i + 1 else digits) =
      if r = 0 then digits else i + Nat.log 10 r + 1 := by
  split_ifs with h100 h10 h1 h0 h0 h0 <;> try omega
  · rw [Nat.log_eq_of_pow_le_of_lt_pow (m := 2) (by omega) (by omega)]
  · rw [Nat.log_eq_of_pow_le_of_lt_pow (m := 1) (by omega) (by omega)]
  · rw [Nat.log_eq_of_pow_le_of_lt_pow (m := 0) (by omega) (by omega)]

theorem digitcountLoop_eq (n i : Nat) (val : Bignum256) (hval : val.Normalized) (digits : Nat) :
    digitcountLoop n i val digits =
      if val.value % 1000 ^ n = 0 then digits else i + Nat.log 10 (val.value % 1000 ^ n) + 1 := by
  induction n generalizing i val digits with
  | zero => rw [digitcountLoop, pow_zero, Nat.mod_one, if_pos rfl]
  | succ n ih =>
      obtain ⟨hn, hlt, hv⟩ := bnDivmod1000_spec val hval
      have hle (c : Nat) (hc : c < 2 ^ 32) : (BitVec.ofNat 32 c ≤ (bnDivmod1000 val).2) ↔
          c ≤ (bnDivmod1000 val).2.toNat := by
        rw [BitVec.le_def, BitVec.toNat_ofNat, Nat.mod_eq_of_lt hc]
      rw [digitcountLoop, ih (i + 3) _ hn, hv, thousand_mul_add_mod _ _ _ hlt]
      simp only [hle 100 (by norm_num), hle 10 (by norm_num), hle 1 (by norm_num),
        digitGroup_eq _ hlt]
      by_cases hw : (bnDivmod1000 val).1.value % 1000 ^ n = 0
      · rw [if_pos hw, hw, Nat.mul_zero, Nat.zero_add]
      · have hlog : Nat.log 10 (1000 * ((bnDivmod1000 val).1.value % 1000 ^ n) +
            (bnDivmod1000 val).2.toNat) = Nat.log 10 ((bnDivmod1000 val).1.value % 1000 ^ n) + 3 :=
          log_pow_mul_add (by norm_num) 3 _ _ hw hlt
        rw [if_neg hw, if_neg (by omega), hlog]
        omega

/-- `bn_digitcount` is the length of the decimal representation of every value below
`10^78 = 1000^26`, the `DIGITS` the loop covers: `1` for zero and `log10 a + 1` otherwise. -/
theorem bnDigitcount_eq_decimal_length (a : Bignum256) (ha : a.Normalized)
    (hlt : a.value < 10 ^ 78) :
    bnDigitcount a = (if a.value = 0 then 1 else Nat.log 10 a.value + 1) ∧
      bnDigitcount a = max 1 (Nat.digits 10 a.value).length := by
  have hlog : bnDigitcount a = if a.value = 0 then 1 else Nat.log 10 a.value + 1 := by
    rw [bnDigitcount, digitcountLoop_eq _ _ _ ha, show DIGITS / 3 = 26 from rfl,
      Nat.mod_eq_of_lt (by norm_num; exact hlt), Nat.zero_add]
  refine ⟨hlog, ?_⟩
  rw [hlog]
  split_ifs with h0
  · simp [h0]
  · rw [Nat.digits_len _ _ (by norm_num) h0]
    omega

theorem bnDigitcount_eq_decimal_length_one : bnOne.Normalized ∧ bnOne.value < 10 ^ 78 ∧
    (bnDigitcount bnOne = (if bnOne.value = 0 then 1 else Nat.log 10 bnOne.value + 1) ∧
      bnDigitcount bnOne = max 1 (Nat.digits 10 bnOne.value).length) :=
  ⟨bnOne_normalized, by norm_num,
    bnDigitcount_eq_decimal_length bnOne bnOne_normalized (by norm_num)⟩

end Digitcount

end Bignum
