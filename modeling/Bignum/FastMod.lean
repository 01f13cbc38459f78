import Bignum.AddSub

set_option autoImplicit false

/- The biased 64-bit subtraction of `coef * prime` shared by `bn_fast_mod` and
`bn_multiply_reduce_step`, and the operations that end in `bn_fast_mod`: `bn_mult_k` and
`bn_addmod`. The bias `2^61` on limb 0 and `2^61 - 2^31` on every later limb keeps each
partial result nonnegative and sums to a multiple of `2^270`. -/
namespace Bignum

/-- The loop over limbs `1, 2, ...`:
`temp >>= 30; temp += 0x1FFFFFFF80000000 + x[j] - prime[j] * coef; x[j] = temp & 0x3FFFFFFF`.
It returns the stored limbs and the last `temp`. -/
def subMulLoop (coef : BitVec 32) : List (BitVec 32) → List (BitVec 32) → BitVec 64 →
    List (BitVec 32) × BitVec 64
  | x :: xs, p :: ps, temp =>
      let temp := (temp >>> 30) +
        (0x1FFFFFFF80000000#64 + x.setWidth 64 - p.setWidth 64 * coef.setWidth 64)
      let r := subMulLoop coef xs ps temp
      ((temp &&& 0x3FFFFFFF#64).setWidth 32 :: r.1, r.2)
  | _, _, temp => ([], temp)

/-- The exact integers the accumulator of `subMulLoop` should hold,
`(temp >> 30) + 2^61 - 2^31 + x[j] - prime[j] * coef`; it never wraps iff each lies in
`[0, 2^64)`. -/
def subMulSums (coef : BitVec 32) : List (BitVec 32) → List (BitVec 32) → BitVec 64 → List Int
  | x :: xs, p :: ps, temp =>
      ((temp >>> 30).toNat + (2 ^ 61 - 2 ^ 31) + x.toNat - p.toNat * coef.toNat : Int) ::
        subMulSums coef xs ps ((temp >>> 30) +
          (0x1FFFFFFF80000000#64 + x.setWidth 64 - p.setWidth 64 * coef.setWidth 64))
  | _, _, _ => []

/-- The unrolled first iteration, `temp = 0x2000000000000000 + x[0] - prime[0] * coef`. -/
def subMulFirst (coef x p : BitVec 32) : BitVec 64 :=
  0x2000000000000000#64 + x.setWidth 64 - p.setWidth 64 * coef.setWidth 64

theorem subMulLoop_length (coef : BitVec 32) (xs ps : List (BitVec 32)) (temp : BitVec 64)
    (h : xs.length = ps.length) : (subMulLoop coef xs ps temp).1.length = xs.length := by
  induction xs generalizing ps temp with
  | nil => rfl
  | cons x xs ih =>
      cases ps with
      | nil => simp at h
      | cons p ps => simp [subMulLoop, ih ps _ (by simpa using h)]

/-- `bn_fast_mod`: subtract `coef * prime` for `coef = x[8] >> 16`. -/
def bnFastMod (x prime : Bignum256) : Bignum256 :=
  let coef := x.limb 8 >>> 16
  let temp := subMulFirst coef (x.limb 0) (prime.limb 0)
  ⟨(temp &&& 0x3FFFFFFF#64).setWidth 32 :: (subMulLoop coef x.val.tail prime.val.tail temp).1, by
    rw [List.length_cons, subMulLoop_length _ _ _ _ (by simp [x.length_val, prime.length_val])]
    simp [x.length_val]⟩

/-- The exact integers the accumulator of `bn_fast_mod` should hold, the unrolled first
iteration `2^61 + x[0] - prime[0] * coef` followed by the loop's. -/
def fastModSums (x prime : Bignum256) : List Int :=
  let coef := x.limb 8 >>> 16
  (2 ^ 61 + (x.limb 0).toNat - (prime.limb 0).toNat * coef.toNat : Int) ::
    subMulSums coef x.val.tail prime.val.tail (subMulFirst coef (x.limb 0) (prime.limb 0))

/-- `bn_mult_k`: `x[j] = k * x[j]` for a `uint8_t k`, then `bn_fast_mod`. -/
def bnMultK (x : Bignum256) (k : BitVec 8) (prime : Bignum256) : Bignum256 :=
  bnFastMod ⟨x.val.map (fun l => k.setWidth 32 * l), by simp [x.length_val]⟩ prime

/-- `bn_addmod`: `a[i] += b[i]` without carry, then `bn_fast_mod`. -/
def bnAddmod (a b prime : Bignum256) : Bignum256 :=
  bnFastMod ⟨List.zipWith (· + ·) a.val b.val, by simp [a.length_val, b.length_val]⟩ prime

theorem mul_lt_bias {p c : Nat} (hp : p < 2 ^ 30) (hc : c < 2 ^ 31) :
    p * c < 2 ^ 61 - 2 ^ 31 := by
  have := Nat.mul_le_mul (Nat.le_pred_of_lt hp) (Nat.le_pred_of_lt hc)
  norm_num at this ⊢
  omega

theorem subMul_step (T : BitVec 64) (x p c : BitVec 32) (hT : T.toNat < 2 ^ 62)
    (hp : p.toNat < 2 ^ 30) (hc : c.toNat < 2 ^ 31) :
    ((T >>> 30) + (0x1FFFFFFF80000000#64 + x.setWidth 64 - p.setWidth 64 * c.setWidth 64)).toNat +
        p.toNat * c.toNat = T.toNat / 2 ^ 30 + (2 ^ 61 - 2 ^ 31) + x.toNat ∧
      ((T >>> 30) + (0x1FFFFFFF80000000#64 + x.setWidth 64 -
        p.setWidth 64 * c.setWidth 64)).toNat < 2 ^ 62 := by
  have hpc := mul_lt_bias hp hc
  have hx := x.isLt
  have hmul := toNat_mul_setWidth64 p c
  have hadd : (0x1FFFFFFF80000000#64 + x.setWidth 64).toNat = (2 ^ 61 - 2 ^ 31) + x.toNat := by
    rw [BitVec.toNat_add_of_lt] <;> simp only [toNat_setWidth64, BitVec.toNat_ofNat] <;> omega
  have hsub : (0x1FFFFFFF80000000#64 + x.setWidth 64 - p.setWidth 64 * c.setWidth 64).toNat =
      (2 ^ 61 - 2 ^ 31) + x.toNat - p.toNat * c.toNat := by
    rw [BitVec.toNat_sub_of_le (by rw [BitVec.le_def, hadd, hmul]; omega), hadd, hmul]
  rw [BitVec.toNat_add_of_lt] <;> rw [toNat_ushiftRight_eq_div, hsub] <;> omega

theorem subMulLoop_spec (c : BitVec 32) (hc : c.toNat < 2 ^ 31) (xs ps : List (BitVec 32))
    (hp : Normalized ps) (hl : xs.length = ps.length) (T : BitVec 64) (hT : T.toNat < 2 ^ 62) :
    Normalized (subMulLoop c xs ps T).1 ∧ (subMulLoop c xs ps T).2.toNat < 2 ^ 62 ∧
      (∀ s ∈ subMulSums c xs ps T, 0 ≤ s ∧ s < 2 ^ 62) ∧
      value (subMulLoop c xs ps T).1 +
          2 ^ (30 * xs.length) * ((subMulLoop c xs ps T).2.toNat / 2 ^ 30) +
          c.toNat * value ps =
        T.toNat / 2 ^ 30 + (2 ^ 61 - 2 ^ 31) * ones xs.length + value xs := by
  induction xs generalizing ps T with
  | nil =>
      obtain rfl : ps = [] := List.length_eq_zero.1 hl.symm
      simpa [subMulLoop, subMulSums, ones] using hT
  | cons x xs ih =>
      obtain _ | ⟨p, ps⟩ := ps; · simp at hl
      simp only [normalized_cons, List.length_cons, add_left_inj] at hp hl
      obtain ⟨hR, hRlt⟩ := subMul_step T x p c hT hp.1 hc
      simp only [subMulLoop, subMulSums, List.length_cons]
      generalize (T >>> 30) + (0x1FFFFFFF80000000#64 + x.setWidth 64 -
        p.setWidth 64 * c.setWidth 64) = R at hR hRlt ⊢
      obtain ⟨hn, hF, hsums, hv⟩ := ih ps hp.2 hl R hRlt
      have hpc := mul_lt_bias hp.1 hc
      refine ⟨(normalized_cons _ _).2 ⟨setWidth_and_mask64_lt _, hn⟩, hF, ?_, ?_⟩
      · intro s hs
        rcases List.mem_cons.1 hs with rfl | hs
        · rw [toNat_ushiftRight_eq_div]
          constructor <;> push_cast <;> omega
        · exact hsums _ hs
      · rw [value_cons, value_cons, value_cons, toNat_setWidth_and_mask64, ones,
          show 30 * (xs.length + 1) = 30 + 30 * xs.length by ring, Nat.pow_add, Nat.mul_assoc,
          Nat.mul_add c.toNat, Nat.mul_left_comm c.toNat, Nat.mul_add (2 ^ 61 - 2 ^ 31),
          Nat.mul_left_comm (2 ^ 61 - 2 ^ 31), Nat.mul_comm c.toNat p.toNat]
        have hR30 := Nat.mod_add_div R.toNat (2 ^ 30)
        omega

theorem subMulFirst_spec (c x p : BitVec 32) (hp : p.toNat < 2 ^ 30) (hc : c.toNat < 2 ^ 31) :
    (subMulFirst c x p).toNat + p.toNat * c.toNat = 2 ^ 61 + x.toNat ∧
      (subMulFirst c x p).toNat < 2 ^ 62 := by
  have hpc := mul_lt_bias hp hc
  have hx := x.isLt
  have hmul := toNat_mul_setWidth64 p c
  have hadd : (0x2000000000000000#64 + x.setWidth 64).toNat = 2 ^ 61 + x.toNat := by
    rw [BitVec.toNat_add_of_lt] <;> simp only [toNat_setWidth64, BitVec.toNat_ofNat] <;> omega
  rw [subMulFirst, BitVec.toNat_sub_of_le (by rw [BitVec.le_def, hadd, hmul]; omega), hadd, hmul]
  omega

theorem fastMod_bias : 2 ^ 61 + 2 ^ 30 * ((2 ^ 61 - 2 ^ 31) * ones 8) = 2 ^ 301 := by
  norm_num [ones]

theorem subMulNine_value (c : BitVec 32) (hc : c.toNat < 2 ^ 31) (x0 : BitVec 32)
    (xs : List (BitVec 32)) (hxs : xs.length = 8) (p : Bignum256) (hp : p.Normalized) :
    value ((subMulFirst c x0 (p.limb 0) &&& 0x3FFFFFFF#64).setWidth 32 ::
        (subMulLoop c xs p.val.tail (subMulFirst c x0 (p.limb 0))).1) +
      2 ^ 270 * ((subMulLoop c xs p.val.tail (subMulFirst c x0 (p.limb 0))).2.toNat / 2 ^ 30) +
      c.toNat * p.value = 2 ^ 301 + (x0.toNat + 2 ^ 30 * value xs) := by
  obtain ⟨hT0, hT0lt⟩ := subMulFirst_spec c x0 (p.limb 0) (p.limb_lt hp 0) hc
  obtain ⟨-, -, -, hv⟩ := subMulLoop_spec c hc xs _ (normalized_tail hp)
    (by simp [hxs, p.length_val]) _ hT0lt
  rw [hxs] at hv
  rw [value_cons, toNat_setWidth_and_mask64, value_limbs_tail p, Nat.mul_add c.toNat,
    Nat.mul_left_comm c.toNat, Nat.mul_comm c.toNat]
  have := Nat.mod_add_div (subMulFirst c x0 (p.limb 0)).toNat (2 ^ 30)
  have := fastMod_bias
  omega

/-- `bn_fast_mod` subtracts exactly `coef * prime` for `coef = x[8] >> 16` without any
wrap, leaving a normalized number below `2 prime`, for every 32-bit limb pattern of `x`. -/
theorem bnFastMod_spec (x p : Bignum256) (hp : InBand p) :
    (bnFastMod x p).Normalized ∧
      (bnFastMod x p).value + (x.limb 8 >>> 16).toNat * p.value = x.value ∧
      (bnFastMod x p).value < 2 * p.value ∧
      ∀ s ∈ fastModSums x p, 0 ≤ s ∧ s < 2 ^ 64 := by
  set c := x.limb 8 >>> 16
  have hc16 : c.toNat = (x.limb 8).toNat / 2 ^ 16 := toNat_ushiftRight_eq_div _ _
  have hx8 := (x.limb 8).isLt
  have hc : c.toNat < 2 ^ 31 := by omega
  obtain ⟨hT0, hT0lt⟩ := subMulFirst_spec c (x.limb 0) (p.limb 0) (p.limb_lt hp.normalized 0) hc
  -- the unrolled first iteration does not underflow
  have hfirst : 0 ≤ (2 ^ 61 + (x.limb 0).toNat - (p.limb 0).toNat * c.toNat : Int) ∧
      (2 ^ 61 + (x.limb 0).toNat - (p.limb 0).toNat * c.toNat : Int) < 2 ^ 64 := by
    have h : ((subMulFirst c (x.limb 0) (p.limb 0)).toNat : Int) +
        (p.limb 0).toNat * c.toNat = 2 ^ 61 + (x.limb 0).toNat := by exact_mod_cast hT0
    omega
  obtain ⟨hn, -, hsums, -⟩ := subMulLoop_spec c hc x.val.tail _ (normalized_tail hp.normalized)
    (by simp [x.length_val, p.length_val]) _ hT0lt
  have hident := subMulNine_value c hc (x.limb 0) x.val.tail (by simp [x.length_val]) p
    hp.normalized
  rw [← value_limbs_tail x] at hident
  change (bnFastMod x p).value + _ + _ = _ at hident
  have hlow := value_limbs_top x
  have hlowlt : value (x.val.take 8) < 2 ^ 243 := by
    have := value_le_ones (x.val.take 8)
    rw [show (x.val.take 8).length = 8 by simp [x.length_val]] at this
    have : (2 ^ 32 - 1) * ones 8 < 2 ^ 243 := by decide
    omega
  have hcP : c.toNat * p.value ≤ c.toNat * 2 ^ 256 := Nat.mul_le_mul_left _ hp.upper.le
  have hgap := mul_two_pow_sub_le hp c.toNat
  have hc224 : c.toNat * 2 ^ 224 ≤ 2 ^ 16 * 2 ^ 224 := Nat.mul_le_mul_right _ (by omega)
  have hnorm : (bnFastMod x p).Normalized :=
    (normalized_cons _ _).2 ⟨setWidth_and_mask64_lt _, hn⟩
  have hv270 := (bnFastMod x p).value_lt hnorm
  have hlower := hp.lower
  refine ⟨hnorm, by omega, by omega, ?_⟩
  · intro s hs
    rcases List.mem_cons.1 hs with rfl | hs
    · exact hfirst
    · have := hsums s hs; omega

theorem bnFastMod_modEq (x p : Bignum256) (hp : InBand p) :
    (bnFastMod x p).value ≡ x.value [MOD p.value] := by
  rw [← (bnFastMod_spec x p hp).2.1]
  exact (Nat.add_mul_mod_self_right _ _ _).symm

/-- `bn_fast_mod` leaves every 32-bit limb pattern `x` normalized, partly reduced and
congruent to `x` modulo the prime, its biased 64-bit accumulator never wrapping. -/
theorem bnFastMod_partly_reduces (x p : Bignum256) (hp : InBand p) :
    (bnFastMod x p).Normalized ∧ (bnFastMod x p).value < 2 * p.value ∧
      (bnFastMod x p).value ≡ x.value [MOD p.value] ∧
      ∀ s ∈ fastModSums x p, 0 ≤ s ∧ s < 2 ^ 64 := by
  obtain ⟨hn, -, hlt, hs⟩ := bnFastMod_spec x p hp
  exact ⟨hn, hlt, bnFastMod_modEq x p hp, hs⟩

theorem bnFastMod_partly_reduces_max : InBand secp256k1P ∧
    ((bnFastMod ⟨List.replicate 9 0xFFFFFFFF#32, rfl⟩ secp256k1P).Normalized ∧
      (bnFastMod ⟨List.replicate 9 0xFFFFFFFF#32, rfl⟩ secp256k1P).value <
        2 * secp256k1P.value ∧
      (bnFastMod ⟨List.replicate 9 0xFFFFFFFF#32, rfl⟩ secp256k1P).value ≡
        (⟨List.replicate 9 0xFFFFFFFF#32, rfl⟩ : Bignum256).value [MOD secp256k1P.value] ∧
      ∀ s ∈ fastModSums ⟨List.replicate 9 0xFFFFFFFF#32, rfl⟩ secp256k1P,
        0 ≤ s ∧ s < 2 ^ 64) :=
  ⟨by decide, bnFastMod_partly_reduces _ secp256k1P (by decide)⟩

theorem value_map_mul (k : BitVec 8) (hk : k.toNat ≤ 4) (xs : List (BitVec 32))
    (hx : Normalized xs) : value (xs.map fun l => k.setWidth 32 * l) = k.toNat * value xs := by
  have hk32 : (k.setWidth 32).toNat = k.toNat := by
    rw [BitVec.toNat_setWidth]; exact Nat.mod_eq_of_lt (by omega)
  induction xs with
  | nil => simp
  | cons x xs ih =>
      simp only [normalized_cons] at hx
      have hmul : k.toNat * x.toNat < 2 ^ 32 :=
        lt_of_le_of_lt (Nat.mul_le_mul_right _ hk) (by omega)
      rw [List.map_cons, value_cons, value_cons, ih hx.2,
        BitVec.toNat_mul_of_lt (by rwa [hk32]), hk32]
      ring

/-- `bn_addmod` and `bn_mult_k` (for `k <= 4`) leave a normalized, partly reduced result
congruent to the sum, resp. the `k`-fold multiple. -/
theorem bnAddmod_bnMultK_correct (p : Bignum256) (hp : InBand p) :
    (∀ a b : Bignum256, a.Normalized → b.Normalized →
      (bnAddmod a b p).Normalized ∧ (bnAddmod a b p).value < 2 * p.value ∧
      (bnAddmod a b p).value ≡ a.value + b.value [MOD p.value]) ∧
    (∀ (x : Bignum256) (k : BitVec 8), x.Normalized → k.toNat ≤ 4 →
      (bnMultK x k p).Normalized ∧ (bnMultK x k p).value < 2 * p.value ∧
      (bnMultK x k p).value ≡ k.toNat * x.value [MOD p.value]) := by
  refine ⟨fun a b ha hb => ?_, fun x k hx hk => ?_⟩
  · obtain ⟨hn, -, hlt, -⟩ := bnFastMod_spec _ p hp
    refine ⟨hn, hlt, ?_⟩
    have hsum := value_zipWith_add a.val b.val ha hb (by rw [a.length_val, b.length_val])
    exact (bnFastMod_modEq _ p hp).trans (congrArg (· % p.value) hsum)
  · obtain ⟨hn, -, hlt, -⟩ := bnFastMod_spec _ p hp
    refine ⟨hn, hlt, ?_⟩
    exact (bnFastMod_modEq _ p hp).trans (congrArg (· % p.value) (value_map_mul k hk x.val hx))

theorem bnAddmod_bnMultK_correct_secp256k1 : InBand secp256k1P ∧
    ((∀ a b : Bignum256, a.Normalized → b.Normalized →
      (bnAddmod a b secp256k1P).Normalized ∧
      (bnAddmod a b secp256k1P).value < 2 * secp256k1P.value ∧
      (bnAddmod a b secp256k1P).value ≡ a.value + b.value [MOD secp256k1P.value]) ∧
    (∀ (x : Bignum256) (k : BitVec 8), x.Normalized → k.toNat ≤ 4 →
      (bnMultK x k secp256k1P).Normalized ∧
      (bnMultK x k secp256k1P).value < 2 * secp256k1P.value ∧
      (bnMultK x k secp256k1P).value ≡ k.toNat * x.value [MOD secp256k1P.value])) :=
  ⟨by decide, bnAddmod_bnMultK_correct secp256k1P (by decide)⟩

end Bignum
