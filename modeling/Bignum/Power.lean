import Bignum.Multiply
import Bignum.Compare
import Bignum.Shift
import Mathlib.FieldTheory.Finite.Basic

set_option autoImplicit false

/- `bn_inverse` and `bn_sqrt`: right-to-left square-and-multiply over the 30-bit limbs of the
exponent, `x^(p-2)` and `x^((p+1)/4)`, each followed by `bn_mod`. -/
namespace Bignum

/-- The inner loop over the bits of one exponent limb, `n` of its 30 iterations to go:
`if (i == 8 && limb == 0) break; if (limb & 1) bn_multiply(x, &res, prime); limb >>= 1;
bn_multiply(x, x, prime)`, where `last` is `i == 8`. -/
def powLimbLoop (prime : Bignum256) (last : Bool) :
    Nat → Bignum256 → Bignum256 → BitVec 32 → Option (Bignum256 × Bignum256)
  | 0, x, res, _ => some (x, res)
  | n + 1, x, res, limb =>
      if last ∧ limb = 0 then some (x, res)
      else do
        let res ← (if limb &&& 1#32 ≠ 0 then bnMultiply x res prime else some res)
        let x ← bnMultiply x x prime
        powLimbLoop prime last n x res (limb >>> 1)

/-- The outer loop `for (i = 0; i < 9; i++)` over the exponent limbs from limb `i` on. -/
def powLoop (prime : Bignum256) :
    Nat → List (BitVec 32) → Bignum256 → Bignum256 → Option (Bignum256 × Bignum256)
  | _, [], x, res => some (x, res)
  | i, limb :: limbs, x, res => do
      let (x, res) ← powLimbLoop prime (i == 8) 30 x res limb
      powLoop prime (i + 1) limbs x res

/-- The exponent limbs of `bn_inverse`: `limb = prime->val[i]; if (i == 0) limb -= 2;`. -/
def inverseLimbs (prime : Bignum256) : List (BitVec 32) :=
  (prime.limb 0 - 2#32) :: prime.val.tail

/-- `bn_inverse`: `x = x^(prime - 2)`, reduced. -/
def bnInverse (x prime : Bignum256) : Option Bignum256 := do
  let (_, res) ← powLoop prime 0 (inverseLimbs prime) x bnOne
  bnMod res prime

/-- The exponent of `bn_sqrt`: `p = prime; bn_addi(&p, 1); bn_rshift(&p); bn_rshift(&p)`. -/
def sqrtExponent (prime : Bignum256) : Bignum256 :=
  bnRshift (bnRshift (bnAddi prime 1#32))

/-- `bn_sqrt`: `x = x^((prime + 1) / 4)`, reduced. -/
def bnSqrt (x prime : Bignum256) : Option Bignum256 := do
  let (_, res) ← powLoop prime 0 (sqrtExponent prime).val x bnOne
  bnMod res prime

/-! ### The square-and-multiply loops -/

section Loops

variable (p : Bignum256) (hp : InBand p)
include hp

theorem bnMultiply_lt (k x : Bignum256) (hk : k.Normalized) (hx : x.Normalized)
    (hk180 : k.value < 180 * p.value) (hx180 : x.value < 180 * p.value) :
    ∃ r, bnMultiply k x p = some r ∧ r.Normalized ∧ r.value < 180 * p.value ∧
      r.value < 2 * p.value ∧ r.value ≡ k.value * x.value [MOD p.value] := by
  obtain ⟨r, h, hn, hlt, hmod⟩ :=
    bnMultiply_spec k x p hp hk hx (mul_lt_of_lt_180 k x p hp hk180 hx180)
  exact ⟨r, h, hn, by omega, hlt, hmod⟩

theorem condMultiply_spec (x res : Bignum256) (limb : BitVec 32) (hx : x.Normalized)
    (hx180 : x.value < 180 * p.value) (hres : res.Normalized) (hres2 : res.value < 2 * p.value) :
    ∃ res₁, (if limb &&& 1#32 ≠ 0 then bnMultiply x res p else some res) = some res₁ ∧
      res₁.Normalized ∧ res₁.value < 2 * p.value ∧
      res₁.value ≡ res.value * x.value ^ (limb.toNat % 2) [MOD p.value] := by
  by_cases hbit : limb &&& 1#32 ≠ 0
  · have h1 : limb.toNat % 2 = 1 := by
      have := toNat_and_one limb
      have : (limb &&& 1#32).toNat ≠ 0 := fun h => hbit (BitVec.eq_of_toNat_eq h)
      omega
    obtain ⟨r, h, hn, -, hlt, hmod⟩ := bnMultiply_lt p hp x res hx hres hx180 (by omega)
    exact ⟨r, by rw [if_pos hbit, h], hn, hlt, by rw [h1, pow_one, Nat.mul_comm]; exact hmod⟩
  · have h0 : limb.toNat % 2 = 0 := by
      rw [← toNat_and_one, not_not.1 hbit]
      rfl
    exact ⟨res, by rw [if_neg hbit], hres, hres2, by rw [h0, pow_zero, Nat.mul_one]⟩

theorem powLimbLoop_spec (last : Bool) (n : Nat) (x res : Bignum256) (limb : BitVec 32)
    (hx : x.Normalized) (hx180 : x.value < 180 * p.value) (hres : res.Normalized)
    (hres2 : res.value < 2 * p.value) :
    ∃ x' res', powLimbLoop p last n x res limb = some (x', res') ∧
      x'.Normalized ∧ x'.value < 180 * p.value ∧
      res'.Normalized ∧ res'.value < 2 * p.value ∧
      res'.value ≡ res.value * x.value ^ (limb.toNat % 2 ^ n) [MOD p.value] ∧
      (last = false → x'.value ≡ x.value ^ 2 ^ n [MOD p.value]) := by
  induction n generalizing x res limb with
  | zero => exact ⟨x, res, rfl, hx, hx180, hres, hres2,
      by rw [pow_zero, Nat.mod_one, pow_zero, Nat.mul_one], fun _ => by rw [pow_zero, pow_one]⟩
  | succ n ih =>
      by_cases hbreak : last ∧ limb = 0
      · obtain ⟨rfl, rfl⟩ := hbreak
        refine ⟨x, res, by simp [powLimbLoop], hx, hx180, hres, hres2, by simp [Nat.ModEq.refl],
          by simp⟩
      obtain ⟨res₁, hres₁, hn₁, hlt₁, hmod₁⟩ :=
        condMultiply_spec p hp x res limb hx hx180 hres hres2
      obtain ⟨x₁, hx₁, hxn₁, hx180₁, -, hxmod₁⟩ :=
        bnMultiply_lt p hp x x hx hx hx180 hx180
      obtain ⟨x', res', hloop, hx', hx180', hres', hres2', hmod', hsq'⟩ :=
        ih x₁ res₁ (limb >>> 1) hxn₁ hx180₁ hn₁ hlt₁
      have hshift : (limb >>> 1).toNat = limb.toNat / 2 := by
        rw [toNat_ushiftRight_eq_div, pow_one]
      have hbits : limb.toNat % 2 ^ (n + 1) = limb.toNat % 2 + 2 * (limb.toNat / 2 % 2 ^ n) := by
        rw [pow_succ', Nat.mod_mul]
      refine ⟨x', res', ?_, hx', hx180', hres', hres2', ?_, fun hl => ?_⟩
      · rw [powLimbLoop, if_neg hbreak]
        simp only [hres₁, hx₁, Option.bind_eq_bind, Option.some_bind]
        exact hloop
      · rw [hshift] at hmod'
        calc res'.value
            ≡ res₁.value * x₁.value ^ (limb.toNat / 2 % 2 ^ n) [MOD p.value] := hmod'
          _ ≡ res.value * x.value ^ (limb.toNat % 2) * (x.value * x.value) ^
                (limb.toNat / 2 % 2 ^ n) [MOD p.value] :=
            hmod₁.mul (hxmod₁.pow (limb.toNat / 2 % 2 ^ n))
          _ = res.value * x.value ^ (limb.toNat % 2 ^ (n + 1)) := by
            rw [hbits, pow_add, pow_mul, sq, Nat.mul_assoc]
      · calc x'.value ≡ x₁.value ^ 2 ^ n [MOD p.value] := hsq' hl
          _ ≡ (x.value * x.value) ^ 2 ^ n [MOD p.value] := hxmod₁.pow (2 ^ n)
          _ = x.value ^ 2 ^ (n + 1) := by rw [← sq, ← pow_mul, pow_succ']

theorem powLoop_spec (ls : List (BitVec 32)) (hls : Normalized ls) (i : Nat)
    (hi : i + ls.length = 9) (x res : Bignum256) (hx : x.Normalized)
    (hx180 : x.value < 180 * p.value) (hres : res.Normalized) (hres2 : res.value < 2 * p.value) :
    ∃ x' res', powLoop p i ls x res = some (x', res') ∧ res'.Normalized ∧
      res'.value < 2 * p.value ∧ res'.value ≡ res.value * x.value ^ value ls [MOD p.value] := by
  induction ls generalizing i x res with
  | nil => exact ⟨x, res, rfl, hres, hres2, by rw [value_nil, pow_zero, Nat.mul_one]⟩
  | cons l ls ih =>
      obtain ⟨hl, hls⟩ := (normalized_cons l ls).1 hls
      obtain ⟨x₁, res₁, hlimb, hxn₁, hx180₁, hn₁, hlt₁, hmod₁, hsq₁⟩ :=
        powLimbLoop_spec p hp (i == 8) 30 x res l hx hx180 hres hres2
      obtain ⟨x', res', hloop, hn', hlt', hmod'⟩ :=
        ih hls (i + 1) (by simp at hi; omega) x₁ res₁ hxn₁ hx180₁ hn₁ hlt₁
      -- the squarings of `x` matter only when a limb follows, and then `i < 8`
      have hpow : x₁.value ^ value ls ≡ x.value ^ (2 ^ 30 * value ls) [MOD p.value] := by
        by_cases hV : value ls = 0
        · rw [hV, Nat.mul_zero, pow_zero, pow_zero]
        · have hne : ls ≠ [] := fun h => hV (by rw [h, value_nil])
          have hlen := List.length_pos.2 hne
          rw [pow_mul]
          exact (hsq₁ (by simp at hi ⊢; omega)).pow _
      refine ⟨x', res', ?_, hn', hlt', ?_⟩
      · rw [powLoop, hlimb]
        exact hloop
      · rw [Nat.mod_eq_of_lt hl] at hmod₁
        calc res'.value ≡ res₁.value * x₁.value ^ value ls [MOD p.value] := hmod'
          _ ≡ res.value * x.value ^ l.toNat * x.value ^ (2 ^ 30 * value ls) [MOD p.value] :=
            hmod₁.mul hpow
          _ = res.value * x.value ^ value (l :: ls) := by rw [value_cons, pow_add, Nat.mul_assoc]

/-- Square-and-multiply over nine exponent limbs spelling `e`, then `bn_mod`: the fully
reduced `x^e`. -/
theorem powMod_spec (ls : List (BitVec 32)) (hls : Normalized ls) (hlen : ls.length = 9)
    (x : Bignum256) (hx : x.Normalized) (hx180 : x.value < 180 * p.value) :
    ∃ x' res, powLoop p 0 ls x bnOne = some (x', res) ∧ ∃ r, bnMod res p = some r ∧
      r.Normalized ∧ r.value < p.value ∧ r.value ≡ x.value ^ value ls [MOD p.value] := by
  have hone : bnOne.value < 2 * p.value := by rw [value_bnOne]; have := hp.lower; omega
  obtain ⟨x', res, hloop, hn, hlt, hmod⟩ := powLoop_spec p hp ls hls 0 (by omega) x bnOne hx
    hx180 bnOne_normalized hone
  obtain ⟨hrn, hrv⟩ := bnMod_select_mod res p hn hp.normalized hlt
  rw [value_bnOne, Nat.one_mul] at hmod
  refine ⟨x', res, hloop, _, bnMod_eq res p hn hp.normalized, hrn,
    hrv ▸ Nat.mod_lt _ (by have := hp.lower; omega), ?_⟩
  rw [hrv]
  exact (Nat.mod_modEq _ _).trans hmod

end Loops

/-! ### `bn_inverse` -/

theorem value_inverseLimbs (p : Bignum256) (hp : p.Normalized) (hp0 : 2 ≤ (p.limb 0).toNat) :
    Normalized (inverseLimbs p) ∧ value (inverseLimbs p) = p.value - 2 := by
  have hsub : (p.limb 0 - 2#32).toNat = (p.limb 0).toNat - 2 := BitVec.toNat_sub_of_le hp0
  have hpt := normalized_tail hp
  have h0 := p.limb_lt hp 0
  refine ⟨(normalized_cons _ _).2 ⟨by omega, hpt⟩, ?_⟩
  rw [inverseLimbs, value_cons, hsub, value_limbs_tail p]
  omega

theorem mul_pow_sub_two_modEq_one {P a : Nat} (hP : P.Prime) (ha : ¬P ∣ a) :
    a * a ^ (P - 2) ≡ 1 [MOD P] := by
  have hflt := Nat.ModEq.pow_totient (Nat.coprime_comm.1 ((Nat.Prime.coprime_iff_not_dvd hP).2 ha))
  rw [Nat.totient_prime hP] at hflt
  rwa [← pow_succ', show P - 2 + 1 = P - 1 by have := hP.two_le; omega]

/-- `bn_inverse` runs to a fully reduced `x^(prime - 2)` for `prime[0] >= 2` and
`x < 180 * prime`. -/
theorem bnInverse_eq_pow (x p : Bignum256) (hp : InBand p) (hp0 : 2 ≤ (p.limb 0).toNat)
    (hx : x.Normalized) (hx180 : x.value < 180 * p.value) :
    ∃ r, bnInverse x p = some r ∧ r.Normalized ∧ r.value < p.value ∧
      r.value ≡ x.value ^ (p.value - 2) [MOD p.value] := by
  obtain ⟨hln, hlv⟩ := value_inverseLimbs p hp.normalized hp0
  obtain ⟨x', res, hloop, r, hr, hrn, hrlt, hmod⟩ :=
    powMod_spec p hp _ hln (by simp [inverseLimbs, p.length_val]) x hx hx180
  exact ⟨r, by rw [bnInverse, hloop]; exact hr, hrn, hrlt, hlv ▸ hmod⟩

/-- `bn_inverse` for a prime of the band with `prime[0] >= 2` and `x < 180 * prime`. -/
theorem bnInverse_correct (x p : Bignum256) (hp : InBand p) (hp0 : 2 ≤ (p.limb 0).toNat)
    (hx : x.Normalized) (hx180 : x.value < 180 * p.value) :
    ∃ r, bnInverse x p = some r ∧ r.Normalized ∧ r.value < p.value ∧
      r.value ≡ x.value ^ (p.value - 2) [MOD p.value] ∧
      (p.value.Prime → ¬p.value ∣ x.value → x.value * r.value ≡ 1 [MOD p.value]) := by
  obtain ⟨r, hr, hrn, hrlt, hrmod⟩ := bnInverse_eq_pow x p hp hp0 hx hx180
  exact ⟨r, hr, hrn, hrlt, hrmod, fun hprime hndvd =>
    (hrmod.mul_left _).trans (mul_pow_sub_two_modEq_one hprime hndvd)⟩

theorem bnInverse_correct_gx : InBand secp256k1P ∧ 2 ≤ (secp256k1P.limb 0).toNat ∧
    secp256k1Gx.Normalized ∧ secp256k1Gx.value < 180 * secp256k1P.value ∧
    ∃ r, bnInverse secp256k1Gx secp256k1P = some r ∧ r.Normalized ∧
      r.value < secp256k1P.value ∧
      r.value ≡ secp256k1Gx.value ^ (secp256k1P.value - 2) [MOD secp256k1P.value] ∧
      (secp256k1P.value.Prime → ¬secp256k1P.value ∣ secp256k1Gx.value →
        secp256k1Gx.value * r.value ≡ 1 [MOD secp256k1P.value]) :=
  ⟨by decide, by decide, by decide, by decide,
    bnInverse_correct secp256k1Gx secp256k1P (by decide) (by decide) (by decide) (by decide)⟩

/-! ### `bn_sqrt` -/

theorem value_sqrtExponent (p : Bignum256) (hp : InBand p) :
    (sqrtExponent p).Normalized ∧ (sqrtExponent p).value = (p.value + 1) / 4 := by
  obtain ⟨hn1, hv1⟩ := bnAddi_spec p (fun l hl => by have := hp.normalized l hl; omega) 1#32
    (by decide)
  obtain ⟨hn2, hv2⟩ := bnRshift_spec _ hn1
  obtain ⟨hn3, hv3⟩ := bnRshift_spec _ hn2
  have := hp.upper
  refine ⟨hn3, ?_⟩
  rw [sqrtExponent, hv3, hv2, hv1, Nat.div_div_eq_div_mul]
  congr 1
  exact Nat.mod_eq_of_lt (by simp; omega)

theorem sq_pow_quarter_modEq {P a y : Nat} (hP : P.Prime) (h3 : P % 4 = 3)
    (hy : y ^ 2 ≡ a [MOD P]) : (a ^ ((P + 1) / 4)) ^ 2 ≡ a [MOD P] := by
  have hexp : P - 2 + 1 + 2 = 2 * ((P + 1) / 4 * 2) := by have := hP.two_le; omega
  have hsq : (a ^ ((P + 1) / 4)) ^ 2 ≡ y ^ (P - 2 + 1) * y ^ 2 [MOD P] := by
    rw [← pow_mul, ← pow_add, hexp, pow_mul y 2]
    exact (hy.pow _).symm
  by_cases hdvd : P ∣ y
  · have hy0 : y ^ 2 ≡ 0 [MOD P] := (Nat.modEq_zero_iff_dvd).2 (dvd_pow hdvd two_ne_zero)
    calc (a ^ ((P + 1) / 4)) ^ 2 ≡ y ^ (P - 2 + 1) * y ^ 2 [MOD P] := hsq
      _ ≡ y ^ (P - 2 + 1) * 0 [MOD P] := hy0.mul_left _
      _ = 0 := Nat.mul_zero _
      _ ≡ a [MOD P] := hy0.symm.trans hy
  · calc (a ^ ((P + 1) / 4)) ^ 2 ≡ y ^ (P - 2 + 1) * y ^ 2 [MOD P] := hsq
      _ ≡ 1 * y ^ 2 [MOD P] := by
        rw [pow_succ, Nat.mul_comm (y ^ (P - 2)) y]
        exact (mul_pow_sub_two_modEq_one hP hdvd).mul_right _
      _ = y ^ 2 := Nat.one_mul _
      _ ≡ a [MOD P] := hy

/-- `bn_sqrt` for `x < 180 * prime`, the bound under which its `bn_multiply` calls hold. -/
theorem bnSqrt_spec (x p : Bignum256) (hp : InBand p) (hx : x.Normalized)
    (hx180 : x.value < 180 * p.value) :
    ∃ r, bnSqrt x p = some r ∧ r.Normalized ∧ r.value < p.value ∧
      r.value ≡ x.value ^ ((p.value + 1) / 4) [MOD p.value] ∧
      (p.value.Prime → p.value % 4 = 3 → (∃ y, y ^ 2 ≡ x.value [MOD p.value]) →
        r.value ^ 2 ≡ x.value [MOD p.value]) := by
  obtain ⟨hen, hev⟩ := value_sqrtExponent p hp
  obtain ⟨x', res, hloop, r, hr, hrn, hrlt, hmod⟩ :=
    powMod_spec p hp _ hen (by simp [(sqrtExponent p).length_val]) x hx hx180
  rw [show value (sqrtExponent p).val = (p.value + 1) / 4 from hev] at hmod
  refine ⟨r, by rw [bnSqrt, hloop]; exact hr, hrn, hrlt, hmod, fun hprime h3 ⟨y, hy⟩ => ?_⟩
  exact (hmod.pow 2).trans (sq_pow_quarter_modEq hprime h3 hy)

set_option maxRecDepth 100000 in
/-- `bn_sqrt` on the normalized but unreduced `x = 2^270 - 1` (every limb `0x3FFFFFFF`):
the first squaring `bn_multiply(x, x, prime)` fails `assert (coef < 0x80000000u)`. -/
theorem bnSqrt_fails_unreduced :
    (⟨List.replicate 9 0x3FFFFFFF#32, rfl⟩ : Bignum256).Normalized ∧
    (⟨List.replicate 9 0x3FFFFFFF#32, rfl⟩ : Bignum256).value = 2 ^ 270 - 1 ∧
    bnMultiply ⟨List.replicate 9 0x3FFFFFFF#32, rfl⟩ ⟨List.replicate 9 0x3FFFFFFF#32, rfl⟩
      secp256k1P = none ∧
    bnSqrt ⟨List.replicate 9 0x3FFFFFFF#32, rfl⟩ secp256k1P = none :=
  ⟨by decide, by decide, rfl, rfl⟩

/-! ### The early abort -/

/-- The limb loop of `bn_inverse` and `bn_sqrt` without the early abort: every limb, the last
one included, runs its 30 bit iterations. -/
def powLoopFull (prime : Bignum256) :
    List (BitVec 32) → Bignum256 → Bignum256 → Option (Bignum256 × Bignum256)
  | [], x, res => some (x, res)
  | limb :: limbs, x, res => do
      let (x, res) ← powLimbLoop prime false 30 x res limb
      powLoopFull prime limbs x res

/-- `bn_inverse` without `if (i == 8 && limb == 0) break;`. -/
def bnInverseFull (x prime : Bignum256) : Option Bignum256 := do
  let (_, res) ← powLoopFull prime (inverseLimbs prime) x bnOne
  bnMod res prime

/-- `bn_sqrt` without `if (i == 8 && limb == 0) break;`. -/
def bnSqrtFull (x prime : Bignum256) : Option Bignum256 := do
  let (_, res) ← powLoopFull prime (sqrtExponent prime).val x bnOne
  bnMod res prime

section EarlyAbort

variable (p : Bignum256) (hp : InBand p)
include hp

theorem powLimbLoop_zero_limb (n : Nat) (x res : Bignum256) (hx : x.Normalized)
    (hx180 : x.value < 180 * p.value) :
    ∃ x', powLimbLoop p false n x res 0 = some (x', res) := by
  induction n generalizing x with
  | zero => exact ⟨x, rfl⟩
  | succ n ih =>
      obtain ⟨x₁, hx₁, hxn₁, hx180₁, -⟩ := bnMultiply_lt p hp x x hx hx hx180 hx180
      obtain ⟨x', hloop⟩ := ih x₁ hxn₁ hx180₁
      refine ⟨x', ?_⟩
      simp only [powLimbLoop, Bool.false_eq_true, false_and, if_false, ne_eq,
        show (0 : BitVec 32) &&& 1#32 = 0 from rfl, not_true_eq_false, Option.bind_eq_bind,
        Option.some_bind, hx₁, show (0 : BitVec 32) >>> 1 = 0 from rfl]
      exact hloop

theorem powLimbLoop_break (n : Nat) (x res : Bignum256) (limb : BitVec 32) (hx : x.Normalized)
    (hx180 : x.value < 180 * p.value) :
    (powLimbLoop p true n x res limb).map Prod.snd =
      (powLimbLoop p false n x res limb).map Prod.snd := by
  induction n generalizing x res limb with
  | zero => rfl
  | succ n ih =>
      by_cases hl : limb = 0
      · subst hl
        obtain ⟨x', hloop⟩ := powLimbLoop_zero_limb p hp (n + 1) x res hx hx180
        rw [hloop]
        simp [powLimbLoop]
      obtain ⟨x₁, hx₁, hxn₁, hx180₁, -⟩ := bnMultiply_lt p hp x x hx hx hx180 hx180
      simp only [powLimbLoop, hl, and_false, Bool.false_eq_true, false_and, if_false,
        Option.bind_eq_bind, hx₁]
      cases (if limb &&& 1#32 ≠ 0 then bnMultiply x res p else some res) with
      | none => rfl
      | some res₁ => exact ih x₁ res₁ (limb >>> 1) hxn₁ hx180₁

theorem powLoop_break (ls : List (BitVec 32)) (i : Nat) (hi : i + ls.length = 9)
    (x res : Bignum256) (hx : x.Normalized) (hx180 : x.value < 180 * p.value)
    (hres : res.Normalized) (hres2 : res.value < 2 * p.value) :
    (powLoop p i ls x res).map Prod.snd = (powLoopFull p ls x res).map Prod.snd := by
  induction ls generalizing i x res with
  | nil => rfl
  | cons l ls ih =>
      by_cases h8 : i = 8
      · obtain rfl : ls = [] := List.eq_nil_of_length_eq_zero (by simp at hi; omega)
        subst h8
        have := powLimbLoop_break p hp 30 x res l hx hx180
        simp only [powLoop, powLoopFull, beq_self_eq_true]
        generalize powLimbLoop p true 30 x res l = o at this ⊢
        generalize powLimbLoop p false 30 x res l = o' at this ⊢
        cases o <;> cases o' <;> exact this
      · obtain ⟨x₁, res₁, hlimb, hxn₁, hx180₁, hn₁, hlt₁, -⟩ :=
          powLimbLoop_spec p hp false 30 x res l hx hx180 hres hres2
        have h8' : (i == 8) = false := by simpa using h8
        simp only [powLoop, powLoopFull, h8', hlimb, Option.bind_eq_bind, Option.some_bind]
        exact ih (i + 1) (by simp at hi; omega) x₁ res₁ hxn₁ hx180₁ hn₁ hlt₁

end EarlyAbort

theorem bind_snd_congr {o o' : Option (Bignum256 × Bignum256)}
    (h : o.map Prod.snd = o'.map Prod.snd) (f : Bignum256 → Option Bignum256) :
    (do let (_, res) ← o; f res) = (do let (_, res) ← o'; f res) := by
  cases o <;> cases o' <;> simp_all

/-- The early abort of `bn_inverse` and `bn_sqrt` (`if (i == 8 && limb == 0) break;`) is
exact: for a partly reduced `x` both return what the loop without it returns. -/
theorem bnInverse_bnSqrt_early_abort (x p : Bignum256) (hp : InBand p) (hx : x.Normalized)
    (hx180 : x.value < 180 * p.value) :
    bnInverse x p = bnInverseFull x p ∧ bnSqrt x p = bnSqrtFull x p := by
  have hone : bnOne.value < 2 * p.value := by rw [value_bnOne]; have := hp.lower; omega
  constructor
  · rw [bnInverse, bnInverseFull]
    exact bind_snd_congr (powLoop_break p hp (inverseLimbs p) 0
      (by simp [inverseLimbs, p.length_val]) x bnOne hx hx180 bnOne_normalized hone) (bnMod · p)
  · rw [bnSqrt, bnSqrtFull]
    exact bind_snd_congr (powLoop_break p hp (sqrtExponent p).val 0
      (by simp [(sqrtExponent p).length_val]) x bnOne hx hx180 bnOne_normalized hone) (bnMod · p)

theorem bnInverse_bnSqrt_early_abort_gx : InBand secp256k1P ∧ secp256k1Gx.Normalized ∧
    secp256k1Gx.value < 180 * secp256k1P.value ∧
    (bnInverse secp256k1Gx secp256k1P = bnInverseFull secp256k1Gx secp256k1P ∧
      bnSqrt secp256k1Gx secp256k1P = bnSqrtFull secp256k1Gx secp256k1P) :=
  ⟨by decide, by decide, by decide,
    bnInverse_bnSqrt_early_abort secp256k1Gx secp256k1P (by decide) (by decide) (by decide)⟩

end Bignum
