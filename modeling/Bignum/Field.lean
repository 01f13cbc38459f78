import Bignum.Power
import Bignum.Codec

set_option autoImplicit false

/- The modular core as arithmetic in `ZMod prime`. A partly reduced number (normalized and
below `2 * prime`) stands for its residue. `bn_multiply`, `bn_addmod`, `bn_mult_k`, and
`bn_subtractmod` followed by `bn_fast_mod`, take partly reduced numbers to partly reduced
numbers without failing an assert, so they chain freely, and each computes the ring operation
on the residues. `bn_mod` picks the canonical representative, so `bn_is_equal` after it decides
equality of residues; `bn_inverse` and `bn_sqrt` compute the inverse and a square root. Any 32
bytes `bn_read_be` reads are partly reduced, and `bn_write_be` after `bn_mod` writes the
residue's canonical value. -/
namespace Bignum

/-- A `prime` argument of the band the reductions are written for. -/
structure Modulus where
  prime : Bignum256
  inBand : InBand prime

instance (m : Modulus) : NeZero m.prime.value := ⟨by have := m.inBand.lower; omega⟩

/-- The secp256k1 field prime as a `prime` argument. -/
def secp256k1 : Modulus := ⟨secp256k1P, by decide⟩

/-- A partly reduced number modulo `m`: normalized and below `2 * prime`. -/
structure Reduced (m : Modulus) where
  num : Bignum256
  normalized : num.Normalized
  lt : num.value < 2 * m.prime.value

theorem pow_sub_two_eq_inv {P : Nat} [Fact P.Prime] (h2 : 2 < P) (a : ZMod P) :
    a ^ (P - 2) = a⁻¹ := by
  by_cases ha : a = 0
  · rw [ha, inv_zero, zero_pow (by omega)]
  · refine eq_inv_of_mul_eq_one_right ?_
    rw [← pow_succ', show P - 2 + 1 = P - 1 by omega, ZMod.pow_card_sub_one_eq_one ha]

namespace Reduced

variable {m : Modulus}

/-- The residue a partly reduced number stands for. -/
def toZMod (a : Reduced m) : ZMod m.prime.value := a.num.value

theorem lt_180 (a : Reduced m) : a.num.value < 180 * m.prime.value := by
  have := a.lt
  omega

/-- `bn_one`, partly reduced for every modulus of the band. -/
def one (m : Modulus) : Reduced m :=
  ⟨bnOne, bnOne_normalized, by rw [value_bnOne]; have := m.inBand.lower; omega⟩

/-- The result of a routine that returns a partly reduced number on these inputs. -/
def ofSome (o : Option Bignum256)
    (h : ∃ r, o = some r ∧ r.Normalized ∧ r.value < 2 * m.prime.value) : Reduced m :=
  ⟨o.get (by obtain ⟨r, hr, -⟩ := h; simp [hr]),
    by obtain ⟨r, hr, hn, -⟩ := h; simpa [hr] using hn,
    by obtain ⟨r, hr, -, hlt⟩ := h; simpa [hr] using hlt⟩

theorem eq_some_ofSome (o : Option Bignum256)
    (h : ∃ r, o = some r ∧ r.Normalized ∧ r.value < 2 * m.prime.value) :
    o = some (ofSome o h).num := by
  obtain ⟨r, rfl, -⟩ := h
  rfl

/-- `bn_multiply(a, b, prime)`. -/
def mul (a b : Reduced m) : Reduced m :=
  ofSome (bnMultiply a.num b.num m.prime) (by
    obtain ⟨r, hr, hn, hlt, -⟩ := bnMultiply_spec a.num b.num m.prime m.inBand a.normalized
      b.normalized (mul_lt_of_lt_180 _ _ _ m.inBand a.lt_180 b.lt_180)
    exact ⟨r, hr, hn, hlt⟩)

/-- `bn_addmod(a, b, prime)`. -/
def addmod (a b : Reduced m) : Reduced m :=
  ⟨bnAddmod a.num b.num m.prime, (bnFastMod_spec _ _ m.inBand).1,
    (bnFastMod_spec _ _ m.inBand).2.2.1⟩

/-- `bn_mult_k(a, k, prime)`. -/
def multK (a : Reduced m) (k : BitVec 8) : Reduced m :=
  ⟨bnMultK a.num k m.prime, (bnFastMod_spec _ _ m.inBand).1,
    (bnFastMod_spec _ _ m.inBand).2.2.1⟩

/-- `bn_subtractmod(a, b, res, prime)` followed by `bn_fast_mod(res, prime)`. -/
def sub (a b : Reduced m) : Reduced m :=
  ⟨bnFastMod (bnSubtractmod a.num b.num m.prime) m.prime, (bnFastMod_spec _ _ m.inBand).1,
    (bnFastMod_spec _ _ m.inBand).2.2.1⟩

theorem toZMod_eq_of_modEq (a : Reduced m) (n : Nat) (h : a.num.value ≡ n [MOD m.prime.value]) :
    a.toZMod = n :=
  (ZMod.natCast_eq_natCast_iff _ _ _).2 h

theorem mul_num (a b : Reduced m) : bnMultiply a.num b.num m.prime = some (a.mul b).num :=
  eq_some_ofSome _ _

theorem toZMod_mul (a b : Reduced m) : (a.mul b).toZMod = a.toZMod * b.toZMod := by
  obtain ⟨r, hr, -, -, hmod⟩ := bnMultiply_spec a.num b.num m.prime m.inBand a.normalized
    b.normalized (mul_lt_of_lt_180 _ _ _ m.inBand a.lt_180 b.lt_180)
  rw [Option.some_injective _ (hr.symm.trans (mul_num a b))] at hmod
  rw [toZMod_eq_of_modEq (a.mul b) _ hmod, Nat.cast_mul]
  rfl

theorem toZMod_addmod (a b : Reduced m) : (a.addmod b).toZMod = a.toZMod + b.toZMod := by
  have hsum := value_zipWith_add a.num.val b.num.val a.normalized b.normalized
    (by rw [a.num.length_val, b.num.length_val])
  rw [toZMod_eq_of_modEq (a.addmod b) _ ((bnFastMod_modEq _ _ m.inBand).trans
    (congrArg (· % m.prime.value) hsum)), Nat.cast_add]
  rfl

theorem toZMod_multK (a : Reduced m) (k : BitVec 8) (hk : k.toNat ≤ 4) :
    (a.multK k).toZMod = k.toNat * a.toZMod := by
  rw [toZMod_eq_of_modEq (a.multK k) _ ((bnFastMod_modEq _ _ m.inBand).trans
    (congrArg (· % m.prime.value) (value_map_mul k hk a.num.val a.normalized))), Nat.cast_mul]
  rfl

theorem toZMod_sub (a b : Reduced m) : (a.sub b).toZMod = a.toZMod - b.toZMod := by
  have hp := m.inBand
  have := a.lt
  have := b.lt
  have hv := value_bnSubtractmod a.num b.num m.prime a.normalized b.normalized hp.normalized
    (by omega) (by have := hp.upper; omega)
  rw [toZMod_eq_of_modEq (a.sub b) _ ((bnFastMod_modEq _ _ hp).trans (by rw [hv])),
    Nat.cast_sub (by omega), Nat.cast_add, Nat.cast_mul, ZMod.natCast_self, mul_zero, add_zero]
  rfl

/-- The partly reduced numbers, with `bn_multiply`, `bn_addmod`, `bn_subtractmod` then
`bn_fast_mod`, and `bn_mult_k` for `k <= 4`, implement the ring `ZMod prime`: `bn_multiply`
never fails on them, each result is partly reduced again, and its residue is the product, sum,
difference or multiple of the residues. -/
theorem refines_zmod (a b : Reduced m) :
    bnMultiply a.num b.num m.prime = some (a.mul b).num ∧
      (a.mul b).toZMod = a.toZMod * b.toZMod ∧
      (a.addmod b).toZMod = a.toZMod + b.toZMod ∧
      (a.sub b).toZMod = a.toZMod - b.toZMod ∧
      ∀ k : BitVec 8, k.toNat ≤ 4 → (a.multK k).toZMod = k.toNat * a.toZMod :=
  ⟨mul_num a b, toZMod_mul a b, toZMod_addmod a b, toZMod_sub a b,
    fun k hk => toZMod_multK a k hk⟩

/-- `bn_mod(a, prime)`: the canonical representative. -/
def canonical (a : Reduced m) : Bignum256 :=
  (bnMod a.num m.prime).get (by rw [bnMod_eq _ _ a.normalized m.inBand.normalized]; rfl)

theorem canonical_spec (a : Reduced m) :
    bnMod a.num m.prime = some a.canonical ∧ a.canonical.Normalized ∧
      a.canonical.value = a.toZMod.val := by
  have hr := bnMod_eq _ _ a.normalized m.inBand.normalized
  obtain ⟨hn, hv⟩ := bnMod_select_mod _ _ a.normalized m.inBand.normalized a.lt
  rw [show a.canonical = _ from Option.get_of_mem _ hr, toZMod, ZMod.val_natCast]
  exact ⟨hr, hn, hv⟩

/-- `bn_mod` then `bn_is_equal` decides whether two partly reduced numbers stand for one residue:
`bn_mod` gives each residue a single representative. -/
theorem bnIsEqual_canonical (a b : Reduced m) :
    bnMod a.num m.prime = some a.canonical ∧ a.canonical.value = a.toZMod.val ∧
      bnIsEqual a.canonical b.canonical = if a.toZMod = b.toZMod then 1 else 0 := by
  obtain ⟨ha, han, hav⟩ := canonical_spec a
  obtain ⟨-, hbn, hbv⟩ := canonical_spec b
  refine ⟨ha, hav, ?_⟩
  rw [bnIsEqual_eq _ _ han hbn, hav, hbv]
  exact if_congr (ZMod.val_injective _).eq_iff rfl rfl

/-- `bn_inverse(a, prime)`, for `prime[0] >= 2`. -/
def inv (a : Reduced m) (h0 : 2 ≤ (m.prime.limb 0).toNat) : Reduced m :=
  ofSome (bnInverse a.num m.prime) (by
    obtain ⟨r, hr, hn, hlt, -⟩ := bnInverse_eq_pow a.num m.prime m.inBand h0 a.normalized
      a.lt_180
    exact ⟨r, hr, hn, by omega⟩)

theorem inv_num (a : Reduced m) (h0 : 2 ≤ (m.prime.limb 0).toNat) :
    bnInverse a.num m.prime = some (a.inv h0).num :=
  eq_some_ofSome _ _

/-- `bn_inverse` of a partly reduced number gives its residue to the power `prime - 2`, the
inverse in `ZMod prime` when `prime` is prime. -/
theorem toZMod_inv (a : Reduced m) (h0 : 2 ≤ (m.prime.limb 0).toNat) :
    bnInverse a.num m.prime = some (a.inv h0).num ∧
      (a.inv h0).toZMod = a.toZMod ^ (m.prime.value - 2) ∧
      (m.prime.value.Prime → (a.inv h0).toZMod = a.toZMod⁻¹) := by
  obtain ⟨r, hr, -, -, hmod⟩ := bnInverse_eq_pow a.num m.prime m.inBand h0 a.normalized a.lt_180
  rw [Option.some_injective _ (hr.symm.trans (inv_num a h0))] at hmod
  have hpow : (a.inv h0).toZMod = a.toZMod ^ (m.prime.value - 2) := by
    rw [toZMod_eq_of_modEq (a.inv h0) _ hmod, Nat.cast_pow]
    rfl
  refine ⟨inv_num a h0, hpow, fun hP => ?_⟩
  have : Fact m.prime.value.Prime := ⟨hP⟩
  rw [hpow, pow_sub_two_eq_inv (by have := m.inBand.lower; omega)]

theorem toZMod_inv_one : 2 ≤ (secp256k1.prime.limb 0).toNat ∧
    (bnInverse (one secp256k1).num secp256k1.prime = some ((one secp256k1).inv (by decide)).num ∧
      ((one secp256k1).inv (by decide)).toZMod =
        (one secp256k1).toZMod ^ (secp256k1.prime.value - 2) ∧
      (secp256k1.prime.value.Prime →
        ((one secp256k1).inv (by decide)).toZMod = (one secp256k1).toZMod⁻¹)) :=
  ⟨by decide, toZMod_inv (one secp256k1) (by decide)⟩

/-- `bn_sqrt(a, prime)`. -/
def sqrt (a : Reduced m) : Reduced m :=
  ofSome (bnSqrt a.num m.prime) (by
    obtain ⟨r, hr, hn, hlt, -⟩ := bnSqrt_spec a.num m.prime m.inBand a.normalized a.lt_180
    exact ⟨r, hr, hn, by omega⟩)

theorem sqrt_num (a : Reduced m) : bnSqrt a.num m.prime = some a.sqrt.num :=
  eq_some_ofSome _ _

/-- `bn_sqrt` of a partly reduced number gives its residue to the power `(prime + 1) / 4`, a
square root in `ZMod prime` of every square when `prime` is a prime `≡ 3 (mod 4)`. -/
theorem toZMod_sqrt (a : Reduced m) :
    bnSqrt a.num m.prime = some a.sqrt.num ∧
      a.sqrt.toZMod = a.toZMod ^ ((m.prime.value + 1) / 4) ∧
      (m.prime.value.Prime → m.prime.value % 4 = 3 → IsSquare a.toZMod →
        a.sqrt.toZMod ^ 2 = a.toZMod) := by
  obtain ⟨r, hr, -, -, hmod, hsq⟩ := bnSqrt_spec a.num m.prime m.inBand a.normalized a.lt_180
  have hnum : r = a.sqrt.num := Option.some_injective _ (hr.symm.trans (sqrt_num a))
  rw [hnum] at hmod hsq
  refine ⟨sqrt_num a, ?_, fun hP h3 ⟨y, hy⟩ => ?_⟩
  · rw [toZMod_eq_of_modEq a.sqrt _ hmod, Nat.cast_pow]
    rfl
  · have hy' : y.val ^ 2 ≡ a.num.value [MOD m.prime.value] := by
      rw [← ZMod.natCast_eq_natCast_iff, Nat.cast_pow, ZMod.natCast_zmod_val, sq, ← hy]
      rfl
    have h := (ZMod.natCast_eq_natCast_iff _ _ _).2 (hsq hP h3 ⟨y.val, hy'⟩)
    rwa [Nat.cast_pow] at h

/-- `bn_read_be` of any 32 bytes: the value is below `2^256 < 2 * prime`, so partly reduced. -/
def ofBytes (b : Bytes32) : Reduced m :=
  ⟨bnReadBe b, (bnReadBe_spec b).1, by
    have h : valueBe b.bytes < 2 ^ 256 := by simpa [b.length_bytes] using valueBe_lt b.bytes
    have := m.inBand.lower
    rw [(bnReadBe_spec b).2]
    omega⟩

theorem toZMod_ofBytes (b : Bytes32) : (ofBytes b : Reduced m).toZMod = valueBe b.bytes :=
  congrArg Nat.cast (bnReadBe_spec b).2

theorem bnWriteBe_canonical (a : Reduced m) :
    valueBe (bnWriteBe a.canonical).bytes = a.toZMod.val ∧
      bnReadBe (bnWriteBe a.canonical) = a.canonical := by
  obtain ⟨-, hn, hv⟩ := canonical_spec a
  have hlt : a.canonical.value < 2 ^ 256 := by
    have := ZMod.val_lt a.toZMod
    have := m.inBand.upper
    omega
  have hw : valueBe (bnWriteBe a.canonical).bytes = a.toZMod.val := by
    rw [valueBe_bnWriteBe _ hn, Nat.mod_eq_of_lt hlt, hv]
  obtain ⟨hrn, hrv⟩ := bnReadBe_spec (bnWriteBe a.canonical)
  exact ⟨hw, Bignum256.eq_of_value_eq hrn hn (by rw [hrv, hw, hv])⟩

/-- Field elements through the codec: `bn_read_be` of any 32 bytes is partly reduced and
stands for their big-endian value; `bn_write_be` after `bn_mod` writes the canonical value of
the residue, which `bn_read_be` reads back, so a residue survives a write and a read. -/
theorem codec_refines_zmod (a : Reduced m) (b : Bytes32) :
    (ofBytes b : Reduced m).toZMod = valueBe b.bytes ∧
      valueBe (bnWriteBe a.canonical).bytes = a.toZMod.val ∧
      bnReadBe (bnWriteBe a.canonical) = a.canonical ∧
      (ofBytes (bnWriteBe a.canonical) : Reduced m).toZMod = a.toZMod := by
  obtain ⟨hw, hr⟩ := bnWriteBe_canonical a
  refine ⟨toZMod_ofBytes b, hw, hr, ?_⟩
  rw [toZMod_ofBytes, hw, ZMod.natCast_zmod_val]

end Reduced

end Bignum
