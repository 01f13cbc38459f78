import Mathlib.Tactic.Ring
import Mathlib.Data.Nat.ModEq
import Mathlib.Data.Nat.Log

set_option autoImplicit false

/- The number representation of bignum.c: a `bignum256` is an array of nine
32-bit words holding digits in base 2^30, least significant first. Limbs are
`BitVec 32`, so every limb is a 32-bit value by construction; normalization is a
separate predicate, as in the source's comments. -/
namespace Bignum

/-- `sum_i a[i] * 2^(30 i)` over a little-endian limb list; limbs need not be
normalized. -/
def value : List (BitVec 32) → Nat
  | [] => 0
  | l :: ls => l.toNat + 2 ^ 30 * value ls

/-- A limb list is normalized iff every digit is below 2^30. -/
def Normalized (ls : List (BitVec 32)) : Prop := ∀ l ∈ ls, l.toNat < 2 ^ 30

instance (ls : List (BitVec 32)) : Decidable (Normalized ls) :=
  decidable_of_iff (ls.all fun l => l.toNat < 2 ^ 30) (by simp [Normalized])

@[simp] theorem value_nil : value [] = 0 := rfl

@[simp] theorem value_cons (l : BitVec 32) (ls : List (BitVec 32)) :
    value (l :: ls) = l.toNat + 2 ^ 30 * value ls := rfl

@[simp] theorem normalized_nil : Normalized [] := fun _ h => nomatch h

@[simp] theorem normalized_cons (l : BitVec 32) (ls : List (BitVec 32)) :
    Normalized (l :: ls) ↔ l.toNat < 2 ^ 30 ∧ Normalized ls :=
  List.forall_mem_cons

@[simp] theorem normalized_append (xs ys : List (BitVec 32)) :
    Normalized (xs ++ ys) ↔ Normalized xs ∧ Normalized ys :=
  List.forall_mem_append

theorem value_append (xs ys : List (BitVec 32)) :
    value (xs ++ ys) = value xs + 2 ^ (30 * xs.length) * value ys := by
  induction xs with
  | nil => simp
  | cons x xs ih =>
      rw [List.cons_append, value_cons, value_cons, ih, List.length_cons,
        show 30 * (xs.length + 1) = 30 + 30 * xs.length by ring, Nat.pow_add]
      ring

theorem getD_lt {ls : List (BitVec 32)} (h : Normalized ls) (j : Nat) :
    (ls.getD j 0).toNat < 2 ^ 30 := by
  rw [List.getD_eq_getElem?_getD]
  cases hj : ls[j]? with
  | none => simp
  | some l => exact h l (List.getElem?_mem hj)

theorem value_take_succ (ls : List (BitVec 32)) (i : Nat) :
    value (ls.take (i + 1)) = value (ls.take i) + 2 ^ (30 * i) * (ls.getD i 0).toNat := by
  induction ls generalizing i with
  | nil => simp
  | cons l ls ih =>
      cases i with
      | zero => simp
      | succ i =>
          rw [List.take_succ_cons, List.take_succ_cons, value_cons, value_cons, ih,
            List.getD_cons_succ, Nat.mul_succ, Nat.pow_add]
          ring

theorem log_pow_mul_add {b : Nat} (hb : 1 < b) (k w r : Nat) (hw : w ≠ 0) (hr : r < b ^ k) :
    Nat.log b (b ^ k * w + r) = Nat.log b w + k := by
  have hlo := Nat.pow_log_le_self b hw
  have hhi := Nat.lt_pow_succ_log_self hb w
  apply Nat.log_eq_of_pow_le_of_lt_pow
  · calc b ^ (Nat.log b w + k) = b ^ k * b ^ Nat.log b w := by ring
      _ ≤ b ^ k * w + r := Nat.le_add_right_of_le (Nat.mul_le_mul_left _ hlo)
  · calc b ^ k * w + r < b ^ k * (w + 1) := by rw [Nat.mul_succ]; omega
      _ ≤ b ^ k * b ^ (Nat.log b w + 1) := Nat.mul_le_mul_left _ hhi
      _ = b ^ (Nat.log b w + k + 1) := by ring

theorem value_lt {ls : List (BitVec 32)} (h : Normalized ls) :
    value ls < 2 ^ (30 * ls.length) := by
  induction ls with
  | nil => simp
  | cons l ls ih =>
      obtain ⟨hl, hls⟩ := (normalized_cons l ls).1 h
      have hrest := ih hls
      rw [value_cons, List.length_cons, Nat.mul_succ, Nat.pow_add, Nat.mul_comm]
      calc
        l.toNat + value ls * 2 ^ 30 < 2 ^ 30 + value ls * 2 ^ 30 := by omega
        _ = (value ls + 1) * 2 ^ 30 := by ring
        _ ≤ 2 ^ (30 * ls.length) * 2 ^ 30 := Nat.mul_le_mul_right _ hrest

theorem eq_of_value_eq {xs ys : List (BitVec 32)} (hx : Normalized xs) (hy : Normalized ys)
    (hl : xs.length = ys.length) (hv : value xs = value ys) : xs = ys := by
  induction xs generalizing ys with
  | nil => exact (List.length_eq_zero.1 hl.symm).symm
  | cons x xs ih =>
      obtain _ | ⟨y, ys⟩ := ys
      · simp at hl
      obtain ⟨hx0, hxs⟩ := (normalized_cons x xs).1 hx
      obtain ⟨hy0, hys⟩ := (normalized_cons y ys).1 hy
      simp only [value_cons] at hv
      have low : x.toNat = y.toNat := by omega
      have high : value xs = value ys := by omega
      rw [BitVec.eq_of_toNat_eq low, ih hxs hys (by simpa using hl) high]

/-- `sum_{j<n} 2^(30 j)`, the value of `n` limbs equal to one. -/
def ones : Nat → Nat
  | 0 => 0
  | n + 1 => 1 + 2 ^ 30 * ones n

theorem value_le_ones (ls : List (BitVec 32)) : value ls ≤ (2 ^ 32 - 1) * ones ls.length := by
  induction ls with
  | nil => simp [ones]
  | cons l ls ih =>
      have := l.isLt
      rw [value_cons, List.length_cons, ones, Nat.mul_add, Nat.mul_one, Nat.mul_left_comm]
      omega

@[simp] theorem toNat_and_mask (x : BitVec 32) :
    (x &&& 0x3FFFFFFF#32).toNat = x.toNat % 2 ^ 30 := by
  rw [BitVec.toNat_and, show (0x3FFFFFFF#32).toNat = 2 ^ 30 - 1 from rfl]
  exact Nat.and_pow_two_sub_one_eq_mod _ _

theorem and_mask_lt (x : BitVec 32) : (x &&& 0x3FFFFFFF#32).toNat < 2 ^ 30 := by
  rw [toNat_and_mask]
  exact Nat.mod_lt _ (by decide)

theorem toNat_and_one (x : BitVec 32) : (x &&& 1#32).toNat = x.toNat % 2 := by
  rw [BitVec.toNat_and, BitVec.toNat_ofNat, Nat.and_one_is_mod]

@[simp] theorem toNat_and_mask64 (x : BitVec 64) :
    (x &&& 0x3FFFFFFF#64).toNat = x.toNat % 2 ^ 30 := by
  rw [BitVec.toNat_and, show (0x3FFFFFFF#64).toNat = 2 ^ 30 - 1 from rfl]
  exact Nat.and_pow_two_sub_one_eq_mod _ _

theorem toNat_setWidth_and_mask64 (x : BitVec 64) :
    ((x &&& 0x3FFFFFFF#64).setWidth 32).toNat = x.toNat % 2 ^ 30 := by
  rw [BitVec.toNat_setWidth, toNat_and_mask64,
    Nat.mod_eq_of_lt (lt_trans (Nat.mod_lt _ (by decide)) (by decide))]

theorem setWidth_and_mask64_lt (x : BitVec 64) :
    ((x &&& 0x3FFFFFFF#64).setWidth 32).toNat < 2 ^ 30 := by
  rw [toNat_setWidth_and_mask64]
  exact Nat.mod_lt _ (by decide)

theorem toNat_ushiftRight_eq_div {w : Nat} (x : BitVec w) (k : Nat) :
    (x >>> k).toNat = x.toNat / 2 ^ k := by
  rw [BitVec.toNat_ushiftRight, Nat.shiftRight_eq_div_pow]

@[simp] theorem toNat_setWidth64 (x : BitVec 32) : (x.setWidth 64).toNat = x.toNat := by
  have := x.isLt
  rw [BitVec.toNat_setWidth]
  exact Nat.mod_eq_of_lt (by omega)

theorem toNat_mul_setWidth64 (x y : BitVec 32) :
    (x.setWidth 64 * y.setWidth 64).toNat = x.toNat * y.toNat := by
  rw [BitVec.toNat_mul_of_lt] <;> rw [toNat_setWidth64, toNat_setWidth64]
  exact lt_of_lt_of_eq (Nat.mul_lt_mul'' x.isLt y.isLt) (by norm_num)

/-- The C type `bignum256`: exactly nine limbs in `val`. -/
structure Bignum256 where
  val : List (BitVec 32)
  length_val : val.length = 9
deriving DecidableEq

namespace Bignum256

/-- The represented number `sum_{i=0}^8 a.val[i] * 2^(30 i)`. -/
def value (x : Bignum256) : Nat := Bignum.value x.val

/-- Every digit of the number is below 2^30. -/
def Normalized (x : Bignum256) : Prop := Bignum.Normalized x.val

instance (x : Bignum256) : Decidable x.Normalized :=
  inferInstanceAs (Decidable (Bignum.Normalized x.val))

/-- Limb `i`, `x->val[i]`. -/
def limb (x : Bignum256) (i : Fin 9) : BitVec 32 := x.val.get (i.cast x.length_val.symm)

theorem limb_lt {x : Bignum256} (hx : x.Normalized) (i : Fin 9) : (x.limb i).toNat < 2 ^ 30 :=
  hx _ (List.get_mem _ _ _)

theorem value_lt {x : Bignum256} (h : x.Normalized) : x.value < 2 ^ 270 := by
  have := Bignum.value_lt h
  rwa [x.length_val] at this

theorem ext {x y : Bignum256} (h : x.val = y.val) : x = y := by
  cases x; cases y; subst h; rfl

theorem eq_of_value_eq {x y : Bignum256} (hx : x.Normalized) (hy : y.Normalized)
    (hv : x.value = y.value) : x = y := by
  obtain ⟨xs, hxs⟩ := x
  obtain ⟨ys, hys⟩ := y
  have := Bignum.eq_of_value_eq hx hy (hxs.trans hys.symm) hv
  subst this
  rfl

end Bignum256

theorem limbs_tail (x : Bignum256) : x.val = x.limb 0 :: x.val.tail := by
  obtain ⟨v, hv⟩ := x
  match v, hv with
  | _ :: _, _ => rfl

theorem value_limbs_tail (x : Bignum256) :
    x.value = (x.limb 0).toNat + 2 ^ 30 * value x.val.tail := by
  conv_lhs => rw [Bignum256.value, limbs_tail x]
  rfl

theorem limbs_top (x : Bignum256) : x.val = x.val.take 8 ++ [x.limb 8] := by
  obtain ⟨v, hv⟩ := x
  match v, hv with
  | [_, _, _, _, _, _, _, _, _], _ => rfl

theorem normalized_tail {x : Bignum256} (hx : x.Normalized) : Normalized x.val.tail :=
  fun l hl => hx l (List.mem_of_mem_tail hl)

theorem value_limbs_top (x : Bignum256) :
    x.value = value (x.val.take 8) + 2 ^ 240 * (x.limb 8).toNat := by
  conv_lhs => rw [Bignum256.value, limbs_top x, value_append]
  simp [x.length_val]

theorem normalized_take_reverse {x : Bignum256} (hx : x.Normalized) (n : Nat) :
    Normalized (x.val.take n).reverse :=
  fun l hl => hx l (List.mem_of_mem_take (List.mem_reverse.1 hl))

/-- `bn_zero`. -/
def bnZero : Bignum256 := ⟨[0, 0, 0, 0, 0, 0, 0, 0, 0], rfl⟩

/-- `bn_one`. -/
def bnOne : Bignum256 := ⟨[1, 0, 0, 0, 0, 0, 0, 0, 0], rfl⟩

@[simp] theorem value_bnOne : bnOne.value = 1 := rfl

theorem bnOne_normalized : bnOne.Normalized := by decide

/-- The band every reduction routine assumes of its prime:
`2^256 - 2^224 < prime < 2^256`, with the prime normalized. -/
structure InBand (p : Bignum256) : Prop where
  normalized : p.Normalized
  lower : 2 ^ 256 - 2 ^ 224 < p.value
  upper : p.value < 2 ^ 256

instance (p : Bignum256) : Decidable (InBand p) :=
  decidable_of_iff (p.Normalized ∧ 2 ^ 256 - 2 ^ 224 < p.value ∧ p.value < 2 ^ 256)
    ⟨fun ⟨a, b, c⟩ => ⟨a, b, c⟩, fun ⟨a, b, c⟩ => ⟨a, b, c⟩⟩

theorem mul_two_pow_sub_le {p : Bignum256} (hp : InBand p) (c : Nat) :
    c * 2 ^ 256 - c * p.value ≤ c * 2 ^ 224 := by
  rw [← Nat.mul_sub]
  exact Nat.mul_le_mul_left _ (by have := hp.lower; omega)

/-- The secp256k1 field prime `2^256 - 2^32 - 977`, a concrete prime of the band. -/
def secp256k1P : Bignum256 :=
  ⟨[0x3ffffc2f#32, 0x3ffffffb#32, 0x3fffffff#32, 0x3fffffff#32, 0x3fffffff#32, 0x3fffffff#32,
    0x3fffffff#32, 0x3fffffff#32, 0xffff#32], rfl⟩

example : secp256k1P.value = 2 ^ 256 - 2 ^ 32 - 977 ∧ InBand secp256k1P := by decide

/-- The x-coordinate of the secp256k1 generator, a fully reduced number. -/
def secp256k1Gx : Bignum256 :=
  ⟨[0x16f81798#32, 0x27ca056c#32, 0x1ce28d95#32, 0x26ff36cb#32, 0x070b0702#32, 0x018a573a#32,
    0x0bbac55a#32, 0x199fbe77#32, 0x79be#32], rfl⟩

example : secp256k1Gx.value =
    0x79BE667EF9DCBBAC55A06295CE870B07029BFCDB2DCE28D959F2815B16F81798 := by decide

end Bignum
