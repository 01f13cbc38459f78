import Bignum.AddSub
import Mathlib.Data.Nat.Bitwise

set_option autoImplicit false

/- The constant-time predicates and selection of bignum.c, and `bn_mod`, which selects
between `x` and `x - prime` with them. A C `int` is a `BitVec 32`. -/
namespace Bignum

/-- `bn_is_zero`: `result |= a[i]` over all limbs, then `!result`. -/
def bnIsZero (a : Bignum256) : BitVec 32 :=
  if a.val.foldl (· ||| ·) 0 = 0 then 1 else 0

/-- The two masks of `bn_is_less`, built from the most significant limb down:
`res1 = (res1 << 1) | (a[i] < b[i]); res2 = (res2 << 1) | (a[i] > b[i])`. -/
def lessMasks : List (BitVec 32) → List (BitVec 32) → BitVec 32 × BitVec 32
  | a :: as, b :: bs =>
      let r := lessMasks as bs
      ((r.1 <<< 1) ||| (if a < b then 1 else 0), (r.2 <<< 1) ||| (if a > b then 1 else 0))
  | _, _ => (0, 0)

/-- `bn_is_less`: `res1 > res2`. -/
def bnIsLess (a b : Bignum256) : BitVec 32 :=
  let r := lessMasks a.val b.val
  if r.1 > r.2 then 1 else 0

/-- `bn_is_equal`: `result |= a[i] ^ b[i]` over all limbs, then `!result`. -/
def bnIsEqual (a b : Bignum256) : BitVec 32 :=
  if (List.zipWith (· ^^^ ·) a.val b.val).foldl (· ||| ·) 0 = 0 then 1 else 0

/-- `bn_cmov`: `res = cond ? truecase : falsecase` through the masks `tmask = -cond` and
`fmask = ~tmask`; `none` is a failed `assert (cond == 1 || cond == 0)`. -/
def bnCmov (cond : BitVec 32) (truecase falsecase : Bignum256) : Option Bignum256 :=
  if cond = 1 ∨ cond = 0 then
    some ⟨List.zipWith (fun t f => (t &&& -cond) ||| (f &&& ~~~(-cond))) truecase.val
      falsecase.val, by simp [truecase.length_val, falsecase.length_val]⟩
  else none

/-- `bn_mod`: `x >= prime ? x - prime : x`, computing both and selecting with `bn_cmov`. -/
def bnMod (x prime : Bignum256) : Option Bignum256 :=
  bnCmov (bnIsLess x prime) x (bnSubtract x prime)

theorem zipWith_fst {l l' : List (BitVec 32)} (h : l.length = l'.length) :
    List.zipWith (fun u _ => u) l l' = l := by
  induction l generalizing l' with
  | nil => rfl
  | cons x l ih => cases l' <;> simp_all

theorem zipWith_snd {l l' : List (BitVec 32)} (h : l.length = l'.length) :
    List.zipWith (fun _ v => v) l l' = l' := by
  induction l generalizing l' with
  | nil => cases l' <;> simp_all
  | cons x l ih => cases l' <;> simp_all

theorem bnCmov_one (t f : Bignum256) : bnCmov 1 t f = some t := by
  have mask : (fun u v : BitVec 32 => (u &&& -1) ||| (v &&& ~~~(-1))) = fun u _ => u := by
    funext u v
    rw [show -(1 : BitVec 32) = BitVec.allOnes 32 from rfl, BitVec.and_allOnes,
      BitVec.not_allOnes, BitVec.and_zero, BitVec.or_zero]
  rw [bnCmov, if_pos (Or.inl rfl)]
  refine congrArg some (Bignum256.ext ?_)
  show List.zipWith _ t.val f.val = t.val
  rw [mask]
  exact zipWith_fst (t.length_val.trans f.length_val.symm)

theorem bnCmov_zero (t f : Bignum256) : bnCmov 0 t f = some f := by
  have mask : (fun u v : BitVec 32 => (u &&& -0) ||| (v &&& ~~~(-0))) = fun _ v => v := by
    funext u v
    show u &&& 0#32 ||| v &&& ~~~0#32 = v
    rw [BitVec.and_zero, BitVec.zero_or, show ~~~0#32 = BitVec.allOnes 32 from rfl,
      BitVec.and_allOnes]
  rw [bnCmov, if_pos (Or.inr rfl)]
  refine congrArg some (Bignum256.ext ?_)
  show List.zipWith _ t.val f.val = f.val
  rw [mask]
  exact zipWith_snd (t.length_val.trans f.length_val.symm)

theorem toNat_mask_push (r : BitVec 32) (c : Prop) [Decidable c] (hr : r.toNat < 2 ^ 8) :
    ((r <<< 1) ||| (if c then 1 else 0)).toNat = 2 * r.toNat + (if c then 1 else 0) := by
  have hbit : (if c then 1 else 0 : BitVec 32).toNat = if c then 1 else 0 := by split <;> rfl
  have hlt : (if c then 1 else 0 : Nat) < 2 ^ 1 := by split <;> decide
  rw [BitVec.toNat_or, BitVec.toNat_shiftLeft, Nat.shiftLeft_eq, hbit,
    Nat.mod_eq_of_lt (by omega : r.toNat * 2 ^ 1 < 2 ^ 32), Nat.mul_comm,
    ← Nat.mul_add_lt_is_or hlt]

theorem lessMasks_spec (as bs : List (BitVec 32)) (ha : Normalized as) (hb : Normalized bs)
    (hl : as.length = bs.length) (hn : as.length ≤ 9) :
    (lessMasks as bs).1.toNat < 2 ^ as.length ∧ (lessMasks as bs).2.toNat < 2 ^ as.length ∧
      ((lessMasks as bs).2.toNat < (lessMasks as bs).1.toNat ↔ value as < value bs) ∧
      ((lessMasks as bs).1.toNat < (lessMasks as bs).2.toNat ↔ value bs < value as) := by
  induction as generalizing bs with
  | nil =>
      obtain _ | ⟨b, bs⟩ := bs
      · simp [lessMasks]
      · simp at hl
  | cons a as ih =>
      obtain _ | ⟨b, bs⟩ := bs
      · simp at hl
      simp only [normalized_cons, List.length_cons, add_left_inj] at ha hb hl hn
      obtain ⟨h1, h2, hlt, hgt⟩ := ih bs ha.2 hb.2 hl (by omega)
      have hp : 2 ^ as.length ≤ 2 ^ 8 := Nat.pow_le_pow_right (by decide) (by omega)
      have m1 := toNat_mask_push (lessMasks as bs).1 (a < b) (by omega)
      have m2 := toNat_mask_push (lessMasks as bs).2 (a > b) (by omega)
      simp only [lessMasks]
      rw [m1, m2]
      simp only [value_cons, BitVec.lt_def, gt_iff_lt, List.length_cons, Nat.pow_succ]
      have := ha.1; have := hb.1
      split_ifs <;> omega

/-- `bn_is_less` returns 1 exactly when `a < b`. -/
theorem bnIsLess_eq (a b : Bignum256) (ha : a.Normalized) (hb : b.Normalized) :
    bnIsLess a b = if a.value < b.value then 1 else 0 := by
  obtain ⟨-, -, hlt, -⟩ := lessMasks_spec a.val b.val ha hb
    (a.length_val.trans b.length_val.symm) (by rw [a.length_val])
  simp only [bnIsLess, gt_iff_lt, BitVec.lt_def]
  exact if_congr hlt rfl rfl

theorem or_eq_zero_iff {w : Nat} (x y : BitVec w) : x ||| y = 0 ↔ x = 0 ∧ y = 0 := by
  constructor
  · intro h
    have hb : ∀ i, x.getLsbD i = false ∧ y.getLsbD i = false := fun i => by
      simpa using congrArg (fun v => v.getLsbD i) h
    exact ⟨BitVec.eq_of_getLsbD_eq fun i => by simp [(hb i).1],
      BitVec.eq_of_getLsbD_eq fun i => by simp [(hb i).2]⟩
  · rintro ⟨rfl, rfl⟩
    simp

theorem xor_eq_zero_iff {w : Nat} (x y : BitVec w) : x ^^^ y = 0 ↔ x = y := by
  rw [BitVec.toNat_eq, BitVec.toNat_eq, BitVec.toNat_xor]
  exact Nat.xor_eq_zero

theorem foldl_or_eq_zero (l : List (BitVec 32)) (acc : BitVec 32) :
    l.foldl (· ||| ·) acc = 0 ↔ acc = 0 ∧ ∀ x ∈ l, x = 0 := by
  induction l generalizing acc with
  | nil => simp
  | cons x l ih => rw [List.foldl_cons, ih, or_eq_zero_iff, List.forall_mem_cons, and_assoc]

theorem value_eq_zero_iff (ls : List (BitVec 32)) : value ls = 0 ↔ ∀ l ∈ ls, l = 0 := by
  induction ls with
  | nil => simp
  | cons l ls ih =>
      rw [value_cons, List.forall_mem_cons, ← ih, BitVec.toNat_eq,
        show BitVec.toNat (0 : BitVec 32) = 0 from rfl]
      omega

/-- `bn_is_zero` returns 1 exactly when the value is zero, whether or not `a` is normalized. -/
theorem bnIsZero_eq (a : Bignum256) : bnIsZero a = if a.value = 0 then 1 else 0 := by
  rw [bnIsZero]
  exact if_congr (by rw [foldl_or_eq_zero, Bignum256.value, value_eq_zero_iff]; simp) rfl rfl

theorem zipWith_xor_eq_zero (as bs : List (BitVec 32)) (hl : as.length = bs.length) :
    (∀ z ∈ List.zipWith (· ^^^ ·) as bs, z = 0) ↔ as = bs := by
  induction as generalizing bs with
  | nil => cases bs <;> simp_all
  | cons a as ih =>
      obtain _ | ⟨b, bs⟩ := bs
      · simp at hl
      rw [List.zipWith_cons_cons, List.forall_mem_cons, ih bs (by simpa using hl),
        List.cons_eq_cons, xor_eq_zero_iff]

/-- `bn_is_equal` returns 1 exactly when `a = b`. -/
theorem bnIsEqual_eq (a b : Bignum256) (ha : a.Normalized) (hb : b.Normalized) :
    bnIsEqual a b = if a.value = b.value then 1 else 0 := by
  have hval : a.val = b.val ↔ a.value = b.value :=
    ⟨fun h => congrArg Bignum.value h, fun h => congrArg Bignum256.val
      (Bignum256.eq_of_value_eq ha hb h)⟩
  rw [bnIsEqual]
  exact if_congr (by rw [foldl_or_eq_zero, zipWith_xor_eq_zero _ _ (a.length_val.trans
    b.length_val.symm), hval]; simp) rfl rfl

/-- For normalized `a, b`, `bn_is_less` and `bn_is_equal` return 1 or 0 as the values
compare, so exactly one of `a < b`, `a = b` and `b < a` is reported. -/
theorem bnIsLess_bnIsEqual_trichotomy (a b : Bignum256) (ha : a.Normalized)
    (hb : b.Normalized) :
    bnIsLess a b = (if a.value < b.value then 1 else 0) ∧
      bnIsEqual a b = (if a.value = b.value then 1 else 0) ∧
      [bnIsLess a b, bnIsEqual a b, bnIsLess b a].count 1 = 1 := by
  rw [bnIsLess_eq a b ha hb, bnIsEqual_eq a b ha hb, bnIsLess_eq b a hb ha]
  refine ⟨rfl, rfl, ?_⟩
  rcases lt_trichotomy a.value b.value with h | h | h
  · simp [h, h.ne, h.not_lt]
  · simp [h]
  · simp [h, h.ne', h.not_lt]

theorem bnIsLess_bnIsEqual_trichotomy_one : bnOne.Normalized ∧ secp256k1P.Normalized ∧
    (bnIsLess bnOne secp256k1P = (if bnOne.value < secp256k1P.value then 1 else 0) ∧
      bnIsEqual bnOne secp256k1P = (if bnOne.value = secp256k1P.value then 1 else 0) ∧
      [bnIsLess bnOne secp256k1P, bnIsEqual bnOne secp256k1P,
        bnIsLess secp256k1P bnOne].count 1 = 1) :=
  ⟨by decide, by decide,
    bnIsLess_bnIsEqual_trichotomy bnOne secp256k1P (by decide) (by decide)⟩

/-- `bn_mod` keeps `x` or takes `bn_subtract(x, prime)`, as `bn_is_less` tells `bn_cmov`. -/
theorem bnMod_eq (x p : Bignum256) (hx : x.Normalized) (hp : p.Normalized) :
    bnMod x p = some (if x.value < p.value then x else bnSubtract x p) := by
  rw [bnMod, bnIsLess_eq x p hx hp]
  split_ifs
  · exact bnCmov_one _ _
  · exact bnCmov_zero _ _

theorem bnMod_select_mod (x p : Bignum256) (hx : x.Normalized) (hp : p.Normalized)
    (hlt : x.value < 2 * p.value) :
    (if x.value < p.value then x else bnSubtract x p).Normalized ∧
      (if x.value < p.value then x else bnSubtract x p).value = x.value % p.value := by
  split_ifs with h
  · exact ⟨hx, (Nat.mod_eq_of_lt h).symm⟩
  · rw [value_bnSubtract_of_le x p hx hp (by omega), Nat.mod_eq_sub_mod (by omega),
      Nat.mod_eq_of_lt (by omega)]
    exact ⟨(bnSubtract_spec x p hx hp).1, rfl⟩

/-- `bn_mod` fully reduces a partly reduced `x`: the constant-time selection always picks the
right one of `x` and `x - p`, the latter computed even when it wraps. -/
theorem bnMod_fully_reduces (x p : Bignum256) (hx : x.Normalized) (hp : p.Normalized)
    (hlt : x.value < 2 * p.value) :
    ∃ r, bnMod x p = some r ∧ r.Normalized ∧ r.value = x.value % p.value ∧
      r.value < p.value := by
  obtain ⟨hn, hv⟩ := bnMod_select_mod x p hx hp hlt
  exact ⟨_, bnMod_eq x p hx hp, hn, hv, hv ▸ Nat.mod_lt _ (by omega)⟩

theorem bnMod_fully_reduces_p : secp256k1P.Normalized ∧
    secp256k1P.value < 2 * secp256k1P.value ∧
    ∃ r, bnMod secp256k1P secp256k1P = some r ∧ r.Normalized ∧
      r.value = secp256k1P.value % secp256k1P.value ∧ r.value < secp256k1P.value :=
  ⟨by decide, by decide,
    bnMod_fully_reduces secp256k1P secp256k1P (by decide) (by decide) (by decide)⟩

/-- `bn_cmov` selects `truecase` for `cond = 1` and `falsecase` for `cond = 0`, through its
masks; any other `cond` fails `assert (cond == 1 || cond == 0)`. -/
theorem bnCmov_spec (cond : BitVec 32) (truecase falsecase : Bignum256) :
    bnCmov cond truecase falsecase =
      if cond = 1 then some truecase else if cond = 0 then some falsecase else none := by
  by_cases h1 : cond = 1
  · rw [h1, bnCmov_one, if_pos rfl]
  by_cases h0 : cond = 0
  · rw [h0, bnCmov_zero, if_neg (by decide), if_pos rfl]
  rw [bnCmov, if_neg (not_or.2 ⟨h1, h0⟩), if_neg h1, if_neg h0]

/-- `bn_mod` subtracts `prime` at most once, whatever the normalized input: `x >= prime`
gives `x - prime`, so an `x >= 2 * prime` is left unreduced. -/
theorem bnMod_subtracts_once (x p : Bignum256) (hx : x.Normalized) (hp : p.Normalized) :
    ∃ r, bnMod x p = some r ∧ r.Normalized ∧
      r.value = if x.value < p.value then x.value else x.value - p.value := by
  refine ⟨_, bnMod_eq x p hx hp, ?_, ?_⟩ <;> split_ifs with h
  · exact hx
  · exact (bnSubtract_spec x p hx hp).1
  · rfl
  · exact value_bnSubtract_of_le x p hx hp (by omega)

theorem bnMod_subtracts_once_p : secp256k1P.Normalized ∧ secp256k1P.Normalized ∧
    ∃ r, bnMod secp256k1P secp256k1P = some r ∧ r.Normalized ∧
      r.value = if secp256k1P.value < secp256k1P.value then secp256k1P.value
        else secp256k1P.value - secp256k1P.value :=
  ⟨by decide, by decide, bnMod_subtracts_once secp256k1P secp256k1P (by decide) (by decide)⟩

end Bignum
