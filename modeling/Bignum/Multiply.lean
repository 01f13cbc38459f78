import Bignum.FastMod
import Mathlib.Data.List.OfFn
import Mathlib.Algebra.Order.BigOperators.Group.List

set_option autoImplicit false

/- `bn_multiply`: the 540-bit schoolbook product `bn_multiply_long` in an 18-limb array
`res`, reduced from the top by nine `bn_multiply_reduce_step`s, each subtracting the
estimate `coef * 2^(30k) * prime` from the ten limbs `res[k..k+9]`. -/
namespace Bignum

/-- The indices `j` visited for result limb `i`: `j = 0..i` in the lower half of
`bn_multiply_long`, `j = i-8..8` in the upper half. -/
def columnRange (i : Nat) : List Nat :=
  if i < 9 then List.range (i + 1) else List.range' (i - 8) (17 - i)

/-- The inner loop `temp += k[j] * (uint64_t)x[i - j]` of `bn_multiply_long`. -/
def columnLoop (k x : Bignum256) (i : Nat) (temp : BitVec 64) : BitVec 64 :=
  (columnRange i).foldl
    (fun temp j => temp + (k.val.getD j 0).setWidth 64 * (x.val.getD (i - j) 0).setWidth 64) temp

/-- The outer loops of `bn_multiply_long` from result limb `i` on, `n` limbs to go:
`res[i] = temp & 0x3FFFFFFF; temp >>= 30`, and finally `res[17] = temp`. -/
def multiplyLongLoop (k x : Bignum256) : Nat → Nat → BitVec 64 → List (BitVec 32)
  | 0, _, temp => [temp.setWidth 32]
  | n + 1, i, temp =>
      let temp := columnLoop k x i temp
      (temp &&& 0x3FFFFFFF#64).setWidth 32 :: multiplyLongLoop k x n (i + 1) (temp >>> 30)

/-- `bn_multiply_long`: `res = k * x` in 18 limbs. -/
def bnMultiplyLong (k x : Bignum256) : List (BitVec 32) := multiplyLongLoop k x 17 0 0

/-- The body of `bn_multiply_reduce_step` on the ten limbs `w = res[i-8..i+1]`: the unrolled
iteration for `res[i-8]`, the loop for `res[i-7..i]` and the last iteration for
`res[i+1]`, against which no limb of `prime` stands. -/
def reduceWindow (coef : BitVec 32) (w : List (BitVec 32)) (prime : Bignum256) :
    List (BitVec 32) :=
  let temp := subMulFirst coef (w.getD 0 0) (prime.limb 0)
  let r := subMulLoop coef ((w.drop 1).take 8) prime.val.tail temp
  let temp' := (r.2 >>> 30) + (0x1FFFFFFF80000000#64 + (w.getD 9 0).setWidth 64)
  (temp &&& 0x3FFFFFFF#64).setWidth 32 :: r.1 ++ [(temp' &&& 0x3FFFFFFF#64).setWidth 32]

/-- `bn_multiply_reduce_step`: `coef = (res[i] >> 16) + (res[i + 1] << 14)`, asserted below
`2^31`, then `res[i-8..i+1]` less `coef * prime`; `none` is a failed assertion. -/
def bnMultiplyReduceStep (res : List (BitVec 32)) (prime : Bignum256) (i : Nat) :
    Option (List (BitVec 32)) :=
  let coef := (res.getD i 0 >>> 16) + (res.getD (i + 1) 0 <<< 14)
  if coef < 0x80000000#32 then
    some (res.take (i - 8) ++ reduceWindow coef ((res.drop (i - 8)).take 10) prime ++
      res.drop (i + 2))
  else none

/-- The loop of `bn_multiply_reduce` for `i = n + 7` down to `8`, each step followed by
`assert(res[i + 1] == 0)`. -/
def reduceLoop (prime : Bignum256) : Nat → List (BitVec 32) → Option (List (BitVec 32))
  | 0, res => some res
  | n + 1, res => do
      let res ← bnMultiplyReduceStep res prime (n + 8)
      if res.getD (n + 9) 0 = 0 then reduceLoop prime n res else none

/-- `bn_multiply_reduce`: the nine steps `i = 16..8`, then `x[i] = res[i]` for `i < 9`. -/
def bnMultiplyReduce (res : List (BitVec 32)) (prime : Bignum256) : Option Bignum256 := do
  let res ← reduceLoop prime 9 res
  some ⟨List.ofFn fun i : Fin 9 => res.getD i 0, List.length_ofFn _⟩

/-- `bn_multiply`: `x = k * x`, partly reduced. -/
def bnMultiply (k x prime : Bignum256) : Option Bignum256 :=
  bnMultiplyReduce (bnMultiplyLong k x) prime

/-! ### `bn_multiply_long` -/

/-- The exact sum `Σ k[j] * x[i - j]` over `columnRange i`. -/
def colSum (k x : Bignum256) (i : Nat) : Nat :=
  ((columnRange i).map fun j => (k.val.getD j 0).toNat * (x.val.getD (i - j) 0).toNat).sum

/-- The `n` column sums from column `i` on, each at its weight. -/
def columnsValue (k x : Bignum256) : Nat → Nat → Nat
  | 0, _ => 0
  | n + 1, i => colSum k x i + 2 ^ 30 * columnsValue k x n (i + 1)

/-- The exact values `temp + Σ k[j] * x[i - j]` that the 64-bit `temp` of `bn_multiply_long`
holds after each of `n` columns from column `i` on; `temp` never wraps iff each is below
`2^64`. -/
def multiplyLongSums (k x : Bignum256) : Nat → Nat → BitVec 64 → List Nat
  | 0, _, _ => []
  | n + 1, i, temp =>
      (temp.toNat + colSum k x i) :: multiplyLongSums k x n (i + 1) (columnLoop k x i temp >>> 30)

theorem getD_eq_zero_of_value_lt {ls : List (BitVec 32)} (h : Normalized ls) (j : Nat)
    (hv : value ls < 2 ^ (30 * j)) : ls.getD j 0 = 0 := by
  induction ls generalizing j with
  | nil => rfl
  | cons l ls ih =>
      rw [value_cons] at hv
      obtain ⟨-, hls⟩ := (normalized_cons l ls).1 h
      cases j with
      | zero => exact BitVec.eq_of_toNat_eq (by simp at hv ⊢; omega)
      | succ j =>
          rw [show 30 * (j + 1) = 30 + 30 * j by ring, Nat.pow_add] at hv
          exact ih hls j (by omega)

theorem columnRange_length (i : Nat) : (columnRange i).length ≤ 9 := by
  unfold columnRange; split <;> simp <;> omega

/-- No column sum reaches `9 * 2^60`: the loop's "no overflow, since 9*2^60 < 2^64". -/
theorem colSum_le (k x : Bignum256) (hk : k.Normalized) (hx : x.Normalized) (i : Nat) :
    colSum k x i ≤ 9 * (2 ^ 30 - 1) ^ 2 := by
  have hterm : ∀ t ∈ (columnRange i).map fun j =>
      (k.val.getD j 0).toNat * (x.val.getD (i - j) 0).toNat, t ≤ (2 ^ 30 - 1) ^ 2 := by
    simp only [List.mem_map]
    rintro _ ⟨j, -, rfl⟩
    rw [sq]
    exact Nat.mul_le_mul (Nat.le_pred_of_lt (getD_lt hk j)) (Nat.le_pred_of_lt (getD_lt hx _))
  have hsum := List.sum_le_card_nsmul _ _ hterm
  rw [smul_eq_mul, List.length_map] at hsum
  exact hsum.trans (Nat.mul_le_mul_right _ (columnRange_length i))

theorem toNat_columnLoop (k x : Bignum256) (i : Nat) (temp : BitVec 64)
    (h : temp.toNat + colSum k x i < 2 ^ 64) :
    (columnLoop k x i temp).toNat = temp.toNat + colSum k x i := by
  unfold columnLoop colSum at *
  generalize columnRange i = js at h ⊢
  induction js generalizing temp with
  | nil => simp
  | cons j js ih =>
      simp only [List.map_cons, List.sum_cons, List.foldl_cons, ← Nat.add_assoc] at h ⊢
      have hstep := BitVec.toNat_add_of_lt (x := temp)
        (y := (k.val.getD j 0).setWidth 64 * (x.val.getD (i - j) 0).setWidth 64)
        (by rw [toNat_mul_setWidth64]; omega)
      rw [toNat_mul_setWidth64] at hstep
      rw [ih _ (by omega), hstep]

theorem value_multiplyLongLoop (k x : Bignum256) (hk : k.Normalized) (hx : x.Normalized)
    (n i : Nat) (temp : BitVec 64) (ht : temp.toNat < 2 ^ 35) :
    value (multiplyLongLoop k x n i temp) =
      (temp.toNat + columnsValue k x n i) % 2 ^ (30 * n + 32) := by
  induction n generalizing i temp with
  | zero => simp [multiplyLongLoop, columnsValue]
  | succ n ih =>
      have hcol := colSum_le k x hk hx i
      have hsum := toNat_columnLoop k x i temp (by omega)
      have hcarry :
          (columnLoop k x i temp >>> 30).toNat = (temp.toNat + colSum k x i) / 2 ^ 30 := by
        rw [toNat_ushiftRight_eq_div, hsum]
      rw [multiplyLongLoop, value_cons, ih _ _ (by omega), toNat_setWidth_and_mask64, hcarry,
        hsum, mod_digit, columnsValue, Nat.add_assoc,
        show 2 ^ (30 * (n + 1) + 32) = 2 ^ 30 * 2 ^ (30 * n + 32) by ring]

theorem columnsValue_eq (k x : Bignum256) : columnsValue k x 17 0 = k.value * x.value := by
  obtain ⟨kv, hk⟩ := k
  obtain ⟨xv, hx⟩ := x
  match kv, hk, xv, hx with
  | [k0, k1, k2, k3, k4, k5, k6, k7, k8], _, [x0, x1, x2, x3, x4, x5, x6, x7, x8], _ =>
    simp only [columnsValue, colSum, columnRange, Bignum256.value, value_cons, value_nil]
    simp [List.range_succ, List.range']
    ring

theorem multiplyLongSums_lt (k x : Bignum256) (hk : k.Normalized) (hx : x.Normalized)
    (n i : Nat) (temp : BitVec 64) (ht : temp.toNat < 2 ^ 35) :
    ∀ s ∈ multiplyLongSums k x n i temp, s < 2 ^ 64 := by
  induction n generalizing i temp with
  | zero => simp [multiplyLongSums]
  | succ n ih =>
      have hcol := colSum_le k x hk hx i
      have hsum := toNat_columnLoop k x i temp (by omega)
      rw [multiplyLongSums, List.forall_mem_cons]
      refine ⟨by omega, ih _ _ ?_⟩
      rw [toNat_ushiftRight_eq_div, hsum]
      omega

theorem multiplyLongLoop_split (k x : Bignum256) (n i : Nat) (temp : BitVec 64) :
    ∃ ys z, multiplyLongLoop k x n i temp = ys ++ [z] ∧ ys.length = n ∧ Normalized ys := by
  induction n generalizing i temp with
  | zero => exact ⟨[], _, rfl, rfl, normalized_nil⟩
  | succ n ih =>
      obtain ⟨ys, z, h, hl, hn⟩ := ih (i + 1) (columnLoop k x i temp >>> 30)
      refine ⟨_ :: ys, z, by rw [multiplyLongLoop, h]; rfl, by simp [hl],
        (normalized_cons _ _).2 ⟨setWidth_and_mask64_lt _, hn⟩⟩

/-- `bn_multiply_long` writes the 540-bit product `k * x`, normalized, in 18 limbs. -/
theorem bnMultiplyLong_spec (k x : Bignum256) (hk : k.Normalized) (hx : x.Normalized) :
    (bnMultiplyLong k x).length = 18 ∧ Normalized (bnMultiplyLong k x) ∧
      value (bnMultiplyLong k x) = k.value * x.value := by
  have hprod : k.value * x.value < 2 ^ 540 :=
    lt_of_lt_of_eq (Nat.mul_lt_mul'' (k.value_lt hk) (x.value_lt hx)) (by norm_num)
  have hv : value (bnMultiplyLong k x) = k.value * x.value := by
    rw [bnMultiplyLong, value_multiplyLongLoop k x hk hx _ _ _ (by decide), columnsValue_eq,
      show (0 : BitVec 64).toNat = 0 from rfl, Nat.zero_add, Nat.mod_eq_of_lt (by omega)]
  obtain ⟨ys, z, h, hl, hn⟩ := multiplyLongLoop_split k x 17 0 0
  have hz : z.toNat < 2 ^ 30 := by
    rw [bnMultiplyLong, h, value_append, hl, value_cons, value_nil] at hv
    omega
  rw [bnMultiplyLong, h] at hv ⊢
  exact ⟨by simp [hl], by simpa [hn] using hz, hv⟩

/-- `bn_multiply_long` writes `k * x` in 18 normalized limbs, and its 64-bit `temp` never
wraps: every column sum plus the incoming carry stays below `2^64`. -/
theorem bnMultiplyLong_correct (k x : Bignum256) (hk : k.Normalized) (hx : x.Normalized) :
    (bnMultiplyLong k x).length = 18 ∧ Normalized (bnMultiplyLong k x) ∧
      value (bnMultiplyLong k x) = k.value * x.value ∧
      ∀ s ∈ multiplyLongSums k x 17 0 0, s < 2 ^ 64 := by
  obtain ⟨hl, hn, hv⟩ := bnMultiplyLong_spec k x hk hx
  exact ⟨hl, hn, hv, multiplyLongSums_lt k x hk hx 17 0 0 (by decide)⟩

theorem bnMultiplyLong_correct_p : secp256k1P.Normalized ∧
    ((bnMultiplyLong secp256k1P secp256k1P).length = 18 ∧
      Normalized (bnMultiplyLong secp256k1P secp256k1P) ∧
      value (bnMultiplyLong secp256k1P secp256k1P) = secp256k1P.value * secp256k1P.value ∧
      ∀ s ∈ multiplyLongSums secp256k1P secp256k1P 17 0 0, s < 2 ^ 64) :=
  ⟨by decide, bnMultiplyLong_correct secp256k1P secp256k1P (by decide) (by decide)⟩

/-! ### `bn_multiply_reduce_step` -/

theorem reduceWindow_spec (c : BitVec 32) (hc : c.toNat < 2 ^ 31) (w : List (BitVec 32))
    (hw : w.length = 10) (p : Bignum256) (hp : p.Normalized) :
    (reduceWindow c w p).length = 10 ∧ Normalized (reduceWindow c w p) ∧
      ∃ h, value (reduceWindow c w p) + 2 ^ 300 * h + c.toNat * p.value = value w + 2 ^ 331 := by
  match w, hw with
  | [w0, w1, w2, w3, w4, w5, w6, w7, w8, w9], _ =>
    obtain ⟨-, hT0lt⟩ := subMulFirst_spec c w0 (p.limb 0) (p.limb_lt hp 0) hc
    have hlen : [w1, w2, w3, w4, w5, w6, w7, w8].length = p.val.tail.length := by
      simp [p.length_val]
    obtain ⟨hn, -, -, -⟩ := subMulLoop_spec c hc _ _ (normalized_tail hp) hlen _ hT0lt
    have hv := subMulNine_value c hc w0 [w1, w2, w3, w4, w5, w6, w7, w8] rfl p hp
    set T0 := subMulFirst c w0 (p.limb 0)
    set r := subMulLoop c [w1, w2, w3, w4, w5, w6, w7, w8] p.val.tail T0
    have hr : r.1.length = 8 := subMulLoop_length _ _ _ _ hlen
    set T := (r.2 >>> 30) + (0x1FFFFFFF80000000#64 + w9.setWidth 64) with hTdef
    have hT : T.toNat = r.2.toNat / 2 ^ 30 + (2 ^ 61 - 2 ^ 31) + w9.toNat := by
      have := w9.isLt
      have hbias :
          (0x1FFFFFFF80000000#64 + w9.setWidth 64).toNat = (2 ^ 61 - 2 ^ 31) + w9.toNat := by
        rw [BitVec.toNat_add_of_lt] <;> simp only [toNat_setWidth64, BitVec.toNat_ofNat] <;> omega
      rw [hTdef, BitVec.toNat_add_of_lt] <;>
        rw [toNat_ushiftRight_eq_div, hbias] <;> omega
    have hdef : reduceWindow c [w0, w1, w2, w3, w4, w5, w6, w7, w8, w9] p =
        ((T0 &&& 0x3FFFFFFF#64).setWidth 32 :: r.1) ++ [(T &&& 0x3FFFFFFF#64).setWidth 32] := rfl
    have hW : value [w0, w1, w2, w3, w4, w5, w6, w7, w8, w9] =
        w0.toNat + 2 ^ 30 * value [w1, w2, w3, w4, w5, w6, w7, w8] + 2 ^ 270 * w9.toNat := by
      rw [show [w0, w1, w2, w3, w4, w5, w6, w7, w8, w9] =
        (w0 :: [w1, w2, w3, w4, w5, w6, w7, w8]) ++ [w9] from rfl, value_append, value_cons w9,
        value_nil, Nat.mul_zero, Nat.add_zero, value_cons]
      rfl
    rw [hdef]
    refine ⟨by simp [hr], ?_, T.toNat / 2 ^ 30, ?_⟩
    · simp only [normalized_cons, normalized_append, normalized_nil, and_true]
      exact ⟨⟨setWidth_and_mask64_lt _, hn⟩, setWidth_and_mask64_lt _⟩
    · rw [value_append, List.length_cons, hr, value_cons ((T &&& 0x3FFFFFFF#64).setWidth 32),
        value_nil, toNat_setWidth_and_mask64, hW]
      have := Nat.mod_add_div T.toNat (2 ^ 30)
      omega

theorem coef_eq (w : List (BitVec 32)) (hw : w.length = 10) (hn : Normalized w)
    (hlt : value w < 2 ^ 287) :
    ((w.getD 8 0 >>> 16) + (w.getD 9 0 <<< 14)).toNat = value w / 2 ^ 256 := by
  match w, hw with
  | [w0, w1, w2, w3, w4, w5, w6, w7, w8, w9], _ =>
    obtain ⟨hnlow, hn89⟩ := (normalized_append [w0, w1, w2, w3, w4, w5, w6, w7] [w8, w9]).1 hn
    simp only [normalized_cons, normalized_nil, and_true] at hn89
    have hlow := value_lt hnlow
    simp only [List.length_cons, List.length_nil, Nat.reduceAdd, Nat.reduceMul] at hlow
    have hW : value [w0, w1, w2, w3, w4, w5, w6, w7, w8, w9] =
        value [w0, w1, w2, w3, w4, w5, w6, w7] + 2 ^ 240 * (w8.toNat + 2 ^ 30 * w9.toNat) := by
      rw [show [w0, w1, w2, w3, w4, w5, w6, w7, w8, w9] =
        [w0, w1, w2, w3, w4, w5, w6, w7] ++ [w8, w9] from rfl, value_append, value_cons w8,
        value_cons w9, value_nil, Nat.mul_zero, Nat.add_zero]
      rfl
    have h9 : w9.toNat < 2 ^ 17 := by omega
    have hshl : (w9 <<< 14).toNat = w9.toNat * 2 ^ 14 := by
      rw [BitVec.toNat_shiftLeft, Nat.shiftLeft_eq, Nat.mod_eq_of_lt (by omega)]
    have hshr := toNat_ushiftRight_eq_div w8 16
    show ((w8 >>> 16) + (w9 <<< 14)).toNat = _
    rw [BitVec.toNat_add_of_lt (by omega), hshl, hshr, hW]
    omega

theorem getD_window (res : List (BitVec 32)) (k j : Nat) (hj : j < 10) :
    ((res.drop k).take 10).getD j 0 = res.getD (k + j) 0 := by
  simp [List.getElem?_take, hj]

theorem bnMultiplyReduceStep_eq (res : List (BitVec 32)) (p : Bignum256) (k : Nat)
    (h : ((res.getD (k + 8) 0 >>> 16) + (res.getD (k + 9) 0 <<< 14)).toNat < 2 ^ 31) :
    bnMultiplyReduceStep res p (k + 8) = some (res.take k ++
      reduceWindow ((res.getD (k + 8) 0 >>> 16) + (res.getD (k + 9) 0 <<< 14))
        ((res.drop k).take 10) p ++ res.drop (k + 10)) := by
  have hlt : (res.getD (k + 8) 0 >>> 16) + (res.getD (k + 9) 0 <<< 14) < 0x80000000#32 :=
    BitVec.lt_def.2 (lt_of_lt_of_eq h rfl)
  rw [bnMultiplyReduceStep, if_pos hlt, Nat.add_sub_cancel]

theorem reduceWindow_lt (c : BitVec 32) (w : List (BitVec 32)) (hw : w.length = 10)
    (p : Bignum256) (hp : InBand p) (hlt : value w < 2 ^ 31 * p.value)
    (hc : c.toNat = value w / 2 ^ 256) :
    c.toNat < 2 ^ 31 ∧ (reduceWindow c w p).length = 10 ∧ Normalized (reduceWindow c w p) ∧
      value (reduceWindow c w p) + c.toNat * p.value = value w ∧
      value (reduceWindow c w p) < 2 * p.value := by
  have hupper := hp.upper
  have hlower := hp.lower
  have hc31 : c.toNat < 2 ^ 31 := by omega
  obtain ⟨hwl', hwn', h, hwv⟩ := reduceWindow_spec c hc31 w hw p hp.normalized
  have hw'lt := value_lt hwn'
  rw [hwl'] at hw'lt
  have hcP : c.toNat * p.value ≤ c.toNat * 2 ^ 256 := Nat.mul_le_mul_left _ hupper.le
  have hgap := mul_two_pow_sub_le hp c.toNat
  have hc224 : c.toNat * 2 ^ 224 ≤ 2 ^ 31 * 2 ^ 224 := Nat.mul_le_mul_right _ hc31.le
  exact ⟨hc31, hwl', hwn', by omega, by omega⟩

theorem getD_splice (res w : List (BitVec 32)) (k : Nat) (hk : k ≤ res.length)
    (hw : w.length = 10) (j : Nat) (hj : j < k ∨ k + 9 < j) :
    (res.take k ++ w ++ res.drop (k + 10)).getD j 0 = res.getD j 0 := by
  have hlo : (res.take k).length = k := by simp; omega
  rw [List.getD_eq_getElem?_getD, List.getD_eq_getElem?_getD, List.append_assoc]
  rcases hj with hj | hj
  · rw [List.getElem?_append_left (by omega), List.getElem?_take_of_lt hj]
  · rw [List.getElem?_append_right (by omega), List.getElem?_append_right (by omega),
      List.getElem?_drop, hlo, hw]
    congr 2
    omega

theorem bnMultiplyReduceStep_exact (res : List (BitVec 32)) (hl : res.length = 18)
    (hn : Normalized res) (p : Bignum256) (hp : InBand p) (k : Nat) (hk : k ≤ 8)
    (hlt : value res < 2 ^ (30 * (k + 1)) * (2 * p.value)) :
    ((res.getD (k + 8) 0 >>> 16) + (res.getD (k + 9) 0 <<< 14)).toNat < 2 ^ 31 ∧
    ∃ res', bnMultiplyReduceStep res p (k + 8) = some res' ∧ res'.length = 18 ∧
      Normalized res' ∧ res'.getD (k + 9) 0 = 0 ∧ value res' < 2 ^ (30 * k) * (2 * p.value) ∧
      value res' + 2 ^ (30 * k) *
        (((res.getD (k + 8) 0 >>> 16) + (res.getD (k + 9) 0 <<< 14)).toNat * p.value) =
          value res ∧
      ∀ j, j < k ∨ k + 9 < j → res'.getD j 0 = res.getD j 0 := by
  set w := (res.drop k).take 10
  have hres : res = res.take k ++ w ++ res.drop (k + 10) := by
    rw [List.append_assoc, ← List.drop_drop, List.take_append_drop, List.take_append_drop]
  have hlo : (res.take k).length = k := by simp [hl]; omega
  have hwl : w.length = 10 := by simp [w, hl]; omega
  have hparts := hn
  rw [hres, normalized_append, normalized_append] at hparts
  obtain ⟨⟨hnlo, hnw⟩, hnhi⟩ := hparts
  have hval : value res =
      value (res.take k) + 2 ^ (30 * k) * (value w + 2 ^ 300 * value (res.drop (k + 10))) := by
    conv_lhs => rw [hres]
    rw [List.append_assoc, value_append, value_append, hlo, hwl]
  -- the window carries all of `res` above limb `k`
  have hwin : value w + 2 ^ 300 * value (res.drop (k + 10)) < 2 ^ 31 * p.value :=
    Nat.lt_of_mul_lt_mul_left (a := 2 ^ (30 * k))
      (by rw [show 2 ^ (30 * k) * (2 ^ 31 * p.value) = 2 ^ (30 * (k + 1)) * (2 * p.value) by ring]
          omega)
  have hupper := hp.upper
  have hhi : value (res.drop (k + 10)) = 0 := by omega
  have hc := coef_eq w hwl hnw (by omega)
  rw [getD_window _ _ _ (by decide), getD_window _ _ _ (by decide)] at hc
  set c := (res.getD (k + 8) 0 >>> 16) + (res.getD (k + 9) 0 <<< 14)
  obtain ⟨hc31, hwl', hwn', hw', hw'2⟩ := reduceWindow_lt c w hwl p hp (by omega) hc
  set w' := reduceWindow c w p
  have hval' : value (res.take k ++ w' ++ res.drop (k + 10)) =
      value (res.take k) + 2 ^ (30 * k) * value w' := by
    rw [List.append_assoc, value_append, value_append, hlo, hwl', hhi, Nat.mul_zero, Nat.add_zero]
  have hlo_lt := value_lt hnlo
  rw [hlo] at hlo_lt
  refine ⟨hc31, res.take k ++ w' ++ res.drop (k + 10), bnMultiplyReduceStep_eq res p k hc31,
    by simp [hl, hwl']; omega, by simp [hnlo, hwn', hnhi], ?_, ?_, ?_,
    getD_splice res w' k (by omega) hwl'⟩
  · rw [← getD_window _ _ _ (by decide), List.append_assoc, List.drop_left' hlo,
      List.take_left' hwl', getD_eq_zero_of_value_lt hwn' 9 (by omega)]
  · calc value (res.take k ++ w' ++ res.drop (k + 10))
        < 2 ^ (30 * k) + 2 ^ (30 * k) * value w' := by omega
      _ = 2 ^ (30 * k) * (value w' + 1) := by ring
      _ ≤ 2 ^ (30 * k) * (2 * p.value) := Nat.mul_le_mul_left _ hw'2
  · rw [hval', Nat.add_assoc, ← Nat.mul_add, hw', hval, hhi, Nat.mul_zero, Nat.add_zero]

/-- One `bn_multiply_reduce_step` with `i = k + 8`: from `res < 2^(30(i-7)) * 2 * prime` it
subtracts a multiple of `2^(30k) * prime`, leaving `res < 2^(30(i-8)) * 2 * prime` and
`res[i + 1] = 0`; the assertion on `coef` holds. -/
theorem bnMultiplyReduceStep_spec (res : List (BitVec 32)) (hl : res.length = 18)
    (hn : Normalized res) (p : Bignum256) (hp : InBand p) (k : Nat) (hk : k ≤ 8)
    (hlt : value res < 2 ^ (30 * (k + 1)) * (2 * p.value)) :
    ∃ res', bnMultiplyReduceStep res p (k + 8) = some res' ∧ res'.length = 18 ∧
      Normalized res' ∧ res'.getD (k + 9) 0 = 0 ∧ value res' < 2 ^ (30 * k) * (2 * p.value) ∧
      ∃ c, value res' + 2 ^ (30 * k) * (c * p.value) = value res := by
  obtain ⟨-, res', hstep, hl', hn', h9, hlt', hv, -⟩ :=
    bnMultiplyReduceStep_exact res hl hn p hp k hk hlt
  exact ⟨res', hstep, hl', hn', h9, hlt', _, hv⟩

/-- `bn_multiply_reduce_step(res, prime, i)` for `8 <= i <= 16` and a normalized 18-limb
`res < 2^(30(i-7)) * 2 * prime`: `coef < 2^31`, so the assertion holds; only
`res[i-8..i+1]` change; `coef * 2^(30(i-8)) * prime` is subtracted exactly; and the result
is normalized, below `2^(30(i-8)) * 2 * prime`, with `res[i + 1] = 0`. -/
theorem bnMultiplyReduceStep_correct (res : List (BitVec 32)) (hl : res.length = 18)
    (hn : Normalized res) (p : Bignum256) (hp : InBand p) (i : Nat) (hi8 : 8 ≤ i) (hi : i ≤ 16)
    (hlt : value res < 2 ^ (30 * (i - 7)) * 2 * p.value) :
    ((res.getD i 0 >>> 16) + (res.getD (i + 1) 0 <<< 14)).toNat < 2 ^ 31 ∧
    ∃ res', bnMultiplyReduceStep res p i = some res' ∧ res'.length = 18 ∧ Normalized res' ∧
      (∀ j, j < i - 8 ∨ i + 1 < j → res'.getD j 0 = res.getD j 0) ∧
      res'.getD (i + 1) 0 = 0 ∧
      value res' + ((res.getD i 0 >>> 16) + (res.getD (i + 1) 0 <<< 14)).toNat *
        2 ^ (30 * (i - 8)) * p.value = value res ∧
      value res' < 2 ^ (30 * (i - 8)) * 2 * p.value := by
  obtain ⟨k, rfl⟩ : ∃ k, i = k + 8 := ⟨i - 8, by omega⟩
  rw [show k + 8 - 7 = k + 1 by omega, Nat.mul_assoc] at hlt
  obtain ⟨hc, res', hstep, hl', hn', h9, hlt', hv, hframe⟩ :=
    bnMultiplyReduceStep_exact res hl hn p hp k (by omega) hlt
  rw [Nat.add_sub_cancel]
  refine ⟨hc, res', hstep, hl', hn', hframe, h9, ?_, by rw [Nat.mul_assoc]; exact hlt'⟩
  rw [show k + 8 + 1 = k + 9 from rfl, ← hv]
  ring

theorem bnMultiplyReduceStep_correct_p :
    (0#32 :: secp256k1P.val ++ List.replicate 8 0#32).length = 18 ∧
    Normalized (0#32 :: secp256k1P.val ++ List.replicate 8 0#32) ∧ InBand secp256k1P ∧
    8 ≤ 8 ∧ 8 ≤ 16 ∧
    value (0#32 :: secp256k1P.val ++ List.replicate 8 0#32) <
      2 ^ (30 * (8 - 7)) * 2 * secp256k1P.value ∧
    ((((0#32 :: secp256k1P.val ++ List.replicate 8 0#32).getD 8 0 >>> 16) +
        ((0#32 :: secp256k1P.val ++ List.replicate 8 0#32).getD (8 + 1) 0 <<< 14)).toNat <
      2 ^ 31 ∧
    ∃ res', bnMultiplyReduceStep (0#32 :: secp256k1P.val ++ List.replicate 8 0#32) secp256k1P 8 =
        some res' ∧
      res'.length = 18 ∧ Normalized res' ∧
      (∀ j, j < 8 - 8 ∨ 8 + 1 < j →
        res'.getD j 0 = (0#32 :: secp256k1P.val ++ List.replicate 8 0#32).getD j 0) ∧
      res'.getD (8 + 1) 0 = 0 ∧
      value res' + (((0#32 :: secp256k1P.val ++ List.replicate 8 0#32).getD 8 0 >>> 16) +
        ((0#32 :: secp256k1P.val ++ List.replicate 8 0#32).getD (8 + 1) 0 <<< 14)).toNat *
        2 ^ (30 * (8 - 8)) * secp256k1P.value =
          value (0#32 :: secp256k1P.val ++ List.replicate 8 0#32) ∧
      value res' < 2 ^ (30 * (8 - 8)) * 2 * secp256k1P.value) :=
  ⟨rfl, by decide, by decide, le_rfl, by decide, by decide,
    bnMultiplyReduceStep_correct (0#32 :: secp256k1P.val ++ List.replicate 8 0#32) rfl (by decide)
      secp256k1P (by decide) 8 le_rfl (by decide) (by decide)⟩

theorem reduceLoop_spec (p : Bignum256) (hp : InBand p) (n : Nat) (hn9 : n ≤ 9)
    (res : List (BitVec 32)) (hl : res.length = 18) (hn : Normalized res)
    (hlt : value res < 2 ^ (30 * n) * (2 * p.value)) :
    ∃ res', reduceLoop p n res = some res' ∧ res'.length = 18 ∧ Normalized res' ∧
      value res' < 2 * p.value ∧ value res' ≡ value res [MOD p.value] := by
  induction n generalizing res with
  | zero => exact ⟨res, rfl, hl, hn, by simpa using hlt, rfl⟩
  | succ n ih =>
      obtain ⟨res₁, hstep, hl₁, hn₁, h9, hlt₁, c, hc⟩ :=
        bnMultiplyReduceStep_spec res hl hn p hp n (by omega) hlt
      obtain ⟨res', hloop, hl', hn', hlt', hmod⟩ := ih (by omega) res₁ hl₁ hn₁ hlt₁
      refine ⟨res', by rw [reduceLoop, hstep]; exact (if_pos h9).trans hloop, hl', hn', hlt',
        hmod.trans ?_⟩
      rw [← hc, Nat.ModEq, ← Nat.mul_assoc, Nat.add_mul_mod_self_right]

theorem ofFn_getD_eq_take (l : List (BitVec 32)) (n : Nat) (h : n ≤ l.length) :
    List.ofFn (fun i : Fin n => l.getD i 0) = l.take n := by
  apply List.ext_getElem (by simp; omega)
  intro i h1 h2
  rw [List.length_take] at h2
  simp [List.getElem_take, List.getElem?_eq_getElem (show i < l.length by omega)]

/-- `bn_multiply_reduce` turns a normalized `res < 2^270 * 2 * prime` into a partly reduced
`x` congruent to `res`, without a failed assertion. -/
theorem bnMultiplyReduce_spec (res : List (BitVec 32)) (hl : res.length = 18)
    (hn : Normalized res) (p : Bignum256) (hp : InBand p)
    (hlt : value res < 2 ^ 270 * (2 * p.value)) :
    ∃ r, bnMultiplyReduce res p = some r ∧ r.Normalized ∧ r.value < 2 * p.value ∧
      r.value ≡ value res [MOD p.value] := by
  obtain ⟨res', hloop, hl', hn', hlt', hmod⟩ := reduceLoop_spec p hp 9 le_rfl res hl hn hlt
  have htake := ofFn_getD_eq_take res' 9 (by omega)
  have hsplit := List.take_append_drop 9 res'
  have hparts := hn'
  rw [← hsplit, normalized_append] at hparts
  have hval : value (res'.take 9) = value res' := by
    have hv := value_append (res'.take 9) (res'.drop 9)
    rw [hsplit, show (res'.take 9).length = 9 by simp [hl']] at hv
    have := hp.upper
    omega
  rw [← hval] at hlt' hmod
  refine ⟨⟨res'.take 9, by simp [hl']⟩, ?_, hparts.1, hlt', hmod⟩
  rw [bnMultiplyReduce, hloop]
  exact congrArg some (Bignum256.ext htake)

theorem mul_lt_of_lt_180 (k x p : Bignum256) (hp : InBand p) (hk180 : k.value < 180 * p.value)
    (hx180 : x.value < 180 * p.value) : k.value * x.value < 2 ^ 270 * (2 * p.value) := by
  calc k.value * x.value < (180 * p.value) * (180 * p.value) := Nat.mul_lt_mul'' hk180 hx180
    _ ≤ (180 * 2 ^ 256) * (180 * p.value) := Nat.mul_le_mul_right _ (by have := hp.upper; omega)
    _ ≤ 2 ^ 270 * (2 * p.value) := by omega

/-- `bn_multiply` of normalized `k` and `x` whose product is below `2^270 * 2 prime`: the
result is partly reduced and congruent to the product. -/
theorem bnMultiply_spec (k x p : Bignum256) (hp : InBand p) (hk : k.Normalized)
    (hx : x.Normalized) (hkx : k.value * x.value < 2 ^ 270 * (2 * p.value)) :
    ∃ r, bnMultiply k x p = some r ∧ r.Normalized ∧ r.value < 2 * p.value ∧
      r.value ≡ k.value * x.value [MOD p.value] := by
  obtain ⟨hl, hn, hv⟩ := bnMultiplyLong_spec k x hk hx
  rw [← hv]
  exact bnMultiplyReduce_spec _ hl hn p hp (hv ▸ hkx)

/-- `bn_multiply` for a prime of the band and normalized `k, x < 180 * prime`: the product is
partly reduced and correct modulo the prime, and neither `assert (coef < 0x80000000u)` nor
`assert(res[i + 1] == 0)` fails. -/
theorem bnMultiply_partly_reduces (k x p : Bignum256) (hp : InBand p) (hk : k.Normalized)
    (hx : x.Normalized) (hk180 : k.value < 180 * p.value) (hx180 : x.value < 180 * p.value) :
    ∃ r, bnMultiply k x p = some r ∧ r.Normalized ∧ r.value < 2 * p.value ∧
      r.value ≡ k.value * x.value [MOD p.value] :=
  bnMultiply_spec k x p hp hk hx (mul_lt_of_lt_180 k x p hp hk180 hx180)

theorem bnMultiply_partly_reduces_gx : InBand secp256k1P ∧ secp256k1Gx.Normalized ∧
    secp256k1Gx.value < 180 * secp256k1P.value ∧
    ∃ r, bnMultiply secp256k1Gx secp256k1Gx secp256k1P = some r ∧ r.Normalized ∧
      r.value < 2 * secp256k1P.value ∧
      r.value ≡ secp256k1Gx.value * secp256k1Gx.value [MOD secp256k1P.value] :=
  ⟨by decide, by decide, by decide,
    bnMultiply_partly_reduces secp256k1Gx secp256k1Gx secp256k1P (by decide) (by decide)
      (by decide) (by decide) (by decide)⟩

end Bignum
