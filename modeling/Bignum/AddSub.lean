import Bignum.Limbs
import Mathlib.Data.List.Defs
import Mathlib.Data.Int.ModEq

set_option autoImplicit false

/- The 32-bit carry loops of bignum.c: `bn_add`, `bn_addi`, `bn_normalize`, `bn_subi`,
`bn_subtract` and `bn_subtractmod` all run `tmp += t; a[i] = tmp & 0x3FFFFFFF;
tmp >>= 30` over a per-limb term `t`, and differ only in the term and the initial
`tmp`. -/
namespace Bignum

/-- The shared loop: `tmp += t[i]; res[i] = tmp & 0x3FFFFFFF; tmp >>= 30`. -/
def carryLoop : List (BitVec 32) → BitVec 32 → List (BitVec 32)
  | [], _ => []
  | t :: ts, tmp => ((tmp + t) &&& 0x3FFFFFFF#32) :: carryLoop ts ((tmp + t) >>> 30)

/-- The exact sums `tmp + t[i]` formed by `carryLoop` before they are stored in the
32-bit `tmp`; the accumulator never wraps iff each is below 2^32. -/
def carrySums : List (BitVec 32) → BitVec 32 → List Nat
  | [], _ => []
  | t :: ts, tmp => (tmp.toNat + t.toNat) :: carrySums ts ((tmp + t) >>> 30)

@[simp] theorem carryLoop_length (ts : List (BitVec 32)) (tmp : BitVec 32) :
    (carryLoop ts tmp).length = ts.length := by
  induction ts generalizing tmp <;> simp [carryLoop, *]

theorem carryLoop_normalized (ts : List (BitVec 32)) (tmp : BitVec 32) :
    Normalized (carryLoop ts tmp) := by
  induction ts generalizing tmp with
  | nil => exact normalized_nil
  | cons t ts ih =>
      exact (normalized_cons _ _).2 ⟨and_mask_lt _, ih _⟩

theorem mod_digit (s V M : Nat) :
    s % 2 ^ 30 + 2 ^ 30 * ((s / 2 ^ 30 + V) % M) = (s + 2 ^ 30 * V) % (2 ^ 30 * M) := by
  rw [Nat.mod_mul, Nat.add_mul_mod_self_left, Nat.add_mul_div_left _ _ (Nat.two_pow_pos 30)]

theorem value_carryLoop (ts : List (BitVec 32)) (tmp : BitVec 32)
    (nowrap : ∀ s ∈ carrySums ts tmp, s < 2 ^ 32) :
    value (carryLoop ts tmp) = (tmp.toNat + value ts) % 2 ^ (30 * ts.length) := by
  induction ts generalizing tmp with
  | nil => simp [carryLoop, Nat.mod_one]
  | cons t ts ih =>
      simp only [carrySums, List.mem_cons, forall_eq_or_imp] at nowrap
      have sum := BitVec.toNat_add_of_lt nowrap.1
      rw [carryLoop, value_cons, ih _ nowrap.2, toNat_and_mask, BitVec.toNat_ushiftRight,
        Nat.shiftRight_eq_div_pow, sum, mod_digit, value_cons, List.length_cons, Nat.add_assoc,
        Nat.mul_add, Nat.pow_add, Nat.mul_one, Nat.mul_comm (2 ^ _) (2 ^ 30)]

theorem carrySums_le (K M : Nat) (hKM : K + M < 2 ^ 32) (hcarry : (K + M) / 2 ^ 30 ≤ K)
    (ts : List (BitVec 32)) (tmp : BitVec 32) (hts : ∀ t ∈ ts, t.toNat ≤ M)
    (htmp : tmp.toNat ≤ K) : ∀ s ∈ carrySums ts tmp, s ≤ K + M := by
  induction ts generalizing tmp with
  | nil => simp [carrySums]
  | cons t ts ih =>
      simp only [List.mem_cons, forall_eq_or_imp] at hts
      have sum : (tmp + t).toNat = tmp.toNat + t.toNat := BitVec.toNat_add_of_lt (by omega)
      have next : ((tmp + t) >>> 30).toNat ≤ K := by
        rw [toNat_ushiftRight_eq_div, sum]
        exact le_trans (Nat.div_le_div_right (by omega)) hcarry
      simp only [carrySums, List.mem_cons, forall_eq_or_imp]
      exact ⟨by omega, ih _ hts.2 next⟩

/-- `bn_add`: `a = a + b`. -/
def bnAdd (a b : Bignum256) : Bignum256 :=
  ⟨carryLoop (List.zipWith (· + ·) a.val b.val) 0, by simp [a.length_val, b.length_val]⟩

/-- `bn_addi`: `a = a + b` for a 32-bit `b`, carried from `tmp = b`. -/
def bnAddi (a : Bignum256) (b : BitVec 32) : Bignum256 :=
  ⟨carryLoop a.val b, by simp [a.length_val]⟩

/-- `bn_normalize`: `bn_addi(a, 0)`. -/
def bnNormalize (a : Bignum256) : Bignum256 := bnAddi a 0

/-- `bn_subi`: `a->val[0] -= b` (possibly wrapping), then `bn_add(a, prime)`; `none` is a
failed `assert (b <= prime->val[0])`. -/
def bnSubi (a : Bignum256) (b : BitVec 32) (prime : Bignum256) : Option Bignum256 :=
  if b ≤ prime.limb 0 then
    some (bnAdd ⟨a.val.set 0 (a.limb 0 - b), by simp [a.length_val]⟩ prime)
  else none

/-- The term of `bn_subtract`, `0x3FFFFFFF + a[i] - b[i]`. -/
def subtractTerm (a b : BitVec 32) : BitVec 32 := 0x3FFFFFFF#32 + a - b

/-- `bn_subtract`: `res = a - b`, the borrow encoded by a bias of `0x3FFFFFFF` per limb
and an initial `tmp = 1`. -/
def bnSubtract (a b : Bignum256) : Bignum256 :=
  ⟨carryLoop (List.zipWith subtractTerm a.val b.val) 1, by simp [a.length_val, b.length_val]⟩

theorem length_zipWith3 {α β γ δ : Type} (f : α → β → γ → δ) (as : List α)
    (bs : List β) (cs : List γ) :
    (List.zipWith3 f as bs cs).length = min as.length (min bs.length cs.length) := by
  induction as generalizing bs cs with
  | nil => simp [List.zipWith3]
  | cons a as ih =>
      cases bs <;> cases cs <;> simp [List.zipWith3, ih, Nat.succ_min_succ]

/-- The term of `bn_subtractmod`, `0x3FFFFFFF + a[i] + 2u * prime[i] - b[i]`. -/
def subtractmodTerm (a p b : BitVec 32) : BitVec 32 := 0x3FFFFFFF#32 + a + 2#32 * p - b

/-- The terms `bn_subtractmod` adds into its accumulator. -/
def subtractmodTerms (a b prime : Bignum256) : List (BitVec 32) :=
  List.zipWith3 subtractmodTerm a.val prime.val b.val

/-- `bn_subtractmod`: `res = a + (2 * prime - b)`. -/
def bnSubtractmod (a b prime : Bignum256) : Bignum256 :=
  ⟨carryLoop (subtractmodTerms a b prime) 1, by
    simp [subtractmodTerms, length_zipWith3, a.length_val, b.length_val,
      prime.length_val]⟩

theorem exists_of_mem_zipWith {f : BitVec 32 → BitVec 32 → BitVec 32} {as bs : List (BitVec 32)}
    {d : BitVec 32} (h : d ∈ List.zipWith f as bs) : ∃ a ∈ as, ∃ b ∈ bs, d = f a b := by
  induction as generalizing bs with
  | nil => simp at h
  | cons a as ih =>
      obtain _ | ⟨b, bs⟩ := bs <;> simp at h
      obtain rfl | h := h
      · exact ⟨a, by simp, b, by simp, rfl⟩
      · obtain ⟨a', ha, b', hb, rfl⟩ := ih h
        exact ⟨a', by simp [ha], b', by simp [hb], rfl⟩

theorem mem_zipWith3 {α β γ δ : Type} {f : α → β → γ → δ} {as : List α}
    {bs : List β} {cs : List γ} {d : δ} (h : d ∈ List.zipWith3 f as bs cs) :
    ∃ a ∈ as, ∃ b ∈ bs, ∃ c ∈ cs, d = f a b c := by
  induction as generalizing bs cs with
  | nil => simp [List.zipWith3] at h
  | cons a as ih =>
      obtain _ | ⟨b, bs⟩ := bs <;> obtain _ | ⟨c, cs⟩ := cs <;> simp [List.zipWith3] at h
      obtain rfl | h := h
      · exact ⟨a, by simp, b, by simp, c, by simp, rfl⟩
      · obtain ⟨a', ha, b', hb, c', hc, rfl⟩ := ih h
        exact ⟨a', by simp [ha], b', by simp [hb], c', by simp [hc], rfl⟩

theorem toNat_subtractmodTerm {a p b : BitVec 32} (ha : a.toNat < 2 ^ 30)
    (hp : p.toNat < 2 ^ 30) (hb : b.toNat < 2 ^ 30) :
    (subtractmodTerm a p b).toNat = 2 ^ 30 - 1 + a.toNat + 2 * p.toNat - b.toNat := by
  unfold subtractmodTerm
  bv_omega

theorem value_subtractmodTerms (as ps bs : List (BitVec 32)) (ha : Normalized as)
    (hp : Normalized ps) (hb : Normalized bs) (hpl : ps.length = as.length)
    (hbl : bs.length = as.length) :
    value (List.zipWith3 subtractmodTerm as ps bs) + value bs + 1 =
      2 ^ (30 * as.length) + value as + 2 * value ps := by
  induction as generalizing ps bs with
  | nil => simp_all [List.length_eq_zero, List.zipWith3]
  | cons a as ih =>
      obtain _ | ⟨p, ps⟩ := ps; · simp at hpl
      obtain _ | ⟨b, bs⟩ := bs; · simp at hbl
      simp only [normalized_cons, List.length_cons, add_left_inj] at ha hp hb hpl hbl
      have rest := ih ps bs ha.2 hp.2 hb.2 hpl hbl
      rw [List.zipWith3, value_cons, value_cons, value_cons, value_cons,
        toNat_subtractmodTerm ha.1 hp.1 hb.1, List.length_cons, Nat.mul_succ, Nat.pow_add]
      omega

theorem subtractmodTerms_le {a b p : Bignum256} (ha : a.Normalized) (hb : b.Normalized)
    (hp : p.Normalized) : ∀ t ∈ subtractmodTerms a b p, t.toNat ≤ 2 ^ 32 - 4 := by
  intro t ht
  obtain ⟨x, hx, y, hy, z, hz, rfl⟩ := mem_zipWith3 ht
  rw [toNat_subtractmodTerm (ha x hx) (hp y hy) (hb z hz)]
  have := ha x hx; have := hp y hy
  omega

theorem toNat_subtractTerm {a b : BitVec 32} (ha : a.toNat < 2 ^ 30) (hb : b.toNat < 2 ^ 30) :
    (subtractTerm a b).toNat = 2 ^ 30 - 1 + a.toNat - b.toNat := by
  unfold subtractTerm
  bv_omega

theorem value_subtractTerms (as bs : List (BitVec 32)) (ha : Normalized as) (hb : Normalized bs)
    (hl : bs.length = as.length) :
    value (List.zipWith subtractTerm as bs) + value bs + 1 = 2 ^ (30 * as.length) + value as := by
  induction as generalizing bs with
  | nil => simp_all [List.length_eq_zero]
  | cons a as ih =>
      obtain _ | ⟨b, bs⟩ := bs; · simp at hl
      simp only [normalized_cons, List.length_cons, add_left_inj] at ha hb hl
      have rest := ih bs ha.2 hb.2 hl
      rw [List.zipWith_cons_cons, value_cons, value_cons, value_cons,
        toNat_subtractTerm ha.1 hb.1, List.length_cons, Nat.mul_succ, Nat.pow_add]
      omega

theorem value_carryLoop_sub (ts : List (BitVec 32)) (hl : ts.length = 9) (a b : Nat)
    (nowrap : ∀ s ∈ carrySums ts 1, s < 2 ^ 32) (hsum : value ts + b + 1 = 2 ^ 270 + a) :
    value (carryLoop ts 1) = (a + 2 ^ 270 - b) % 2 ^ 270 := by
  rw [value_carryLoop ts 1 nowrap, hl]
  congr 1
  change 1 + value ts = _
  omega

/-- `bn_subtract` writes `a - b` modulo `2^270` into normalized limbs. -/
theorem bnSubtract_spec (a b : Bignum256) (ha : a.Normalized) (hb : b.Normalized) :
    (bnSubtract a b).Normalized ∧
      (bnSubtract a b).value = (a.value + 2 ^ 270 - b.value) % 2 ^ 270 := by
  have hterms : ∀ t ∈ List.zipWith subtractTerm a.val b.val, t.toNat ≤ 2 ^ 31 - 2 := by
    intro t ht
    obtain ⟨x, hx, y, hy, rfl⟩ := exists_of_mem_zipWith ht
    rw [toNat_subtractTerm (ha x hx) (hb y hy)]
    have := ha x hx
    omega
  have nowrap := carrySums_le 1 (2 ^ 31 - 2) (by decide) (by decide) _ 1 hterms (by decide)
  have terms := value_subtractTerms a.val b.val ha hb (b.length_val.trans a.length_val.symm)
  rw [a.length_val] at terms
  exact ⟨carryLoop_normalized _ _, value_carryLoop_sub _ (by simp [a.length_val, b.length_val])
    a.value b.value (fun s hs => by have := nowrap s hs; omega) terms⟩


theorem value_bnSubtract_of_le (a b : Bignum256) (ha : a.Normalized) (hb : b.Normalized)
    (hle : b.value ≤ a.value) : (bnSubtract a b).value = a.value - b.value := by
  have := Bignum256.value_lt ha
  rw [(bnSubtract_spec a b ha hb).2, show a.value + 2 ^ 270 - b.value =
    a.value - b.value + 2 ^ 270 by omega, Nat.add_mod_right, Nat.mod_eq_of_lt (by omega)]

theorem value_zipWith_add (as bs : List (BitVec 32)) (ha : Normalized as) (hb : Normalized bs)
    (hl : as.length = bs.length) : value (List.zipWith (· + ·) as bs) = value as + value bs := by
  induction as generalizing bs with
  | nil => obtain _ | _ := bs <;> simp_all
  | cons a as ih =>
      obtain _ | ⟨b, bs⟩ := bs; · simp at hl
      simp only [normalized_cons, List.length_cons, add_left_inj] at ha hb hl
      rw [List.zipWith_cons_cons, value_cons, value_cons, value_cons, ih bs ha.2 hb.2 hl,
        BitVec.toNat_add_of_lt (by omega)]
      ring

theorem zipWith_add_lt (as bs : List (BitVec 32)) (ha : Normalized as) (hb : Normalized bs) :
    ∀ t ∈ List.zipWith (· + ·) as bs, t.toNat < 2 ^ 31 := by
  intro t ht
  obtain ⟨x, hx, y, hy, rfl⟩ := exists_of_mem_zipWith ht
  have := ha x hx
  have := hb y hy
  rw [BitVec.toNat_add_of_lt (by omega)]
  omega

/-- `bn_add` over any limbs whose pairwise sums stay below `2^31`: the 32-bit `tmp` never
wraps, and the result is the exact limb sums carried and reduced modulo `2^270`. -/
theorem value_bnAdd (a b : Bignum256)
    (hterms : ∀ t ∈ List.zipWith (· + ·) a.val b.val, t.toNat < 2 ^ 31) :
    (bnAdd a b).value = value (List.zipWith (· + ·) a.val b.val) % 2 ^ 270 := by
  have nowrap := carrySums_le 2 (2 ^ 31 - 1) (by decide) (by decide) _ 0
    (fun t ht => by have := hterms t ht; omega) (by decide)
  have loop := value_carryLoop _ 0 (fun s hs => by have := nowrap s hs; omega)
  rw [List.length_zipWith, a.length_val, b.length_val, Nat.min_self] at loop
  simpa using loop

/-- `bn_add` on normalized operands adds modulo `2^270`, normalizing. -/
theorem bnAdd_spec (a b : Bignum256) (ha : a.Normalized) (hb : b.Normalized) :
    (bnAdd a b).Normalized ∧ (bnAdd a b).value = (a.value + b.value) % 2 ^ 270 := by
  refine ⟨carryLoop_normalized _ _, ?_⟩
  rw [value_bnAdd a b (zipWith_add_lt _ _ ha hb),
    value_zipWith_add _ _ ha hb (a.length_val.trans b.length_val.symm)]
  rfl

theorem set_zero_eq_cons (a : Bignum256) (x : BitVec 32) : a.val.set 0 x = x :: a.val.tail := by
  obtain ⟨v, hv⟩ := a
  match v, hv with
  | _ :: _, _ => rfl

/-- `bn_subi` for every `b <= prime[0]`: the assertion holds, and the wrap of `a[0] - b` is
cancelled by `+ prime[0]` inside `bn_add` before any carry is taken, so `a + prime - b`
modulo `2^270` is written into normalized limbs. -/
theorem bnSubi_correct (a p : Bignum256) (ha : a.Normalized) (hp : p.Normalized) (b : BitVec 32)
    (hb : b ≤ p.limb 0) :
    ∃ a', bnSubi a b p = some a' ∧ a'.Normalized ∧
      a'.value = (a.value + p.value - b.toNat) % 2 ^ 270 := by
  have ha0 := a.limb_lt ha 0
  have hp0 := p.limb_lt hp 0
  have hb' : b.toNat ≤ (p.limb 0).toNat := hb
  have hfirst : (a.limb 0 - b + p.limb 0).toNat =
      (a.limb 0).toNat + (p.limb 0).toNat - b.toNat := by bv_omega
  have hzip : List.zipWith (· + ·) (a.val.set 0 (a.limb 0 - b)) p.val =
      (a.limb 0 - b + p.limb 0) :: List.zipWith (· + ·) a.val.tail p.val.tail := by
    conv_lhs => rw [set_zero_eq_cons, limbs_tail p]
    rfl
  have htail := value_zipWith_add _ _ (normalized_tail ha) (normalized_tail hp)
    (by simp [a.length_val, p.length_val])
  refine ⟨_, if_pos hb, carryLoop_normalized _ _, ?_⟩
  rw [value_bnAdd]
  · dsimp only
    rw [hzip, value_cons, htail, hfirst, value_limbs_tail a, value_limbs_tail p]
    congr 1
    omega
  · dsimp only
    rw [hzip]
    exact List.forall_mem_cons.2
      ⟨by omega, zipWith_add_lt _ _ (normalized_tail ha) (normalized_tail hp)⟩

theorem bnSubi_correct_one : bnOne.Normalized ∧ secp256k1P.Normalized ∧
    1#32 ≤ secp256k1P.limb 0 ∧
    ∃ a', bnSubi bnOne 1#32 secp256k1P = some a' ∧ a'.Normalized ∧
      a'.value = (bnOne.value + secp256k1P.value - (1#32).toNat) % 2 ^ 270 :=
  ⟨bnOne_normalized, by decide, by decide,
    bnSubi_correct bnOne secp256k1P bnOne_normalized (by decide) 1#32 (by decide)⟩

/-- `bn_addi` on limbs below `2^31` adds a `k < 2^30` modulo `2^270`, normalizing. -/
theorem bnAddi_spec (a : Bignum256) (ha : ∀ l ∈ a.val, l.toNat < 2 ^ 31) (k : BitVec 32)
    (hk : k.toNat < 2 ^ 30) :
    (bnAddi a k).Normalized ∧ (bnAddi a k).value = (a.value + k.toNat) % 2 ^ 270 := by
  have nowrap := carrySums_le (2 ^ 30) (2 ^ 31 - 1) (by decide) (by decide) a.val k
    (fun t ht => by have := ha t ht; omega) hk.le
  have loop := value_carryLoop a.val k (fun s hs => by have := nowrap s hs; omega)
  rw [a.length_val] at loop
  refine ⟨carryLoop_normalized _ _, ?_⟩
  change value (carryLoop a.val k) = _
  rw [loop, Nat.add_comm]
  rfl

/-- `bn_subtract` writes `a - b` modulo `2^270` into normalized limbs, which is exactly
`a - b` when `b <= a`. -/
theorem bnSubtract_correct (a b : Bignum256) (ha : a.Normalized) (hb : b.Normalized) :
    (bnSubtract a b).Normalized ∧
      (bnSubtract a b).value = (a.value + 2 ^ 270 - b.value) % 2 ^ 270 ∧
      (b.value ≤ a.value → (bnSubtract a b).value = a.value - b.value) := by
  obtain ⟨hn, hv⟩ := bnSubtract_spec a b ha hb
  exact ⟨hn, hv, value_bnSubtract_of_le a b ha hb⟩

theorem bnSubtract_correct_one : bnOne.Normalized ∧ bnOne.Normalized ∧
    ((bnSubtract bnOne bnOne).Normalized ∧
      (bnSubtract bnOne bnOne).value = (bnOne.value + 2 ^ 270 - bnOne.value) % 2 ^ 270 ∧
      (bnOne.value ≤ bnOne.value →
        (bnSubtract bnOne bnOne).value = bnOne.value - bnOne.value)) :=
  ⟨bnOne_normalized, bnOne_normalized,
    bnSubtract_correct bnOne bnOne bnOne_normalized bnOne_normalized⟩

/-- The one-limb number `k`, as `bn_addi` treats its argument. -/
def oneLimb (k : BitVec 32) : Bignum256 := ⟨k :: List.replicate 8 0, rfl⟩

/-- `bn_add` on normalized operands and `bn_addi` on limbs below `2^31` with `k < 2^30` add
modulo `2^270` into normalized limbs; on a normalized `a`, `bn_addi(a, k)` is `bn_add` of the
one-limb `k`, limb for limb; `bn_normalize` keeps the value modulo `2^270`. -/
theorem bnAdd_bnAddi_correct (a b c : Bignum256) (ha : a.Normalized) (hb : b.Normalized)
    (hc : ∀ l ∈ c.val, l.toNat < 2 ^ 31) (k : BitVec 32) (hk : k.toNat < 2 ^ 30) :
    ((bnAdd a b).Normalized ∧ (bnAdd a b).value = (a.value + b.value) % 2 ^ 270) ∧
      ((bnAddi c k).Normalized ∧ (bnAddi c k).value = (c.value + k.toNat) % 2 ^ 270) ∧
      bnAddi a k = bnAdd a (oneLimb k) ∧
      ((bnNormalize c).Normalized ∧ (bnNormalize c).value = c.value % 2 ^ 270) := by
  have hk1 : (oneLimb k).Normalized := by
    simpa [oneLimb, Bignum256.Normalized, Normalized] using hk
  have hk1v : (oneLimb k).value = k.toNat := by simp [oneLimb, Bignum256.value]
  have ha31 : ∀ l ∈ a.val, l.toNat < 2 ^ 31 := fun l hl => by have := ha l hl; omega
  obtain ⟨han, hav⟩ := bnAddi_spec a ha31 k hk
  obtain ⟨hsn, hsv⟩ := bnAdd_spec a (oneLimb k) ha hk1
  refine ⟨bnAdd_spec a b ha hb, bnAddi_spec c hc k hk,
    Bignum256.eq_of_value_eq han hsn (by rw [hav, hsv, hk1v]), ?_⟩
  simpa using bnAddi_spec c hc 0 (by decide)

theorem bnAdd_bnAddi_correct_one : bnOne.Normalized ∧ bnOne.Normalized ∧
    (∀ l ∈ bnOne.val, l.toNat < 2 ^ 31) ∧ (1#32).toNat < 2 ^ 30 ∧
    (((bnAdd bnOne bnOne).Normalized ∧
        (bnAdd bnOne bnOne).value = (bnOne.value + bnOne.value) % 2 ^ 270) ∧
      ((bnAddi bnOne 1#32).Normalized ∧
        (bnAddi bnOne 1#32).value = (bnOne.value + (1#32).toNat) % 2 ^ 270) ∧
      bnAddi bnOne 1#32 = bnAdd bnOne (oneLimb 1#32) ∧
      ((bnNormalize bnOne).Normalized ∧ (bnNormalize bnOne).value = bnOne.value % 2 ^ 270)) :=
  have h31 : ∀ l ∈ bnOne.val, l.toNat < 2 ^ 31 := fun l hl => by
    have := bnOne_normalized l hl
    omega
  ⟨bnOne_normalized, bnOne_normalized, h31, by decide,
    bnAdd_bnAddi_correct bnOne bnOne bnOne bnOne_normalized bnOne_normalized h31 1#32
      (by decide)⟩

/-- `bn_subtractmod` writes `a + 2 prime - b` modulo `2^270` into normalized limbs, its
accumulator never wrapping. -/
theorem bnSubtractmod_spec (a b p : Bignum256) (ha : a.Normalized) (hb : b.Normalized)
    (hp : p.Normalized) :
    (bnSubtractmod a b p).Normalized ∧
      (∀ s ∈ carrySums (subtractmodTerms a b p) 1, s < 2 ^ 32) ∧
      (bnSubtractmod a b p).value = (a.value + 2 * p.value + 2 ^ 270 - b.value) % 2 ^ 270 := by
  have nowrap := carrySums_le 3 (2 ^ 32 - 4) (by norm_num) (by norm_num) _ 1
    (subtractmodTerms_le ha hb hp) (by decide)
  have terms := value_subtractmodTerms a.val p.val b.val ha hp hb
    (p.length_val.trans a.length_val.symm) (b.length_val.trans a.length_val.symm)
  rw [a.length_val] at terms
  have hsums : ∀ s ∈ carrySums (subtractmodTerms a b p) 1, s < 2 ^ 32 := fun s hs => by
    have := nowrap s hs; omega
  refine ⟨carryLoop_normalized _ _, hsums, value_carryLoop_sub _ (by simp [subtractmodTerms,
    length_zipWith3, a.length_val, b.length_val, p.length_val]) _ _ hsums ?_⟩
  rw [← Nat.add_assoc]; exact terms

theorem value_bnSubtractmod (a b p : Bignum256) (ha : a.Normalized) (hb : b.Normalized)
    (hp : p.Normalized) (hle : b.value ≤ 2 * p.value)
    (hlt : a.value + 2 * p.value - b.value < 2 ^ 270) :
    (bnSubtractmod a b p).value = a.value + 2 * p.value - b.value := by
  rw [(bnSubtractmod_spec a b p ha hb hp).2.2, show a.value + 2 * p.value + 2 ^ 270 - b.value =
    (a.value + 2 * p.value - b.value) + 2 ^ 270 by omega, Nat.add_mod_right,
    Nat.mod_eq_of_lt hlt]

/-- `bn_subtractmod` writes `a + 2 prime - b` modulo `2^270` into normalized limbs,
its accumulator peaking at `2^32 - 1` and never wrapping; for `b <= 2 prime` and no
overflow of 270 bits, the result is exactly `a + 2 prime - b`, congruent to `a - b`. -/
theorem bnSubtractmod_correct (a b p : Bignum256) (ha : a.Normalized) (hb : b.Normalized)
    (hp : p.Normalized) :
    (bnSubtractmod a b p).Normalized ∧
      (∀ i : Fin 9, ((subtractmodTerm (a.limb i) (p.limb i) (b.limb i)).toNat : ℤ) =
        2 ^ 30 - 1 + (a.limb i).toNat + 2 * (p.limb i).toNat - (b.limb i).toNat) ∧
      (∀ s ∈ carrySums (subtractmodTerms a b p) 1, s < 2 ^ 32) ∧
      (bnSubtractmod a b p).value = (a.value + 2 * p.value + 2 ^ 270 - b.value) % 2 ^ 270 ∧
      (b.value ≤ 2 * p.value → a.value + 2 * p.value - b.value < 2 ^ 270 →
        (bnSubtractmod a b p).value = a.value + 2 * p.value - b.value ∧
        ((bnSubtractmod a b p).value : ℤ) ≡ a.value - b.value [ZMOD p.value]) ∧
      ∃ a' b' p' : Bignum256, a'.Normalized ∧ b'.Normalized ∧ p'.Normalized ∧
        2 ^ 32 - 1 ∈ carrySums (subtractmodTerms a' b' p') 1 := by
  obtain ⟨hn, hsums, hv⟩ := bnSubtractmod_spec a b p ha hb hp
  refine ⟨hn, fun i => ?_, hsums, hv, fun hle hlt => ?_, ?_⟩
  · rw [toNat_subtractmodTerm (a.limb_lt ha i) (p.limb_lt hp i) (b.limb_lt hb i)]
    have := b.limb_lt hb i
    rw [Nat.cast_sub (by omega)]
    push_cast
    ring
  · have exact := value_bnSubtractmod a b p ha hb hp hle hlt
    refine ⟨exact, ?_⟩
    rw [exact, Nat.cast_sub (by omega), Int.modEq_iff_dvd]
    exact ⟨-2, by push_cast; ring⟩
  · exact ⟨⟨List.replicate 9 0x3FFFFFFF#32, rfl⟩, bnZero,
      ⟨List.replicate 9 0x3FFFFFFF#32, rfl⟩, by decide, by decide, by decide, by decide⟩

theorem bnSubtractmod_correct_one : bnOne.Normalized ∧
    ((bnSubtractmod bnOne bnOne bnOne).Normalized ∧
      (∀ i : Fin 9, ((subtractmodTerm (bnOne.limb i) (bnOne.limb i) (bnOne.limb i)).toNat : ℤ) =
        2 ^ 30 - 1 + (bnOne.limb i).toNat + 2 * (bnOne.limb i).toNat - (bnOne.limb i).toNat) ∧
      (∀ s ∈ carrySums (subtractmodTerms bnOne bnOne bnOne) 1, s < 2 ^ 32) ∧
      (bnSubtractmod bnOne bnOne bnOne).value =
        (bnOne.value + 2 * bnOne.value + 2 ^ 270 - bnOne.value) % 2 ^ 270 ∧
      (bnOne.value ≤ 2 * bnOne.value → bnOne.value + 2 * bnOne.value - bnOne.value < 2 ^ 270 →
        (bnSubtractmod bnOne bnOne bnOne).value = bnOne.value + 2 * bnOne.value - bnOne.value ∧
        ((bnSubtractmod bnOne bnOne bnOne).value : ℤ) ≡ bnOne.value - bnOne.value
          [ZMOD bnOne.value]) ∧
      ∃ a' b' p' : Bignum256, a'.Normalized ∧ b'.Normalized ∧ p'.Normalized ∧
        2 ^ 32 - 1 ∈ carrySums (subtractmodTerms a' b' p') 1) :=
  ⟨bnOne_normalized, bnSubtractmod_correct bnOne bnOne bnOne bnOne_normalized bnOne_normalized
    bnOne_normalized⟩

end Bignum
