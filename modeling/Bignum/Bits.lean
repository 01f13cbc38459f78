import Bignum.Shift

set_option autoImplicit false

/- The bits of a normalized number are those of its limbs: bit `k` of the value is bit `k % 30`
of limb `k / 30`. `bn_testbit`, `bn_setbit` and `bn_clearbit` address limb `bit / 30` at offset
`bit % 30`, and `bn_xor` works limb by limb, so each acts on the value's bits; a `uint8_t`
bit index always falls in one of the nine limbs. -/
namespace Bignum

theorem testBit_value (ls : List (BitVec 32)) (hn : Normalized ls) (k : Nat) :
    (value ls).testBit k = (ls.getD (k / 30) 0).getLsbD (k % 30) := by
  induction ls generalizing k with
  | nil => simp
  | cons l ls ih =>
      rw [normalized_cons] at hn
      rw [value_cons, Nat.add_comm, Nat.testBit_mul_pow_two_add _ hn.1]
      split_ifs with hk
      · rw [Nat.div_eq_of_lt hk, Nat.mod_eq_of_lt hk, List.getD_cons_zero, BitVec.testBit_toNat]
      · obtain ⟨m, rfl⟩ : ∃ m, k = m + 30 := ⟨k - 30, by omega⟩
        rw [ih hn.2, Nat.add_sub_cancel, Nat.add_div_right _ (by norm_num), List.getD_cons_succ,
          Nat.add_mod_right]

theorem getD_modify (f : BitVec 32 → BitVec 32) (ls : List (BitVec 32)) (i j : Nat)
    (hi : i < ls.length) :
    (ls.modify f i).getD j 0 = if i = j then f (ls.getD j 0) else ls.getD j 0 := by
  rw [List.getD_eq_getElem?_getD, List.getElem?_modify, List.getD_eq_getElem?_getD]
  rcases Nat.lt_or_ge j ls.length with hj | hj
  · rw [List.getElem?_eq_getElem hj]
    split_ifs <;> rfl
  · rw [List.getElem?_eq_none hj, if_neg (by omega)]
    rfl

theorem normalized_modify (f : BitVec 32 → BitVec 32)
    (hf : ∀ l : BitVec 32, l.toNat < 2 ^ 30 → (f l).toNat < 2 ^ 30) (ls : List (BitVec 32))
    (hn : Normalized ls) (i : Nat) : Normalized (ls.modify f i) := by
  induction ls generalizing i with
  | nil => cases i <;> exact normalized_nil
  | cons l ls ih =>
      rw [normalized_cons] at hn
      cases i with
      | zero => exact (normalized_cons _ _).2 ⟨hf l hn.1, hn.2⟩
      | succ i => exact (normalized_cons _ _).2 ⟨hn.1, ih hn.2 i⟩

theorem getLsbD_one_shiftLeft (m j : Nat) (hj : j < 32) :
    (1#32 <<< m).getLsbD j = decide (j = m) := by
  rw [BitVec.getLsbD_shiftLeft, BitVec.getLsbD_one]
  by_cases h : j = m <;> simp [h, hj] <;> omega

theorem toNat_one_shiftLeft (m : Nat) (hm : m < 32) : (1#32 <<< m).toNat = 2 ^ m := by
  rw [BitVec.toNat_shiftLeft, BitVec.toNat_ofNat, Nat.shiftLeft_eq, Nat.one_mul,
    Nat.mod_eq_of_lt (Nat.pow_lt_pow_right (by norm_num) hm)]

theorem bit_div_lt (bit : BitVec 8) : bit.toNat / 30 < 9 := by
  have := bit.isLt
  omega

theorem bnSetbit_val (a : Bignum256) (bit : BitVec 8) :
    (bnSetbit a bit).val = a.val.modify (· ||| (1#32 <<< (bit.toNat % 30))) (bit.toNat / 30) :=
  rfl

theorem bnClearbit_val (a : Bignum256) (bit : BitVec 8) :
    (bnClearbit a bit).val =
      a.val.modify (· &&& ~~~(1#32 <<< (bit.toNat % 30))) (bit.toNat / 30) := rfl

theorem bnXor_val (b c : Bignum256) : (bnXor b c).val = List.zipWith (· ^^^ ·) b.val c.val := rfl

theorem and_one_shiftLeft (x : BitVec 32) (m : Nat) (hm : m < 32) :
    x &&& (1#32 <<< m) = if x.getLsbD m then 1#32 <<< m else 0#32 := by
  apply BitVec.eq_of_getLsbD_eq
  intro j
  rw [BitVec.getLsbD_and, getLsbD_one_shiftLeft _ _ j.isLt]
  by_cases hjm : (j : Nat) = m
  · rw [hjm]
    split_ifs with h <;> simp [h, getLsbD_one_shiftLeft _ _ hm]
  · split_ifs <;> simp [hjm, getLsbD_one_shiftLeft _ _ j.isLt]

/-- `bn_testbit` returns the mask `1 << (bit % 30)` when bit `bit` of a normalized `a` is set,
and 0 when it is clear. -/
theorem bnTestbit_spec (a : Bignum256) (ha : a.Normalized) (bit : BitVec 8) :
    (bnTestbit a bit).toNat = if a.value.testBit bit.toNat then 2 ^ (bit.toNat % 30) else 0 := by
  have hm : bit.toNat % 30 < 32 := by omega
  rw [Bignum256.value, testBit_value _ ha, bnTestbit, and_one_shiftLeft _ _ hm]
  split_ifs
  · exact toNat_one_shiftLeft _ hm
  · rfl

theorem bnTestbit_spec_p : secp256k1P.Normalized ∧
    (bnTestbit secp256k1P 100#8).toNat =
      if secp256k1P.value.testBit (100#8).toNat then 2 ^ ((100#8).toNat % 30) else 0 :=
  ⟨by decide, bnTestbit_spec secp256k1P (by decide) 100#8⟩

/-- `bn_setbit` sets bit `bit` of a normalized number and keeps it normalized. -/
theorem bnSetbit_spec (a : Bignum256) (ha : a.Normalized) (bit : BitVec 8) :
    (bnSetbit a bit).Normalized ∧ (bnSetbit a bit).value = a.value ||| 2 ^ bit.toNat := by
  have hm : bit.toNat % 30 < 30 := Nat.mod_lt _ (by norm_num)
  have hn : (bnSetbit a bit).Normalized := by
    refine normalized_modify _ (fun l hl => ?_) a.val ha _
    rw [BitVec.toNat_or, toNat_one_shiftLeft _ (by omega)]
    exact Nat.or_lt_two_pow hl (Nat.pow_lt_pow_right (by norm_num) hm)
  refine ⟨hn, Nat.eq_of_testBit_eq fun k => ?_⟩
  have hk : k % 30 < 32 := by omega
  rw [Bignum256.value, testBit_value _ hn, Nat.testBit_or, Nat.testBit_two_pow,
    Bignum256.value, testBit_value _ ha, bnSetbit_val,
    getD_modify _ _ _ _ (by rw [a.length_val]; exact bit_div_lt bit)]
  by_cases hb : bit.toNat / 30 = k / 30
  · have hbit : k % 30 = bit.toNat % 30 ↔ bit.toNat = k := by omega
    rw [if_pos hb, BitVec.getLsbD_or, getLsbD_one_shiftLeft _ _ hk]
    simp only [hbit]
  · rw [if_neg hb]
    have : bit.toNat ≠ k := fun h => hb (h ▸ rfl)
    simp [this]

theorem bnSetbit_spec_p : secp256k1P.Normalized ∧ ((bnSetbit secp256k1P 100#8).Normalized ∧
    (bnSetbit secp256k1P 100#8).value = secp256k1P.value ||| 2 ^ (100#8).toNat) :=
  ⟨by decide, bnSetbit_spec secp256k1P (by decide) 100#8⟩

/-- `bn_clearbit` clears bit `bit` of a normalized number, keeps every other bit, and keeps it
normalized. -/
theorem bnClearbit_spec (a : Bignum256) (ha : a.Normalized) (bit : BitVec 8) :
    (bnClearbit a bit).Normalized ∧
      ∀ k, (bnClearbit a bit).value.testBit k =
        (a.value.testBit k && !decide (k = bit.toNat)) := by
  have hn : (bnClearbit a bit).Normalized := by
    refine normalized_modify _ (fun l hl => ?_) a.val ha _
    exact lt_of_le_of_lt (by rw [BitVec.toNat_and]; exact Nat.and_le_left) hl
  refine ⟨hn, fun k => ?_⟩
  have hk : k % 30 < 32 := by omega
  rw [Bignum256.value, testBit_value _ hn, Bignum256.value, testBit_value _ ha, bnClearbit_val,
    getD_modify _ _ _ _ (by rw [a.length_val]; exact bit_div_lt bit)]
  by_cases hb : bit.toNat / 30 = k / 30
  · have hbit : k % 30 = bit.toNat % 30 ↔ k = bit.toNat := by omega
    rw [if_pos hb, BitVec.getLsbD_and, BitVec.getLsbD_not, getLsbD_one_shiftLeft _ _ hk]
    simp [hbit, hk]
  · rw [if_neg hb]
    have : k ≠ bit.toNat := fun h => hb (h ▸ rfl)
    simp [this]

theorem bnClearbit_spec_p : secp256k1P.Normalized ∧ ((bnClearbit secp256k1P 100#8).Normalized ∧
    ∀ k, (bnClearbit secp256k1P 100#8).value.testBit k =
      (secp256k1P.value.testBit k && !decide (k = (100#8).toNat))) :=
  ⟨by decide, bnClearbit_spec secp256k1P (by decide) 100#8⟩

theorem getD_zipWith (f : BitVec 32 → BitVec 32 → BitVec 32) (hf : f 0 0 = 0)
    (as bs : List (BitVec 32)) (hl : as.length = bs.length) (j : Nat) :
    (List.zipWith f as bs).getD j 0 = f (as.getD j 0) (bs.getD j 0) := by
  induction as generalizing bs j with
  | nil => cases bs <;> simp_all
  | cons a as ih =>
      obtain _ | ⟨b, bs⟩ := bs
      · simp at hl
      cases j with
      | zero => rfl
      | succ j => exact ih bs (by simpa using hl) j

/-- `bn_xor` of normalized numbers is the exclusive or of their values, normalized. -/
theorem bnXor_spec (b c : Bignum256) (hb : b.Normalized) (hc : c.Normalized) :
    (bnXor b c).Normalized ∧ (bnXor b c).value = b.value ^^^ c.value := by
  have hn : (bnXor b c).Normalized := by
    intro l hl
    obtain ⟨x, hx, y, hy, rfl⟩ := exists_of_mem_zipWith hl
    rw [BitVec.toNat_xor]
    exact Nat.xor_lt_two_pow (hb x hx) (hc y hy)
  refine ⟨hn, Nat.eq_of_testBit_eq fun k => ?_⟩
  rw [Nat.testBit_xor, Bignum256.value, testBit_value _ hn, Bignum256.value,
    testBit_value _ hb, Bignum256.value, testBit_value _ hc, bnXor_val,
    getD_zipWith _ rfl _ _ (b.length_val.trans c.length_val.symm), BitVec.getLsbD_xor]

theorem bnXor_spec_p : bnOne.Normalized ∧ secp256k1P.Normalized ∧
    ((bnXor bnOne secp256k1P).Normalized ∧
      (bnXor bnOne secp256k1P).value = bnOne.value ^^^ secp256k1P.value) :=
  ⟨bnOne_normalized, by decide, bnXor_spec bnOne secp256k1P bnOne_normalized (by decide)⟩

end Bignum
