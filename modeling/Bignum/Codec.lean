import Bignum.Limbs

set_option autoImplicit false

/- Conversion between a bignum and 32 raw bytes, big or little endian: the input words
are repacked into 30-bit limbs with the shift pair `2i` / `30 - 2i` at position `i`, and
back with `16 + 2i` / `14 - 2i`; and the readers of a `uint32_t` and a `uint64_t`. -/
namespace Bignum

/-- A 32-byte buffer, `uint8_t[32]`. -/
structure Bytes32 where
  bytes : List (BitVec 8)
  length_bytes : bytes.length = 32
deriving DecidableEq

/-- `read_be(data)`: the big-endian word at `data[0..3]`. -/
def readBe (data : List (BitVec 8)) : BitVec 32 :=
  ((data.getD 0 0).setWidth 32 <<< 24) ||| ((data.getD 1 0).setWidth 32 <<< 16) |||
    ((data.getD 2 0).setWidth 32 <<< 8) ||| (data.getD 3 0).setWidth 32

/-- `read_le(data)`: the little-endian word at `data[0..3]`. -/
def readLe (data : List (BitVec 8)) : BitVec 32 :=
  ((data.getD 3 0).setWidth 32 <<< 24) ||| ((data.getD 2 0).setWidth 32 <<< 16) |||
    ((data.getD 1 0).setWidth 32 <<< 8) ||| (data.getD 0 0).setWidth 32

/-- `write_be(data, x)`: the four bytes `x >> 24, x >> 16, x >> 8, x`. -/
def writeBe (x : BitVec 32) : List (BitVec 8) :=
  [(x >>> 24).setWidth 8, (x >>> 16).setWidth 8, (x >>> 8).setWidth 8, x.setWidth 8]

/-- `write_le(data, x)`: the four bytes `x, x >> 8, x >> 16, x >> 24`. -/
def writeLe (x : BitVec 32) : List (BitVec 8) :=
  [x.setWidth 8, (x >>> 8).setWidth 8, (x >>> 16).setWidth 8, (x >>> 24).setWidth 8]

/-- The loop of `bn_read_be` and `bn_read_le` from position `i`, `n` words left, where
`word i` is the `i`-th least significant input word:
`temp |= limb << 2i; val[i] = temp & 0x3FFFFFFF; temp = limb >> (30 - 2i)`,
and `val[8] = temp` after the loop. -/
def readLoop (word : Nat → BitVec 32) : Nat → Nat → BitVec 32 → List (BitVec 32)
  | 0, _, temp => [temp]
  | n + 1, i, temp =>
      ((temp ||| (word i <<< (2 * i))) &&& 0x3FFFFFFF#32) ::
        readLoop word n (i + 1) (word i >>> (30 - 2 * i))

@[simp] theorem readLoop_length (word : Nat → BitVec 32) (n i : Nat) (temp : BitVec 32) :
    (readLoop word n i temp).length = n + 1 := by
  induction n generalizing i temp <;> simp [readLoop, *]

/-- `bn_read_be`: limb `i` takes the word `read_be(in_number + (7 - i) * 4)`. -/
def bnReadBe (input : Bytes32) : Bignum256 :=
  ⟨readLoop (fun i => readBe (input.bytes.drop ((7 - i) * 4))) 8 0 0, by simp⟩

/-- `bn_read_le`: limb `i` takes the word `read_le(in_number + i * 4)`. -/
def bnReadLe (input : Bytes32) : Bignum256 :=
  ⟨readLoop (fun i => readLe (input.bytes.drop (i * 4))) 8 0 0, by simp⟩

/-- `bn_read_uint32`: the low 30 bits in `val[0]`, the top two in `val[1]`. -/
def bnReadUint32 (n : BitVec 32) : Bignum256 :=
  ⟨[n &&& 0x3FFFFFFF#32, n >>> 30, 0, 0, 0, 0, 0, 0, 0], rfl⟩

/-- `bn_read_uint64`: 30 bits each in `val[0]` and `val[1]`, the top four in `val[2]`. -/
def bnReadUint64 (n : BitVec 64) : Bignum256 :=
  ⟨[(n &&& 0x3FFFFFFF#64).setWidth 32, ((n >>> 30) &&& 0x3FFFFFFF#64).setWidth 32,
    (n >>> 60).setWidth 32, 0, 0, 0, 0, 0, 0], rfl⟩

/-- The loop of `bn_write_be` and `bn_write_le` from position `i`, over the limbs
`val[7 - i], ..., val[0]`: `temp = (temp << (16 + 2i)) | (limb >> (14 - 2i))` is the
`i`-th most significant output word, then `temp = limb`. -/
def writeLoop : Nat → List (BitVec 32) → BitVec 32 → List (BitVec 32)
  | _, [], _ => []
  | i, limb :: limbs, temp =>
      ((temp <<< (16 + 2 * i)) ||| (limb >>> (14 - 2 * i))) :: writeLoop (i + 1) limbs limb

@[simp] theorem writeLoop_length (i : Nat) (limbs : List (BitVec 32)) (temp : BitVec 32) :
    (writeLoop i limbs temp).length = limbs.length := by
  induction limbs generalizing i temp <;> simp [writeLoop, *]

/-- The eight output words of `bn_write_be`/`bn_write_le`, most significant first,
starting from `temp = val[8]`. -/
def writeWords (x : Bignum256) : List (BitVec 32) :=
  writeLoop 0 (x.val.take 8).reverse (x.limb 8)

theorem writeWords_length (x : Bignum256) : (writeWords x).length = 8 := by
  simp [writeWords, x.length_val]

theorem length_flatMap_four (ws : List (BitVec 32)) (f : BitVec 32 → List (BitVec 8))
    (hf : ∀ w, (f w).length = 4) : (ws.flatMap f).length = 4 * ws.length := by
  induction ws with
  | nil => rfl
  | cons w ws ih => simp [hf, ih]; ring

/-- `bn_write_be`: word `i` goes to `out_number + i * 4`. -/
def bnWriteBe (x : Bignum256) : Bytes32 :=
  ⟨(writeWords x).flatMap writeBe, by
    rw [length_flatMap_four _ writeBe (fun _ => rfl), writeWords_length]⟩

/-- `bn_write_le`: word `i` goes to `out_number + (7 - i) * 4`. -/
def bnWriteLe (x : Bignum256) : Bytes32 :=
  ⟨(writeWords x).reverse.flatMap writeLe, by
    rw [length_flatMap_four _ writeLe (fun _ => rfl), List.length_reverse, writeWords_length]⟩

/-- Big-endian value of a list of `w`-bit words, `sum_k x[k] * 2^(w (n - 1 - k))`. -/
def valueBe {w : Nat} : List (BitVec w) → Nat
  | [] => 0
  | x :: xs => x.toNat * 2 ^ (w * xs.length) + valueBe xs

/-- Little-endian value of a list of `w`-bit words, `sum_k x[k] * 2^(w k)`. -/
def valueLe {w : Nat} : List (BitVec w) → Nat
  | [] => 0
  | x :: xs => x.toNat + 2 ^ w * valueLe xs

section Words

variable {w : Nat}

@[simp] theorem valueBe_nil : valueBe ([] : List (BitVec w)) = 0 := rfl

@[simp] theorem valueLe_nil : valueLe ([] : List (BitVec w)) = 0 := rfl

theorem valueBe_append (xs ys : List (BitVec w)) :
    valueBe (xs ++ ys) = valueBe xs * 2 ^ (w * ys.length) + valueBe ys := by
  induction xs with
  | nil => simp
  | cons x xs ih =>
      rw [List.cons_append, valueBe, valueBe, ih, List.length_append, Nat.mul_add, Nat.pow_add]
      ring

theorem valueLe_append (xs ys : List (BitVec w)) :
    valueLe (xs ++ ys) = valueLe xs + 2 ^ (w * xs.length) * valueLe ys := by
  induction xs with
  | nil => simp
  | cons x xs ih =>
      rw [List.cons_append, valueLe, valueLe, ih, List.length_cons, Nat.mul_succ, Nat.pow_add]
      ring

theorem valueBe_lt (xs : List (BitVec w)) : valueBe xs < 2 ^ (w * xs.length) := by
  induction xs with
  | nil => simp
  | cons x xs ih =>
      have hx := x.isLt
      rw [valueBe, List.length_cons, Nat.mul_succ, Nat.pow_add]
      calc
        x.toNat * 2 ^ (w * xs.length) + valueBe xs < (x.toNat + 1) * 2 ^ (w * xs.length) := by
          rw [Nat.succ_mul]; omega
        _ ≤ 2 ^ w * 2 ^ (w * xs.length) := Nat.mul_le_mul_right _ hx
        _ = 2 ^ (w * xs.length) * 2 ^ w := Nat.mul_comm _ _

theorem valueLe_reverse (xs : List (BitVec w)) : valueLe xs.reverse = valueBe xs := by
  induction xs with
  | nil => rfl
  | cons x xs ih =>
      rw [List.reverse_cons, valueLe_append, ih, List.length_reverse, valueBe, valueLe, valueLe]
      ring

theorem eq_of_valueBe_eq {xs ys : List (BitVec w)} (hl : xs.length = ys.length)
    (hv : valueBe xs = valueBe ys) : xs = ys := by
  induction xs generalizing ys with
  | nil => exact (List.length_eq_zero.1 hl.symm).symm
  | cons x xs ih =>
      obtain _ | ⟨y, ys⟩ := ys
      · simp at hl
      simp only [List.length_cons, add_left_inj] at hl
      have hxs := valueBe_lt xs
      have hys := valueBe_lt ys
      rw [valueBe, valueBe, hl] at hv
      rw [hl] at hxs
      have top : x.toNat = y.toNat := by
        have := Nat.add_mul_div_right (valueBe xs) x.toNat (Nat.two_pow_pos (w * ys.length))
        have := Nat.add_mul_div_right (valueBe ys) y.toNat (Nat.two_pow_pos (w * ys.length))
        simp_all [Nat.div_eq_of_lt, Nat.add_comm]
      have low : valueBe xs = valueBe ys := by rw [top] at hv; omega
      rw [BitVec.eq_of_toNat_eq top, ih hl low]

end Words

theorem toNat_byte_shift (b : BitVec 8) (k : Nat) (hk : k ≤ 24) :
    (b.setWidth 32 <<< k).toNat = 2 ^ k * b.toNat := by
  have hb := b.isLt
  have : b.toNat * 2 ^ k < 2 ^ 32 :=
    lt_of_lt_of_le (Nat.mul_lt_mul_of_pos_right hb (Nat.two_pow_pos k))
      (by rw [← Nat.pow_add]; exact Nat.pow_le_pow_right (by decide) (by omega))
  rw [BitVec.toNat_shiftLeft, BitVec.toNat_setWidth, Nat.mod_eq_of_lt (by omega : b.toNat < 2 ^ 32),
    Nat.shiftLeft_eq, Nat.mod_eq_of_lt this, Nat.mul_comm]

theorem toNat_readBe (b0 b1 b2 b3 : BitVec 8) (rest : List (BitVec 8)) :
    (readBe (b0 :: b1 :: b2 :: b3 :: rest)).toNat = valueBe [b0, b1, b2, b3] := by
  have h1 := b1.isLt; have h2 := b2.isLt; have h3 := b3.isLt
  simp only [readBe, List.getD_cons_zero, List.getD_cons_succ, BitVec.toNat_or,
    toNat_byte_shift _ _ (by decide : 24 ≤ 24), toNat_byte_shift _ _ (by decide : 16 ≤ 24),
    toNat_byte_shift _ _ (by decide : 8 ≤ 24), BitVec.toNat_setWidth, Nat.or_assoc]
  rw [Nat.mod_eq_of_lt (by omega : b3.toNat < 2 ^ 32),
    ← Nat.mul_add_lt_is_or (by omega : b3.toNat < 2 ^ 8),
    ← Nat.mul_add_lt_is_or (by omega : 2 ^ 8 * b2.toNat + b3.toNat < 2 ^ 16),
    ← Nat.mul_add_lt_is_or
      (by omega : 2 ^ 16 * b1.toNat + (2 ^ 8 * b2.toNat + b3.toNat) < 2 ^ 24)]
  simp only [valueBe, List.length_cons, List.length_nil]
  omega

theorem toNat_readLe (b0 b1 b2 b3 : BitVec 8) (rest : List (BitVec 8)) :
    (readLe (b0 :: b1 :: b2 :: b3 :: rest)).toNat = valueLe [b0, b1, b2, b3] := by
  have h0 := b0.isLt; have h1 := b1.isLt; have h2 := b2.isLt
  simp only [readLe, List.getD_cons_zero, List.getD_cons_succ, BitVec.toNat_or,
    toNat_byte_shift _ _ (by decide : 24 ≤ 24), toNat_byte_shift _ _ (by decide : 16 ≤ 24),
    toNat_byte_shift _ _ (by decide : 8 ≤ 24), BitVec.toNat_setWidth, Nat.or_assoc]
  rw [Nat.mod_eq_of_lt (by omega : b0.toNat < 2 ^ 32),
    ← Nat.mul_add_lt_is_or (by omega : b0.toNat < 2 ^ 8),
    ← Nat.mul_add_lt_is_or (by omega : 2 ^ 8 * b1.toNat + b0.toNat < 2 ^ 16),
    ← Nat.mul_add_lt_is_or
      (by omega : 2 ^ 16 * b2.toNat + (2 ^ 8 * b1.toNat + b0.toNat) < 2 ^ 24)]
  simp only [valueLe]
  omega

theorem valueBe_writeBe (x : BitVec 32) : valueBe (writeBe x) = x.toNat := by
  have := x.isLt
  simp only [writeBe, valueBe, BitVec.toNat_setWidth, BitVec.toNat_ushiftRight,
    Nat.shiftRight_eq_div_pow, List.length_cons, List.length_nil]
  omega

theorem valueLe_writeLe (x : BitVec 32) : valueLe (writeLe x) = x.toNat := by
  have := x.isLt
  simp only [writeLe, valueLe, BitVec.toNat_setWidth, BitVec.toNat_ushiftRight,
    Nat.shiftRight_eq_div_pow]
  omega

theorem valueLe_lt (xs : List (BitVec 8)) : valueLe xs < 2 ^ (8 * xs.length) := by
  rw [← List.reverse_reverse xs, valueLe_reverse, List.length_reverse]
  exact valueBe_lt _

theorem exists_four_cons (l : List (BitVec 8)) (hl : 4 ≤ l.length) :
    ∃ c0 c1 c2 c3 rest, l = c0 :: c1 :: c2 :: c3 :: rest := by
  match l, hl with
  | c0 :: c1 :: c2 :: c3 :: rest, _ => exact ⟨c0, c1, c2, c3, rest, rfl⟩

theorem readBe_drop (b : List (BitVec 8)) (j : Nat) (hj : j + 4 ≤ b.length) :
    (readBe (b.drop j)).toNat = valueBe b / 2 ^ (8 * (b.length - j - 4)) % 2 ^ 32 := by
  obtain ⟨c0, c1, c2, c3, rest, hc⟩ := exists_four_cons (b.drop j) (by simp; omega)
  have hlen : b.length - j - 4 = rest.length := by
    have := congrArg List.length hc; simp at this; omega
  have split : valueBe b = (valueBe (b.take j) * 2 ^ 32 + valueBe [c0, c1, c2, c3]) *
      2 ^ (8 * rest.length) + valueBe rest := by
    conv_lhs => rw [← List.take_append_drop j b, hc]
    rw [valueBe_append, show c0 :: c1 :: c2 :: c3 :: rest = [c0, c1, c2, c3] ++ rest from rfl,
      valueBe_append, List.length_append]
    simp only [List.length_cons, List.length_nil, Nat.mul_add, Nat.pow_add]
    ring
  have hc4 := valueBe_lt [c0, c1, c2, c3]
  rw [hc, toNat_readBe, hlen, split, Nat.add_comm _ (valueBe rest),
    Nat.add_mul_div_right _ _ (Nat.two_pow_pos _), Nat.div_eq_of_lt (valueBe_lt rest),
    Nat.zero_add, Nat.add_comm, Nat.add_mul_mod_self_right]
  exact (Nat.mod_eq_of_lt hc4).symm

theorem readLe_drop (b : List (BitVec 8)) (j : Nat) (hj : j + 4 ≤ b.length) :
    (readLe (b.drop j)).toNat = valueLe b / 2 ^ (8 * j) % 2 ^ 32 := by
  obtain ⟨c0, c1, c2, c3, rest, hc⟩ := exists_four_cons (b.drop j) (by simp; omega)
  have hlen : (b.take j).length = j := by simp; omega
  have split : valueLe b = valueLe (b.take j) +
      2 ^ (8 * j) * (valueLe [c0, c1, c2, c3] + 2 ^ 32 * valueLe rest) := by
    conv_lhs => rw [← List.take_append_drop j b, hc]
    rw [valueLe_append, show c0 :: c1 :: c2 :: c3 :: rest = [c0, c1, c2, c3] ++ rest from rfl,
      valueLe_append, hlen]
    rfl
  have hc4 := valueLe_lt [c0, c1, c2, c3]
  have htake := valueLe_lt (b.take j)
  rw [hlen] at htake
  rw [hc, toNat_readLe, split, Nat.add_mul_div_left _ _ (Nat.two_pow_pos _),
    Nat.div_eq_of_lt htake, Nat.zero_add, Nat.add_mul_mod_self_left]
  exact (Nat.mod_eq_of_lt hc4).symm

theorem readLoop_limb (temp limb : BitVec 32) (i : Nat) (hi : i < 8)
    (ht : temp.toNat < 2 ^ (2 * i)) :
    ((temp ||| (limb <<< (2 * i))) &&& 0x3FFFFFFF#32).toNat =
      temp.toNat + 2 ^ (2 * i) * (limb.toNat % 2 ^ (30 - 2 * i)) := by
  have h32 : 2 ^ 32 = 2 ^ (2 * i) * 2 ^ (32 - 2 * i) := by rw [← Nat.pow_add]; congr 1; omega
  have h30 : 2 ^ 30 = 2 ^ (2 * i) * 2 ^ (30 - 2 * i) := by rw [← Nat.pow_add]; congr 1; omega
  have hor : (temp ||| (limb <<< (2 * i))).toNat =
      temp.toNat + 2 ^ (2 * i) * (limb.toNat % 2 ^ (32 - 2 * i)) := by
    rw [BitVec.toNat_or, BitVec.toNat_shiftLeft, Nat.shiftLeft_eq, Nat.mul_comm, h32,
      Nat.mul_mod_mul_left, Nat.or_comm, ← Nat.mul_add_lt_is_or ht, Nat.add_comm]
  rw [toNat_and_mask, hor, h30, Nat.mod_mul, Nat.add_mul_mod_self_left, Nat.mod_eq_of_lt ht,
    Nat.add_mul_div_left _ _ (Nat.two_pow_pos _), Nat.div_eq_of_lt ht, Nat.zero_add,
    Nat.mod_mod_of_dvd _ (Nat.pow_dvd_pow 2 (by omega))]

theorem readLoop_spec (word : Nat → BitVec 32) (X : Nat) (n i : Nat) (temp : BitVec 32)
    (hni : n + i = 8) (htemp : temp.toNat < 2 ^ (2 * i))
    (hword : ∀ k, i ≤ k → k < 8 → (word k).toNat = X / 2 ^ (32 * k) % 2 ^ 32) :
    Normalized (readLoop word n i temp) ∧
      value (readLoop word n i temp) =
        temp.toNat + 2 ^ (2 * i) * (X / 2 ^ (32 * i) % 2 ^ (32 * n)) := by
  induction n generalizing i temp with
  | zero =>
      obtain rfl : i = 8 := by omega
      exact ⟨(normalized_cons _ _).2 ⟨by omega, normalized_nil⟩,
        by simp [readLoop, Nat.mod_one]⟩
  | succ n ih =>
      have hi : i < 8 := by omega
      have hW := hword i le_rfl hi
      have hnext : (word i >>> (30 - 2 * i)).toNat < 2 ^ (2 * (i + 1)) := by
        rw [toNat_ushiftRight_eq_div,
          Nat.div_lt_iff_lt_mul (Nat.two_pow_pos _), ← Nat.pow_add,
          show 2 * (i + 1) + (30 - 2 * i) = 32 by omega]
        exact (word i).isLt
      obtain ⟨hnorm, hval⟩ := ih (i + 1) _ (by omega) hnext
        (fun k hk hk8 => hword k (by omega) hk8)
      refine ⟨(normalized_cons _ _).2 ⟨and_mask_lt _, hnorm⟩, ?_⟩
      have h30 : 2 ^ 30 = 2 ^ (2 * i) * 2 ^ (30 - 2 * i) := by
        rw [← Nat.pow_add]; congr 1; omega
      have h62 : 2 ^ 30 * 2 ^ (2 * (i + 1)) = 2 ^ (2 * i) * 2 ^ 32 := by
        rw [← Nat.pow_add, ← Nat.pow_add]; congr 1; omega
      have hY : X / 2 ^ (32 * i) % 2 ^ (32 * (n + 1)) =
          X / 2 ^ (32 * i) % 2 ^ 32 + 2 ^ 32 * (X / 2 ^ (32 * (i + 1)) % 2 ^ (32 * n)) := by
        rw [show 32 * (n + 1) = 32 + 32 * n by ring, Nat.pow_add, Nat.mod_mul,
          Nat.div_div_eq_div_mul, ← Nat.pow_add, show 32 * i + 32 = 32 * (i + 1) by ring]
      have hdm := Nat.mod_add_div (X / 2 ^ (32 * i) % 2 ^ 32) (2 ^ (30 - 2 * i))
      rw [readLoop, value_cons, hval, readLoop_limb _ _ i hi htemp, BitVec.toNat_ushiftRight,
        Nat.shiftRight_eq_div_pow, hW, hY, Nat.mul_add, ← Nat.mul_assoc, h62, h30]
      generalize X / 2 ^ (32 * i) % 2 ^ 32 = W at hdm ⊢
      generalize W % 2 ^ (30 - 2 * i) = A at hdm ⊢
      generalize W / 2 ^ (30 - 2 * i) = B at hdm ⊢
      rw [← hdm]
      ring

theorem writeLoop_word (temp l : BitVec 32) (n : Nat) (hn : n < 8) (hl : l.toNat < 2 ^ 30) :
    ((temp <<< (16 + 2 * (7 - n))) ||| (l >>> (14 - 2 * (7 - n)))).toNat =
      (temp.toNat * 2 ^ (30 - 2 * n) + l.toNat / 2 ^ (2 * n)) % 2 ^ 32 := by
  have h32 : 2 ^ 32 = 2 ^ (30 - 2 * n) * 2 ^ (2 * n + 2) := by
    rw [← Nat.pow_add]; congr 1; omega
  have hq : l.toNat / 2 ^ (2 * n) < 2 ^ (30 - 2 * n) := by
    rw [Nat.div_lt_iff_lt_mul (Nat.two_pow_pos _), ← Nat.pow_add,
      show 30 - 2 * n + 2 * n = 30 by omega]
    exact hl
  rw [BitVec.toNat_or, BitVec.toNat_shiftLeft, BitVec.toNat_ushiftRight, Nat.shiftLeft_eq,
    Nat.shiftRight_eq_div_pow, show 16 + 2 * (7 - n) = 30 - 2 * n by omega,
    show 14 - 2 * (7 - n) = 2 * n by omega, h32, Nat.mul_comm temp.toNat,
    Nat.mul_mod_mul_left, ← Nat.mul_add_lt_is_or hq, Nat.mul_comm _ temp.toNat, Nat.mod_mul,
    Nat.mul_comm temp.toNat, Nat.mul_add_mod, Nat.mod_eq_of_lt hq,
    Nat.mul_add_div (Nat.two_pow_pos _), Nat.div_eq_of_lt hq, Nat.add_zero (temp.toNat),
    Nat.add_comm]

theorem writeLoop_split (t l V n : Nat) (hn : n < 8) (hV : V < 2 ^ (30 * n)) :
    (t * 2 ^ (30 * (n + 1)) + (V + 2 ^ (30 * n) * l)) % 2 ^ (32 * (n + 1)) =
      (t * 2 ^ (30 - 2 * n) + l / 2 ^ (2 * n)) % 2 ^ 32 * 2 ^ (32 * n) +
        (l * 2 ^ (30 * n) + V) % 2 ^ (32 * n) := by
  have e1 : 2 ^ (30 * (n + 1)) = 2 ^ (32 * n) * 2 ^ (30 - 2 * n) := by
    rw [← Nat.pow_add, show 32 * n + (30 - 2 * n) = 30 * (n + 1) by omega]
  have e2 : 2 ^ (32 * (n + 1)) = 2 ^ (32 * n) * 2 ^ 32 := by
    rw [← Nat.pow_add, show 32 * n + 32 = 32 * (n + 1) by ring]
  have e3 : 2 ^ (32 * n) = 2 ^ (30 * n) * 2 ^ (2 * n) := by
    rw [← Nat.pow_add, show 30 * n + 2 * n = 32 * n by ring]
  have hY : (l * 2 ^ (30 * n) + V) / 2 ^ (32 * n) = l / 2 ^ (2 * n) := by
    rw [e3, ← Nat.div_div_eq_div_mul, Nat.add_comm, Nat.add_mul_div_right _ _ (Nat.two_pow_pos _),
      Nat.div_eq_of_lt hV, Nat.zero_add]
  have hZ : t * (2 ^ (32 * n) * 2 ^ (30 - 2 * n)) + (V + 2 ^ (30 * n) * l) =
      (l * 2 ^ (30 * n) + V) + 2 ^ (32 * n) * (t * 2 ^ (30 - 2 * n)) := by ring
  rw [e2, Nat.mod_mul, e1, hZ, Nat.add_mul_mod_self_left,
    Nat.add_mul_div_left _ _ (Nat.two_pow_pos _), hY, Nat.add_comm (l / _)]
  ring

theorem valueBe_writeLoop (L : List (BitVec 32)) (temp : BitVec 32) (hL : Normalized L)
    (hn : L.length ≤ 8) :
    valueBe (writeLoop (8 - L.length) L temp) =
      (temp.toNat * 2 ^ (30 * L.length) + value L.reverse) % 2 ^ (32 * L.length) := by
  induction L generalizing temp with
  | nil => simp [writeLoop, Nat.mod_one]
  | cons l L ih =>
      obtain ⟨hl, hL'⟩ := (normalized_cons l L).1 hL
      have hn' : L.length < 8 := by simp at hn; omega
      have hV : value L.reverse < 2 ^ (30 * L.length) := by
        simpa using value_lt (fun x hx => hL' x (List.mem_reverse.1 hx))
      have hrest := ih l hL' hn'.le
      rw [List.length_cons, show 8 - (L.length + 1) = 7 - L.length by omega, writeLoop,
        show 7 - L.length + 1 = 8 - L.length by omega, valueBe, hrest, writeLoop_length,
        writeLoop_word _ _ _ hn' hl, List.reverse_cons, value_append, List.length_reverse,
        value_cons, value_nil, Nat.mul_zero, Nat.add_zero]
      exact (writeLoop_split _ _ _ _ hn' hV).symm

theorem valueBe_flatMap_writeBe (ws : List (BitVec 32)) :
    valueBe (ws.flatMap writeBe) = valueBe ws := by
  induction ws with
  | nil => rfl
  | cons w ws ih =>
      rw [List.flatMap_cons, valueBe_append, ih, valueBe_writeBe,
        length_flatMap_four _ writeBe (fun _ => rfl), valueBe, ← Nat.mul_assoc]

theorem valueLe_flatMap_writeLe (ws : List (BitVec 32)) :
    valueLe (ws.flatMap writeLe) = valueLe ws := by
  induction ws with
  | nil => rfl
  | cons w ws ih =>
      rw [List.flatMap_cons, valueLe_append, ih, valueLe_writeLe, valueLe]
      rfl

theorem valueBe_writeWords (x : Bignum256) (hx : x.Normalized) :
    valueBe (writeWords x) = x.value % 2 ^ 256 := by
  have hlen : (x.val.take 8).reverse.length = 8 := by simp [x.length_val]
  have := valueBe_writeLoop _ (x.limb 8) (normalized_take_reverse hx 8) (by omega)
  rw [hlen, List.reverse_reverse] at this
  rw [writeWords, this, value_limbs_top x]
  ring_nf

theorem eq_of_valueLe_eq {xs ys : List (BitVec 8)} (hl : xs.length = ys.length)
    (hv : valueLe xs = valueLe ys) : xs = ys := by
  rw [← List.reverse_reverse xs, ← List.reverse_reverse ys, valueLe_reverse,
    valueLe_reverse] at hv
  exact List.reverse_inj.1 (eq_of_valueBe_eq (by simpa using hl) hv)

theorem Bytes32.ext {b c : Bytes32} (h : b.bytes = c.bytes) : b = c := by
  cases b; cases c; subst h; rfl

theorem bnReadBe_val (b : Bytes32) :
    (bnReadBe b).val = readLoop (fun i => readBe (b.bytes.drop ((7 - i) * 4))) 8 0 0 := rfl

theorem bnReadLe_val (b : Bytes32) :
    (bnReadLe b).val = readLoop (fun i => readLe (b.bytes.drop (i * 4))) 8 0 0 := rfl

theorem bnReadBe_spec (b : Bytes32) :
    (bnReadBe b).Normalized ∧ (bnReadBe b).value = valueBe b.bytes := by
  have hX : valueBe b.bytes < 2 ^ (32 * 8) := by simpa [b.length_bytes] using valueBe_lt b.bytes
  have hword : ∀ k, 0 ≤ k → k < 8 → (readBe (b.bytes.drop ((7 - k) * 4))).toNat =
      valueBe b.bytes / 2 ^ (32 * k) % 2 ^ 32 := by
    intro k _ hk
    have hj : (7 - k) * 4 + 4 ≤ b.bytes.length := by rw [b.length_bytes]; omega
    rw [readBe_drop _ _ hj, b.length_bytes, show 8 * (32 - (7 - k) * 4 - 4) = 32 * k by omega]
  obtain ⟨hn, hv⟩ := readLoop_spec _ (valueBe b.bytes) 8 0 0 rfl (by decide) hword
  rw [Bignum256.Normalized, Bignum256.value, bnReadBe_val, hv, Nat.mul_zero, pow_zero,
    Nat.div_one, one_mul, Nat.mod_eq_of_lt hX]
  exact ⟨hn, Nat.zero_add _⟩

theorem bnReadLe_spec (b : Bytes32) :
    (bnReadLe b).Normalized ∧ (bnReadLe b).value = valueLe b.bytes := by
  have hX : valueLe b.bytes < 2 ^ (32 * 8) := by simpa [b.length_bytes] using valueLe_lt b.bytes
  have hword : ∀ k, 0 ≤ k → k < 8 → (readLe (b.bytes.drop (k * 4))).toNat =
      valueLe b.bytes / 2 ^ (32 * k) % 2 ^ 32 := by
    intro k _ hk
    have hj : k * 4 + 4 ≤ b.bytes.length := by rw [b.length_bytes]; omega
    rw [readLe_drop _ _ hj, show 8 * (k * 4) = 32 * k by ring]
  obtain ⟨hn, hv⟩ := readLoop_spec _ (valueLe b.bytes) 8 0 0 rfl (by decide) hword
  rw [Bignum256.Normalized, Bignum256.value, bnReadLe_val, hv, Nat.mul_zero, pow_zero,
    Nat.div_one, one_mul, Nat.mod_eq_of_lt hX]
  exact ⟨hn, Nat.zero_add _⟩

/-- `bn_read_uint64` stores its argument as a normalized number. -/
theorem bnReadUint64_spec (n : BitVec 64) :
    (bnReadUint64 n).Normalized ∧ (bnReadUint64 n).value = n.toNat := by
  have := n.isLt
  have htop : ((n >>> 60).setWidth 32).toNat = n.toNat / 2 ^ 60 := by
    rw [BitVec.toNat_setWidth, toNat_ushiftRight_eq_div]
    omega
  simp only [Bignum256.Normalized, Bignum256.value, bnReadUint64, normalized_cons,
    normalized_nil, value_cons, value_nil, toNat_setWidth_and_mask64, htop,
    toNat_ushiftRight_eq_div, BitVec.ofNat_eq_ofNat, BitVec.toNat_ofNat, Nat.zero_mod,
    Nat.mul_zero, Nat.zero_add, Nat.add_zero, and_true]
  omega

theorem valueBe_bnWriteBe (x : Bignum256) (hx : x.Normalized) :
    valueBe (bnWriteBe x).bytes = x.value % 2 ^ 256 := by
  rw [bnWriteBe, valueBe_flatMap_writeBe, valueBe_writeWords x hx]

theorem valueLe_bnWriteLe (x : Bignum256) (hx : x.Normalized) :
    valueLe (bnWriteLe x).bytes = x.value % 2 ^ 256 := by
  rw [bnWriteLe, valueLe_flatMap_writeLe, valueLe_reverse, valueBe_writeWords x hx]

/-- `bn_read_be` and `bn_read_le` produce normalized limbs holding the big- and
little-endian value of the 32 bytes, and each read inverts its write on numbers below
`2^256` (in particular on fully reduced ones), and conversely. -/
theorem bnRead_bnWrite_roundtrip :
    (∀ b : Bytes32, (bnReadBe b).Normalized ∧ (bnReadBe b).value = valueBe b.bytes ∧
      bnWriteBe (bnReadBe b) = b) ∧
    (∀ x : Bignum256, x.Normalized → x.value < 2 ^ 256 → bnReadBe (bnWriteBe x) = x) ∧
    (∀ b : Bytes32, (bnReadLe b).Normalized ∧ (bnReadLe b).value = valueLe b.bytes ∧
      bnWriteLe (bnReadLe b) = b) ∧
    (∀ x : Bignum256, x.Normalized → x.value < 2 ^ 256 → bnReadLe (bnWriteLe x) = x) := by
  refine ⟨fun b => ?_, fun x hx hlt => ?_, fun b => ?_, fun x hx hlt => ?_⟩
  · obtain ⟨hn, hv⟩ := bnReadBe_spec b
    have hlt : valueBe b.bytes < 2 ^ 256 := by simpa [b.length_bytes] using valueBe_lt b.bytes
    have hlen : (bnWriteBe (bnReadBe b)).bytes.length = b.bytes.length := by
      rw [(bnWriteBe _).length_bytes, b.length_bytes]
    refine ⟨hn, hv, Bytes32.ext (eq_of_valueBe_eq hlen ?_)⟩
    rw [valueBe_bnWriteBe _ hn, hv, Nat.mod_eq_of_lt hlt]
  · obtain ⟨hn, hv⟩ := bnReadBe_spec (bnWriteBe x)
    exact Bignum256.eq_of_value_eq hn hx (by rw [hv, valueBe_bnWriteBe x hx, Nat.mod_eq_of_lt hlt])
  · obtain ⟨hn, hv⟩ := bnReadLe_spec b
    have hlt : valueLe b.bytes < 2 ^ 256 := by simpa [b.length_bytes] using valueLe_lt b.bytes
    have hlen : (bnWriteLe (bnReadLe b)).bytes.length = b.bytes.length := by
      rw [(bnWriteLe _).length_bytes, b.length_bytes]
    refine ⟨hn, hv, Bytes32.ext (eq_of_valueLe_eq hlen ?_)⟩
    rw [valueLe_bnWriteLe _ hn, hv, Nat.mod_eq_of_lt hlt]
  · obtain ⟨hn, hv⟩ := bnReadLe_spec (bnWriteLe x)
    exact Bignum256.eq_of_value_eq hn hx (by rw [hv, valueLe_bnWriteLe x hx, Nat.mod_eq_of_lt hlt])

theorem bnRead_bnWrite_roundtrip_one : bnOne.Normalized ∧ bnOne.value < 2 ^ 256 ∧
    bnReadBe (bnWriteBe bnOne) = bnOne ∧ bnReadLe (bnWriteLe bnOne) = bnOne :=
  ⟨bnOne_normalized, by simp, bnRead_bnWrite_roundtrip.2.1 bnOne bnOne_normalized (by simp),
    bnRead_bnWrite_roundtrip.2.2.2 bnOne bnOne_normalized (by simp)⟩

/-- The little-endian codec is the big-endian one on reversed bytes, for every number and every
buffer: `bn_write_le` writes the bytes of `bn_write_be` in reverse order, and `bn_read_le`
reads what `bn_read_be` reads from the reversed buffer. -/
theorem bnWriteLe_bnReadLe_reverse (x : Bignum256) (b : Bytes32) :
    (bnWriteLe x).bytes = (bnWriteBe x).bytes.reverse ∧
      bnReadLe b = bnReadBe ⟨b.bytes.reverse, by rw [List.length_reverse, b.length_bytes]⟩ := by
  refine ⟨?_, ?_⟩
  · rw [bnWriteLe, bnWriteBe, List.reverse_flatMap]
    rfl
  · obtain ⟨hln, hlv⟩ := bnReadLe_spec b
    obtain ⟨hbn, hbv⟩ :=
      bnReadBe_spec ⟨b.bytes.reverse, by rw [List.length_reverse, b.length_bytes]⟩
    refine Bignum256.eq_of_value_eq hln hbn ?_
    rw [hlv, hbv, ← valueLe_reverse, List.reverse_reverse]

end Bignum
