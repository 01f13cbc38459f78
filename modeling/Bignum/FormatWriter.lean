import Bignum.Format
import Mathlib.Data.Nat.Digits

set_option autoImplicit false

/- What `bn_format` is meant to print, and the writer it runs, apart from the buffer. The
digits of the number go from the least significant up through `BN_FORMAT_PUSH`, which drops
those below a negative `exponent`, skips the zeros at the end of the fraction unless
`trailing`, and puts the point after the last fractional digit; the final `while` completes
the fraction and writes the `0` before a leading point. `Writer.pad_pushAll` says that this
gives `renderDecimal`: the integer part in decimal, then the point and the fraction. -/
namespace Bignum

/-- The `k` low decimal digits of `v`, least significant first. -/
def decDigits : Nat → Nat → List Nat
  | 0, _ => []
  | k + 1, v => v % 10 :: decDigits k (v / 10)

@[simp] theorem decDigits_length (k v : Nat) : (decDigits k v).length = k := by
  induction k generalizing v <;> simp [decDigits, *]

theorem decDigits_add (j k v : Nat) :
    decDigits (j + k) v = decDigits j v ++ decDigits k (v / 10 ^ j) := by
  induction j generalizing v with
  | zero => simp [decDigits]
  | succ j ih =>
      rw [Nat.succ_add, decDigits, decDigits, ih, Nat.div_div_eq_div_mul, ← pow_succ']
      rfl

theorem decDigits_zero (k : Nat) : decDigits k 0 = List.replicate k 0 := by
  induction k <;> simp [decDigits, List.replicate_succ, *]

theorem decDigits_drop (j k v : Nat) :
    (decDigits k v).drop j = decDigits (k - j) (v / 10 ^ j) := by
  rcases Nat.le_total j k with h | h
  · obtain ⟨m, rfl⟩ := Nat.exists_eq_add_of_le h
    rw [decDigits_add, List.drop_left' (decDigits_length _ _), Nat.add_sub_cancel_left]
  · rw [List.drop_eq_nil_of_le (by simpa using h), Nat.sub_eq_zero_of_le h]
    rfl

theorem decDigits_add_of_lt (k j v : Nat) (hv : v < 10 ^ k) :
    decDigits (k + j) v = decDigits k v ++ List.replicate j 0 := by
  rw [decDigits_add, Nat.div_eq_of_lt hv, decDigits_zero]

theorem decDigits_mul_pow (e k v : Nat) :
    decDigits (e + k) (v * 10 ^ e) = List.replicate e 0 ++ decDigits k v := by
  induction e generalizing v with
  | zero => simp
  | succ e ih =>
      rw [Nat.succ_add, decDigits, List.replicate_succ, List.cons_append,
        show v * 10 ^ (e + 1) = v * 10 ^ e * 10 by ring, Nat.mul_mod_left,
        Nat.mul_div_cancel _ (by norm_num), ih]

theorem div_pow_lt (N L D : Nat) (hN : N < 10 ^ L) (hDL : D ≤ L) : N / 10 ^ D < 10 ^ (L - D) := by
  rw [Nat.div_lt_iff_lt_mul (by positivity), ← pow_add, Nat.sub_add_cancel hDL]
  exact hN

theorem pow_sub_le_div (N L D : Nat) (hlo : 10 ^ L ≤ 10 * N) (hDL : D < L) :
    10 ^ (L - D) ≤ 10 * (N / 10 ^ D) := by
  obtain ⟨m, hm⟩ : ∃ m, L - D = m + 1 := ⟨L - D - 1, by omega⟩
  rw [show L = m + D + 1 by omega, pow_succ', pow_add] at hlo
  rw [hm, pow_succ']
  exact Nat.mul_le_mul_left 10 ((Nat.le_div_iff_mul_le (by positivity)).2 (by omega))

theorem decDigits_eq_digits (k v : Nat) (hlo : 10 ^ k ≤ 10 * v) (hhi : v < 10 ^ k) :
    decDigits k v = Nat.digits 10 v := by
  induction k generalizing v with
  | zero => omega
  | succ k ih =>
      have hv : 0 < v := by omega
      rw [decDigits, Nat.digits_def' (by norm_num) hv]
      congr 1
      rcases Nat.eq_zero_or_pos k with rfl | hk
      · rw [Nat.div_eq_of_lt (by simpa using hhi)]
        simp [decDigits]
      · have h10 : 10 ^ k = 10 * 10 ^ (k - 1) := by rw [← pow_succ']; congr 1; omega
        exact ih _ (by rw [pow_succ] at hlo; omega) (by rw [pow_succ] at hhi; omega)

/-- What `bn_format` has written between `str` and `end`, read left to right (the characters
most recently pushed first), with its `exponent` and `decimals`. -/
structure Writer where
  text : List Char
  exponent : Int
  decimals : Nat
  deriving DecidableEq, Repr

namespace Writer

variable (trailing : Bool)

/-- The first statement of `BN_FORMAT_PUSH(n)` at a nonnegative exponent: the digit is
written unless it is a zero of the fraction with nothing written yet (`str == end` is
`text = []`), `trailing` off and more fractional digits to come. -/
def digit (n : Nat) (w : Writer) : Writer :=
  if 0 < n ∨ trailing = true ∨ w.text ≠ [] ∨ w.decimals ≤ 1 then
    { w with text := digitChar n :: w.text }
  else w

/-- `if (decimals > 0 && decimals-- == 1) BN_FORMAT_PUSH_CHECKED('.');` -/
def point (w : Writer) : Writer :=
  if 0 < w.decimals then
    if w.decimals = 1 then ⟨'.' :: w.text, w.exponent, 0⟩
    else { w with decimals := w.decimals - 1 }
  else w

/-- `BN_FORMAT_PUSH(n)` on the text: a digit below the exponent only raises it. -/
def push (n : Nat) (w : Writer) : Writer :=
  if w.exponent < 0 then { w with exponent := w.exponent + 1 } else point (digit trailing n w)

theorem push_exponent (n : Nat) (w : Writer) (e : Int) (he : 0 ≤ e) (hw : 0 ≤ w.exponent) :
    push trailing n { w with exponent := e } = { push trailing n w with exponent := e } := by
  unfold push point digit
  rw [if_neg (not_lt.2 he), if_neg (not_lt.2 hw)]
  split_ifs <;> rfl

/-- Pushing the digits `ds` in order. -/
def pushAll (ds : List Nat) (w : Writer) : Writer := ds.foldl (fun w n => push trailing n w) w

/-- The final `while` of `bn_format` on the text, for at most `n` iterations; `c0` is the
character at `end`, the suffix's first or the NUL. -/
def pad (c0 : Char) : Nat → Writer → Writer
  | 0, w => w
  | n + 1, w =>
      if 0 < w.decimals ∨ w.text.headD c0 = nulChar ∨ w.text.headD c0 = '.' then
        pad c0 n (push trailing 0 w)
      else w

@[simp] theorem pushAll_nil (w : Writer) : pushAll trailing [] w = w := rfl

@[simp] theorem pushAll_cons (n : Nat) (ds : List Nat) (w : Writer) :
    pushAll trailing (n :: ds) w = pushAll trailing ds (push trailing n w) := rfl

theorem pushAll_append (ds es : List Nat) (w : Writer) :
    pushAll trailing (ds ++ es) w = pushAll trailing es (pushAll trailing ds w) :=
  List.foldl_append _ _ _ _

@[simp] theorem digit_exponent (n : Nat) (w : Writer) :
    (digit trailing n w).exponent = w.exponent := by
  unfold digit; split_ifs <;> rfl

@[simp] theorem digit_decimals (n : Nat) (w : Writer) :
    (digit trailing n w).decimals = w.decimals := by
  unfold digit; split_ifs <;> rfl

@[simp] theorem point_exponent (w : Writer) : (point w).exponent = w.exponent := by
  unfold point; split_ifs <;> rfl

@[simp] theorem point_decimals (w : Writer) : (point w).decimals = w.decimals - 1 := by
  unfold point
  split_ifs with h0 h1
  · show 0 = w.decimals - 1; omega
  · rfl
  · omega

theorem length_le_digit (n : Nat) (w : Writer) :
    w.text.length ≤ (digit trailing n w).text.length := by
  unfold digit; split_ifs <;> simp

theorem length_le_point (w : Writer) : w.text.length ≤ (point w).text.length := by
  unfold point; split_ifs <;> simp

theorem length_le_push (n : Nat) (w : Writer) :
    w.text.length ≤ (push trailing n w).text.length := by
  unfold push
  split_ifs
  · exact le_rfl
  · exact (length_le_digit trailing n w).trans (length_le_point _)

theorem length_le_pushAll (ds : List Nat) (w : Writer) :
    w.text.length ≤ (pushAll trailing ds w).text.length := by
  induction ds generalizing w with
  | nil => exact le_rfl
  | cons n ds ih => exact (length_le_push trailing n w).trans (ih _)

theorem length_le_pad (c0 : Char) (n : Nat) (w : Writer) :
    w.text.length ≤ (pad trailing c0 n w).text.length := by
  induction n generalizing w with
  | zero => exact le_rfl
  | succ n ih =>
      rw [pad]
      split_ifs
      · exact (length_le_push trailing 0 w).trans (ih _)
      · exact le_rfl

/-! With the exponent at zero: a digit of the integer part is always written; one of the
fraction is skipped only while nothing is written, it is zero, `trailing` is off, and it is not
the last fractional digit; the point follows the last fractional digit. -/

theorem push_int (n : Nat) (text : List Char) :
    push trailing n ⟨text, 0, 0⟩ = ⟨digitChar n :: text, 0, 0⟩ := by
  simp [push, point, digit]

theorem push_point (n : Nat) (text : List Char) :
    push trailing n ⟨text, 0, 1⟩ = ⟨'.' :: digitChar n :: text, 0, 0⟩ := by
  simp [push, point, digit]

theorem push_frac (n : Nat) (text : List Char) (d : Nat) (hd : 2 ≤ d)
    (hw : 0 < n ∨ trailing = true ∨ text ≠ []) :
    push trailing n ⟨text, 0, d⟩ = ⟨digitChar n :: text, 0, d - 1⟩ := by
  have hwrite : 0 < n ∨ trailing = true ∨ text ≠ [] ∨ d ≤ 1 := by tauto
  simp only [push, digit, point, lt_irrefl, if_false, if_pos hwrite, if_pos (show 0 < d by omega),
    if_neg (show d ≠ 1 by omega)]

theorem push_skip (d : Nat) (hd : 2 ≤ d) : push false 0 ⟨[], 0, d⟩ = ⟨[], 0, d - 1⟩ := by
  simp [push, point, digit, show 0 < d by omega, show d ≠ 1 by omega, show ¬d ≤ 1 by omega]

theorem pushAll_int (is : List Nat) (text : List Char) :
    pushAll trailing is ⟨text, 0, 0⟩ = ⟨is.reverse.map digitChar ++ text, 0, 0⟩ := by
  induction is generalizing text with
  | nil => rfl
  | cons n is ih => simp [push_int, ih]

theorem pushAll_frac_written (fs : List Nat) (hfs : fs ≠ []) (text : List Char)
    (hw : trailing = true ∨ text ≠ []) :
    pushAll trailing fs ⟨text, 0, fs.length⟩ =
      ⟨'.' :: (fs.reverse.map digitChar ++ text), 0, 0⟩ := by
  induction fs generalizing text with
  | nil => exact absurd rfl hfs
  | cons f fs ih =>
      by_cases hne : fs = []
      · subst hne
        simp [push_point]
      · have hlen : 2 ≤ (f :: fs).length := by
          simpa using List.length_pos.2 hne
        rw [pushAll_cons, push_frac trailing f text _ hlen (by tauto), List.length_cons,
          Nat.add_sub_cancel, ih hne _ (Or.inr (List.cons_ne_nil _ _))]
        simp

end Writer

/-- The fractional digits `bn_format` prints, least significant first: all `D` of them with
`trailing`, else without the trailing zeros of the fraction, keeping at least one digit. -/
def fracDigits (trailing : Bool) (fs : List Nat) : List Nat :=
  if trailing then fs
  else if fs.dropWhile (· == 0) = [] then [0] else fs.dropWhile (· == 0)

namespace Writer

variable (trailing : Bool)

theorem pushAll_frac (fs : List Nat) (hfs : fs ≠ []) :
    pushAll trailing fs ⟨[], 0, fs.length⟩ =
      ⟨'.' :: (fracDigits trailing fs).reverse.map digitChar, 0, 0⟩ := by
  cases trailing with
  | true => simpa [fracDigits] using pushAll_frac_written true fs hfs [] (Or.inl rfl)
  | false =>
      induction fs with
      | nil => exact absurd rfl hfs
      | cons f fs ih =>
          by_cases hne : fs = []
          · subst hne
            rcases Nat.eq_zero_or_pos f with rfl | hf
            · simp [push_point, fracDigits]
            · simp [push_point, fracDigits, hf.ne']
          · have hlen : 2 ≤ (f :: fs).length := by
              simpa using List.length_pos.2 hne
            rcases Nat.eq_zero_or_pos f with rfl | hf
            · rw [pushAll_cons, push_skip _ hlen, List.length_cons, Nat.add_sub_cancel, ih hne]
              simp [fracDigits]
            · rw [pushAll_cons, push_frac false f [] _ hlen (Or.inl hf), List.length_cons,
                Nat.add_sub_cancel, pushAll_frac_written false fs hne _ (Or.inr (by simp))]
              simp [fracDigits, hf.ne']

theorem pushAll_decDigits_frac (N D : Nat) (hD : 0 < D) :
    pushAll trailing (decDigits D N) ⟨[], 0, D⟩ =
      ⟨'.' :: (fracDigits trailing (decDigits D N)).reverse.map digitChar, 0, 0⟩ := by
  have h := pushAll_frac trailing (decDigits D N) (List.ne_nil_of_length_pos (by simp; omega))
  rwa [decDigits_length] at h

theorem push_of_nonneg (n : Nat) (w : Writer) (he : 0 ≤ w.exponent) :
    (push trailing n w).exponent = w.exponent ∧
      (push trailing n w).decimals = w.decimals - 1 := by
  unfold push
  split_ifs with h
  · omega
  · simp

theorem pushAll_of_nonneg (ds : List Nat) (w : Writer) (he : 0 ≤ w.exponent) :
    (pushAll trailing ds w).exponent = w.exponent ∧
      (pushAll trailing ds w).decimals = w.decimals - ds.length := by
  induction ds generalizing w with
  | nil => simp
  | cons n ds ih =>
      obtain ⟨he', hd'⟩ := push_of_nonneg trailing n w he
      obtain ⟨he'', hd''⟩ := ih (push trailing n w) (by rw [he']; exact he)
      rw [pushAll_cons, he'', hd'', he', hd', List.length_cons]
      exact ⟨rfl, by omega⟩

theorem pad_zeros (c0 : Char) (k n : Nat) (w : Writer) (hk : k ≤ w.decimals)
    (he : 0 ≤ w.exponent) :
    pad trailing c0 (k + n) w = pad trailing c0 n (pushAll trailing (List.replicate k 0) w) := by
  induction k generalizing w with
  | zero => simp
  | succ k ih =>
      obtain ⟨he', hd'⟩ := push_of_nonneg trailing 0 w he
      rw [Nat.add_right_comm, pad, if_pos (Or.inl (by omega)), ih _ (by omega) (he'.symm ▸ he)]
      rfl

theorem digitChar_ne (n : Nat) (hn : n < 10) : digitChar n ≠ nulChar ∧ digitChar n ≠ '.' := by
  have : ∀ n < 10, digitChar n ≠ nulChar ∧ digitChar n ≠ '.' := by decide
  exact this n hn

theorem pad_zero (c0 : Char) (n : Nat) (text : List Char)
    (hc : text.headD c0 = nulChar ∨ text.headD c0 = '.') :
    pad trailing c0 (n + 2) ⟨text, 0, 0⟩ = ⟨'0' :: text, 0, 0⟩ := by
  have h0 := digitChar_ne 0 (by norm_num)
  rw [pad, if_pos (Or.inr hc), push_int, pad, if_neg]
  · rfl
  · simpa [show digitChar 0 = '0' from rfl] using h0

theorem pad_stop (c0 : Char) (n : Nat) (text : List Char) (e : Int)
    (hn : text.headD c0 ≠ nulChar) (hp : text.headD c0 ≠ '.') :
    pad trailing c0 (n + 1) ⟨text, e, 0⟩ = ⟨text, e, 0⟩ :=
  if_neg fun h => h.elim (Nat.lt_irrefl 0) fun h => h.elim hn hp

theorem pushAll_drop (ds : List Nat) (j d : Nat) :
    pushAll trailing ds ⟨[], -j, d⟩ =
      pushAll trailing (ds.drop j) ⟨[], -↑(j - ds.length), d⟩ := by
  induction ds generalizing j with
  | nil => simp
  | cons n ds ih =>
      cases j with
      | zero => simp
      | succ j =>
          rw [pushAll_cons, push, if_pos (show -((j + 1 : Nat) : Int) < 0 by omega),
            show -((j + 1 : Nat) : Int) + 1 = -j by omega,
            ih, List.drop_succ_cons, List.length_cons, Nat.add_sub_add_right]

theorem pad_drop (c0 : Char) (j n d : Nat) (hc : 0 < d ∨ c0 = nulChar ∨ c0 = '.') :
    pad trailing c0 (j + n) ⟨[], -j, d⟩ = pad trailing c0 n ⟨[], 0, d⟩ := by
  induction j with
  | zero => simp
  | succ j ih =>
      rw [Nat.add_right_comm, pad, if_pos (by simpa using hc), push,
        if_pos (show -((j + 1 : Nat) : Int) < 0 by omega),
        show -((j + 1 : Nat) : Int) + 1 = -j by omega, ih]

end Writer

/-- The text `bn_format` is meant to print for the number `N` with `D` decimals: the integer
part `N / 10^D` in decimal (`0` for zero) and, for `D > 0`, a point and the fraction. -/
def renderDecimal (N D : Nat) (trailing : Bool) : List Char :=
  (if N / 10 ^ D = 0 then ['0'] else (Nat.digits 10 (N / 10 ^ D)).reverse.map digitChar) ++
    if D = 0 then [] else '.' :: (fracDigits trailing (decDigits D N)).reverse.map digitChar

/-- The amount `bn_format` prints, in units of `10^-decimals`: `amnt * 10^exponent`, with the
digits below a negative exponent cut off. -/
def scaledAmount (a : Nat) (exponent : Int) : Nat :=
  if 0 ≤ exponent then a * 10 ^ exponent.toNat else a / 10 ^ (-exponent).toNat

namespace Writer

variable (trailing : Bool)

theorem pushAll_decDigits (N L D : Nat) (hDL : D ≤ L) :
    pushAll trailing (decDigits L N) ⟨[], 0, D⟩ =
      ⟨(decDigits (L - D) (N / 10 ^ D)).reverse.map digitChar ++
        if D = 0 then [] else '.' :: (fracDigits trailing (decDigits D N)).reverse.map digitChar,
        0, 0⟩ := by
  obtain ⟨k, rfl⟩ := Nat.exists_eq_add_of_le hDL
  rw [decDigits_add, pushAll_append, Nat.add_sub_cancel_left]
  rcases Nat.eq_zero_or_pos D with rfl | hD
  · simp [decDigits, pushAll_int]
  · rw [pushAll_decDigits_frac _ _ _ hD, pushAll_int, if_neg (by omega)]

theorem pad_pushAll (N L D : Nat) (c0 : Char) (hN : N < 10 ^ L) (hlo : 0 < N → 10 ^ L ≤ 10 * N)
    (h0 : N = 0 → L ≤ 1) (hc0 : 0 < L ∨ 0 < D ∨ c0 = nulChar ∨ c0 = '.') :
    pad trailing c0 (D - L + 2) (pushAll trailing (decDigits L N) ⟨[], 0, D⟩) =
      ⟨renderDecimal N D trailing, 0, 0⟩ := by
  rcases Nat.lt_or_ge D L with hDL | hLD
  · -- the integer part is written last and stops the `while`
    rw [pushAll_decDigits _ N L D hDL.le, Nat.sub_eq_zero_of_le hDL.le]
    rcases Nat.eq_zero_or_pos N with rfl | hNpos
    · obtain rfl : L = 1 := by have := h0 rfl; omega
      obtain rfl : D = 0 := by omega
      rfl
    have hip := div_pow_lt N L D hN hDL.le
    have hip' := pow_sub_le_div N L D (hlo hNpos) hDL
    have hpos : N / 10 ^ D ≠ 0 := fun h => by
      rw [h, Nat.mul_zero] at hip'
      exact absurd hip' (pow_pos (by norm_num : (0 : ℕ) < 10) _).not_le
    rw [decDigits_eq_digits _ _ hip' hip, renderDecimal, if_neg hpos]
    obtain ⟨x, xs, hx⟩ := List.exists_cons_of_ne_nil
      (List.reverse_ne_nil_iff.2 (Nat.digits_ne_nil_iff_ne_zero.2 hpos))
    have hx10 : x < 10 := Nat.digits_lt_base (by norm_num)
      (List.mem_reverse.1 (hx ▸ List.mem_cons_self x xs))
    rw [hx, List.map_cons, List.cons_append]
    exact pad_stop _ _ _ _ _ (digitChar_ne x hx10).1 (digitChar_ne x hx10).2
  · -- the fraction is completed by zeros, and a `'0'` is written before the point
    have hip : N / 10 ^ D = 0 :=
      Nat.div_eq_of_lt (hN.trans_le (Nat.pow_le_pow_right (by norm_num) hLD))
    obtain ⟨he, hd⟩ := pushAll_of_nonneg trailing (decDigits L N) ⟨[], 0, D⟩ le_rfl
    rw [pad_zeros _ _ _ _ _ (by rw [hd]; simp) (by rw [he]), ← pushAll_append,
      ← decDigits_add_of_lt _ _ _ hN, Nat.add_sub_cancel' hLD, renderDecimal, if_pos hip]
    rcases Nat.eq_zero_or_pos D with rfl | hD
    · obtain rfl : L = 0 := by omega
      exact pad_zero _ _ _ _ (by simpa using hc0)
    · rw [pushAll_decDigits_frac _ _ _ hD, if_neg (by omega)]
      exact pad_zero trailing c0 0 _ (Or.inr rfl)

/-- `bn_format` on the text for a number `A` of `dc` digits: the `for` over a positive
`exponent` pushes its zeros, the digits follow from the least significant, and the final
`while` runs with the model's fuel. -/
def run (c0 : Char) (A dc D : Nat) (e : Int) : Writer :=
  let w := pushAll trailing (decDigits dc A)
    (pushAll trailing (List.replicate e.toNat 0) ⟨[], min e 0, D⟩)
  pad trailing c0 ((-w.exponent).toNat + w.decimals + 2) w

/-- The run prints `renderDecimal` of the scaled amount, unless the final `while` slips: the
exponent drops every digit, there are no decimals, and `c0` is neither NUL nor a point. -/
theorem run_eq (c0 : Char) (A dc D : Nat) (e : Int) (hA : A < 10 ^ dc)
    (hlo : 0 < A → 10 ^ dc ≤ 10 * A) (hz : A = 0 → dc = 1 ∧ e = 0)
    (hslip : 0 < D ∨ c0 = nulChar ∨ c0 = '.' ∨ (-e).toNat < dc) :
    run trailing c0 A dc D e = ⟨renderDecimal (scaledAmount A e) D trailing, 0, 0⟩ := by
  have hdc : 0 < dc := by
    rcases Nat.eq_zero_or_pos A with h | h
    · omega
    · by_contra h0
      rw [Nat.eq_zero_of_not_pos h0, pow_zero] at hA
      omega
  rcases le_or_lt 0 e with he | he
  · -- the zeros of a nonnegative exponent are the low digits of `A * 10^e`
    obtain ⟨k, rfl⟩ := Int.eq_ofNat_of_zero_le he
    have hw :
        pushAll trailing (decDigits dc A) (pushAll trailing (List.replicate k 0) ⟨[], 0, D⟩) =
        pushAll trailing (decDigits (k + dc) (A * 10 ^ k)) ⟨[], 0, D⟩ := by
      rw [← pushAll_append, decDigits_mul_pow]
    obtain ⟨hex, hdec⟩ :
        (pushAll trailing (decDigits (k + dc) (A * 10 ^ k)) ⟨[], 0, D⟩).exponent = 0 ∧
          (pushAll trailing (decDigits (k + dc) (A * 10 ^ k)) ⟨[], 0, D⟩).decimals =
            D - (k + dc) := by
      simpa using pushAll_of_nonneg trailing (decDigits (k + dc) (A * 10 ^ k)) ⟨[], 0, D⟩ le_rfl
    simp only [run, Int.toNat_ofNat, min_eq_right (Int.ofNat_nonneg k), hw, hex, hdec, neg_zero,
      Int.toNat_zero, Nat.zero_add]
    rw [scaledAmount, if_pos he, Int.toNat_ofNat]
    refine pad_pushAll trailing (A * 10 ^ k) (k + dc) D c0 ?_ ?_ ?_ (Or.inl (by omega))
    · rw [pow_add, mul_comm]
      exact Nat.mul_lt_mul_of_pos_left hA (by positivity)
    · intro hpos
      rw [pow_add, mul_comm (10 ^ k), ← mul_assoc]
      exact Nat.mul_le_mul_right _ (hlo (Nat.pos_of_mul_pos_right hpos))
    · intro h0
      obtain ⟨h1, h2⟩ := hz ((Nat.mul_eq_zero.1 h0).resolve_right (by positivity))
      omega
  · -- a negative exponent drops the `j` low digits, then raises itself past the rest
    obtain ⟨j, rfl⟩ : ∃ j : Nat, e = -j := ⟨(-e).toNat, by omega⟩
    have hApos : 0 < A := Nat.pos_of_ne_zero fun h => by have := (hz h).2; omega
    rw [scaledAmount, if_neg (by omega), neg_neg, Int.toNat_ofNat]
    simp only [run, show (-(j : Int)).toNat = 0 by omega, List.replicate_zero, pushAll_nil,
      min_eq_left (show -(j : Int) ≤ 0 by omega)]
    rw [pushAll_drop, decDigits_length, decDigits_drop]
    rcases lt_or_le j dc with hjd | hjd
    · -- a digit is left: the number is `A / 10^j` with `dc - j` digits
      rw [Nat.sub_eq_zero_of_le hjd.le, Nat.cast_zero, neg_zero]
      obtain ⟨hex, hdec⟩ :
          (pushAll trailing (decDigits (dc - j) (A / 10 ^ j)) ⟨[], 0, D⟩).exponent = 0 ∧
            (pushAll trailing (decDigits (dc - j) (A / 10 ^ j)) ⟨[], 0, D⟩).decimals =
              D - (dc - j) := by
        simpa using
          pushAll_of_nonneg trailing (decDigits (dc - j) (A / 10 ^ j)) ⟨[], 0, D⟩ le_rfl
      simp only [hex, hdec, neg_zero, Int.toNat_zero, Nat.zero_add]
      have hlo' := pow_sub_le_div A dc j (hlo hApos) hjd
      refine pad_pushAll trailing (A / 10 ^ j) (dc - j) D c0 (div_pow_lt A dc j hA hjd.le)
        (fun _ => hlo') (fun h0 => ?_) (Or.inl (by omega))
      rw [h0, Nat.mul_zero] at hlo'
      exact absurd hlo' (by positivity : 0 < 10 ^ (dc - j)).not_le
    · -- every digit is dropped: the final `while` raises the exponent to zero first
      have hc : 0 < D ∨ c0 = nulChar ∨ c0 = '.' := by
        rcases hslip with h | h | h | h
        · exact Or.inl h
        · exact Or.inr (Or.inl h)
        · exact Or.inr (Or.inr h)
        · simp at h; omega
      rw [Nat.sub_eq_zero_of_le hjd]
      simp only [decDigits, pushAll_nil, neg_neg, Int.toNat_ofNat]
      rw [Nat.add_assoc, pad_drop trailing c0 (j - dc) (D + 2) D hc,
        Nat.div_eq_of_lt (hA.trans_le (Nat.pow_le_pow_right (by norm_num) hjd))]
      exact pad_pushAll trailing 0 0 D c0 (by norm_num) (fun h => absurd h (lt_irrefl 0))
        (fun _ => Nat.zero_le 1) (Or.inr hc)

end Writer

end Bignum
