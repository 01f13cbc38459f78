import Bignum.FormatWriter

set_option autoImplicit false

/- `bn_format` refines the writer of `Bignum.FormatWriter`. During the run the C buffer is the
prefix, the bytes of `out` not yet overwritten in the gap between `start` and `end`, the text
written so far and the suffix with its NUL; `encode` builds that state from a `Writer`, and
`Agrees` says that a run of the C model reaches it, or has returned 0 once the text no longer
fits in the gap. Each macro and loop of the model is shown to agree with the writer, and with
`Writer.run_eq` this gives the output of `bn_format` for every amount below `10^78`. -/
namespace Bignum

section Digits

variable (start stop : Nat) (trailing : Bool)

/-- `BN_FORMAT_PUSH` of the digits `ds`, in order. -/
def formatPushAll (ds : List Nat) (s : FormatState) : Except FormatState FormatState :=
  ds.foldlM (fun s n => formatPush start stop trailing n s) s

@[simp] theorem formatPushAll_nil (s : FormatState) :
    formatPushAll start stop trailing [] s = pure s := rfl

@[simp] theorem formatPushAll_cons (n : Nat) (ds : List Nat) (s : FormatState) :
    formatPushAll start stop trailing (n :: ds) s =
      formatPush start stop trailing n s >>= fun s => formatPushAll start stop trailing ds s :=
  rfl

theorem formatPushAll_append (ds es : List Nat) (s : FormatState) :
    formatPushAll start stop trailing (ds ++ es) s =
      formatPushAll start stop trailing ds s >>= formatPushAll start stop trailing es :=
  List.foldlM_append _ _ _ _

theorem divmod1000_iterate (n : Nat) (val : Bignum256) (hv : val.Normalized) :
    ((fun v => (bnDivmod1000 v).1)^[n] val).Normalized ∧
      ((fun v => (bnDivmod1000 v).1)^[n] val).value = val.value / 1000 ^ n := by
  induction n generalizing val with
  | zero => exact ⟨hv, by simp⟩
  | succ n ih =>
      obtain ⟨hq, hr, hval⟩ := bnDivmod1000_spec val hv
      obtain ⟨h1, h2⟩ := ih _ hq
      rw [Function.iterate_succ_apply, h2, pow_succ', ← Nat.div_div_eq_div_mul,
        show (bnDivmod1000 val).1.value = val.value / 1000 by omega]
      exact ⟨h1, rfl⟩

theorem thousand_digits (v r : Nat) (hr : r < 1000) :
    (1000 * v + r) % 10 = r % 10 ∧ (1000 * v + r) / 10 % 10 = r / 10 % 10 ∧
      (1000 * v + r) / 10 / 10 % 10 = r / 100 % 10 ∧ (1000 * v + r) / 10 / 10 / 10 = v := by
  omega

theorem digitsLoop_eq (n : Nat) (val : Bignum256) (hv : val.Normalized) (s : FormatState) :
    digitsLoop start stop trailing n val s =
      formatPushAll start stop trailing (decDigits (3 * n) val.value) s >>=
        fun s' => .ok ((fun v => (bnDivmod1000 v).1)^[n] val, s') := by
  induction n generalizing val s with
  | zero => rfl
  | succ n ih =>
      obtain ⟨hq, hr, hval⟩ := bnDivmod1000_spec val hv
      obtain ⟨e0, e1, e2, e3⟩ := thousand_digits _ _ hr
      rw [← hval] at e0 e1 e2 e3
      rw [Nat.mul_succ]
      simp only [digitsLoop, decDigits, formatPushAll_cons, bind_assoc, e0, e1, e2, e3, ih _ hq,
        Function.iterate_succ_apply]

theorem lastGroup_eq (digits : Nat) (val : Bignum256) (hv : val.Normalized) (s : FormatState) :
    lastGroup start stop trailing digits val s =
      formatPushAll start stop trailing (decDigits (digits % 3) val.value) s := by
  obtain ⟨-, hr, hval⟩ := bnDivmod1000_spec val hv
  obtain ⟨e0, e1, -⟩ := thousand_digits _ _ hr
  rw [← hval] at e0 e1
  have h3 : digits % 3 = 0 ∨ digits % 3 = 1 ∨ digits % 3 = 2 := by omega
  rcases h3 with h3 | h3 | h3
  · rw [lastGroup, h3]
    rfl
  all_goals simp only [lastGroup, h3, decDigits, formatPushAll_cons, formatPushAll_nil, e0, e1,
    bind_pure]

end Digits

section Simulation

/- `P` is the prefix, `M` the bytes of `out` from `start` to `end` before the run, `X` the
suffix; `start` is `P.length` and `end` is `P.length + M.length`. -/
variable (P M X : List Char)

/-- The C state holding the writer `w`: `str` is `|text|` left of `end`. -/
def encode (w : Writer) : FormatState :=
  ⟨P ++ M.take (M.length - w.text.length) ++ (w.text ++ X ++ [nulChar]),
    P.length + (M.length - w.text.length), w.exponent, w.decimals⟩

/-- The C run `r` follows the writer `w`: it ends in `encode w` while the text fits in the gap,
and in a `return 0` otherwise. -/
def Agrees (r : Except FormatState FormatState) (w : Writer) : Prop :=
  (w.text.length ≤ M.length → r = .ok (encode P M X w)) ∧
    (M.length < w.text.length → r.isOk = false)

variable {P M X}

theorem Agrees.of_ok {w : Writer} (hw : w.text.length ≤ M.length) :
    Agrees P M X (.ok (encode P M X w)) w :=
  ⟨fun _ => rfl, fun h => absurd hw (Nat.not_le.2 h)⟩

theorem Agrees.bind {r : Except FormatState FormatState} {w w' : Writer}
    {f : FormatState → Except FormatState FormatState} (hr : Agrees P M X r w)
    (hf : w.text.length ≤ M.length → Agrees P M X (f (encode P M X w)) w')
    (hle : w.text.length ≤ w'.text.length) : Agrees P M X (r >>= f) w' := by
  by_cases hw : w.text.length ≤ M.length
  · rw [hr.1 hw]
    exact hf hw
  · cases r with
    | ok s => exact absurd (hr.2 (Nat.not_le.1 hw)) (by simp [Except.isOk, Except.toBool])
    | error s => exact ⟨fun h => absurd (hle.trans h) hw, fun _ => rfl⟩

theorem set_gap (T : List Char) (k : Nat) (c : Char) (hk : 0 < k) (hkM : k ≤ M.length) :
    (P ++ M.take k ++ T).set (P.length + k - 1) c = P ++ M.take (k - 1) ++ c :: T := by
  obtain ⟨j, rfl⟩ : ∃ j, k = j + 1 := ⟨k - 1, by omega⟩
  have hlen : (P ++ M.take j).length = P.length + j := by simp; omega
  rw [← List.take_concat_get' M j (by omega), List.append_assoc P, List.append_assoc,
    List.singleton_append, ← List.append_assoc, List.set_append_right _ _ (by omega)]
  simp only [hlen, show P.length + (j + 1) - 1 - (P.length + j) = 0 by omega, List.set_cons_zero,
    Nat.add_sub_cancel]

@[simp] theorem encode_str (w : Writer) :
    (encode P M X w).str = P.length + (M.length - w.text.length) := rfl

@[simp] theorem encode_exponent (w : Writer) : (encode P M X w).exponent = w.exponent := rfl

@[simp] theorem encode_decimals (w : Writer) : (encode P M X w).decimals = w.decimals := rfl

theorem pushChecked_agrees (c : Char) (w : Writer) (hw : w.text.length ≤ M.length) :
    Agrees P M X (pushChecked P.length c (encode P M X w)) { w with text := c :: w.text } := by
  unfold pushChecked
  by_cases hfull : w.text.length = M.length
  · rw [if_pos (by simp [hfull])]
    exact ⟨fun h => by simp at h; omega, fun _ => rfl⟩
  · rw [if_neg (by simp; omega)]
    have hset : { encode P M X w with
        out := (encode P M X w).out.set ((encode P M X w).str - 1) c,
        str := (encode P M X w).str - 1 } = encode P M X { w with text := c :: w.text } := by
      simp only [encode, List.length_cons, encode_str]
      rw [set_gap _ _ _ (by omega) (by omega)]
      congr 2
      omega
    rw [hset]
    exact Agrees.of_ok (by simp; omega)

variable (trailing : Bool)

theorem formatPush_agrees (n : Nat) (w : Writer) (hw : w.text.length ≤ M.length) :
    Agrees P M X (formatPush P.length (P.length + M.length) trailing n (encode P M X w))
      (Writer.push trailing n w) := by
  unfold formatPush Writer.push
  rw [encode_exponent]
  by_cases he : w.exponent < 0
  · rw [if_pos he, if_pos he]
    exact Agrees.of_ok (w := { w with exponent := w.exponent + 1 }) hw
  rw [if_neg he, if_neg he]
  refine Agrees.bind ?_ (fun hfit => ?_) (Writer.length_le_point _)
  · -- the digit
    have hstop : (encode P M X w).str ≠ P.length + M.length ↔ w.text ≠ [] := by
      rw [encode_str, Ne, Ne, ← List.length_eq_zero]
      omega
    unfold Writer.digit
    simp only [hstop, encode_decimals]
    split_ifs
    · exact pushChecked_agrees _ _ hw
    · exact Agrees.of_ok hw
  · -- the point after the last fractional digit
    set w' := Writer.digit trailing n w
    unfold Writer.point
    simp only [encode_decimals]
    split_ifs with h0 h1
    · have hs : { encode P M X w' with decimals := w'.decimals - 1 } =
          encode P M X { w' with decimals := 0 } := by rw [h1]; rfl
      rw [hs]
      exact pushChecked_agrees '.' _ hfit
    · exact Agrees.of_ok (w := { w' with decimals := w'.decimals - 1 }) hfit
    · exact Agrees.of_ok hfit

theorem exponentLoop_agrees (k : Nat) (w : Writer) (hk : w.exponent.toNat = k)
    (hw : w.text.length ≤ M.length) :
    Agrees P M X (exponentLoop P.length (P.length + M.length) trailing k (encode P M X w))
      (Writer.pushAll trailing (List.replicate k 0) { w with exponent := min w.exponent 0 }) := by
  induction k generalizing w with
  | zero =>
      rw [min_eq_left (by omega)]
      exact Agrees.of_ok hw
  | succ k ih =>
      have hpos : 0 < w.exponent := by omega
      obtain ⟨he, -⟩ := Writer.push_of_nonneg trailing 0 w hpos.le
      rw [exponentLoop, min_eq_right hpos.le, List.replicate_succ, Writer.pushAll_cons,
        Writer.push_exponent trailing 0 w 0 le_rfl hpos.le]
      refine Agrees.bind (formatPush_agrees trailing 0 w hw) (fun hfit => ?_)
        (Writer.length_le_pushAll trailing (List.replicate k 0)
          { Writer.push trailing 0 w with exponent := 0 })
      have h := ih
        { Writer.push trailing 0 w with exponent := (Writer.push trailing 0 w).exponent - 1 }
        (by dsimp only; omega) hfit
      rwa [show min ((Writer.push trailing 0 w).exponent - 1) 0 = 0 by omega] at h

theorem getD_encode (w : Writer) :
    (encode P M X w).out.getD (encode P M X w).str nulChar = w.text.headD (X.headD nulChar) := by
  have hlen : (P ++ M.take (M.length - w.text.length)).length =
      P.length + (M.length - w.text.length) := by simp
  simp only [encode]
  rw [List.getD_append_right _ _ _ _ hlen.le, hlen, Nat.sub_self]
  cases w.text <;> cases X <;> rfl

theorem padLoop_agrees (n : Nat) (w : Writer) (hw : w.text.length ≤ M.length) :
    Agrees P M X (padLoop P.length (P.length + M.length) trailing n (encode P M X w))
      (Writer.pad trailing (X.headD nulChar) n w) := by
  induction n generalizing w with
  | zero => exact Agrees.of_ok hw
  | succ n ih =>
      rw [padLoop, Writer.pad, getD_encode, encode_decimals]
      split_ifs
      · exact Agrees.bind (formatPush_agrees trailing 0 w hw) (ih _)
          (Writer.length_le_pad trailing _ _ _)
      · exact Agrees.of_ok hw

theorem formatPushAll_agrees (ds : List Nat) (w : Writer) (hw : w.text.length ≤ M.length) :
    Agrees P M X (formatPushAll P.length (P.length + M.length) trailing ds (encode P M X w))
      (Writer.pushAll trailing ds w) := by
  induction ds generalizing w with
  | nil => exact Agrees.of_ok hw
  | cons n ds ih =>
      exact Agrees.bind (formatPush_agrees trailing n w hw) (ih _)
        (Writer.length_le_pushAll trailing _ _)

end Simulation

section Run

variable {P M X : List Char} (trailing : Bool)

theorem formatRun_agrees (amnt : Bignum256) (ha : amnt.Normalized) (e : Int) (D : Nat) :
    Agrees P M X
      (exponentLoop P.length (P.length + M.length) trailing e.toNat
          (encode P M X ⟨[], e, D⟩) >>=
        fun s => digitsLoop P.length (P.length + M.length) trailing (bnDigitcount amnt / 3) amnt s
          >>= fun x => lastGroup P.length (P.length + M.length) trailing (bnDigitcount amnt) x.1 x.2
          >>= fun s => padLoop P.length (P.length + M.length) trailing
            ((-s.exponent).toNat + s.decimals + 2) s)
      (Writer.run trailing (X.headD nulChar) amnt.value (bnDigitcount amnt) D e) := by
  have hsplit : decDigits (3 * (bnDigitcount amnt / 3)) amnt.value ++
      decDigits (bnDigitcount amnt % 3) (amnt.value / 1000 ^ (bnDigitcount amnt / 3)) =
        decDigits (bnDigitcount amnt) amnt.value := by
    rw [show (1000 : Nat) = 10 ^ 3 by norm_num, ← pow_mul, ← decDigits_add, Nat.div_add_mod]
  obtain ⟨hn, hv⟩ := divmod1000_iterate (bnDigitcount amnt / 3) amnt ha
  refine Agrees.bind (exponentLoop_agrees trailing e.toNat ⟨[], e, D⟩ rfl (Nat.zero_le _))
    (fun h1 => ?_) ?_
  · rw [digitsLoop_eq _ _ _ _ _ ha, bind_assoc]
    simp only [ok_bind, lastGroup_eq _ _ _ _ _ hn, hv]
    rw [← bind_assoc, ← formatPushAll_append, hsplit, Writer.run]
    refine Agrees.bind (formatPushAll_agrees trailing _ _ h1) (fun h2 => ?_)
      (Writer.length_le_pad trailing _ _ _)
    simp only [encode_exponent, encode_decimals]
    exact padLoop_agrees trailing _ _ h2
  · rw [Writer.run]
    exact (Writer.length_le_pushAll trailing _ _).trans (Writer.length_le_pad trailing _ _ _)

end Run

theorem bnDigitcount_bounds (a : Bignum256) (ha : a.Normalized) (hlt : a.value < 10 ^ 78) :
    a.value < 10 ^ bnDigitcount a ∧ (0 < a.value → 10 ^ bnDigitcount a ≤ 10 * a.value) ∧
      (a.value = 0 → bnDigitcount a = 1) := by
  rw [bnDigitcount, digitcountLoop_eq _ _ _ ha, show DIGITS / 3 = 26 from rfl,
    Nat.mod_eq_of_lt (by norm_num; exact hlt), Nat.zero_add]
  split_ifs with h0
  · simp [h0]
  · refine ⟨Nat.lt_pow_succ_log_self (by norm_num) _, fun _ => ?_, fun h => absurd h h0⟩
    rw [pow_succ']
    exact Nat.mul_le_mul_left 10 (Nat.pow_log_le_self 10 h0)

theorem bnIsZero_exponent (amnt : Bignum256) (exponent : Int) :
    (if bnIsZero amnt = 1#32 then 0 else exponent) = if amnt.value = 0 then 0 else exponent := by
  rw [bnIsZero_eq]
  by_cases h : amnt.value = 0
  · rw [if_pos h, if_pos (show (1 : BitVec 32) = 1#32 from rfl), if_pos h]
  · rw [if_neg h, if_neg (by decide), if_neg h]

theorem run_bnFormat (amnt : Bignum256) (decimals : Nat) (exponent : Int) (trailing : Bool)
    (c0 : Char) (ha : amnt.Normalized) (hlt : amnt.value < 10 ^ 78)
    (hslip : 0 < decimals ∨ c0 = nulChar ∨ c0 = '.' ∨ amnt.value = 0 ∨
      10 ^ (-exponent).toNat ≤ amnt.value) :
    Writer.run trailing c0 amnt.value (bnDigitcount amnt) decimals
        (if amnt.value = 0 then 0 else exponent) =
      ⟨renderDecimal (scaledAmount amnt.value exponent) decimals trailing, 0, 0⟩ := by
  obtain ⟨hA, hlo, h0⟩ := bnDigitcount_bounds amnt ha hlt
  have hscaled : scaledAmount amnt.value (if amnt.value = 0 then 0 else exponent) =
      scaledAmount amnt.value exponent := by
    split_ifs with h <;> simp [h, scaledAmount]
  rw [← hscaled]
  refine Writer.run_eq trailing _ _ _ decimals _ hA hlo (fun h => ⟨h0 h, if_pos h⟩) ?_
  rcases hslip with h | h | h | h | h
  · exact Or.inl h
  · exact Or.inr (Or.inl h)
  · exact Or.inr (Or.inr (Or.inl h))
  · simp [h, h0 h]
  · refine Or.inr (Or.inr (Or.inr ?_))
    split_ifs with h'
    · simp [h0 h']
    · exact (Nat.pow_lt_pow_iff_right (by norm_num)).1 (h.trans_lt hA)

theorem memmove_encode (P M X S : List Char) (outlen : Nat)
    (hout : P.length + M.length + X.length + 1 = outlen) (hS : S.length ≤ M.length) :
    P.length + (outlen - (encode P M X ⟨S, 0, 0⟩).str) - 1 = (P ++ S ++ X).length ∧
      (writeAt (encode P M X ⟨S, 0, 0⟩).out P.length
          (((encode P M X ⟨S, 0, 0⟩).out.drop (encode P M X ⟨S, 0, 0⟩).str).take
            (outlen - (encode P M X ⟨S, 0, 0⟩).str))).take ((P ++ S ++ X).length + 1) =
        P ++ S ++ X ++ [nulChar] := by
  dsimp only [encode]
  have hSX : (S ++ X ++ [nulChar]).length = S.length + X.length + 1 := by
    simp only [List.length_append, List.length_singleton]
  have hdrop : (P ++ M.take (M.length - S.length) ++ (S ++ X ++ [nulChar])).drop
      (P.length + (M.length - S.length)) = S ++ X ++ [nulChar] :=
    List.drop_left' (by simp only [List.length_append, List.length_take]; omega)
  rw [hdrop, show outlen - (P.length + (M.length - S.length)) = (S ++ X ++ [nulChar]).length by
    omega, List.take_length]
  simp only [List.length_append] at hSX ⊢
  refine ⟨by omega, ?_⟩
  rw [show P.length + S.length + X.length + 1 = P.length + (S ++ X ++ [nulChar]).length by
    simp only [List.length_append, List.length_singleton]; omega,
    take_writeAt _ _ _ (by simp only [List.length_append, List.length_take]; omega)]
  simp only [List.append_assoc, List.take_left']

/-- The string `bn_format` is meant to write: the prefix, the amount scaled by `10^exponent`
with `decimals` decimals, and the suffix. -/
def formatted (amnt : Nat) (pfx sfx : Option (List Char)) (decimals : Nat) (exponent : Int)
    (trailing : Bool) : List Char :=
  pfx.getD [] ++ renderDecimal (scaledAmount amnt exponent) decimals trailing ++ sfx.getD []

/-- `bn_format` writes `formatted` and its NUL at the start of `out` and returns its length
when they fit in `outlen` bytes, and returns 0 when they do not. It needs the amount below
`10^78`, the digits `bn_digitcount` counts, and no slip of the final `while`: a decimal, a
suffix that is empty or starts with a point, or a digit left by the exponent. -/
theorem bnFormat_spec (amnt : Bignum256) (pfx sfx : Option (List Char)) (decimals : Nat)
    (exponent : Int) (trailing : Bool) (out : List Char) (outlen : Nat)
    (ha : amnt.Normalized) (hlt : amnt.value < 10 ^ 78) (hlen : out.length = outlen)
    (hroom : (pfx.getD []).length + (sfx.getD []).length + 1 ≤ outlen)
    (hslip : 0 < decimals ∨ (sfx.getD []).headD nulChar = nulChar ∨
      (sfx.getD []).headD nulChar = '.' ∨ amnt.value = 0 ∨
      10 ^ (-exponent).toNat ≤ amnt.value) :
    ((formatted amnt.value pfx sfx decimals exponent trailing).length < outlen →
      (bnFormat amnt pfx sfx decimals exponent trailing out outlen).1 =
          (formatted amnt.value pfx sfx decimals exponent trailing).length ∧
        (bnFormat amnt pfx sfx decimals exponent trailing out outlen).2.take
            ((formatted amnt.value pfx sfx decimals exponent trailing).length + 1) =
          formatted amnt.value pfx sfx decimals exponent trailing ++ [nulChar]) ∧
    (outlen ≤ (formatted amnt.value pfx sfx decimals exponent trailing).length →
      (bnFormat amnt pfx sfx decimals exponent trailing out outlen).1 = 0) := by
  have hW := run_bnFormat amnt decimals exponent trailing _ ha hlt hslip
  unfold bnFormat
  dsimp only
  rw [bnIsZero_exponent, formatBuffer_eq out _ _ outlen hlen hroom]
  -- the C state is the writer's: prefix, gap, nothing written, suffix and NUL
  set P := pfx.getD []
  set X := sfx.getD []
  set M := (out.drop P.length).take (outlen - X.length - 1 - P.length) with hM
  have hMlen : M.length = outlen - X.length - 1 - P.length := by
    simp only [hM, List.length_take, List.length_drop, hlen]; omega
  have hinit : (⟨P ++ M ++ X ++ [nulChar], P.length + M.length,
      if amnt.value = 0 then 0 else exponent, decimals⟩ : FormatState) =
        encode P M X ⟨[], if amnt.value = 0 then 0 else exponent, decimals⟩ := by
    simp only [List.append_assoc, encode, List.length_nil, tsub_zero, List.take_length,
      List.nil_append]
  rw [show outlen - X.length - 1 = P.length + M.length by omega, hinit]
  obtain ⟨hfit, hover⟩ := formatRun_agrees (P := P) (M := M) (X := X) trailing amnt ha
    (if amnt.value = 0 then 0 else exponent) decimals
  rw [hW] at hfit hover
  set S := renderDecimal (scaledAmount amnt.value exponent) decimals trailing
  rw [show formatted amnt.value pfx sfx decimals exponent trailing = P ++ S ++ X from rfl]
  have hPSX : (P ++ S ++ X).length = P.length + S.length + X.length := by
    simp only [List.length_append]
  refine ⟨fun hfits => ?_, fun hover' => ?_⟩
  · -- the text moves next to the prefix
    rw [hfit (by dsimp only; omega)]
    exact memmove_encode P M X S outlen (by omega) (by omega)
  · -- a `return 0`
    have h := hover (by dsimp only; omega)
    split
    · rfl
    · rename_i s hs
      rw [hs] at h
      exact absurd h (by simp [Except.isOk, Except.toBool])

theorem bnFormat_spec_one : bnOne.Normalized ∧ bnOne.value < 10 ^ 78 ∧
    (List.replicate 12 'x').length = 12 ∧
    ((some ['$']).getD []).length + ((some [' ', 'B']).getD []).length + 1 ≤ 12 ∧
    (0 < 2 ∨ ((some [' ', 'B']).getD []).headD nulChar = nulChar ∨
      ((some [' ', 'B']).getD []).headD nulChar = '.' ∨ bnOne.value = 0 ∨
      10 ^ (-(3 : Int)).toNat ≤ bnOne.value) ∧
    ((formatted bnOne.value (some ['$']) (some [' ', 'B']) 2 3 false).length < 12 →
      (bnFormat bnOne (some ['$']) (some [' ', 'B']) 2 3 false (List.replicate 12 'x') 12).1 =
          (formatted bnOne.value (some ['$']) (some [' ', 'B']) 2 3 false).length ∧
        (bnFormat bnOne (some ['$']) (some [' ', 'B']) 2 3 false (List.replicate 12 'x') 12).2.take
            ((formatted bnOne.value (some ['$']) (some [' ', 'B']) 2 3 false).length + 1) =
          formatted bnOne.value (some ['$']) (some [' ', 'B']) 2 3 false ++ [nulChar]) ∧
    (12 ≤ (formatted bnOne.value (some ['$']) (some [' ', 'B']) 2 3 false).length →
      (bnFormat bnOne (some ['$']) (some [' ', 'B']) 2 3 false (List.replicate 12 'x') 12).1 = 0) :=
  ⟨bnOne_normalized, by norm_num, rfl, by decide, Or.inl (by norm_num),
    bnFormat_spec bnOne (some ['$']) (some [' ', 'B']) 2 3 false (List.replicate 12 'x') 12
      bnOne_normalized (by norm_num) rfl (by decide) (Or.inl (by norm_num))⟩

end Bignum
