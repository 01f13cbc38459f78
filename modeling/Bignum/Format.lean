import Bignum.Decimal
import Bignum.Compare
import Mathlib.Data.List.GetD

set_option autoImplicit false

/- `bn_format`: the number is written right to left into `out`, between the prefix at its
start and the suffix before its terminating NUL, then moved left to close the gap. A
`return 0` from a full buffer is an `Except.error` carrying the buffer at that point. The
results follow the states of the final `while` when the exponent drops every digit. -/
namespace Bignum

/-- The NUL character `'\0'`. -/
def nulChar : Char := Char.ofNat 0

/-- `memcpy(&buf[i], xs, strlen(xs))`. -/
def writeAt (buf : List Char) (i : Nat) (xs : List Char) : List Char :=
  buf.take i ++ xs ++ buf.drop (i + xs.length)

/-- The digit character `'0' + n`. -/
def digitChar (n : Nat) : Char := Char.ofNat ('0'.toNat + n)

theorem take_writeAt (buf xs : List Char) (i : Nat) (h : i ≤ buf.length) :
    (writeAt buf i xs).take (i + xs.length) = buf.take i ++ xs := by
  rw [writeAt, List.take_left' (by simp; omega)]

theorem formatBuffer_eq (out P X : List Char) (outlen : Nat) (hlen : out.length = outlen)
    (hfit : P.length + X.length + 1 ≤ outlen) :
    (writeAt (writeAt out 0 P) (outlen - X.length - 1) X).set (outlen - 1) nulChar =
      P ++ (out.drop P.length).take (outlen - X.length - 1 - P.length) ++ X ++ [nulChar] := by
  obtain ⟨y, hy⟩ : ∃ y,
      (out.drop P.length).drop (outlen - X.length - 1 + X.length - P.length) = [y] :=
    List.length_eq_one.1 (by simp [hlen]; omega)
  have hpre : writeAt out 0 P = P ++ out.drop P.length := by simp [writeAt]
  rw [hpre, writeAt, List.take_append_eq_append_take, List.drop_append_eq_append_drop,
    @List.take_of_length_le _ _ P (by omega), @List.drop_eq_nil_of_le _ P _ (by omega),
    List.nil_append, hy, List.set_append_right _ _ (by simp; omega)]
  simp only [List.append_assoc, List.length_append, List.length_take, List.length_drop, hlen,
    List.cons_append, List.nil_append]
  rw [show outlen - 1 - (P.length + (min (outlen - X.length - 1 - P.length) (outlen - P.length) +
    X.length)) = 0 by omega]
  rfl

/-- The locals of `bn_format` that change while digits are written: the buffer, the write
pointer `str` (an index into `out`), `exponent` and `decimals`. -/
structure FormatState where
  out : List Char
  str : Nat
  exponent : Int
  decimals : Nat
  deriving DecidableEq, Repr

@[simp] theorem ok_bind {ε α β : Type} (a : α) (f : α → Except ε β) :
    (Except.ok a >>= f) = f a := rfl

section Push

/- `start` and `stop` are the C pointers `start = &out[prefixlen]` and
`end = &out[outlen - suffixlen - 1]`, as indices into `out`. -/
variable (start stop : Nat) (trailing : Bool)

/-- `BN_FORMAT_PUSH_CHECKED(c)`: `if (str == start) return 0; *--str = (c);`. -/
def pushChecked (c : Char) (s : FormatState) : Except FormatState FormatState :=
  if s.str = start then .error s
  else .ok { s with out := s.out.set (s.str - 1) c, str := s.str - 1 }

/-- `BN_FORMAT_PUSH(n)`: a digit below the exponent is dropped; a digit is written unless it
is a trailing zero of the fraction (`trailing` false); the decimal point follows the last
fractional digit. -/
def formatPush (n : Nat) (s : FormatState) : Except FormatState FormatState :=
  if s.exponent < 0 then .ok { s with exponent := s.exponent + 1 }
  else do
    let s ← (if 0 < n ∨ trailing = true ∨ s.str ≠ stop ∨ s.decimals ≤ 1 then
      pushChecked start (digitChar n) s else .ok s)
    if 0 < s.decimals then
      if s.decimals = 1 then pushChecked start '.' { s with decimals := s.decimals - 1 }
      else .ok { s with decimals := s.decimals - 1 }
    else .ok s

/-- `for (; exponent > 0; exponent--) BN_FORMAT_PUSH(0);`, `n` iterations to go. -/
def exponentLoop : Nat → FormatState → Except FormatState FormatState
  | 0, s => .ok s
  | n + 1, s => do
      let s ← formatPush start stop trailing 0 s
      exponentLoop n { s with exponent := s.exponent - 1 }

/-- `for (i = 0; i < digits / 3; i++)`: the three digits of each `bn_divmod1000` remainder,
`n` groups to go. -/
def digitsLoop : Nat → Bignum256 → FormatState → Except FormatState (Bignum256 × FormatState)
  | 0, val, s => .ok (val, s)
  | n + 1, val, s => do
      let limb := (bnDivmod1000 val).2.toNat
      let s ← formatPush start stop trailing (limb % 10) s
      let s ← formatPush start stop trailing (limb / 10 % 10) s
      let s ← formatPush start stop trailing (limb / 100 % 10) s
      digitsLoop n (bnDivmod1000 val).1 s

/-- `if (digits % 3 != 0)`: the one or two digits of the last, partial group. -/
def lastGroup (digits : Nat) (val : Bignum256) (s : FormatState) :
    Except FormatState FormatState :=
  let limb := (bnDivmod1000 val).2.toNat
  match digits % 3 with
  | 2 => do
      let s ← formatPush start stop trailing (limb % 10) s
      formatPush start stop trailing (limb / 10 % 10) s
  | 1 => formatPush start stop trailing (limb % 10) s
  | _ => .ok s

/-- `while (decimals > 0 || str[0] == '\0' || str[0] == '.') BN_FORMAT_PUSH(0);`, for at
most `n` iterations. -/
def padLoop : Nat → FormatState → Except FormatState FormatState
  | 0, s => .ok s
  | n + 1, s =>
      if 0 < s.decimals ∨ s.out.getD s.str nulChar = nulChar ∨
          s.out.getD s.str nulChar = '.' then do
        let s ← formatPush start stop trailing 0 s
        padLoop n s
      else .ok s

/-! A digit below the exponent only raises it; the loops of digits then leave the buffer alone
while the exponent stays negative. -/

theorem formatPush_of_neg (n : Nat) (out : List Char) (str : Nat) (e : Int) (d : Nat)
    (h : e < 0) :
    formatPush start stop trailing n ⟨out, str, e, d⟩ = .ok ⟨out, str, e + 1, d⟩ := if_pos h

theorem digitsLoop_of_neg (n : Nat) (val : Bignum256) (out : List Char) (str : Nat) (e : Int)
    (d : Nat) (h : e + 3 * n ≤ 0) :
    digitsLoop start stop trailing n val ⟨out, str, e, d⟩ =
      .ok ((fun v => (bnDivmod1000 v).1)^[n] val, ⟨out, str, e + 3 * n, d⟩) := by
  induction n generalizing val e with
  | zero => simp [digitsLoop]
  | succ n ih =>
      simp (disch := omega) only [digitsLoop, formatPush_of_neg, ok_bind,
        ih _ (e + 1 + 1 + 1) (by omega), Function.iterate_succ_apply]
      congr 3
      omega

theorem lastGroup_of_neg (digits : Nat) (val : Bignum256) (out : List Char) (str : Nat)
    (e : Int) (d : Nat) (h : e + (digits % 3 : Nat) ≤ 0) :
    lastGroup start stop trailing digits val ⟨out, str, e, d⟩ =
      .ok ⟨out, str, e + (digits % 3 : Nat), d⟩ := by
  have h3 : digits % 3 = 0 ∨ digits % 3 = 1 ∨ digits % 3 = 2 := by omega
  rcases h3 with h3 | h3 | h3 <;> rw [h3] at h ⊢ <;>
    simp (disch := omega) only [lastGroup, h3, formatPush_of_neg, ok_bind, Nat.cast_zero,
      Nat.cast_one, Nat.cast_ofNat, add_zero, add_assoc, Int.reduceAdd]

theorem formatPush_write (n : Nat) (out : List Char) (str : Nat) (e : Int) (he : 0 ≤ e)
    (hs : start < str) :
    formatPush start stop trailing n ⟨out, str, e, 0⟩ =
      .ok ⟨out.set (str - 1) (digitChar n), str - 1, e, 0⟩ := by
  simp [formatPush, pushChecked, not_lt.2 he, hs.ne']

theorem padLoop_stop (n : Nat) (out : List Char) (str : Nat) (e : Int)
    (hn : out.getD str nulChar ≠ nulChar) (hp : out.getD str nulChar ≠ '.') :
    padLoop start stop trailing (n + 1) ⟨out, str, e, 0⟩ = .ok ⟨out, str, e, 0⟩ :=
  if_neg fun h => h.elim (Nat.lt_irrefl 0) fun h => h.elim hn hp

theorem padLoop_raise (k m : Nat) (out : List Char) (str : Nat) (e : Int)
    (hn : out.getD str nulChar = nulChar) (he : e + k = 0) :
    padLoop start stop trailing (k + m) ⟨out, str, e, 0⟩ =
      padLoop start stop trailing m ⟨out, str, 0, 0⟩ := by
  induction k generalizing e with
  | zero => simp at he; subst he; simp
  | succ k ih =>
      rw [Nat.add_right_comm, padLoop, if_pos (Or.inr (Or.inl hn)),
        formatPush_of_neg _ _ _ _ _ _ _ _ (by omega), ok_bind]
      exact ih (e + 1) (by push_cast at he; omega)

theorem padLoop_write_zero (m : Nat) (out : List Char) (str : Nat)
    (hn : out.getD str nulChar = nulChar) (hs : start < str) (hlt : str ≤ out.length) :
    padLoop start stop trailing (m + 2) ⟨out, str, 0, 0⟩ =
      .ok ⟨out.set (str - 1) '0', str - 1, 0, 0⟩ := by
  have h0 : (out.set (str - 1) (digitChar 0)).getD (str - 1) nulChar = '0' := by
    simp [List.getD_eq_getElem?_getD, List.getElem?_set_self (by omega : str - 1 < out.length),
      digitChar]
  rw [padLoop, if_pos (Or.inr (Or.inl hn)), formatPush_write _ _ _ _ _ _ _ le_rfl hs, ok_bind]
  exact padLoop_stop _ _ _ _ _ _ _ (by rw [h0]; decide) (by rw [h0]; decide)

end Push

/-- `bn_format(amnt, prefix, suffix, decimals, exponent, trailing, out, outlen)`, with `pfx`
and `sfx` the characters of `prefix` and `suffix` before their NUL (`none` for `NULL`). It
returns the result and the buffer. Each iteration of the final `while` either raises a
negative `exponent`, lowers `decimals` or writes a character, so
`-exponent + decimals + 2` iterations suffice. -/
def bnFormat (amnt : Bignum256) (pfx sfx : Option (List Char)) (decimals : Nat)
    (exponent : Int) (trailing : Bool) (out : List Char) (outlen : Nat) : Nat × List Char :=
  let prefixlen := (pfx.getD []).length
  let suffixlen := (sfx.getD []).length
  let out := writeAt out 0 (pfx.getD [])
  let out := writeAt out (outlen - suffixlen - 1) (sfx.getD [])
  let out := out.set (outlen - 1) nulChar
  let start := prefixlen
  let stop := outlen - suffixlen - 1
  let exponent := if bnIsZero amnt = 1#32 then 0 else exponent
  let digits := bnDigitcount amnt
  let run : Except FormatState FormatState := do
    let s ← exponentLoop start stop trailing exponent.toNat ⟨out, stop, exponent, decimals⟩
    let (val, s) ← digitsLoop start stop trailing (digits / 3) amnt s
    let s ← lastGroup start stop trailing digits val s
    padLoop start stop trailing ((-s.exponent).toNat + s.decimals + 2) s
  match run with
  | .error s => (0, s.out)
  | .ok s =>
      let len := outlen - s.str
      (prefixlen + len - 1, writeAt s.out prefixlen ((s.out.drop s.str).take len))

/-- With `decimals = 0`, a nonzero `amnt` and an exponent that drops all `bn_digitcount(amnt)`
digits, nothing is written before the final `while`, which starts at `end` with the exponent
raised by the digit count. -/
theorem bnFormat_of_dropped (amnt : Bignum256) (pfx sfx : Option (List Char)) (exponent : Int)
    (trailing : Bool) (out : List Char) (outlen : Nat) (hz : bnIsZero amnt ≠ 1#32)
    (hdrop : (bnDigitcount amnt : Int) + exponent ≤ 0) :
    bnFormat amnt pfx sfx 0 exponent trailing out outlen =
      match padLoop (pfx.getD []).length (outlen - (sfx.getD []).length - 1) trailing
          ((-(exponent + bnDigitcount amnt)).toNat + 2)
          ⟨(writeAt (writeAt out 0 (pfx.getD [])) (outlen - (sfx.getD []).length - 1)
              (sfx.getD [])).set (outlen - 1) nulChar, outlen - (sfx.getD []).length - 1,
            exponent + bnDigitcount amnt, 0⟩ with
      | .error s => (0, s.out)
      | .ok s => ((pfx.getD []).length + (outlen - s.str) - 1,
          writeAt s.out (pfx.getD []).length ((s.out.drop s.str).take (outlen - s.str))) := by
  have hexp : exponent.toNat = 0 := by omega
  have hsum : exponent + 3 * ((bnDigitcount amnt / 3 : Nat) : Int) +
      ((bnDigitcount amnt % 3 : Nat) : Int) = exponent + bnDigitcount amnt := by omega
  simp (disch := omega) only [bnFormat, if_neg hz, hexp, exponentLoop, ok_bind,
    digitsLoop_of_neg, lastGroup_of_neg, hsum, Nat.add_zero]

/-- The slip of the final `while`: when every digit is dropped and `decimals = 0`, `str[0]` is
the suffix's first character, and one that is neither `'\0'` nor `'.'` stops the loop before it
writes the `'0'`; the result is the prefix and the suffix with no digit between them. -/
theorem bnFormat_digits_dropped_suffix (amnt : Bignum256) (pfx : Option (List Char)) (c : Char)
    (cs : List Char) (exponent : Int) (trailing : Bool) (out : List Char) (outlen : Nat)
    (hz : bnIsZero amnt ≠ 1#32) (hdrop : (bnDigitcount amnt : Int) + exponent ≤ 0)
    (hlen : out.length = outlen) (hfit : (pfx.getD []).length + cs.length + 2 ≤ outlen)
    (hc : c ≠ nulChar) (hdot : c ≠ '.') :
    (bnFormat amnt pfx (some (c :: cs)) 0 exponent trailing out outlen).1 =
        (pfx.getD []).length + cs.length + 1 ∧
      (bnFormat amnt pfx (some (c :: cs)) 0 exponent trailing out outlen).2.take
        ((pfx.getD []).length + cs.length + 2) = pfx.getD [] ++ c :: cs ++ [nulChar] := by
  rw [bnFormat_of_dropped _ _ _ _ _ _ _ hz hdrop, Option.getD_some,
    formatBuffer_eq out _ _ outlen hlen (by simp; omega)]
  set P := pfx.getD []
  set M := (out.drop P.length).take (outlen - (c :: cs).length - 1 - P.length)
  have hM : (P ++ M).length = outlen - (c :: cs).length - 1 := by
    simp only [M, List.length_append, List.length_take, List.length_drop, hlen]; simp; omega
  have hsfx : (P ++ M ++ c :: cs ++ [nulChar]).drop (outlen - (c :: cs).length - 1) =
      c :: cs ++ [nulChar] := by
    rw [List.append_assoc, List.drop_left' hM]
  have hget : (P ++ M ++ c :: cs ++ [nulChar]).getD (outlen - (c :: cs).length - 1) nulChar =
      c := by
    rw [List.append_assoc, List.getD_append_right _ _ _ _ hM.le, hM, Nat.sub_self]
    rfl
  have hpre : (P ++ M ++ c :: cs ++ [nulChar]).take P.length = P := by
    rw [List.append_assoc, List.append_assoc, List.take_left' rfl]
  rw [padLoop_stop _ _ _ _ _ _ _ (by rw [hget]; exact hc) (by rw [hget]; exact hdot)]
  simp only [hsfx, show outlen - (outlen - (c :: cs).length - 1) = cs.length + 2 by simp; omega,
    List.take_of_length_le (by simp : (c :: cs ++ [nulChar]).length ≤ cs.length + 2)]
  refine ⟨by omega, ?_⟩
  rw [show P.length + cs.length + 2 = P.length + (c :: cs ++ [nulChar]).length by simp; omega,
    take_writeAt _ _ _ (by simp), hpre, List.append_assoc]

set_option maxRecDepth 100000 in
example : (bnFormat ⟨[5, 0, 0, 0, 0, 0, 0, 0, 0], rfl⟩ none (some [' ', 'X']) 0 (-1) false
    (List.replicate 8 'a') 8).1 = 2 :=
  (bnFormat_digits_dropped_suffix ⟨[5, 0, 0, 0, 0, 0, 0, 0, 0], rfl⟩ none ' ' ['X'] (-1) false
    (List.replicate 8 'a') 8 (by decide) (by decide) rfl (by decide) (by decide) (by decide)).1

/-- Without a suffix the same call finds the NUL at `end`, raises the exponent to zero and
writes the `'0'`. -/
theorem bnFormat_digits_dropped_no_suffix (amnt : Bignum256) (pfx : Option (List Char))
    (exponent : Int) (trailing : Bool) (out : List Char) (outlen : Nat)
    (hz : bnIsZero amnt ≠ 1#32) (hdrop : (bnDigitcount amnt : Int) + exponent ≤ 0)
    (hlen : out.length = outlen) (hfit : (pfx.getD []).length + 2 ≤ outlen) :
    (bnFormat amnt pfx none 0 exponent trailing out outlen).1 = (pfx.getD []).length + 1 ∧
      (bnFormat amnt pfx none 0 exponent trailing out outlen).2.take
        ((pfx.getD []).length + 2) = pfx.getD [] ++ ['0', nulChar] := by
  rw [bnFormat_of_dropped _ _ _ _ _ _ _ hz hdrop, Option.getD_none,
    formatBuffer_eq out _ _ outlen hlen (by simp; omega)]
  simp only [List.length_nil, Nat.sub_zero, List.append_nil]
  set P := pfx.getD []
  set L := P ++ (out.drop P.length).take (outlen - 1 - P.length)
  have hL : L.length = outlen - 1 := by
    simp only [L, List.length_append, List.length_take, List.length_drop, hlen]; omega
  have hget : (L ++ [nulChar]).getD (outlen - 1) nulChar = nulChar := by
    rw [List.getD_append_right _ _ _ _ hL.le, hL, Nat.sub_self]
    rfl
  have hk : exponent + bnDigitcount amnt + ((-(exponent + bnDigitcount amnt)).toNat : Nat) = 0 := by
    omega
  -- the `'0'` lands on the last byte before the NUL
  have hset : (L ++ [nulChar]).set (outlen - 1 - 1) '0' =
      L.take (outlen - 1 - 1) ++ ['0', nulChar] := by
    rw [List.set_eq_take_append_cons_drop, if_pos (by simp [hL]; omega),
      List.take_append_of_le_length (by omega), Nat.sub_add_cancel (by omega), List.drop_left' hL]
  have hT : (L.take (outlen - 1 - 1)).length = outlen - 1 - 1 := by
    rw [List.length_take, hL]; omega
  have hpre : (L.take (outlen - 1 - 1) ++ ['0', nulChar]).take P.length = P := by
    rw [List.take_append_of_le_length (by omega), List.take_take, min_eq_left (by omega),
      List.take_left' rfl]
  rw [padLoop_raise _ _ _ _ _ _ _ _ hget hk,
    padLoop_write_zero P.length _ _ 0 _ _ hget (by omega) (by simp [hL]), hset]
  simp only [List.drop_left' hT, show outlen - (outlen - 1 - 1) = 2 by omega,
    @List.take_of_length_le _ 2 ['0', nulChar] le_rfl]
  exact ⟨by omega,
    (take_writeAt _ ['0', nulChar] P.length (by simp; omega)).trans (by rw [hpre])⟩

set_option maxRecDepth 100000 in
/-- `bn_format(5, NULL, " X", 0, -1, false, out, 8)`: the exponent drops the only digit, and
the final loop finds the suffix's first byte in `str[0]`, not `'\0'`, so it writes no `'0'`:
the result is `" X"`, length 2. Without the suffix the same call writes `"0"`. -/
theorem bnFormat_omits_zero_before_suffix :
    bnFormat ⟨[5, 0, 0, 0, 0, 0, 0, 0, 0], rfl⟩ none (some [' ', 'X']) 0 (-1) false
      (List.replicate 8 'a') 8 = (2, [' ', 'X', nulChar, 'a', 'a', ' ', 'X', nulChar]) ∧
    bnFormat ⟨[5, 0, 0, 0, 0, 0, 0, 0, 0], rfl⟩ none none 0 (-1) false
      (List.replicate 8 'a') 8 = (1, ['0', nulChar, 'a', 'a', 'a', 'a', '0', nulChar]) :=
  ⟨rfl, rfl⟩

end Bignum
