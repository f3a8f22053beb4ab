/-
Formatted text (shellio.c): the characters that `vprintf` hands to `write_c`, and the numerals among them, which every
conversion builds from the lowest digit on in a buffer of its own.
-/
import Icarus.Base.Numerals
import Icarus.Base.Traces
import Icarus.Drivers.Console

namespace Icarus.Drivers

open Icarus.Base Icarus.Memory

/-- A character of the source. -/
def ch (c : Char) : BitVec 8 := BitVec.ofNat 8 c.toNat

/-! ## Buffers -/

/-- `buf[i] = c` in a buffer of `n` bytes. -/
def putChar (n : Nat) (buf : Mem) (i : Nat) (c : BitVec 8) : Except Fault Mem :=
  if i < n then .ok (Function.update buf i c) else .error (.badAddress i)

/-- `buf[i]`. -/
def getChar (n : Nat) (buf : Mem) (i : Nat) : Except Fault (BitVec 8) := if i < n then .ok (buf i) else .error (.badAddress i)

/-- `do { buf[len++] = digit(v); v = next(v); } while (v > 0);`, from the digit at `len` on. Every round fills a byte of
the buffer. -/
def digitLoop {w : Nat} (n : Nat) (digit : BitVec w → BitVec 8) (next : BitVec w → BitVec w) :
    (fuel : Nat) → BitVec w → (len : Nat) → Mem → Except Fault (Mem × Nat)
  | 0, _, _, _ => .error .outOfFuel
  | fuel + 1, v, len, buf => do
    let buf ← putChar n buf len (digit v)
    let v := next v
    if v > 0 then digitLoop n digit next fuel v (len + 1) buf else return (buf, len + 1)

/-- `for (int i = len - 1; i >= 0; i--) write_c(buf[i], cur);`, and `while (len--) write_c(buf[len], cur);`. -/
def writeBack (n : Nat) (buf : Mem) : (len : Nat) → Run (BitVec 8) Unit
  | 0 => pure ()
  | len + 1 => do
    let c ← Run.quiet (getChar n buf len)
    Run.emit [c]
    writeBack n buf len

/-! ## Conversions -/

/-- `'0' + v % 10`. -/
def decDigit {w : Nat} (v : BitVec w) : BitVec 8 := (BitVec.ofNat w 0x30 + v % BitVec.ofNat w 10).setWidth 8

/-- `"0123456789abcdef"`. -/
def hexDigits : List (BitVec 8) :=
  [ch '0', ch '1', ch '2', ch '3', ch '4', ch '5', ch '6', ch '7', ch '8', ch '9', ch 'a', ch 'b', ch 'c', ch 'd', ch 'e',
    ch 'f']

/-- `"0123456789abcdef"[v & 0xf]`. -/
def hexDigit (v : BitVec 64) : BitVec 8 := hexDigits.getD (v &&& 0xF#64).toNat 0

/-- The digits are put into a buffer of `n` bytes, and written behind `lead`; `buf` is what the buffer held before. -/
def printDigits {w : Nat} (n : Nat) (buf : Mem) (digit : BitVec w → BitVec 8) (next : BitVec w → BitVec w) (v : BitVec w)
    (lead : List (BitVec 8)) : Run (BitVec 8) Unit := do
  let (buf, len) ← Run.quiet (digitLoop n digit next (n + 1) v 0 buf)
  Run.emit lead
  writeBack n buf len

/-- The case `i`, and the case `h`, whose argument is an `int` too. -/
def printInt (buf : Mem) (intArg : BitVec 32) : Run (BitVec 8) Unit :=
  let neg := intArg.slt 0
  printDigits 20 buf decDigit (· / 10#32) (if neg then -intArg else intArg) (if neg then [ch '-'] else [])

/-- The case `u`. -/
def printUnsigned (buf : Mem) (intArg : BitVec 32) : Run (BitVec 8) Unit := printDigits 20 buf decDigit (· / 10#32) intArg []

/-- The case `l`. -/
def printLong (buf : Mem) (v : BitVec 64) : Run (BitVec 8) Unit := printDigits 21 buf decDigit (· / 10#64) v []

/-- The case `x`. -/
def printHex (buf : Mem) (v : BitVec 64) : Run (BitVec 8) Unit := printDigits 16 buf hexDigit (· >>> 4) v [ch '0', ch 'x']

/-- An argument behind the format. -/
inductive VaArg
  | int (v : BitVec 32)
  | u64 (v : BitVec 64)
  | str (s : List (BitVec 8))

/-- `va_arg(args, int)`; what it gives where there is no argument, or one of another type, is undefined. -/
def vaInt : List VaArg → Run (BitVec 8) (BitVec 32 × List VaArg)
  | .int v :: args => pure (v, args)
  | _ => .fault (.badAddress 0)

/-- `va_arg(args, uint64_t)`. -/
def vaU64 : List VaArg → Run (BitVec 8) (BitVec 64 × List VaArg)
  | .u64 v :: args => pure (v, args)
  | _ => .fault (.badAddress 0)

/-- `va_arg(args, char *)`, with the characters up to the end of the string. -/
def vaStr : List VaArg → Run (BitVec 8) (List (BitVec 8) × List VaArg)
  | .str s :: args => pure (s, args)
  | _ => .fault (.badAddress 0)

/-- The switch over the character behind a `%`: the arguments that are left. The case `b` goes on into the default. -/
def conversion (buf : Mem) (c : BitVec 8) (args : List VaArg) : Run (BitVec 8) (List VaArg) :=
  if c = ch 'i' then do
    let (v, args) ← vaInt args
    printInt buf v
    return args
  else if c = ch 'u' then do
    let (v, args) ← vaInt args
    printUnsigned buf v
    return args
  else if c = ch 'h' then do
    let (v, args) ← vaInt args
    printInt buf v
    return args
  else if c = ch 'l' then do
    let (v, args) ← vaU64 args
    printLong buf v
    return args
  else if c = ch 'x' then do
    let (v, args) ← vaU64 args
    printHex buf v
    return args
  else if c = ch 's' then do
    let (s, args) ← vaStr args
    Run.emit s
    return args
  else if c = ch 'c' then do
    let (v, args) ← vaInt args
    Run.emit [v.setWidth 8]
    return args
  else if c = ch 'b' then do
    let (v, args) ← vaInt args
    Run.emit (if v = 0 then ("false".toList.map ch) else ("true".toList.map ch))
    Run.emit [ch '%', c]
    return args
  else do
    Run.emit [ch '%', c]
    return args

/-- The loop of `vprintf` over the format. -/
def formatLoop (buf : Mem) : (format : List (BitVec 8)) → (formatNext : Bool) → List VaArg → Run (BitVec 8) Unit
  | [], _, _ => pure ()
  | c :: format, formatNext, args =>
    if c = ch '%' then formatLoop buf format true args
    else if formatNext then do
      let args ← conversion buf c args
      formatLoop buf format false args
    else do
      Run.emit [c]
      formatLoop buf format false args

/-- `vprintf`: what it stores, and the cursor at the end; no format stands for `NULL`. -/
def vprintf (buf : Mem) (format : Option (List (BitVec 8))) (args : List VaArg) (cur : Cursor) :
    List (Nat × BitVec 8) × Cursor :=
  match format with
  | none => ([], cur)
  | some format => writeStr (formatLoop buf format false args).events cur

/-! ## Digits -/

/-- The character of a digit. -/
def digitChar (d : Nat) : BitVec 8 := hexDigits.getD d 0

/-- The digit that a character stands for. -/
def digitValue (c : BitVec 8) : Option Nat :=
  if 0x30 ≤ c.toNat ∧ c.toNat ≤ 0x39 then some (c.toNat - 0x30)
  else if 0x61 ≤ c.toNat ∧ c.toNat ≤ 0x66 then some (c.toNat - 0x61 + 10)
  else none

theorem digitValue_digitChar : ∀ d < 16, digitValue (digitChar d) = some d := by decide

theorem decDigit_eq {w : Nat} (hw : 8 ≤ w) (v : BitVec w) : decDigit v = digitChar (v.toNat % 10) := by
  have hpow : 2 ^ 8 ≤ 2 ^ w := Nat.pow_le_pow_right (by decide) hw
  have hchar : ∀ d < 10, BitVec.ofNat 8 (0x30 + d) = digitChar d := by decide
  rw [← hchar _ (Nat.mod_lt _ (by decide))]
  apply BitVec.eq_of_toNat_eq
  unfold decDigit
  rw [BitVec.toNat_setWidth, BitVec.toNat_add, BitVec.toNat_umod, BitVec.toNat_ofNat, BitVec.toNat_ofNat, BitVec.toNat_ofNat,
    Nat.mod_eq_of_lt (show 0x30 < 2 ^ w by omega), Nat.mod_eq_of_lt (show 10 < 2 ^ w by omega),
    Nat.mod_eq_of_lt (show 0x30 + v.toNat % 10 < 2 ^ w by omega)]

theorem toNat_div_ten {w : Nat} (hw : 8 ≤ w) (v : BitVec w) : (v / BitVec.ofNat w 10).toNat = v.toNat / 10 := by
  have hpow : 2 ^ 8 ≤ 2 ^ w := Nat.pow_le_pow_right (by decide) hw
  rw [BitVec.toNat_udiv, BitVec.toNat_ofNat, Nat.mod_eq_of_lt (show 10 < 2 ^ w by omega)]

theorem hexDigit_eq (v : BitVec 64) : hexDigit v = digitChar (v.toNat % 16) := by
  unfold hexDigit
  rw [BitVec.toNat_and]
  exact congrArg digitChar (Nat.and_two_pow_sub_one_eq_mod v.toNat 4)

theorem toNat_shiftRight_four (v : BitVec 64) : (v >>> 4).toNat = v.toNat / 16 := by
  rw [BitVec.toNat_ushiftRight, Nat.shiftRight_eq_div_pow]

section
variable {w n base len : Nat} {buf : Mem} {digit : BitVec w → BitVec 8} {next : BitVec w → BitVec w}

/-- One more character behind those in the buffer. -/
theorem map_update (buf : Mem) (len : Nat) (c : BitVec 8) :
    (List.range (len + 1)).map (Function.update buf len c) = (List.range len).map buf ++ [c] := by
  rw [List.range_succ, List.map_append, List.map_singleton, Function.update_self]
  congr 1
  refine List.map_congr_left fun i hi => ?_
  exact Function.update_of_ne (List.mem_range.1 hi).ne _ _

/-- The loop puts the digits behind what is in the buffer, and stays inside it if there is room for them. -/
theorem digitLoop_spec (hb : 1 < base) (hdigit : ∀ v, digit v = digitChar (v.toNat % base))
    (hnext : ∀ v, (next v).toNat = v.toNat / base) (fuel : Nat) (v : BitVec w) (len : Nat) (buf : Mem)
    (hroom : len + (lowDigits base v.toNat).length ≤ n) (hfuel : (lowDigits base v.toNat).length ≤ fuel) :
    ∃ buf', digitLoop n digit next fuel v len buf = .ok (buf', len + (lowDigits base v.toNat).length) ∧
      (List.range (len + (lowDigits base v.toNat).length)).map buf' =
        (List.range len).map buf ++ (lowDigits base v.toNat).map digitChar := by
  induction fuel generalizing v len buf with
  | zero => exact absurd hfuel (Nat.not_succ_le_zero _)
  | succ fuel ih =>
    have hput : putChar n buf len (digit v) = .ok (Function.update buf len (digit v)) :=
      if_pos (lt_of_lt_of_le (Nat.lt_add_of_pos_right (Nat.succ_pos _)) hroom)
    have hmore : next v > 0 ↔ 0 < v.toNat / base := by
      rw [← hnext]
      exact BitVec.lt_def
    rw [digitLoop, hput]
    by_cases hdiv : 0 < v.toNat / base
    · -- the digits of what is left follow
      have hcons := lowDigits_of_pos hb hdiv
      rw [← hnext] at hcons
      rw [hcons, List.length_cons] at hroom hfuel ⊢
      obtain ⟨buf', hloop, hmap⟩ := ih (next v) (len + 1) (Function.update buf len (digit v)) (by omega) (by omega)
      refine ⟨buf', ?_, ?_⟩
      · show (if next v > 0 then _ else _) = _
        rw [if_pos (hmore.2 hdiv), hloop, Nat.add_right_comm, Nat.add_assoc]
      · rw [Nat.add_right_comm] at hmap
        rw [← Nat.add_assoc, hmap, map_update, hdigit, List.append_assoc]
        rfl
    · have hone : lowDigits base v.toNat = [v.toNat % base] := lowDigits_of_zero (Nat.eq_zero_of_not_pos hdiv)
      refine ⟨Function.update buf len (digit v), ?_, ?_⟩
      · show (if next v > 0 then _ else _) = _
        rw [if_neg fun h => hdiv (hmore.1 h), hone]
        rfl
      · rw [hone]
        show (List.range (len + 1)).map _ = _
        rw [map_update, hdigit]
        rfl

/-- The characters in the buffer are written from the last one on. -/
theorem writeBack_spec (hlen : len ≤ n) : writeBack n buf len = ⟨((List.range len).map buf).reverse, .ok ()⟩ := by
  induction len with
  | zero => rfl
  | succ len ih =>
    have hget : getChar n buf len = .ok (buf len) := if_pos hlen
    rw [writeBack, hget, ih (by omega), List.range_succ, List.map_append, List.reverse_append]
    rfl

/-- With room for its digits a number is written as its numeral. -/
theorem printDigits_spec (hb : 1 < base) (hdigit : ∀ v, digit v = digitChar (v.toNat % base))
    (hnext : ∀ v, (next v).toNat = v.toNat / base) (v : BitVec w) (lead : List (BitVec 8)) (hroom : v.toNat < base ^ n)
    (hn : 0 < n) : printDigits n buf digit next v lead =
      ⟨lead ++ ((lowDigits base v.toNat).map digitChar).reverse, .ok ()⟩ := by
  obtain ⟨k, rfl⟩ : ∃ k, n = k + 1 := ⟨n - 1, by omega⟩
  have hlength := lowDigits_length_le hb hroom
  obtain ⟨buf', hloop, hmap⟩ := digitLoop_spec (n := k + 1) hb hdigit hnext (k + 1 + 1) v 0 buf (by omega) (by omega)
  rw [Nat.zero_add] at hloop hmap
  rw [printDigits, hloop]
  show Run.andThen (Run.quiet (.ok _)) _ = _
  unfold Run.andThen
  dsimp only [Run.quiet]
  rw [writeBack_spec hlength, hmap]
  rfl

end

/-! ## Numerals -/

/-- Behind any `%` of a format the character prints the argument as its numeral, behind `lead`, and the format goes on. -/
def Prints (buf : Mem) (c : BitVec 8) (arg : VaArg) (lead : List (BitVec 8)) (base value : Nat) : Prop :=
  ∃ ds, IsNumeral digitValue base value ds ∧ ∀ (format : List (BitVec 8)) (formatNext : Bool) (args : List VaArg),
    formatLoop buf (ch '%' :: c :: format) formatNext (arg :: args) =
      ⟨lead ++ ds ++ (formatLoop buf format false args).events, (formatLoop buf format false args).result⟩

section
variable {buf : Mem} {c : BitVec 8} {arg : VaArg} {lead : List (BitVec 8)} {base value : Nat}

/-- A case of the switch that prints a numeral. -/
theorem prints_of_case {x : Run (BitVec 8) Unit} (hc : c ≠ ch '%') (hb : 1 < base) (h16 : base ≤ 16)
    (hcase : ∀ args, conversion buf c (arg :: args) = x >>= fun _ => pure args)
    (hx : x = ⟨lead ++ ((lowDigits base value).map digitChar).reverse, .ok ()⟩) : Prints buf c arg lead base value := by
  refine ⟨_, isNumeral_lowDigits hb (fun d hd => digitValue_digitChar d (by omega)) value, fun format formatNext args => ?_⟩
  have hconversion : conversion buf c (arg :: args) =
      ⟨lead ++ ((lowDigits base value).map digitChar).reverse, .ok args⟩ := by
    rw [hcase, hx, Run.bind_of_ok rfl]
    exact congrArg (Run.mk · _) (List.append_nil _)
  rw [formatLoop, if_pos rfl, formatLoop, if_neg hc, if_pos rfl, hconversion]
  rfl

/-- The magnitude of an `int`, negated as an unsigned number where it is below 0. -/
theorem toNat_magnitude (v : BitVec 32) : (if v.slt 0 then -v else v).toNat = v.toInt.natAbs := by
  have hlt := v.isLt
  have hslt : v.slt 0 = decide (v.toInt < 0) := rfl
  by_cases hneg : v.toInt < 0
  · rw [hslt, if_pos (decide_eq_true hneg), BitVec.toNat_neg]
    rw [BitVec.toInt_eq_toNat_cond] at hneg ⊢
    split_ifs at hneg ⊢ with h
    · omega
    · omega
  · rw [hslt, if_neg (by simpa using hneg)]
    rw [BitVec.toInt_eq_toNat_cond] at hneg ⊢
    split_ifs at hneg ⊢ with h
    · omega
    · omega

/-- The digits of an `int` fit into its buffer. -/
theorem printInt_spec (v : BitVec 32) : printInt buf v =
    ⟨(if v.toInt < 0 then [ch '-'] else []) ++ ((lowDigits 10 v.toInt.natAbs).map digitChar).reverse, .ok ()⟩ := by
  have hlead : (if v.slt 0 then [ch '-'] else []) = if v.toInt < 0 then [ch '-'] else [] := by
    have hslt : v.slt 0 = decide (v.toInt < 0) := rfl
    rw [hslt]
    simp only [decide_eq_true_eq]
  unfold printInt
  dsimp only
  rw [printDigits_spec (by decide) (decDigit_eq (by decide)) (toNat_div_ten (by decide)) _ _
    (lt_trans (BitVec.isLt _) (by decide)) (by decide), toNat_magnitude, hlead]

/-- Every numeric conversion, wherever it stands in a format, prints the numeral of its argument and stays inside its
buffer: `i` and `h` for every `int`, behind a sign if it is negative, `u` for every number of 32 bits, `l` for every
number of 64 bits, and `x` for every such in base 16 behind the prefix. -/
theorem vprintf_numbers_exact (buf : Mem) :
    (∀ v : BitVec 32, Prints buf (ch 'i') (.int v) (if v.toInt < 0 then [ch '-'] else []) 10 v.toInt.natAbs) ∧
      (∀ v : BitVec 32, Prints buf (ch 'h') (.int v) (if v.toInt < 0 then [ch '-'] else []) 10 v.toInt.natAbs) ∧
        (∀ v : BitVec 32, Prints buf (ch 'u') (.int v) [] 10 v.toNat) ∧
          (∀ v : BitVec 64, Prints buf (ch 'l') (.u64 v) [] 10 v.toNat) ∧
            ∀ v : BitVec 64, Prints buf (ch 'x') (.u64 v) [ch '0', ch 'x'] 16 v.toNat := by
  refine ⟨fun v => ?_, fun v => ?_, fun v => ?_, fun v => ?_, fun v => ?_⟩
  · exact prints_of_case (by decide) (by decide) (by decide) (fun _ => rfl) (printInt_spec v)
  · exact prints_of_case (by decide) (by decide) (by decide) (fun _ => rfl) (printInt_spec v)
  · exact prints_of_case (by decide) (by decide) (by decide) (fun _ => rfl)
      (printDigits_spec (by decide) (decDigit_eq (by decide)) (toNat_div_ten (by decide)) v []
        (lt_trans v.isLt (by decide)) (by decide))
  · exact prints_of_case (by decide) (by decide) (by decide) (fun _ => rfl)
      (printDigits_spec (by decide) (decDigit_eq (by decide)) (toNat_div_ten (by decide)) v []
        (lt_trans v.isLt (by decide)) (by decide))
  · exact prints_of_case (by decide) (by decide) (by decide) (fun _ => rfl)
      (printDigits_spec (by decide) hexDigit_eq toNat_shiftRight_four v _ (lt_of_lt_of_eq v.isLt (by decide)) (by decide))

end

end Icarus.Drivers
