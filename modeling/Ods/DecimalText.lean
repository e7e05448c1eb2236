import Ods.FixedPoint
import Ods.SortedText

/-! What `%f` prints: the text of the components, and the 32 digits it prints instead where their
fractional part ran over. -/
namespace Ods
open HexText Rounding

variable {x : BitVec 64} {n p room : Nat} {count precision width : BitVec 32} {flags : Flags}
variable {buf : NtoaBuf} {c : DoubleComponents} {negative : Bool} {digits : List Char}

section Loop

/-- With room for them, the loop writes all digits of a part. -/
theorem ftoaLoop_chars (hroom : (numeral .decimal true n).length ≤ room)
    (hbuf : room + buf.len ≤ 32) : (ftoaLoop room count n buf).1.chars =
      numeral .decimal true n ++ buf.chars ∧ (ftoaLoop room count n buf).2 =
      count - BitVec.ofNat 32 (numeral .decimal true n).length := by
  induction room generalizing n count buf with
  | zero => exact (numeral_ne_nil (List.length_eq_zero_iff.mp (Nat.le_zero.mp hroom))).elim
  | succ room ih =>
    have hdigit : ntoaDigit (n % 10) false = ntoaDigit (n % 10) true := by
      have hall : ∀ d < 10, ntoaDigit d false = ntoaDigit d true := by decide
      exact hall _ (Nat.mod_lt _ (by decide))
    have hput := buf.put_chars (c := ntoaDigit (n % 10) true) (by omega)
    have hlen : (buf.put (ntoaDigit (n % 10) true)).len = buf.len + 1 := by
      rw [NtoaBuf.len,hput]
      rfl
    have hvalue : NumericBase.decimal.value = 10 := rfl
    rw [numeral_eq,hvalue] at hroom ⊢
    rw [ftoaLoop,hdigit]
    by_cases hlt : n < 10
    · have hzero : ¬ n / 10 ≠ 0 := by omega
      rw [if_neg hzero,if_pos hlt,Nat.mod_eq_of_lt hlt] at *
      exact ⟨hput,rfl⟩
    · have hne : n / 10 ≠ 0 := by omega
      rw [if_neg hlt,List.length_append,List.length_singleton] at hroom
      have hnext : (ftoaLoop room (count - 1) (n / 10) (buf.put (ntoaDigit (n % 10) true))).1.chars =
          _ ∧ (ftoaLoop room (count - 1) (n / 10) (buf.put (ntoaDigit (n % 10) true))).2 = _ :=
        ih (by omega) (by omega)
      obtain ⟨hchars,hcount⟩ := hnext
      rw [if_pos hne,if_neg hlt,hchars,hcount,hput,List.append_assoc,List.length_append,
        List.length_singleton,BitVec.sub_sub,BitVec.add_comm 1,BitVec.ofNat_add]
      exact ⟨rfl,rfl⟩

end Loop

section Parts

theorem length_numeral_le {w : Nat} (hw : 0 < w) (hn : n < 10 ^ w) :
    (numeral .decimal true n).length ≤ w := by
  have hpadded := length_padded_of_lt (b := 10) (by decide) hw hn
  have hmax : (padded 10 w n).length = max w (Nat.toDigits 10 n).length := length_padded
  have hlen : (numeral .decimal true n).length = (Nat.toDigits 10 n).length := List.length_map ..
  omega

theorem padded_eq {w : Nat} : padded 10 w n = (numeral .decimal true n).leftpad w '0' := rfl

theorem fractionLoop (hadapt : flags.adaptExp = false) (hp : precision ≠ 0) :
    brokenUpFraction c precision flags .empty =
      ((ftoaLoop 32 precision c.fractional .empty).1.pad
        ((ftoaLoop 32 precision c.fractional .empty).1.len +
          (ftoaLoop 32 precision c.fractional .empty).2.toNat)).put '.' := by
  rw [brokenUpFraction,if_pos hp]
  simp only [hadapt,Bool.false_and,Bool.not_false,Bool.or_true,Bool.true_or,Bool.false_eq_true,
    if_false,if_true]
  rfl

theorem brokenUpFraction_chars (hadapt : flags.adaptExp = false) (hp : precision ≠ 0)
    (hle : precision.toNat ≤ 17) (hlt : c.fractional < 10 ^ precision.toNat) :
    (brokenUpFraction c precision flags .empty).chars =
      '.' :: padded 10 precision.toNat c.fractional := by
  have hpos : 0 < precision.toNat := Nat.pos_of_ne_zero fun h => hp (BitVec.eq_of_toNat_eq h)
  have hlen := length_numeral_le hpos hlt
  have hempty : NtoaBuf.empty.len = 0 := rfl
  have hloop : (ftoaLoop 32 precision c.fractional .empty).1.chars = _ ∧
      (ftoaLoop 32 precision c.fractional .empty).2 = _ := ftoaLoop_chars (by omega) (by omega)
  obtain ⟨hchars,hcount⟩ := hloop
  have hchars' : (ftoaLoop 32 precision c.fractional .empty).1.chars =
      numeral .decimal true c.fractional := hchars.trans (List.append_nil _)
  have hsmall : (BitVec.ofNat 32 (numeral .decimal true c.fractional).length).toNat =
      (numeral .decimal true c.fractional).length := Nat.mod_eq_of_lt (by omega)
  have hzeros : (ftoaLoop 32 precision c.fractional .empty).2.toNat =
      precision.toNat - (numeral .decimal true c.fractional).length := by
    rw [hcount,BitVec.toNat_sub_of_le (by rw [BitVec.le_def,hsmall]; omega),hsmall]
  have hwidth : (ftoaLoop 32 precision c.fractional .empty).1.len +
      (ftoaLoop 32 precision c.fractional .empty).2.toNat = precision.toNat := by
    rw [hzeros,NtoaBuf.len,hchars']
    omega
  have hpad : ((ftoaLoop 32 precision c.fractional .empty).1.pad precision.toNat).chars =
      padded 10 precision.toNat c.fractional := by
    rw [NtoaBuf.pad_chars (by omega),hchars',padded_eq]
  rw [fractionLoop hadapt hp,hwidth,NtoaBuf.put_chars,hpad]
  rw [NtoaBuf.len,hpad,length_padded_of_lt (by decide) hpos hlt]
  omega

def fixedNumber (flags : Flags) (width : Nat) (negative : Bool) (digits : List Char) : List Char :=
  signText negative flags ++ if flags.zeropad && !flags.left then
    digits.leftpad (width - (signText negative flags).length) '0' else digits

def fixedText (flags : Flags) (width : Nat) (negative : Bool) (digits : List Char) : List Char :=
  let number := fixedNumber flags width negative digits
  if flags.left then number.rightpad width ' ' else number.leftpad width ' '

def decimalDigits (c : DoubleComponents) (p : Nat) : List Char :=
  numeral .decimal true c.integral ++ '.' :: padded 10 p c.fractional

theorem length_fixedNumber : (fixedNumber flags p negative digits).length =
    (signText negative flags).length + if flags.zeropad && !flags.left then
      max (p - (signText negative flags).length) digits.length else digits.length := by
  rw [fixedNumber,List.length_append]
  split
  · rw [List.length_leftpad]
  · rfl

/-- The digits of both parts, where the fractional part with its point is `tail`. -/
theorem brokenUpBuf_chars {tail : List Char}
    (hfraction : (brokenUpFraction c precision flags .empty).chars = tail)
    (hdigits : digits = numeral .decimal true c.integral ++ tail)
    (hfit : (fixedNumber flags width.toNat c.isNegative digits).length ≤ 32) :
    (brokenUpBuf c precision width flags .empty).chars =
      fixedNumber flags width.toNat c.isNegative digits := by
  have hwidth : (ntoaWidth c.isNegative width flags).toNat = _ := ntoaWidth_toNat
  rw [brokenUpBuf]
  generalize brokenUpFraction c precision flags .empty = fraction at *
  have hlen : digits.length = (numeral .decimal true c.integral).length + fraction.len := by
    rw [hdigits,List.length_append,NtoaBuf.len,hfraction]
  rw [length_fixedNumber] at hfit
  have hroom : digits.length ≤ 32 := by
    split at hfit
    · omega
    · omega
  have hsize : printfNtoaBufferSize = 32 := rfl
  have hchars : (ftoaLoop (printfNtoaBufferSize - fraction.len) 0 c.integral fraction).1.chars =
      digits := by
    rw [hdigits,← hfraction]
    exact (ftoaLoop_chars (by omega) (by omega)).1
  generalize (ftoaLoop (printfNtoaBufferSize - fraction.len) 0 c.integral fraction).1 = whole at *
  rw [fixedNumber]
  by_cases hfill : (flags.zeropad && !flags.left) = true
  · have hfill' : (!flags.left && flags.zeropad) = true := by rwa [Bool.and_comm]
    rw [if_pos hfill] at hwidth hfit ⊢
    have hpad : (whole.pad (ntoaWidth c.isNegative width flags).toNat).chars =
        digits.leftpad (width.toNat - (signText c.isNegative flags).length) '0' := by
      rw [NtoaBuf.pad_chars (by omega),hchars,hwidth]
    rw [if_pos hfill',ntoaSign_chars,hpad]
    rw [NtoaBuf.len,hpad,List.length_leftpad]
    omega
  · have hfill' : ¬ (!flags.left && flags.zeropad) = true := by rwa [Bool.and_comm]
    rw [if_neg hfill] at hfit ⊢
    rw [if_neg hfill',ntoaSign_chars,hchars]
    rw [NtoaBuf.len,hchars]
    omega

theorem outRevText_fixed : outRevText (fixedNumber flags width.toNat negative digits)
    (ntoaWidth negative width flags) flags = fixedText flags width.toNat negative digits := by
  have hwidth : (ntoaWidth negative width flags).toNat = _ := ntoaWidth_toNat
  rw [outRevText,fixedText,hwidth]
  cases hl : flags.left with
  | true => simp [List.rightpad]
  | false =>
    cases hz : flags.zeropad with
    | false => simp [List.leftpad]
    | true =>
      have hle : width.toNat ≤ (fixedNumber flags width.toNat negative digits).length := by
        rw [length_fixedNumber,hl,hz]
        simp only [Bool.not_false,Bool.and_true,if_true]
        omega
      rw [leftpad_of_le hle]
      simp

theorem put_full {ch : Char} (h : buf.len = 32) : buf.put ch = buf := by
  rw [NtoaBuf.put,dif_neg (by rw [← NtoaBuf.len,h]; decide)]

theorem pad_full {k : Nat} (h : buf.len = 32) : buf.pad k = buf := by
  have hzero : min k printfNtoaBufferSize - buf.len = 0 := by
    rw [h]
    exact Nat.sub_eq_zero_of_le (min_le_right _ _)
  rw [NtoaBuf.pad,hzero]
  rfl

theorem pad_of_ge {k : Nat} (h : 32 ≤ k) : buf.pad k = buf.pad 32 := by
  have hmin : min k printfNtoaBufferSize = min 32 printfNtoaBufferSize := min_eq_right h
  rw [NtoaBuf.pad,NtoaBuf.pad,hmin]

/-- One digit more than there are places makes `count` run below 0, and the zeros fill the buffer
up. -/
theorem brokenUpFraction_full (hadapt : flags.adaptExp = false) (hp : precision ≠ 0)
    (hle : precision.toNat ≤ 17) (hfull : c.fractional = 10 ^ precision.toNat) :
    (brokenUpFraction c precision flags .empty).chars = padded 10 32 (10 ^ precision.toNat) := by
  have hall : ∀ k ≤ 17, (numeral .decimal true (10 ^ k)).length = k + 1 := by decide +kernel
  have hlen : (numeral .decimal true c.fractional).length = precision.toNat + 1 := by
    rw [hfull]
    exact hall _ hle
  have hempty : NtoaBuf.empty.len = 0 := rfl
  have hloop : (ftoaLoop 32 precision c.fractional .empty).1.chars = _ ∧
      (ftoaLoop 32 precision c.fractional .empty).2 = _ := ftoaLoop_chars (by omega) (by omega)
  obtain ⟨hchars,hcount⟩ := hloop
  have hchars' : (ftoaLoop 32 precision c.fractional .empty).1.chars =
      numeral .decimal true c.fractional := hchars.trans (List.append_nil _)
  have hzeros : (ftoaLoop 32 precision c.fractional .empty).2.toNat = 2 ^ 32 - 1 := by
    rw [hcount,hlen,BitVec.toNat_sub,BitVec.toNat_ofNat]
    omega
  have hpad : ((ftoaLoop 32 precision c.fractional .empty).1.pad 32).chars =
      padded 10 32 (10 ^ precision.toNat) := by
    rw [NtoaBuf.pad_chars le_rfl,hchars',padded_eq,hfull]
  have hbuf : ((ftoaLoop 32 precision c.fractional .empty).1.pad 32).len = 32 := by
    have hshort : (Nat.toDigits 10 (10 ^ precision.toNat)).length = precision.toNat + 1 := by
      rw [← hlen,hfull]
      exact (List.length_map ..).symm
    rw [NtoaBuf.len,hpad,length_padded,hshort]
    omega
  rw [fractionLoop hadapt hp,hzeros,pad_of_ge (by omega),put_full hbuf,hpad]

/-- Nothing else is written then, the integral part and the sign included. -/
theorem brokenUpBuf_full (hadapt : flags.adaptExp = false) (hp : precision ≠ 0)
    (hle : precision.toNat ≤ 17) (hfull : c.fractional = 10 ^ precision.toNat) :
    (brokenUpBuf c precision width flags .empty).chars = padded 10 32 (10 ^ precision.toNat) := by
  have hfraction := brokenUpFraction_full hadapt hp hle hfull
  have hlen : (brokenUpFraction c precision flags .empty).len = 32 := by
    have hlt : 10 ^ precision.toNat < 10 ^ 32 := Nat.pow_lt_pow_right (by decide) (by omega)
    rw [NtoaBuf.len,hfraction,length_padded_of_lt (by decide) (by decide) hlt]
  rw [brokenUpBuf]
  generalize brokenUpFraction c precision flags .empty = fraction at *
  have hroom : printfNtoaBufferSize - fraction.len = 0 := by
    rw [hlen]
    rfl
  have hloop : (ftoaLoop (printfNtoaBufferSize - fraction.len) 0 c.integral fraction).1 =
      fraction := by
    rw [hroom,ftoaLoop]
  have hsign : (ntoaSign fraction c.isNegative flags) = fraction := by
    rw [ntoaSign,put_full hlen,put_full hlen,put_full hlen]
    simp only [ite_self]
  rw [hloop,pad_full hlen,ite_self,hsign,hfraction]

end Parts

section Text

def fixedPrecision (flags : Flags) (precision : BitVec 32) : BitVec 32 :=
  if !flags.precision then 6 else precision

theorem sprintFloatingPoint_eq
    {exponential : BitVec 64 → BitVec 32 → BitVec 32 → Flags → NtoaBuf → Option (List Char)}
    (hfinite : exponentBits x ≠ 2047) (hle : absUnits x ≤ 10 ^ 9 * doubleOne)
    (hp : (fixedPrecision flags precision).toNat ≤ 17) :
    sprintFloatingPoint exponential x precision width flags false =
      some (sprintBrokenUpDecimal (getComponents x (fixedPrecision flags precision).toNat)
        (fixedPrecision flags precision) width flags .empty) := by
  have hnan : isNan x = false := by
    rw [isNan,decide_eq_false hfinite,Bool.false_and]
  have hinf : isInf x = false := by
    rw [isInf,decide_eq_false hfinite,Bool.false_and]
  have hlimit : ¬ fixedPrecision flags precision > 17 := by
    rw [gt_iff_lt,BitVec.lt_def]
    exact not_lt.mpr hp
  have hlt : fixedPrecision flags precision < 18 := by
    rw [BitVec.lt_def]
    exact Nat.lt_succ_of_le hp
  have hsmall : ¬ ((!false) = true ∧ absUnits x > 10 ^ 9 * doubleOne) := fun h => h.2.not_ge hle
  have hsame : limitPrecision printfNtoaBufferSize (fixedPrecision flags precision) .empty =
      (fixedPrecision flags precision,.empty) := if_neg hlimit
  rw [sprintFloatingPoint,hnan,hinf,if_neg Bool.false_ne_true,if_neg Bool.false_ne_true,
    if_neg hsmall]
  dsimp only
  rw [← fixedPrecision,hsame]
  dsimp only
  rw [if_neg Bool.false_ne_true,sprintDecimalNumber,if_pos hlt]

variable {exponential : BitVec 64 → BitVec 32 → BitVec 32 → Flags → NtoaBuf → Option (List Char)}

/-- All that `%f` prints of a number up to 10 ^ 9, with 1 to 17 digits behind the point: the sign,
the integral part, the point and the fractional part; but where the product is one half below the
power of ten, a one among zeros. -/
theorem sprintFloatingPoint_text (hadapt : flags.adaptExp = false) (hfinite : exponentBits x ≠ 2047)
    (hle : absUnits x ≤ 10 ^ 9 * doubleOne) (hpos : (fixedPrecision flags precision).toNat = p)
    (hp : p ≠ 0) (hp' : p ≤ 17) (hfit : (fixedNumber flags width.toNat (getSign x)
      (decimalDigits (getComponents x p) p)).length ≤ 32) :
    sprintFloatingPoint exponential x precision width flags false =
      some (if 2 * scaled (absUnits x) p + doubleOne = 2 * (10 ^ p * doubleOne) then
        outRevText (padded 10 32 (10 ^ p)) (ntoaWidth (getSign x) width flags) flags
      else fixedText flags width.toNat (getSign x) (decimalDigits (getComponents x p) p)) := by
  have hne : fixedPrecision flags precision ≠ 0 := by
    intro h
    rw [h] at hpos
    exact hp hpos.symm
  have hsign : (getComponents x p).isNegative = getSign x := isNegative_eq
  obtain ⟨-,-,-,-,hfraction,hfull⟩ := number_cases (x := x) hp
  rw [sprintFloatingPoint_eq hfinite hle (hpos.trans_le hp'),sprintBrokenUpDecimal,hpos]
  by_cases htie : 2 * scaled (absUnits x) p + doubleOne = 2 * (10 ^ p * doubleOne)
  · have hover : (getComponents x p).fractional = 10 ^ (fixedPrecision flags precision).toNat := by
      rw [hpos]
      exact hfull.mpr htie
    rw [if_pos htie,brokenUpBuf_full hadapt hne (hpos.trans_le hp') hover,hpos,hsign]
  · have hlt : (getComponents x p).fractional < 10 ^ (fixedPrecision flags precision).toNat := by
      rw [hpos]
      exact lt_of_le_of_ne hfraction (mt hfull.mp htie)
    have hfraction := brokenUpFraction_chars hadapt hne (hpos.trans_le hp') hlt
    have hdigits : decimalDigits (getComponents x p) p = numeral .decimal true
        (getComponents x p).integral ++ '.' :: padded 10 p (getComponents x p).fractional := rfl
    rw [hpos] at hfraction
    rw [← hsign] at hfit ⊢
    rw [if_neg htie,brokenUpBuf_chars hfraction hdigits hfit,outRevText_fixed]

def wholeDigits (flags : Flags) (n : Nat) : List Char :=
  numeral .decimal true n ++ if flags.hash then ['.'] else []

/-- Without digits behind the point: the nearest number, of two the even one. -/
theorem sprintFloatingPoint_whole (hfinite : exponentBits x ≠ 2047)
    (hle : absUnits x ≤ 10 ^ 9 * doubleOne) (hzero : fixedPrecision flags precision = 0)
    (hfit : (fixedNumber flags width.toNat (getSign x)
      (wholeDigits flags (nearest (absUnits x) doubleOne))).length ≤ 32) :
    sprintFloatingPoint exponential x precision width flags false =
      some (fixedText flags width.toNat (getSign x)
        (wholeDigits flags (nearest (absUnits x) doubleOne))) := by
  have hsign : (getComponents x 0).isNegative = getSign x := isNegative_eq
  have hfraction : (brokenUpFraction (getComponents x 0) 0 flags .empty).chars =
      if flags.hash then ['.'] else [] := by
    have hzero : ¬ (0 : BitVec 32) ≠ 0 := fun h => h rfl
    rw [brokenUpFraction,if_neg hzero]
    cases flags.hash <;> rfl
  have hdigits : wholeDigits flags (nearest (absUnits x) doubleOne) =
      numeral .decimal true (getComponents x 0).integral ++ if flags.hash then ['.'] else [] := by
    rw [wholeDigits,getComponents_zero]
  have hnat : (0 : BitVec 32).toNat = 0 := rfl
  rw [← hsign] at hfit ⊢
  rw [sprintFloatingPoint_eq hfinite hle (by rw [hzero]; decide),sprintBrokenUpDecimal,hzero,hnat,
    brokenUpBuf_chars hfraction hdigits hfit,outRevText_fixed]

/-- What `%f` prints of a `double` that stands for a decimal number is that number. -/
theorem sprintFloatingPoint_decimal {k : Nat} (hadapt : flags.adaptExp = false)
    (hfinite : exponentBits x ≠ 2047) (hle : absUnits x ≤ 10 ^ 9 * doubleOne)
    (hpos : (fixedPrecision flags precision).toNat = p) (hp : p ≠ 0) (hp' : p ≤ 17)
    (hk : 10 ^ p + k < 2 ^ 52) (hx : |10 ^ p * doubleAbs x - k| ≤ k / 2 ^ 53)
    (hfit : (fixedNumber flags width.toNat (getSign x)
      (decimalDigits ⟨k / 10 ^ p,k % 10 ^ p,getSign x⟩ p)).length ≤ 32) :
    sprintFloatingPoint exponential x precision width flags false =
      some (fixedText flags width.toNat (getSign x)
        (decimalDigits ⟨k / 10 ^ p,k % 10 ^ p,getSign x⟩ p)) := by
  have hparts : getComponents x p = _ := getComponents_decimal hp hk hx
  obtain ⟨-,-,-,-,-,hfull⟩ := number_cases (x := x) hp
  rw [← hparts] at hfit ⊢
  have hne : (getComponents x p).fractional ≠ 10 ^ p := by
    rw [hparts]
    exact (Nat.mod_lt k (Nat.pow_pos (by decide))).ne
  rw [sprintFloatingPoint_text hadapt hfinite hle hpos hp hp' hfit,if_neg (mt hfull.mpr hne)]

end Text

section Conversions
variable {exponential : BitVec 64 → BitVec 32 → BitVec 32 → Flags → NtoaBuf → Option (List Char)}
variable {float : FloatText} {port : Port} {s : Specification} {va va' rest : List VaArg}

/-- A parameter of the interpreter that is `sprint_floating_point` for `%f`. -/
def PrintsFixed
    (exponential : BitVec 64 → BitVec 32 → BitVec 32 → Flags → NtoaBuf → Option (List Char))
    (float : FloatText) : Prop :=
  ∀ x precision width flags text,
    sprintFloatingPoint exponential x precision width flags false = some text →
      float x precision width flags false = text

theorem Flags.adaptExp_foldl {fs : List Char} :
    (fs.foldl Flags.set flags).adaptExp = flags.adaptExp := by
  induction fs generalizing flags with
  | nil => rfl
  | cons c fs ih =>
    have hset : (flags.set c).adaptExp = flags.adaptExp := by
      rw [Flags.set]
      split_ifs <;> rfl
    exact ih.trans hset

theorem Specification.fields_adaptExp
    (h : s.fields port va = some (flags,width,precision,va')) : flags.adaptExp = false := by
  simp only [fields,Option.bind_eq_bind,Option.bind_eq_some_iff] at h
  obtain ⟨⟨flags₁,width₁,va₁⟩,hw,⟨flags₂,precision₂,va₂⟩,hp,h⟩ := h
  cases h
  have hstart : (s.flags.foldl Flags.set {}).adaptExp = false := Flags.adaptExp_foldl
  have hwidth : flags₁.adaptExp = false := by
    cases hf : s.width with
    | absent => rw [hf] at hw; cases hw; exact hstart
    | digits ds => rw [hf] at hw; cases hw; exact hstart
    | star =>
      rw [hf] at hw
      simp only [Field.width,Option.bind_eq_bind,Option.bind_eq_some_iff] at hw
      obtain ⟨⟨w,va⟩,-,hw⟩ := hw
      dsimp only at hw
      split_ifs at hw
      · cases hw; exact hstart
      · cases hw; exact hstart
  have hprecision : flags₂.adaptExp = false := by
    cases hf : s.precision with
    | none => rw [hf] at hp; cases hp; exact hwidth
    | some f =>
      rw [hf] at hp
      cases f with
      | absent => cases hp; exact hwidth
      | digits ds => cases hp; exact hwidth
      | star =>
        simp only [precisionValue,Option.bind_eq_bind,Option.bind_eq_some_iff] at hp
        obtain ⟨⟨w,va⟩,-,hp⟩ := hp
        cases hp
        exact hwidth
  unfold LengthField.set
  cases s.length <;> cases port <;> exact hprecision

theorem Specification.text_float {text : List Char} (hfloat : PrintsFixed exponential float)
    (hspec : s.specifier = 'f')
    (hfields : s.fields port va = some (flags,width,precision,.double x :: rest))
    (htext : sprintFloatingPoint exponential x precision width flags false = some text) :
    s.text float port va = some (text,rest) := by
  have hbase : numericBaseOf 'f' = none := rfl
  rw [text_eq,hfields,Option.bind_some]
  dsimp only
  rw [hspec,specifierText,hbase]
  dsimp only
  rw [if_pos (.inl rfl),if_neg (by decide),floatText]
  exact congrArg (fun text => some (text,rest)) (hfloat _ _ _ _ _ htext)

/-- All that a conversion `f` prints of a number up to 10 ^ 9, with 1 to 17 digits behind the point:
the sign, the integral part, the point and the fractional part; but where the product is one half
below the power of ten, a one among zeros. -/
theorem Specification.text_fixed (hfloat : PrintsFixed exponential float) (hspec : s.specifier = 'f')
    (hfields : s.fields port va = some (flags,width,precision,.double x :: rest))
    (hfinite : exponentBits x ≠ 2047) (hle : absUnits x ≤ 10 ^ 9 * doubleOne)
    (hpos : (fixedPrecision flags precision).toNat = p) (hp : p ≠ 0) (hp' : p ≤ 17)
    (hfit : (fixedNumber flags width.toNat (getSign x)
      (decimalDigits (getComponents x p) p)).length ≤ 32) :
    s.text float port va =
      some (if 2 * scaled (absUnits x) p + doubleOne = 2 * (10 ^ p * doubleOne) then
        outRevText (padded 10 32 (10 ^ p)) (ntoaWidth (getSign x) width flags) flags
      else fixedText flags width.toNat (getSign x) (decimalDigits (getComponents x p) p),rest) :=
  text_float hfloat hspec hfields
    (sprintFloatingPoint_text (fields_adaptExp hfields) hfinite hle hpos hp hp' hfit)

def fixedFloat : FloatText := fun x precision width flags preferExponential =>
  (sprintFloatingPoint (fun _ _ _ _ _ => none) x precision width flags preferExponential).getD []

theorem printsFixed_fixedFloat : PrintsFixed (fun _ _ _ _ _ => none) fixedFloat := by
  intro x precision width flags text h
  rw [fixedFloat,h,Option.getD_some]

/-- `%.1f` of 0.95 -/
theorem Specification.text_fixed_over :
    (Specification.mk [] .absent (some (.digits ['1'])) .absent 'f').text fixedFloat .linux
      [.double 0x3FEE666666666666] = some (List.replicate 30 '0' ++ ['1','0'],[]) :=
  (Specification.text_fixed printsFixed_fixedFloat rfl rfl (by decide +kernel) (by decide +kernel)
    rfl (by decide) (by decide) (by decide +kernel)).trans (by decide +kernel)

/-- A conversion `f` with precision 0 prints the nearest whole number, of two the even one. -/
theorem Specification.text_whole (hfloat : PrintsFixed exponential float) (hspec : s.specifier = 'f')
    (hfields : s.fields port va = some (flags,width,precision,.double x :: rest))
    (hfinite : exponentBits x ≠ 2047) (hle : absUnits x ≤ 10 ^ 9 * doubleOne)
    (hzero : fixedPrecision flags precision = 0) (hfit : (fixedNumber flags width.toNat (getSign x)
      (wholeDigits flags (nearest (absUnits x) doubleOne))).length ≤ 32) :
    s.text float port va = some (fixedText flags width.toNat (getSign x)
      (wholeDigits flags (nearest (absUnits x) doubleOne)),rest) :=
  text_float hfloat hspec hfields (sprintFloatingPoint_whole hfinite hle hzero hfit)

/-- `%.0f` of -2.5 -/
theorem Specification.text_whole_half :
    (Specification.mk [] .absent (some (.digits ['0'])) .absent 'f').text fixedFloat .linux
      [.double 0xC004000000000000] = some (['-','2'],[]) :=
  (Specification.text_whole printsFixed_fixedFloat rfl rfl (by decide +kernel) (by decide +kernel)
    rfl (by decide +kernel)).trans (by decide +kernel)

/-- A conversion `f` prints the decimal number that a `double` stands for: with `p` digits behind
the point, every one below `2 ^ 52 / 10 ^ p`. -/
theorem Specification.text_decimal {k : Nat} (hfloat : PrintsFixed exponential float)
    (hspec : s.specifier = 'f')
    (hfields : s.fields port va = some (flags,width,precision,.double x :: rest))
    (hfinite : exponentBits x ≠ 2047) (hle : absUnits x ≤ 10 ^ 9 * doubleOne)
    (hpos : (fixedPrecision flags precision).toNat = p) (hp : p ≠ 0) (hp' : p ≤ 17)
    (hk : 10 ^ p + k < 2 ^ 52) (hx : |10 ^ p * doubleAbs x - k| ≤ k / 2 ^ 53)
    (hfit : (fixedNumber flags width.toNat (getSign x)
      (decimalDigits ⟨k / 10 ^ p,k % 10 ^ p,getSign x⟩ p)).length ≤ 32) :
    s.text float port va = some (fixedText flags width.toNat (getSign x)
      (decimalDigits ⟨k / 10 ^ p,k % 10 ^ p,getSign x⟩ p),rest) :=
  text_float hfloat hspec hfields
    (sprintFloatingPoint_decimal (fields_adaptExp hfields) hfinite hle hpos hp hp' hk hx hfit)

/-- `%.2f` of the `double` next to 19.99 -/
theorem Specification.text_decimal_price :
    (Specification.mk [] .absent (some (.digits ['2'])) .absent 'f').text fixedFloat .linux
      [.double 0x4033FD70A3D70A3D] = some (['1','9','.','9','9'],[]) :=
  (Specification.text_decimal (k := 1999) printsFixed_fixedFloat rfl rfl (by decide +kernel)
    (by decide +kernel) rfl (by decide) (by decide) (by decide) (by decide +kernel)
    (by decide +kernel)).trans (by decide +kernel)

end Conversions

end Ods
