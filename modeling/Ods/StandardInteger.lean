import Ods.IntegerText

/-! The text of an integer conversion is the text the C standard asks for, as long as the number
with its sign, mark and leading zeros takes at most 32 characters. Reading it gives the argument. -/
namespace Ods
open HexText

variable {ch : Char} {base : NumericBase} {flags : Flags} {precision width : BitVec 32} {v : Int}
variable {port : Port} {va rest : List VaArg} {value : BitVec 64} {n : Nat}

section Standard

def isSigned (ch : Char) : Bool := ch = 'd' || ch = 'i'

def standardSign (ch : Char) (flags : Flags) (v : Int) : List Char :=
  if v < 0 then ['-']
  else if isSigned ch && flags.plus then ['+']
  else if isSigned ch && flags.space then [' ']
  else []

def standardMark (ch : Char) (flags : Flags) (v : Int) : List Char :=
  if flags.hash && (ch = 'x' || ch = 'X') && v ≠ 0 then ['0',ch] else []

/-- At least as many digits as the precision asks for, which are none for a zero with precision
zero. In its alternative form an octal number begins with a zero. -/
def standardDigits (ch : Char) (base : NumericBase) (flags : Flags) (precision : Nat)
    (v : Int) : List Char :=
  let ds := if v = 0 ∧ flags.precision = true ∧ precision = 0 then []
    else numeral base (ch = 'X') v.natAbs
  let ds := ds.leftpad precision '0'
  if flags.hash && ch = 'o' && ds.head? ≠ some '0' then '0' :: ds else ds

/-- The sign, the mark and the digits. The `0` flag fills the width with zeros, if there is neither
a `-` nor a precision. -/
def standardNumber (ch : Char) (base : NumericBase) (flags : Flags) (precision width : Nat)
    (v : Int) : List Char :=
  let lead := standardSign ch flags v ++ standardMark ch flags v
  let ds := standardDigits ch base flags precision v
  lead ++ if flags.zeropad && !flags.left && !flags.precision then
    ds.leftpad (width - lead.length) '0' else ds

def standardText (ch : Char) (base : NumericBase) (flags : Flags) (precision width : Nat)
    (v : Int) : List Char :=
  let number := standardNumber ch base flags precision width v
  if flags.left then number.rightpad width ' ' else number.leftpad width ' '

end Standard

section Arguments

def integerWidth (port : Port) (flags : Flags) : Nat :=
  if flags.longLong then 64
  else if flags.long then
    match port with
    | .linux => 64
    | .win => 32
  else if flags.char then 8
  else if flags.short then 16
  else 32

def integerOf (ch : Char) (w : Nat) (bits : Nat) : Int :=
  if isSigned ch then (BitVec.ofNat w bits).toInt else (BitVec.ofNat w bits).toNat

/-- The value a conversion prints: an argument of 64 bits for the types of that width, otherwise
one of 32 bits that is narrowed. -/
def integerValue (port : Port) (ch : Char) (flags : Flags) : List VaArg → Option (Int × List VaArg)
  | .word bits :: va =>
    let w := integerWidth port flags
    if w = 64 then none else some (integerOf ch w bits.toNat,va)
  | .dword bits :: va =>
    let w := integerWidth port flags
    if w = 64 then some (integerOf ch w bits.toNat,va) else none
  | _ => none

theorem ofInt_integerOf (h : isSigned ch = false) {w : Nat} (bits : BitVec w) :
    BitVec.ofInt 64 (integerOf ch w bits.toNat) = bits.setWidth 64 := by
  rw [integerOf,h,if_neg (by decide),BitVec.ofNat_toNat,BitVec.setWidth_eq,BitVec.ofInt_natCast,
    BitVec.ofNat_toNat]

theorem ofInt_integerOf_signed (h : isSigned ch = true) {w : Nat} (bits : BitVec w) :
    BitVec.ofInt 64 (integerOf ch w bits.toNat) = bits.signExtend 64 := by
  rw [integerOf,if_pos h,BitVec.ofNat_toNat,BitVec.setWidth_eq]
  rfl

theorem integerWidth_le : integerWidth port flags ≤ 64 := by
  unfold integerWidth
  cases port <;> split_ifs <;> decide

theorem vaInteger_eq {extend : {w : Nat} → BitVec w → BitVec 64} (hextend : ∀ {w : Nat}
      (bits : BitVec w), BitVec.ofInt 64 (integerOf ch w bits.toNat) = extend bits)
    (hsame : ∀ bits : BitVec 64, extend bits = bits) :
    vaInteger port extend flags va = (integerValue port ch flags va).map fun (v,va) =>
      (BitVec.ofInt 64 v,va) := by
  have hdword (bits : BitVec 64) : BitVec.ofInt 64 (integerOf ch 64 bits.toNat) = bits := by
    rw [hextend,hsame]
  have hnarrow (w : Nat) (bits : BitVec 32) :
      BitVec.ofInt 64 (integerOf ch w bits.toNat) = extend (bits.setWidth w) := by
    rw [← hextend,integerOf,integerOf,BitVec.ofNat_toNat,BitVec.ofNat_toNat,BitVec.setWidth_eq]
  unfold vaInteger integerValue integerWidth vaArg
  cases va with
  | nil => cases port <;> split_ifs <;> rfl
  | cons a va =>
    cases a with
    | word bits =>
      cases port <;> split_ifs <;> simp [VaArg.dword?,VaArg.word?,hnarrow]
    | dword bits =>
      cases port <;> split_ifs <;> simp [VaArg.dword?,VaArg.word?,hdword]
    | double bits => cases port <;> split_ifs <;> rfl
    | str s => cases port <;> split_ifs <;> rfl
    | ptr bits => cases port <;> split_ifs <;> rfl

theorem integerOf_bounds {w bits : Nat} (hw : w ≤ 64) :
    if isSigned ch then -2 ^ 63 ≤ integerOf ch w bits ∧ integerOf ch w bits < 2 ^ 63
    else 0 ≤ integerOf ch w bits ∧ integerOf ch w bits < 2 ^ 64 := by
  unfold integerOf
  split
  · have hle := (BitVec.ofNat w bits).le_toInt
    have hlt : (BitVec.ofNat w bits).toInt < 2 ^ (w - 1) := BitVec.toInt_lt
    have hpow : (2 : Int) ^ (w - 1) ≤ 2 ^ 63 := pow_le_pow_right₀ (by decide) (by omega)
    omega
  · have hlt := (BitVec.ofNat w bits).isLt
    have hpow : 2 ^ w ≤ 2 ^ 64 := Nat.pow_le_pow_right (by decide) hw
    omega

theorem integerValue_bounds (h : integerValue port ch flags va = some (v,rest)) :
    if isSigned ch then -2 ^ 63 ≤ v ∧ v < 2 ^ 63 else 0 ≤ v ∧ v < 2 ^ 64 := by
  have hw : integerWidth port flags ≤ 64 := integerWidth_le
  unfold integerValue at h
  split at h
  · dsimp only at h
    split at h
    · cases h
    · cases h
      exact integerOf_bounds hw
  · dsimp only at h
    split at h
    · cases h
      exact integerOf_bounds hw
    · cases h
  · cases h

theorem toInt_ofInt (h : -2 ^ 63 ≤ v) (h' : v < 2 ^ 63) : (BitVec.ofInt 64 v).toInt = v :=
  BitVec.toInt_ofInt_eq_self (by decide) h h'

theorem slt_ofInt (h : -2 ^ 63 ≤ v) (h' : v < 2 ^ 63) :
    (BitVec.ofInt 64 v).slt 0 = decide (v < 0) := by
  rw [BitVec.slt,toInt_ofInt h h']
  rfl

/-- The least value, whose negation overflows, too. -/
theorem toNat_ntoaAbs (h : -2 ^ 63 ≤ v) (h' : v < 2 ^ 63) :
    (ntoaAbs (BitVec.ofInt 64 v)).toNat = v.natAbs := by
  have hint := toInt_ofInt h h'
  have hpos : (0#64).slt (BitVec.ofInt 64 v) = decide (0 < v) := by
    rw [BitVec.slt,hint]
    rfl
  unfold ntoaAbs
  rw [hpos]
  rw [BitVec.toInt_eq_toNat_cond] at hint
  by_cases hv : 0 < v
  · rw [if_pos (decide_eq_true hv)]
    split at hint <;> omega
  · rw [if_neg (by simpa using hv),BitVec.toNat_neg]
    split at hint <;> omega

end Arguments

section Number

theorem numericBaseOf_eq (h : numericBaseOf ch = some base) :
    (base = .hex ↔ ch = 'x' ∨ ch = 'X') ∧ (base = .octal ↔ ch = 'o') := by
  unfold numericBaseOf at h
  split at h <;> cases h <;> decide

/-- The flags that an integer conversion keeps. -/
theorem integerFlags_eq : integerFlags ch base flags =
    { flags with
      zeropad := flags.zeropad && !flags.precision
      plus := isSigned ch && flags.plus
      space := isSigned ch && flags.space
      hash := flags.hash && base ≠ .decimal
      uppercase := flags.uppercase || ch = 'X' } := by
  have hx : ch = 'X' → isSigned ch = false := by
    rintro rfl
    rfl
  have hsigned : (ch ≠ 'i' ∧ ch ≠ 'd') ↔ isSigned ch = false := by
    simp [isSigned,and_comm]
  unfold integerFlags
  simp only [hsigned]
  obtain ⟨zeropad,left,plus,space,hash,uppercase,char,short,long,longLong,precision⟩ := flags
  cases hs : isSigned ch <;> by_cases hX : ch = 'X' <;> by_cases hb : base = .decimal <;>
    cases precision <;> simp_all

def numberFlags (ch : Char) (base : NumericBase) (flags : Flags) (v : Int) : Flags :=
  { flags with
    zeropad := flags.zeropad && !flags.precision
    plus := isSigned ch && flags.plus
    space := isSigned ch && flags.space
    hash := flags.hash && base ≠ .decimal && (v ≠ 0 || (flags.precision && base ≠ .hex))
    uppercase := flags.uppercase || ch = 'X' }

theorem ntoaDigits_numberFlags (hvalue : value.toNat = v.natAbs) :
    (ntoaDigits value base (integerFlags ch base flags)).2 = numberFlags ch base flags v := by
  have hzero : (value ≠ 0) ↔ v ≠ 0 := by
    rw [not_iff_not,← BitVec.toNat_inj,hvalue]
    exact Int.natAbs_eq_zero
  rw [ntoaDigits_flags,integerFlags_eq]
  simp only [hzero]
  rfl

theorem effective_numberFlags (hbase : base ≠ .binary) (hpointer : flags.pointer = false)
    (hprecision : flags.precision = false → precision = 0) :
    Effective base precision (numberFlags ch base flags v) where
  notBinary := hbase
  pointer := hpointer
  decimal h := by simp [numberFlags,h]
  precision := hprecision
  zeropad h := by
    have h : flags.precision = true := h
    simp [numberFlags,h]

theorem signText_eq :
    signText (decide (v < 0)) (numberFlags ch base flags v) = standardSign ch flags v := by
  unfold signText standardSign numberFlags
  cases hs : isSigned ch <;> simp

theorem hexMark_eq (hch : numericBaseOf ch = some base) (huppercase : flags.uppercase = false) :
    hexMark base (numberFlags ch base flags v) = standardMark ch flags v := by
  unfold hexMark standardMark numberFlags
  rw [huppercase]
  by_cases hbase : base = .hex
  · subst hbase
    have hx : ch = 'x' ∨ ch = 'X' := (numericBaseOf_eq hch).1.mp rfl
    obtain rfl | rfl := hx <;> simp
  · have hx : ¬ (ch = 'x' ∨ ch = 'X') := mt (numericBaseOf_eq hch).1.mpr hbase
    have hx' : (decide (ch = 'x') || decide (ch = 'X')) = false := by simpa using hx
    simp [hbase,hx']

theorem numeral_zero {uppercase : Bool} : numeral base uppercase 0 = ['0'] := by
  cases base <;> cases uppercase <;> rfl

/-- A precision gives a zero its digits. -/
theorem ntoaNumeral_eq :
    (ntoaNumeral base flags v.natAbs).leftpad precision.toNat '0' =
      (if v = 0 ∧ flags.precision = true ∧ precision.toNat = 0 then []
        else numeral base flags.uppercase v.natAbs).leftpad precision.toNat '0' := by
  by_cases hv : v = 0
  · subst hv
    cases hp : flags.precision with
    | false => simp [ntoaNumeral,hp]
    | true =>
      have hnone : ntoaNumeral base flags 0 = [] := if_pos ⟨rfl,hp⟩
      rw [Int.natAbs_zero,hnone,numeral_zero]
      by_cases hzero : precision.toNat = 0
      · rw [if_pos ⟨rfl,rfl,hzero⟩]
      · obtain ⟨k,hk⟩ := Nat.exists_eq_succ_of_ne_zero hzero
        rw [if_neg fun h => hzero h.2.2,hk]
        exact (List.append_nil _).trans List.replicate_succ'
  · have hn : v.natAbs ≠ 0 := Int.natAbs_ne_zero.mpr hv
    rw [ntoaNumeral_of_ne hn,if_neg fun h => hv h.1]

theorem standardDigits_eq (hch : numericBaseOf ch = some base) (huppercase : flags.uppercase = false)
    (hprecision : flags.precision = false → precision = 0) :
    octalZero base (numberFlags ch base flags v) ((ntoaNumeral base (integerFlags ch base flags)
      v.natAbs).leftpad precision.toNat '0') = standardDigits ch base flags precision.toNat v := by
  have hflags : (integerFlags ch base flags).precision = flags.precision ∧
      (integerFlags ch base flags).uppercase = decide (ch = 'X') := by
    rw [integerFlags_eq,huppercase]
    exact ⟨rfl,Bool.false_or _⟩
  rw [ntoaNumeral_eq,hflags.1,hflags.2]
  unfold octalZero standardDigits numberFlags
  by_cases hbase : base = .octal
  · have ho : ch = 'o' := (numericBaseOf_eq hch).2.mp hbase
    subst hbase ho
    by_cases hv : v = 0
    · subst hv
      cases hp : flags.precision with
      | false => 
        rw [hprecision hp,Int.natAbs_zero,numeral_zero]
        simp
      | true => simp
    · simp [hv]
  · have ho : ch ≠ 'o' := mt (numericBaseOf_eq hch).2.mpr hbase
    simp [hbase,ho]

/-- With its flags brought in order, `_ntoa_format` makes the number the standard asks for. -/
theorem ntoaNumber_eq (hch : numericBaseOf ch = some base) (huppercase : flags.uppercase = false)
    (hprecision : flags.precision = false → precision = 0) :
    ntoaNumber base (numberFlags ch base flags v) precision width (decide (v < 0))
        (ntoaNumeral base (integerFlags ch base flags) v.natAbs) =
      standardNumber ch base flags precision.toNat width.toNat v := by
  have hfill : ((numberFlags ch base flags v).zeropad && !(numberFlags ch base flags v).left) =
      (flags.zeropad && !flags.left && !flags.precision) := by
    unfold numberFlags
    cases flags.left <;> cases flags.precision <;> simp
  have hwidth : (ntoaWidth (decide (v < 0)) width (numberFlags ch base flags v)).toNat = _ :=
    ntoaWidth_toNat
  unfold ntoaNumber markedDigits standardNumber
  dsimp only
  rw [hfill,signText_eq] at hwidth
  rw [signText_eq,hexMark_eq hch huppercase,standardDigits_eq hch huppercase hprecision,hfill,
    List.append_assoc,List.length_append]
  split
  · rename_i h
    rw [hwidth,if_pos h,Nat.sub_sub]
  · rfl

theorem width_le_standardNumber (hfill : (flags.zeropad && !flags.left && !flags.precision) = true)
    {precision width : Nat} : width ≤ (standardNumber ch base flags precision width v).length := by
  unfold standardNumber
  dsimp only
  rw [if_pos hfill,List.length_append,List.length_leftpad]
  omega

theorem outRevText_eq : outRevText (standardNumber ch base flags precision.toNat width.toNat v)
      (ntoaWidth (decide (v < 0)) width (numberFlags ch base flags v)) (numberFlags ch base flags v) =
    standardText ch base flags precision.toNat width.toNat v := by
  have hwidth : (ntoaWidth (decide (v < 0)) width (numberFlags ch base flags v)).toNat = _ :=
    ntoaWidth_toNat
  have hleft : (numberFlags ch base flags v).left = flags.left := rfl
  have hzero : (numberFlags ch base flags v).zeropad = (flags.zeropad && !flags.precision) := rfl
  unfold outRevText standardText
  rw [hwidth,hleft,hzero]
  cases hl : flags.left with
  | true => simp [List.rightpad]
  | false =>
    cases hz : flags.zeropad && !flags.precision with
    | false => simp [List.leftpad]
    | true =>
      have hfill : (flags.zeropad && !flags.left && !flags.precision) = true := by simp_all
      have hle : width.toNat ≤ (standardNumber ch base flags precision.toNat width.toNat v).length :=
        width_le_standardNumber hfill
      dsimp only
      rw [leftpad_of_le hle]
      simp

theorem length_ntoaNumeral_le {ds : List Char} {negative : Bool} :
    ds.length ≤ (ntoaNumber base flags precision width negative ds).length := by
  have hoctal (ds : List Char) : ds.length ≤ (octalZero base flags ds).length := by
    unfold octalZero
    split
    · exact Nat.le_succ _
    · exact le_rfl
  have hpad := hoctal (ds.leftpad precision.toNat '0')
  rw [List.length_leftpad] at hpad
  unfold ntoaNumber markedDigits
  dsimp only
  rw [List.length_append,List.length_append]
  split
  · rw [List.length_leftpad]
    omega
  · omega

theorem ntoaNumeral_ne_nil (hp : flags.precision = false) : ntoaNumeral base flags n ≠ [] := by
  have hdigits : ntoaNumeral base flags n = numeral base flags.uppercase n :=
    if_neg fun h => Bool.noConfusion (hp.symm.trans h.2)
  rw [hdigits]
  exact numeral_ne_nil

theorem ntoaNumeral_head (h : n ≠ 0 ∨ flags.precision = true) :
    (ntoaNumeral base flags n).head? ≠ some '0' := by
  by_cases hn : n = 0
  · have hnone : ntoaNumeral base flags n = [] := if_pos ⟨hn,h.resolve_left (not_not.mpr hn)⟩
    simp [hnone]
  · rw [ntoaNumeral_of_ne hn]
    exact numeral_head hn

/-- Where the number fits into the buffer of `_ntoa`. -/
theorem ntoaText_eq (hch : numericBaseOf ch = some base) (hbase : base ≠ .binary)
    (huppercase : flags.uppercase = false) (hpointer : flags.pointer = false)
    (hprecision : flags.precision = false → precision = 0) (hvalue : value.toNat = v.natAbs)
    (hfit : (standardNumber ch base flags precision.toNat width.toNat v).length ≤ 32) :
    ntoaText width precision (integerFlags ch base flags) value (decide (v < 0)) base =
      standardText ch base flags precision.toNat width.toNat v := by
  have hnumber : ntoaNumber base (numberFlags ch base flags v) precision width (decide (v < 0))
      (ntoaNumeral base (integerFlags ch base flags) v.natAbs) = _ :=
    ntoaNumber_eq hch huppercase hprecision
  have hdigits : (ntoaDigits value base (integerFlags ch base flags)).1.chars =
      ntoaNumeral base (integerFlags ch base flags) v.natAbs := by
    rw [ntoaDigits_chars,hvalue]
    rw [hvalue]
    rw [← hnumber] at hfit
    exact length_ntoaNumeral_le.trans hfit
  have he : Effective base precision (numberFlags ch base flags v) :=
    effective_numberFlags hbase hpointer hprecision
  have hp : (integerFlags ch base flags).precision = flags.precision := by
    rw [integerFlags_eq]
  have hne : (numberFlags ch base flags v).precision = false →
      (ntoaDigits value base (integerFlags ch base flags)).1.chars ≠ [] := by
    intro h
    rw [hdigits]
    exact ntoaNumeral_ne_nil (hp.trans h)
  have hhead : (numberFlags ch base flags v).hash = true →
      (ntoaDigits value base (integerFlags ch base flags)).1.chars.head? ≠ some '0' := by
    intro h
    rw [hdigits]
    apply ntoaNumeral_head
    rw [hp]
    simp [numberFlags] at h
    exact h.2.imp Int.natAbs_ne_zero.mpr And.left
  unfold ntoaText
  dsimp only
  rw [ntoaDigits_numberFlags hvalue,ntoaFormatBuf_chars he hne hhead,hdigits,hnumber,outRevText_eq]
  rwa [hdigits,hnumber]

/-- An integer conversion prints its argument as the C standard says. -/
theorem integerText_eq (hch : numericBaseOf ch = some base) (hbase : base ≠ .binary)
    (huppercase : flags.uppercase = false) (hpointer : flags.pointer = false)
    (hprecision : flags.precision = false → precision = 0)
    (hva : integerValue port ch flags va = some (v,rest))
    (hfit : (standardNumber ch base flags precision.toNat width.toNat v).length ≤ 32) :
    integerText port width precision flags base ch va =
      some (standardText ch base flags precision.toNat width.toNat v,rest) := by
  have hbounds := integerValue_bounds hva
  have hlength : integerValue port ch (integerFlags ch base flags) va = some (v,rest) := by
    rw [← hva,integerFlags_eq]
    rfl
  unfold integerText
  dsimp only
  by_cases hs : isSigned ch = true
  · have hcond : ch = 'i' ∨ ch = 'd' := by
      simp [isSigned] at hs
      exact hs.symm
    rw [if_pos hs] at hbounds
    obtain ⟨hle,hlt⟩ := hbounds
    have hvalue := toNat_ntoaAbs hle hlt
    have htext := ntoaText_eq hch hbase huppercase hpointer hprecision hvalue hfit
    rw [if_pos hcond,vaInteger_eq (ofInt_integerOf_signed hs) (fun _ => BitVec.signExtend_eq _),
      hlength,Option.map_some,Option.map_some,slt_ofInt hle hlt,htext]
  · have hcond : ¬ (ch = 'i' ∨ ch = 'd') := by
      simp [isSigned] at hs
      tauto
    rw [if_neg hs] at hbounds
    obtain ⟨hle,hlt⟩ := hbounds
    have hvalue : (BitVec.ofInt 64 v).toNat = v.natAbs := by
      rw [BitVec.toNat_ofInt]
      omega
    have hneg : decide (v < 0) = false := decide_eq_false (Int.not_lt.mpr hle)
    have htext := ntoaText_eq hch hbase huppercase hpointer hprecision hvalue hfit
    rw [hneg] at htext
    rw [if_neg hcond,vaInteger_eq (ofInt_integerOf (Bool.eq_false_of_not_eq_true hs))
      (fun _ => BitVec.setWidth_eq _),hlength,Option.map_some,Option.map_some,htext]

end Number

end Ods
