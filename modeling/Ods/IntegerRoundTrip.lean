import Ods.FormatMeaning
import Ods.StandardInteger

/-! Integer conversions of a format: what they print, whatever flags, width, precision and length
they have, and that the number can be read back from it. -/
namespace Ods
open HexText

variable {ch : Char} {base : NumericBase} {flags : Flags} {precision width : BitVec 32} {v : Int}
variable {port : Port} {va va' rest : List VaArg} {ds cs : List Char} {n k m : Nat} {u : Bool}
variable {s : Specification}

section Fields

def Specification.fields (port : Port) (s : Specification) (va : List VaArg) :
    Option (Flags × BitVec 32 × BitVec 32 × List VaArg) := do
  let (flags,width,va) ← s.width.width (s.flags.foldl Flags.set {}) va
  let (flags,precision,va) ← precisionValue flags va s.precision
  some (s.length.set port flags,width,precision,va)

theorem Specification.text_eq (float : FloatText) : s.text float port va =
    (s.fields port va).bind fun (flags,width,precision,va) =>
      specifierText float port width precision flags s.specifier va := by
  unfold text fields
  cases s.width.width (s.flags.foldl Flags.set {}) va with
  | none => rfl
  | some x =>
    obtain ⟨flags,width,va⟩ := x
    simp only [Option.bind_eq_bind,Option.bind_some]
    cases precisionValue flags va s.precision <;> rfl

def Flags.Unset (flags : Flags) : Prop :=
  flags.uppercase = false ∧ flags.pointer = false ∧ flags.precision = false

theorem Flags.Unset.foldl {fs : List Char} (h : flags.Unset) : (fs.foldl Flags.set flags).Unset := by
  induction fs generalizing flags with
  | nil => exact h
  | cons c fs ih =>
    have hset : (flags.set c).Unset := by
      unfold Flags.set
      split_ifs <;> exact h
    exact ih hset

theorem Field.width_unset {f : Field} (h : flags.Unset) {flags' : Flags}
    (hw : f.width flags va = some (flags',width,rest)) : flags'.Unset := by
  cases f with
  | absent => cases hw; exact h
  | digits ds => cases hw; exact h
  | star =>
    simp only [Field.width,Option.bind_eq_bind,Option.bind_eq_some_iff] at hw
    obtain ⟨⟨w,va⟩,-,hw⟩ := hw
    dsimp only at hw
    split_ifs at hw
    · cases hw; exact h
    · cases hw; exact h

theorem precisionValue_unset {f : Option Field} (h : flags.Unset) {flags' : Flags}
    (hp : precisionValue flags va f = some (flags',precision,rest)) :
    flags'.uppercase = false ∧ flags'.pointer = false ∧
      (flags'.precision = false → precision = 0) := by
  obtain ⟨hu,hp',-⟩ := h
  cases f with
  | none => cases hp; exact ⟨hu,hp',fun _ => rfl⟩
  | some f =>
    cases f with
    | absent => cases hp; exact ⟨hu,hp',fun _ => rfl⟩
    | digits ds => cases hp; exact ⟨hu,hp',fun h => Bool.noConfusion h⟩
    | star =>
      simp only [precisionValue,Option.bind_eq_bind,Option.bind_eq_some_iff] at hp
      obtain ⟨⟨w,va⟩,-,hp⟩ := hp
      cases hp
      exact ⟨hu,hp',fun h => Bool.noConfusion h⟩

theorem Specification.fields_flags (h : s.fields port va = some (flags,width,precision,va')) :
    flags.uppercase = false ∧ flags.pointer = false ∧
      (flags.precision = false → precision = 0) := by
  simp only [fields,Option.bind_eq_bind,Option.bind_eq_some_iff] at h
  obtain ⟨⟨flags₁,width₁,va₁⟩,hw,⟨flags₂,precision₂,va₂⟩,hp,h⟩ := h
  cases h
  have hfirst : (s.flags.foldl Flags.set {}).Unset := Flags.Unset.foldl ⟨rfl,rfl,rfl⟩
  have hunset := precisionValue_unset (Field.width_unset hfirst hw) hp
  unfold LengthField.set
  cases s.length <;> cases port <;> exact hunset

theorem Specification.text_integerText (hch : numericBaseOf s.specifier = some base)
    (hfields : s.fields port va = some (flags,width,precision,va')) : s.text float port va =
      integerText port width precision flags base s.specifier va' := by
  rw [text_eq,hfields,Option.bind_some]
  unfold specifierText
  rw [hch]

end Fields

section StandardFields
variable {f : Field} {flags₁ : Flags} {w p : Nat}

def digitsValue (ds : List Char) : Nat :=
  ds.foldl (fun n d => n * 10 + (d.toNat - '0'.toNat)) 0

/-- The width that the C standard sees: a negative argument is the flag `-` and a width. -/
def Field.standardWidth (flags : Flags) (va : List VaArg) : Field → Option (Flags × Nat × List VaArg)
  | .absent => some (flags,0,va)
  | .digits ds => some (flags,digitsValue ds,va)
  | .star => (vaArg VaArg.word? va).map fun (w,va) =>
    (if w.toInt < 0 then { flags with left := true } else flags,w.toInt.natAbs,va)

/-- The precision that the C standard sees: a negative argument is none at all. -/
def standardPrecision (flags : Flags) (va : List VaArg) :
    Option Field → Option (Flags × Nat × List VaArg)
  | none => some (flags,0,va)
  | some .absent => some ({ flags with precision := true },0,va)
  | some (.digits ds) => some ({ flags with precision := true },digitsValue ds,va)
  | some .star => (vaArg VaArg.word? va).map fun (p,va) =>
    if p.toInt < 0 then (flags,0,va) else ({ flags with precision := true },p.toNat,va)

def Specification.standardFields (port : Port) (s : Specification) (va : List VaArg) :
    Option (Flags × Nat × Nat × List VaArg) := do
  let (flags,width,va) ← s.width.standardWidth (s.flags.foldl Flags.set {}) va
  let (flags,precision,va) ← standardPrecision flags va s.precision
  some (s.length.set port flags,width,precision,va)

theorem decimalValue_eq {i : BitVec 32} (h : i = BitVec.ofNat 32 n) : decimalValue i ds =
    BitVec.ofNat 32 (ds.foldl (fun n d => n * 10 + (d.toNat - '0'.toNat)) n) := by
  induction ds generalizing i n with
  | nil => exact h
  | cons d ds ih =>
    refine ih ?_
    rw [h,BitVec.ofNat_add,BitVec.ofNat_mul]
    rfl

theorem decimalValue_zero : decimalValue 0 ds = BitVec.ofNat 32 (digitsValue ds) :=
  decimalValue_eq rfl

theorem ofNat_natAbs (v : BitVec 32) :
    BitVec.ofNat 32 v.toInt.natAbs = if v.toInt < 0 then -v else v := by
  rw [← BitVec.ofInt_natCast]
  split
  · rename_i h
    rw [Int.ofNat_natAbs_of_nonpos h.le,BitVec.ofInt_neg,BitVec.ofInt_toInt]
  · rename_i h
    rw [Int.natAbs_of_nonneg (Int.not_lt.mp h),BitVec.ofInt_toInt]

theorem Field.width_of_standard (h : f.standardWidth flags va = some (flags₁,w,va'))
    (hw : w < 2 ^ 31) : f.width flags va = some (flags₁,BitVec.ofNat 32 w,va') := by
  cases f with
  | absent => cases h; rfl
  | digits ds =>
    cases h
    rw [width,decimalValue_zero]
  | star =>
    obtain ⟨⟨v,va₁⟩,hva,he⟩ := Option.map_eq_some_iff.mp h
    cases he
    have hmin : v ≠ BitVec.intMin 32 := by
      rintro rfl
      exact absurd hw (by decide)
    have hslt : v.slt 0 = decide (v.toInt < 0) := BitVec.slt_eq_decide
    rw [width,hva,ofNat_natAbs]
    simp only [Option.bind_eq_bind,Option.bind_some,hslt,decide_eq_true_eq,if_neg hmin]
    split <;> rfl

theorem precisionValue_of_standard {f : Option Field}
    (h : standardPrecision flags va f = some (flags₁,p,va'))
    (hstar : f = some .star → flags₁.precision = true) (hflags : flags.precision = false) :
    precisionValue flags va f = some (flags₁,BitVec.ofNat 32 p,va') := by
  cases f with
  | none => cases h; rfl
  | some f =>
    cases f with
    | absent => cases h; rfl
    | digits ds =>
      cases h
      rw [precisionValue,decimalValue_zero]
    | star =>
      obtain ⟨⟨v,va₁⟩,hva,he⟩ := Option.map_eq_some_iff.mp h
      have hslt : (0#32).slt v = decide (0 < v.toInt) := BitVec.slt_eq_decide
      dsimp only at he
      split at he
      · cases he
        rw [hflags] at hstar
        cases hstar rfl
      · rename_i hneg
        cases he
        have hpos : (if (0#32).slt v then v else 0) = v := by
          rw [hslt]
          split
          · rfl
          · rename_i hzero
            have hv : v.toInt = 0 := by
              rw [decide_eq_true_eq] at hzero
              omega
            rw [← BitVec.ofInt_toInt (x := v),hv]
            rfl
        rw [precisionValue,hva,Option.bind_eq_bind,Option.bind_some]
        dsimp only
        rw [hpos,BitVec.ofNat_toNat,BitVec.setWidth_eq]

/-- Up to the largest `int` the code sees what the standard sees, but for a negative precision. -/
theorem Specification.fields_of_standard (h : s.standardFields port va = some (flags,w,p,va'))
    (hstar : s.precision = some .star → flags.precision = true) (hw : w < 2 ^ 31) :
    s.fields port va = some (flags,BitVec.ofNat 32 w,BitVec.ofNat 32 p,va') := by
  simp only [standardFields,Option.bind_eq_bind,Option.bind_eq_some_iff] at h
  obtain ⟨⟨flags₁,w₁,va₁⟩,hwidth,⟨flags₂,p₂,va₂⟩,hprecision,h⟩ := h
  cases h
  have hwidth' := Field.width_of_standard hwidth hw
  have hfirst : (s.flags.foldl Flags.set {}).Unset := Flags.Unset.foldl ⟨rfl,rfl,rfl⟩
  have hunset := Field.width_unset hfirst hwidth'
  have hlength : (s.length.set port flags₂).precision = flags₂.precision := by
    unfold LengthField.set
    cases s.length <;> cases port <;> rfl
  rw [hlength] at hstar
  unfold fields
  rw [hwidth',Option.bind_eq_bind,Option.bind_some]
  dsimp only
  rw [precisionValue_of_standard hprecision hstar hunset.2.2]
  rfl

theorem precision_le_length : p ≤ (standardNumber ch base flags p w v).length := by
  have hdigits : p ≤ (standardDigits ch base flags p v).length := by
    have hpad (ds : List Char) : p ≤ (ds.leftpad p '0').length := by
      rw [List.length_leftpad]
      exact le_max_left _ _
    unfold standardDigits
    dsimp only
    generalize (if v = 0 ∧ flags.precision = true ∧ p = 0 then []
      else numeral base (ch = 'X') v.natAbs) = ds
    split
    · exact (hpad ds).trans (Nat.le_succ _)
    · exact hpad ds
  unfold standardNumber
  dsimp only
  split
  · rw [List.length_append,List.length_leftpad]
    omega
  · rw [List.length_append]
    omega

/-- An integer conversion prints the number of its type that the argument gives, as the C standard
says, with any precision that is not a negative argument. -/
theorem Specification.text_integer (float : FloatText) (hch : numericBaseOf s.specifier = some base)
    (hbase : base ≠ .binary) (hfields : s.standardFields port va = some (flags,w,p,va'))
    (hstar : s.precision = some .star → flags.precision = true) (hw : w < 2 ^ 31)
    (hva : integerValue port s.specifier flags va' = some (v,rest))
    (hfit : (standardNumber s.specifier base flags p w v).length ≤ 32) :
    s.text float port va = some (standardText s.specifier base flags p w v,rest) := by
  have hfields' := fields_of_standard hfields hstar hw
  obtain ⟨hu,hpointer,hprecision⟩ := fields_flags hfields'
  have hp : p ≤ 32 := precision_le_length.trans hfit
  have hwidth : (BitVec.ofNat 32 w).toNat = w := by
    rw [BitVec.toNat_ofNat,Nat.mod_eq_of_lt (by omega)]
  have hprec : (BitVec.ofNat 32 p).toNat = p := by
    rw [BitVec.toNat_ofNat,Nat.mod_eq_of_lt (by omega)]
  have hfit' : (standardNumber s.specifier base flags (BitVec.ofNat 32 p).toNat
      (BitVec.ofNat 32 w).toNat v).length ≤ 32 := by
    rwa [hwidth,hprec]
  have htext := integerText_eq hch hbase hu hpointer hprecision hva hfit'
  rw [text_integerText hch hfields',htext,hwidth,hprec]

/-- `%+8.*hhd` of the precision 5 and a byte that is narrowed to -128 -/
theorem Specification.text_integer_byte :
    Specification.text (fun _ _ _ _ _ => []) .linux ⟨['+'],.digits ['8'],some .star,.hh,'d'⟩
      [.word 5,.word 0x180] = some ([' ',' ','-','0','0','1','2','8'],[]) := by
  have hfields : Specification.standardFields .linux ⟨['+'],.digits ['8'],some .star,.hh,'d'⟩
      [.word 5,.word 0x180] =
        some ({ plus := true, precision := true, short := true, char := true },8,5,[.word 0x180]) :=
    rfl
  have hbase : numericBaseOf 'd' = some .decimal := rfl
  have hva : integerValue .linux 'd'
      { plus := true, precision := true, short := true, char := true } [.word 0x180] =
        some (-128,[]) := rfl
  exact text_integer _ hbase (by decide) hfields (fun _ => rfl) (by decide) hva (by decide)

end StandardFields

section Reading

def word (text : List Char) : List Char := (text.dropWhile (· = ' ')).takeWhile (· ≠ ' ')

def readSign : List Char → Bool × List Char
  | '-' :: cs => (true,cs)
  | '+' :: cs => (false,cs)
  | cs => (false,cs)

def readMark (base : NumericBase) : List Char → List Char
  | '0' :: c :: cs => if base = .hex ∧ (c = 'x' ∨ c = 'X') then cs else '0' :: c :: cs
  | cs => cs

/-- Reads a number in a base, between blanks, with or without a sign and the mark of the base. -/
def readInteger (base : NumericBase) (text : List Char) : Option Int :=
  let (negative,cs) := readSign (word text)
  (readNumeral base.value ((readMark base cs).map Char.toUpper)).map fun (n : Nat) =>
    if negative then -(n : Int) else (n : Int)

theorem word_eq (h : ' ' ∉ cs) :
    word (List.replicate k ' ' ++ (cs ++ List.replicate m ' ')) = cs := by
  have hblank : ∀ c ∈ List.replicate k ' ', (decide (c = ' ')) = true := by
    intro c hc
    exact decide_eq_true (List.eq_of_mem_replicate hc)
  have hword : ∀ c ∈ cs, (decide (c ≠ ' ')) = true := by
    intro c hc
    exact decide_eq_true fun he => h (he ▸ hc)
  unfold word
  rw [List.dropWhile_append_of_pos hblank]
  cases cs with
  | nil =>
    have hnil : (List.replicate m ' ').dropWhile (fun c => decide (c = ' ')) = [] := by
      simp
    rw [List.nil_append,hnil]
    rfl
  | cons c cs =>
    have hc : c ≠ ' ' := fun he => h (he ▸ List.mem_cons_self)
    rw [List.cons_append,List.dropWhile_cons_of_neg (by simpa using hc),← List.cons_append,
      List.takeWhile_append_of_pos hword]
    cases m with
    | zero => simp
    | succ m => simp [List.replicate_succ]

theorem readSign_digits (h : '-' ∉ cs) (h' : '+' ∉ cs) : readSign cs = (false,cs) := by
  unfold readSign
  split
  · simp at h
  · simp at h'
  · rfl

theorem readMark_digits (h : 'x' ∉ cs) (h' : 'X' ∉ cs) : readMark base cs = cs := by
  unfold readMark
  split
  · rename_i c cs
    have hc : ¬ (base = .hex ∧ (c = 'x' ∨ c = 'X')) := by
      rintro ⟨-,rfl | rfl⟩
      · simp at h
      · simp at h'
    rw [if_neg hc]
  · rfl

def Gives (base : NumericBase) (ds : List Char) (n : Nat) : Prop :=
  readNumeral base.value (ds.map Char.toUpper) = some n

theorem gives_numeral : Gives base (numeral base u n) n := by
  obtain ⟨hb,hb'⟩ := base.value_bounds
  have hread : readNumeral base.value ((Nat.toDigits base.value n).map Char.toUpper) = some n :=
    readDigits_toDigits hb hb'
  have hdigit : ∀ d < 16, (digit d).toUpper = digit d := by decide
  unfold Gives numeral
  cases u with
  | true =>
    have hupper : ∀ c ∈ (Nat.toDigits base.value n).map Char.toUpper, c.toUpper = id c := by
      intro c hc
      obtain ⟨d,hd,rfl⟩ := mem_upper_toDigits hb hc
      exact hdigit d (hd.trans_le hb')
    rw [if_pos rfl,List.map_congr_left hupper,List.map_id,hread]
  | false => exact hread

theorem Gives.leftpad (h : Gives base ds n) : Gives base (ds.leftpad k '0') n := by
  rw [Gives,List.leftpad,List.map_append,List.map_replicate]
  exact (readDigits_zeros _ _).trans h

/-- Digits are no other characters. -/
theorem Gives.not_mem {c : Char} (h : Gives base ds n) (hc : digitValue c.toUpper = none) :
    c ∉ ds := by
  intro hmem
  exact digitValue_of_readDigits h (List.mem_map_of_mem hmem) hc

theorem Gives.append (h : Gives base ds n) : Gives base (List.replicate k '0' ++ ds) n := by
  rw [Gives,List.map_append,List.map_replicate]
  exact (readDigits_zeros _ _).trans h

theorem gives_standardDigits {precision : Nat} :
    Gives base (standardDigits ch base flags precision v) v.natAbs := by
  obtain ⟨ds,hds⟩ : ∃ ds, ds = if v = 0 ∧ flags.precision = true ∧ precision = 0 then []
      else numeral base (ch = 'X') v.natAbs := ⟨_,rfl⟩
  have hdigits : Gives base ds v.natAbs := by
    rw [hds]
    split
    · rename_i h
      rw [h.1]
      rfl
    · exact gives_numeral
  unfold standardDigits
  dsimp only
  rw [← hds]
  split
  · exact Gives.append (k := 1) hdigits.leftpad
  · exact hdigits.leftpad

theorem word_standardSign (h : ' ' ∉ cs) :
    word (List.replicate k ' ' ++ (standardSign ch flags v ++ cs ++ List.replicate m ' ')) =
      (standardSign ch flags v).filter (· ≠ ' ') ++ cs := by
  have hplain {sign : List Char} (hsign : ' ' ∉ sign) :
      word (List.replicate k ' ' ++ (sign ++ cs ++ List.replicate m ' ')) =
        sign.filter (· ≠ ' ') ++ cs := by
    have hfilter : sign.filter (· ≠ ' ') = sign := by
      rw [List.filter_eq_self]
      intro c hc
      exact decide_eq_true fun he => hsign (he ▸ hc)
    rw [word_eq (by simp [hsign,h]),hfilter]
  unfold standardSign
  split_ifs
  · exact hplain (by decide)
  · exact hplain (by decide)
  · have hblank := word_eq (k := k + 1) (m := m) h
    rw [List.replicate_succ',List.append_assoc] at hblank
    exact hblank
  · exact hplain (by decide)

theorem readSign_standardSign (h : '-' ∉ cs) (h' : '+' ∉ cs) :
    readSign ((standardSign ch flags v).filter (· ≠ ' ') ++ cs) = (decide (v < 0),cs) := by
  unfold standardSign
  split_ifs with hneg
  · rw [decide_eq_true hneg]
    rfl
  · rw [decide_eq_false hneg]
    rfl
  · rw [decide_eq_false hneg]
    exact readSign_digits h h'
  · rw [decide_eq_false hneg]
    exact readSign_digits h h'

theorem readMark_standardMark (hch : numericBaseOf ch = some base) (h : 'x' ∉ cs) (h' : 'X' ∉ cs) :
    readMark base (standardMark ch flags v ++ cs) = cs := by
  unfold standardMark
  split
  · rename_i hmark
    have hx : ch = 'x' ∨ ch = 'X' := by
      simp at hmark
      exact hmark.1.2
    exact if_pos ⟨(numericBaseOf_eq hch).1.mpr hx,hx⟩
  · exact readMark_digits h h'

theorem standardMark_not_mem {c : Char} (hx : c ≠ 'x') (hX : c ≠ 'X') (h0 : c ≠ '0') :
    c ∉ standardMark ch flags v := by
  unfold standardMark
  split
  · rename_i hmark
    simp at hmark
    obtain h | h := hmark.1.2 <;> simp [h,hx,hX,h0]
  · exact List.not_mem_nil

/-- Whatever flags, width and precision a number was printed with, it can be read back. -/
theorem readInteger_standardText (hch : numericBaseOf ch = some base) {precision width : Nat} :
    readInteger base (standardText ch base flags precision width v) = some v := by
  -- the digits, with the zeros that fill the width
  obtain ⟨ds,hnumber,hds⟩ : ∃ ds, standardNumber ch base flags precision width v =
      standardSign ch flags v ++ (standardMark ch flags v ++ ds) ∧ Gives base ds v.natAbs := by
    unfold standardNumber
    dsimp only
    split
    · exact ⟨_,List.append_assoc _ _ _,gives_standardDigits.leftpad⟩
    · exact ⟨_,List.append_assoc _ _ _,gives_standardDigits⟩
  obtain ⟨k,m,htext⟩ : ∃ k m, standardText ch base flags precision width v =
      List.replicate k ' ' ++ (standardSign ch flags v ++ (standardMark ch flags v ++ ds) ++
        List.replicate m ' ') := by
    unfold standardText
    dsimp only
    rw [hnumber]
    split
    · exact ⟨0,_,rfl⟩
    · refine ⟨width - (standardSign ch flags v ++ (standardMark ch flags v ++ ds)).length,0,?_⟩
      rw [List.replicate_zero,List.append_nil]
      rfl
  have hother {c : Char} (hc : digitValue c.toUpper = none) (hx : c ≠ 'x') (hX : c ≠ 'X')
      (h0 : c ≠ '0') : c ∉ standardMark ch flags v ++ ds := by
    rw [List.mem_append]
    exact not_or.mpr ⟨standardMark_not_mem hx hX h0,hds.not_mem hc⟩
  have hblank : ' ' ∉ standardMark ch flags v ++ ds :=
    hother (by decide) (by decide) (by decide) (by decide)
  have hminus : '-' ∉ standardMark ch flags v ++ ds :=
    hother (by decide) (by decide) (by decide) (by decide)
  have hplus : '+' ∉ standardMark ch flags v ++ ds :=
    hother (by decide) (by decide) (by decide) (by decide)
  have hmark : readMark base (standardMark ch flags v ++ ds) = ds :=
    readMark_standardMark hch (hds.not_mem (by decide)) (hds.not_mem (by decide))
  unfold readInteger
  rw [htext,word_standardSign hblank,readSign_standardSign hminus hplus]
  dsimp only
  rw [hmark,hds,Option.map_some]
  by_cases hv : v < 0
  · rw [decide_eq_true hv,if_pos rfl]
    congr 1
    omega
  · rw [decide_eq_false hv]
    congr 1
    simp
    omega

/-- What an integer conversion of a format prints can be read back. -/
theorem Specification.readInteger_text (float : FloatText)
    (hch : numericBaseOf s.specifier = some base) (hbase : base ≠ .binary)
    (hfields : s.fields port va = some (flags,width,precision,va'))
    (hva : integerValue port s.specifier flags va' = some (v,rest))
    (hfit : (standardNumber s.specifier base flags precision.toNat width.toNat v).length ≤ 32) :
    ∃ text, s.text float port va = some (text,rest) ∧ readInteger base text = some v := by
  obtain ⟨hu,hp,hprecision⟩ := fields_flags hfields
  have htext := integerText_eq hch hbase hu hp hprecision hva hfit
  exact ⟨_,(text_integerText hch hfields).trans htext,readInteger_standardText hch⟩

/-- `%-#8.4X` of 175 -/
theorem Specification.readInteger_text_hex :
    ∃ text, Specification.text (fun _ _ _ _ _ => []) .win
        ⟨['-','#'],.digits ['8'],some (.digits ['4']),.absent,'X'⟩ [.word 175] =
      some (text,[]) ∧ readInteger .hex text = some 175 := by
  have hfields : Specification.fields .win
      ⟨['-','#'],.digits ['8'],some (.digits ['4']),.absent,'X'⟩ [.word 175] =
        some ({ left := true, hash := true, precision := true },8,4,[.word 175]) := rfl
  have hbase : numericBaseOf 'X' = some .hex := rfl
  have hva : integerValue .win 'X' { left := true, hash := true, precision := true } [.word 175] =
      some (175,[]) := rfl
  exact readInteger_text _ hbase (by decide) hfields hva (by decide)

end Reading

section Pointers
variable {value : BitVec 64}

def Flags.hashed (flags : Flags) : Flags :=
  { flags with hash := flags.hash || flags.pointer, pointer := false }

theorem ntoaText_hashed (hvalue : value ≠ 0) :
    ntoaText width precision flags value false .hex =
      ntoaText width precision flags.hashed value false .hex := by
  have hdigits (flags : Flags) : ntoaDigits value .hex flags =
      (ntoaLoop .hex flags.uppercase printfNtoaBufferSize value .empty,flags) := if_neg hvalue
  have hhash (buf : NtoaBuf) (k : Nat) (w : BitVec 32) : ntoaHash buf k .hex precision w flags =
      ntoaHash buf k .hex precision w flags.hashed := by
    simp [ntoaHash,Flags.hashed]
  have hformat (buf : NtoaBuf) : ntoaFormatBuf buf false .hex precision width flags =
      ntoaFormatBuf buf false .hex precision width flags.hashed := by
    unfold ntoaFormatBuf
    simp only [reduceCtorEq,decide_false,Bool.false_and,Bool.false_eq_true,if_false,hhash]
    rfl
  unfold ntoaText
  rw [hdigits,hdigits]
  dsimp only
  rw [hformat]
  rfl

theorem length_numeral_hex (hn : n < 2 ^ 64) : (numeral .hex u n).length ≤ 16 := by
  have hle : (Nat.toDigits 16 n).length ≤ 16 :=
    (Nat.length_toDigits_le_iff (by decide) (by decide)).mpr hn
  unfold numeral
  split
  · rwa [List.length_map]
  · exact hle

/-- `%#018x` of a number that is not zero. -/
theorem standardNumber_pointer (hn : n ≠ 0) (hlt : n < 2 ^ 64)
    (hflags : flags.hash = true ∧ flags.zeropad = true ∧ flags.left = false ∧
      flags.precision = false) :
    (standardNumber 'x' .hex flags 0 18 n).length = 18 := by
  obtain ⟨hh,hz,hl,hp⟩ := hflags
  have hneg : ¬ (n : Int) < 0 := Int.not_lt.mpr (Int.natCast_nonneg n)
  have hsign : standardSign 'x' flags n = [] := by simp [standardSign,hneg,isSigned]
  have hmark : standardMark 'x' flags n = ['0','x'] := by simp [standardMark,hh,hn]
  have hdigits : standardDigits 'x' .hex flags 0 n = numeral .hex false n := by
    simp [standardDigits,hn]
  have hlen : (numeral .hex false n).length ≤ 16 := length_numeral_hex hlt
  unfold standardNumber
  dsimp only
  rw [hsign,hmark,hdigits,hz,hl,hp]
  simp
  omega

/-- A pointer is printed like a number with `%#018x`, and can be read back; a null pointer is
printed as `(nil)`. -/
theorem Specification.text_pointer (float : FloatText) (hspec : s.specifier = 'p')
    (hfields : s.fields port va = some (flags,width,precision,.ptr value :: rest))
    (hflags : flags.left = false ∧ flags.plus = false ∧ flags.space = false ∧
      flags.precision = false) :
    if value = 0 then s.text float port va = some ("(nil)".toList,rest)
    else ∃ text, s.text float port va = some (text,rest) ∧
      text = standardText 'x' .hex { flags with zeropad := true, hash := true } 0 18 value.toNat ∧
      text.length = 18 ∧ readInteger .hex text = some (value.toNat : Int) := by
  obtain ⟨hleft,hplus,hspace,hp⟩ := hflags
  obtain ⟨hu,hpointer,hprecision⟩ := fields_flags hfields
  obtain rfl := hprecision hp
  have htext : s.text float port va =
      pointerText 0 flags (.ptr value :: rest) := by
    rw [text_eq,hfields,Option.bind_some,hspec]
    rfl
  rw [htext]
  unfold pointerText
  by_cases hvalue : value = 0
  · subst hvalue
    rw [if_pos rfl]
    simp [vaArg,VaArg.ptr?,outRevText,hleft]
  · rw [if_neg hvalue]
    have hn : value.toNat ≠ 0 := fun h => hvalue (BitVec.eq_of_toNat_eq h)
    let flags' : Flags := { flags with zeropad := true, hash := true }
    have hflags : integerFlags 'x' .hex flags' =
        Flags.hashed { flags with zeropad := true, pointer := true } := by
      rw [integerFlags_eq]
      simp [Flags.hashed,flags',hplus,hspace,hpointer,hp,hu]
    have hlength : (standardNumber 'x' .hex flags' 0 18 value.toNat).length = 18 :=
      standardNumber_pointer hn value.isLt ⟨rfl,rfl,hleft,hp⟩
    have hnumber : ntoaText 18 0 (integerFlags 'x' .hex flags') value
        (decide ((value.toNat : Int) < 0)) .hex = standardText 'x' .hex flags' 0 18 value.toNat :=
      ntoaText_eq rfl (by decide) hu hpointer (fun _ => rfl) rfl (hlength.le.trans (by decide))
    have hneg : decide ((value.toNat : Int) < 0) = false :=
      decide_eq_false (Int.not_lt.mpr (Int.natCast_nonneg _))
    have hfield : standardText 'x' .hex flags' 0 18 value.toNat =
        standardNumber 'x' .hex flags' 0 18 value.toNat := by
      have hl : flags'.left = false := hleft
      unfold standardText
      dsimp only
      rw [hl,leftpad_of_le hlength.ge]
      rfl
    rw [hneg,hflags,← ntoaText_hashed hvalue] at hnumber
    refine ⟨_,?_,rfl,?_,readInteger_standardText rfl⟩
    · have hva : vaArg VaArg.ptr? (.ptr value :: rest) = some (value,rest) := rfl
      dsimp only
      rw [hva,Option.map_some]
      dsimp only
      rw [if_neg hvalue,hnumber]
    · rw [hfield,hlength]

theorem Specification.text_pointer_beef :
    ∃ text, Specification.text (fun _ _ _ _ _ => []) .linux ⟨[],.absent,none,.absent,'p'⟩
        [.ptr 0xBEEF] = some (text,[]) ∧
      text = standardText 'x' .hex { zeropad := true, hash := true } 0 18 0xBEEF ∧
      text.length = 18 ∧ readInteger .hex text = some 0xBEEF := by
  have hfields : Specification.fields .linux ⟨[],.absent,none,.absent,'p'⟩ [.ptr 0xBEEF] =
      some ({},0,0,[.ptr 0xBEEF]) := rfl
  have hpointer := text_pointer (fun _ _ _ _ _ => []) rfl hfields ⟨rfl,rfl,rfl,rfl⟩
  rwa [if_neg (by decide)] at hpointer

end Pointers

end Ods
