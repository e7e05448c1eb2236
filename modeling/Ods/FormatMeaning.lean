import Ods.FormatLanguage

/-! What a format means: each directive prints a text, from the arguments that are left for it.
`_vsnprintf` gives the texts to its output function, one after the other. -/
namespace Ods
open Emission Scanner

variable {σ : Type} (float : FloatText) (port : Port) (out : OutFct σ) (maxlen : SizeT)
variable (p : σ × SizeT) (flags : Flags) (va : List VaArg) (format : List Char)

section Fields

def Flags.set (flags : Flags) (c : Char) : Flags :=
  if c = '0' then { flags with zeropad := true }
  else if c = '-' then { flags with left := true }
  else if c = '+' then { flags with plus := true }
  else if c = ' ' then { flags with space := true }
  else if c = '#' then { flags with hash := true }
  else flags

theorem evalFlags_eq : evalFlags flags format =
    (longest isFlag format).map fun (fs,rest) => (fs.foldl Flags.set flags,rest) := by
  induction format generalizing flags with
  | nil => rfl
  | cons c format ih =>
    have hmore (hc : isFlag c = true) : evalFlags (flags.set c) format =
        (longest isFlag (c :: format)).map fun (fs,rest) => (fs.foldl Flags.set flags,rest) := by
      rw [ih,longest_cons hc,Option.map_map]
      rfl
    unfold evalFlags
    split
    · rename_i hc; subst hc; exact hmore rfl
    split
    · rename_i hc; subst hc; exact hmore rfl
    split
    · rename_i hc; subst hc; exact hmore rfl
    split
    · rename_i hc; subst hc; exact hmore rfl
    split
    · rename_i hc; subst hc; exact hmore rfl
    have hnot : ¬ isFlag c = true := by simp_all [isFlag]
    rw [longest,if_neg hnot]
    rfl

def decimalValue (i : BitVec 32) (ds : List Char) : BitVec 32 :=
  ds.foldl (fun i d => i * 10 + BitVec.ofNat 32 (d.toNat - '0'.toNat)) i

theorem atoi_eq (i : BitVec 32) : atoi i format =
    (longest isDigit format).map fun (ds,rest) => (decimalValue i ds,rest) := by
  induction format generalizing i with
  | nil => rfl
  | cons c format ih =>
    unfold atoi
    split
    · rename_i hd
      rw [ih,longest_cons hd,Option.map_map]
      rfl
    · rename_i hd
      rw [longest,if_neg hd]
      rfl

def Field.width (flags : Flags) (va : List VaArg) : Field → Option (Flags × BitVec 32 × List VaArg)
  | .absent => some (flags,0,va)
  | .digits ds => some (flags,decimalValue 0 ds,va)
  | .star => do
    let (w,va) ← vaArg VaArg.word? va
    if w.slt 0 then
      if w = BitVec.intMin 32 then none else some ({ flags with left := true },-w,va)
    else some (flags,w,va)

theorem evalWidth_eq : evalWidth flags va format = (Field.scan format).bind fun (f,rest) =>
    (f.width flags va).map fun (flags,width,va) => (flags,width,va,rest) := by
  cases format with
  | nil => rfl
  | cons c format =>
    rw [evalWidth,Field.scan]
    by_cases hd : isDigit c = true
    · rw [if_pos hd,if_pos hd,atoi_eq]
      cases longest isDigit (c :: format) <;> rfl
    rw [if_neg hd,if_neg hd]
    by_cases hc : c = '*'
    · rw [if_pos hc,if_pos hc]
      simp only [Option.bind_some,Field.width]
      cases vaArg VaArg.word? va with
      | none => rfl
      | some w =>
        simp only [Option.bind_eq_bind,Option.bind_some]
        repeat' split
        all_goals rfl
    · rw [if_neg hc,if_neg hc]
      rfl

def precisionValue (flags : Flags) (va : List VaArg) :
    Option Field → Option (Flags × BitVec 32 × List VaArg)
  | none => some (flags,0,va)
  | some .absent => some ({ flags with precision := true },0,va)
  | some (.digits ds) => some ({ flags with precision := true },decimalValue 0 ds,va)
  | some .star => do
    let (w,va) ← vaArg VaArg.word? va
    some ({ flags with precision := true },if (0#32).slt w then w else 0,va)

theorem evalPrecision_eq : evalPrecision flags va format = (scanPrecision format).bind fun (f,rest) =>
    (precisionValue flags va f).map fun (flags,precision,va) => (flags,precision,va,rest) := by
  cases format with
  | nil => rfl
  | cons c format =>
    rw [evalPrecision,scanPrecision]
    by_cases hc : c = '.'
    · rw [if_pos hc,if_pos hc]
      cases format with
      | nil => rfl
      | cons c format =>
        rw [Field.scan]
        dsimp only
        by_cases hd : isDigit c = true
        · rw [if_pos hd,if_pos hd,atoi_eq]
          cases longest isDigit (c :: format) <;> rfl
        rw [if_neg hd,if_neg hd]
        by_cases hs : c = '*'
        · rw [if_pos hs,if_pos hs]
          simp only [Option.map_some,Option.bind_some,precisionValue]
          cases vaArg VaArg.word? va <;> rfl
        · rw [if_neg hs,if_neg hs]
          rfl
    · rw [if_neg hc,if_neg hc]
      rfl

def LengthField.set (port : Port) (flags : Flags) : LengthField → Flags
  | .absent => flags
  | .l => { flags with long := true }
  | .ll => { flags with long := true, longLong := true }
  | .h => { flags with short := true }
  | .hh => { flags with short := true, char := true }
  | .t | .j | .z =>
    match port with
    | .linux => { flags with long := true }
    | .win => { flags with longLong := true }

theorem evalTwice_eq (c : Char) (once twice : LengthField) :
    evalTwice c (once.set port flags) (twice.set port flags) format =
      (scanTwice c once twice format).map fun (f,rest) => (f.set port flags,rest) := by
  cases format with
  | nil => rfl
  | cons c' format =>
    simp only [evalTwice,scanTwice]
    split <;> rfl

theorem evalLength_eq : evalLength port flags format =
    (LengthField.scan format).map fun (f,rest) => (f.set port flags,rest) := by
  cases format with
  | nil => rfl
  | cons c format =>
    simp only [evalLength,LengthField.scan]
    by_cases hl : c = 'l'
    · rw [if_pos hl,if_pos hl]
      exact evalTwice_eq port flags format 'l' .l .ll
    rw [if_neg hl,if_neg hl]
    by_cases hh : c = 'h'
    · rw [if_pos hh,if_pos hh]
      exact evalTwice_eq port flags format 'h' .h .hh
    rw [if_neg hh,if_neg hh]
    by_cases ht : c = 't'
    · rw [if_pos (.inl ht),if_pos ht]
      cases port <;> rfl
    rw [if_neg ht]
    by_cases hj : c = 'j'
    · rw [if_pos (.inr (.inl hj)),if_pos hj]
      cases port <;> rfl
    rw [if_neg hj]
    by_cases hz : c = 'z'
    · rw [if_pos (.inr (.inr hz)),if_pos hz]
      cases port <;> rfl
    · rw [if_neg hz,if_neg (by tauto)]
      rfl

end Fields

def Specification.text (s : Specification) (va : List VaArg) : Printed := do
  let (flags,width,va) ← s.width.width (s.flags.foldl Flags.set {}) va
  let (flags,precision,va) ← precisionValue flags va s.precision
  specifierText float port width precision (s.length.set port flags) s.specifier va

theorem evalSpecification_eq : evalSpecification float port out maxlen p va format =
    (Specification.scan format).bind fun (s,rest) =>
      ((s.text float port va).run out maxlen p).map fun (p,va) => (p,va,rest) := by
  unfold evalSpecification Specification.scan Scanner.andThen
  simp only [evalFlags_eq,evalWidth_eq,evalPrecision_eq,evalLength_eq,evalSpecifier_eq]
  cases longest isFlag format with
  | none => rfl
  | some x =>
    obtain ⟨fs,format⟩ := x
    simp only [Option.map_some,Option.bind_eq_bind,Option.bind_some]
    cases Field.scan format with
    | none => rfl
    | some x =>
      obtain ⟨width,format⟩ := x
      simp only [Option.bind_some]
      cases hp : scanPrecision format with
      | none => cases width.width (fs.foldl Flags.set {}) va <;> simp [hp]
      | some x =>
        obtain ⟨precision,format⟩ := x
        cases hl : LengthField.scan format with
        | none =>
          cases width.width (fs.foldl Flags.set {}) va with
          | none => simp [hl]
          | some x =>
            obtain ⟨flags,w,va⟩ := x
            cases hv : precisionValue flags va precision <;> simp [hp,hv,hl]
        | some x =>
          obtain ⟨length,format⟩ := x
          cases hw : width.width (fs.foldl Flags.set {}) va with
          | none => cases format <;> simp [hl,element,Specification.text,specificationFields,hw,Printed.run]
          | some x =>
            obtain ⟨flags,w,va⟩ := x
            cases hv : precisionValue flags va precision with
            | none => cases format <;> simp [hp,hv,hl,element,Specification.text,specificationFields,hw,Printed.run]
            | some x => 
              obtain ⟨flags,w',va⟩ := x
              cases format with
              | nil => simp [hp,hv,hl,element]
              | cons ch format =>
                simp [hp,hv,hl,element,Specification.text,specificationFields,hw,Printed.run,Function.comp_def]
                cases specifierText float port w w' (length.set port flags) ch va <;> rfl

def Directive.text (va : List VaArg) : Directive → Printed
  | .literal c => some ([c],va)
  | .conversion s => s.text float port va

def formatText : List Directive → List VaArg → Option (List Char)
  | [], _ => some []
  | d :: ds, va => do
    let (text,va) ← d.text float port va
    let rest ← formatText ds va
    some (text ++ rest)

theorem vsnprintfLoop_eq (fuel : Nat) : vsnprintfLoop float port out maxlen fuel p va format =
    ((items (· = nul) Directive.scan fuel format).bind fun x => formatText float port x.1 va).map
      fun text => outAll out maxlen text p := by
  induction fuel generalizing p va format with
  | zero => rfl
  | succ fuel ih =>
    cases format with
    | nil => rfl
    | cons ch format =>
      rw [vsnprintfLoop,items]
      by_cases hnul : ch = nul
      · simp [hnul,formatText]
      have hstop : ¬ decide (ch = nul) = true := by simpa using hnul
      rw [if_neg hnul,if_neg hstop,Directive.scan]
      by_cases hch : ch = '%'
      · rw [if_neg (not_not.mpr hch),if_neg (not_not.mpr hch),evalSpecification_eq]
        cases Specification.scan format with
        | none => rfl
        | some x =>
          obtain ⟨s,format⟩ := x
          simp only [Option.bind_some,Printed.run,Option.map_map,Option.bind_eq_bind,Option.bind_map,
            Function.comp_def,ih]
          cases ht : s.text float port va with
          | none => cases items (· = nul) Directive.scan fuel format <;> simp [formatText,Directive.text,ht]
          | some x =>
            obtain ⟨text,va⟩ := x
            cases items (· = nul) Directive.scan fuel format with
            | none => rfl
            | some x =>
              cases hr : formatText float port x.1 va <;> simp [formatText,Directive.text,ht,hr]
      · rw [if_pos hch,if_pos hch,ih]
        simp only [Option.bind_some]
        cases items (· = nul) Directive.scan fuel format with
        | none => rfl
        | some x => cases hr : formatText float port x.1 va <;> simp [formatText,Directive.text,hr]

def finish (buffer : σ) (text : List Char) : σ × BitVec 32 :=
  let (buffer,idx) := outAll out maxlen text (buffer,0)
  (out nul buffer (if idx < maxlen then idx else maxlen - 1) maxlen,idx.setWidth 32)

/-- On any output function, `_vsnprintf` prints what the directives of its format mean. -/
theorem vsnprintf_finish (buffer : σ) : vsnprintf float port out maxlen buffer format va =
    ((parseFormat format).bind fun ds => formatText float port ds va).map (finish out maxlen buffer) := by
  unfold vsnprintf parseFormat
  rw [vsnprintfLoop_eq,Option.bind_map,Option.bind_eq_bind,Option.bind_map]
  exact Option.map_eq_bind.symm

end Ods
