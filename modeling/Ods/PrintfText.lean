import Ods.Printf

/-! What a conversion prints: the characters it gives to the output function, whatever that
function and its buffer are, and the arguments it leaves. -/
namespace Ods
open Emission

variable {σ : Type} (float : FloatText) (port : Port) (out : OutFct σ) (maxlen : SizeT)
variable (p : σ × SizeT) (buf : List Char) (width precision l : BitVec 32) (flags : Flags)
variable (value : BitVec 64) (negative : Bool) (base : NumericBase) (ch : Char) (va : List VaArg)

abbrev Printed := Option (List Char × List VaArg)

def Printed.run (out : OutFct σ) (maxlen : SizeT) (p : σ × SizeT) (printed : Printed) :
    Option ((σ × SizeT) × List VaArg) :=
  printed.map fun (text,va) => (outAll out maxlen text p,va)

@[simp] theorem outAll_nil : outAll out maxlen [] p = p := rfl

@[simp] theorem outAll_outAll {as bs : List Char} :
    outAll out maxlen bs (outAll out maxlen as p) = outAll out maxlen (as ++ bs) p :=
  emit_emit

theorem outAll_snd {text : List Char} :
    (outAll out maxlen text p).2 = p.2 + BitVec.ofNat 64 text.length :=
  emit_snd

section Leaves

def outRevText : List Char :=
  (if !flags.left && !flags.zeropad then List.replicate (width.toNat - buf.length) ' ' else []) ++
    buf ++ if flags.left then List.replicate (width.toNat - buf.length) ' ' else []

theorem outRev_eq (h : buf.length < 2 ^ 64) :
    outRev out maxlen p buf width flags = outAll out maxlen (outRevText buf width flags) p := by
  unfold outRev outRevText
  cases hl : flags.left with
  | false => cases flags.zeropad <;> simp
  | true =>
    have hlen : ((outAll out maxlen buf p).2 - p.2).toNat = buf.length := by
      rw [outAll_snd,BitVec.add_comm,BitVec.add_sub_cancel,BitVec.toNat_ofNat,Nat.mod_eq_of_lt h]
    simp [hlen]

def ntoaText : List Char :=
  let (buf,flags) := ntoaDigits value base flags
  outRevText (ntoaFormatBuf buf negative base precision width flags).chars
    (ntoaWidth negative width flags) flags

theorem ntoa_eq : ntoa out maxlen p value negative base precision width flags =
    outAll out maxlen (ntoaText width precision flags value negative base) p := by
  unfold ntoa ntoaText ntoaFormat
  have hfits := (ntoaFormatBuf (ntoaDigits value base flags).1 negative base precision width
    (ntoaDigits value base flags).2).fits
  exact outRev_eq out maxlen p _ _ _ (hfits.trans_lt (by decide))

def paddedText (text : List Char) : List Char :=
  (if !flags.left then List.replicate (width.toNat - l.toNat) ' ' else []) ++ text ++
    if flags.left then List.replicate (width.toNat - l.toNat) ' ' else []

theorem outPadded_eq {print : σ × SizeT → Option (σ × SizeT)} {text : Option (List Char)}
    (h : ∀ p, print p = text.map fun text => outAll out maxlen text p) :
    outPadded out maxlen l width flags print p =
      text.map fun text => outAll out maxlen (paddedText width l flags text) p := by
  cases text with
  | none => simp [outPadded,h]
  | some text => cases hl : flags.left <;> simp [outPadded,h,hl,paddedText]

def stringText (flags : Flags) : List Char → BitVec 32 → Option (List Char)
  | [], _ => none
  | ch :: s, precision =>
    if ch ≠ nul ∧ (flags.precision = false ∨ precision ≠ 0) then
      (stringText flags s (precision - 1)).map (ch :: ·)
    else some []

theorem outString_eq (s : List Char) : outString out maxlen flags s precision p =
    (stringText flags s precision).map fun text => outAll out maxlen text p := by
  induction s generalizing precision p with
  | nil => rfl
  | cons ch s ih =>
    rw [outString,stringText]
    split
    · rw [ih,Option.map_map]
      rfl
    · rfl

end Leaves

section Specifiers

def integerText : Printed :=
  let flags := integerFlags ch base flags
  if ch = 'i' ∨ ch = 'd' then
    (vaInteger port (BitVec.signExtend 64) flags va).map fun (value,va) =>
      (ntoaText width precision flags (ntoaAbs value) (value.slt 0) base,va)
  else
    (vaInteger port (BitVec.setWidth 64) flags va).map fun (value,va) =>
      (ntoaText width precision flags value false base,va)

theorem evalInteger_eq : evalInteger port out maxlen p flags width precision ch base va =
    (integerText port width precision flags base ch va).run out maxlen p := by
  unfold evalInteger integerText Printed.run
  split <;> simp [ntoa_eq,Function.comp_def]

def floatText (preferExponential : Bool) : Printed :=
  (vaArg VaArg.double? va).map fun (value,va) =>
    (float value precision width flags preferExponential,va)

theorem evalFloat_eq (preferExponential : Bool) :
    evalFloat float out maxlen p flags width precision preferExponential va =
      (floatText float width precision flags va preferExponential).run out maxlen p := by
  unfold evalFloat floatText Printed.run
  rw [Option.map_map]
  rfl

def charText : Printed :=
  (vaArg VaArg.word? va).map fun (v,va) =>
    (paddedText width 1 flags [Char.ofNat (v.setWidth 8).toNat],va)

theorem evalChar_eq : evalChar out maxlen p flags width va =
    (charText width flags va).run out maxlen p := by
  unfold evalChar charText Printed.run
  cases vaArg VaArg.word? va with
  | none => rfl
  | some v =>
    let c := Char.ofNat (v.1.setWidth 8).toNat
    have hprint : outPadded out maxlen 1 width flags (fun p => some (outAll out maxlen [c] p)) p =
        (some [c]).map fun text => outAll out maxlen (paddedText width 1 flags text) p :=
      outPadded_eq out maxlen p width 1 flags fun _ => rfl
    simp only [Option.bind_eq_bind,Option.bind_some]
    rw [hprint]
    rfl

def strText : Printed := do
  let (s,va) ← vaArg VaArg.str? va
  match s with
  | none => some (outRevText ")llun(".toList.reverse width flags,va)
  | some s => do
    let n ← strnlenS s (if precision ≠ 0 then precision.setWidth 64 else -1)
    let l := BitVec.ofNat 32 n
    let l := if flags.precision then (if l < precision then l else precision) else l
    let text ← stringText flags s precision
    some (paddedText width l flags text,va)

theorem evalString_eq : evalString out maxlen p flags width precision va =
    (strText width precision flags va).run out maxlen p := by
  have hnull : (")llun(".toList.reverse).length < 2 ^ 64 := by decide
  unfold evalString strText Printed.run
  simp only [Option.bind_eq_bind,outRev_eq out maxlen p _ _ _ hnull,
    outPadded_eq out maxlen _ _ _ flags fun p => outString_eq out maxlen p precision flags _]
  cases vaArg VaArg.str? va with
  | none => rfl
  | some v =>
    obtain ⟨s,va⟩ := v
    cases s with
    | none => rfl
    | some s =>
      dsimp only [Option.bind_some]
      cases strnlenS s (if precision ≠ 0 then precision.setWidth 64 else -1) with
      | none => rfl
      | some n => cases stringText flags s precision <;> rfl

def pointerText : Printed :=
  let flags := { flags with zeropad := true, pointer := true }
  (vaArg VaArg.ptr? va).map fun (value,va) =>
    if value = 0 then (outRevText ")lin(".toList.reverse 18 flags,va)
    else (ntoaText 18 precision flags value false .hex,va)

theorem evalPointer_eq : evalPointer out maxlen p flags precision va =
    (pointerText precision flags va).run out maxlen p := by
  have hnil : (")lin(".toList.reverse).length < 2 ^ 64 := by decide
  unfold evalPointer pointerText Printed.run
  simp only [outRev_eq out maxlen p _ _ _ hnil,ntoa_eq,Option.map_map,Function.comp_def,
    apply_ite (fun printed : List Char × List VaArg => (outAll out maxlen printed.1 p,printed.2))]

def specifierText : Printed :=
  match numericBaseOf ch with
  | some base => integerText port width precision flags base ch va
  | none =>
    if ch = 'f' ∨ ch = 'F' then
      let flags := if ch = 'F' then { flags with uppercase := true } else flags
      floatText float width precision flags va false
    else if ch = 'e' ∨ ch = 'E' ∨ ch = 'g' ∨ ch = 'G' then
      let flags := if ch = 'g' ∨ ch = 'G' then { flags with adaptExp := true } else flags
      let flags := if ch = 'E' ∨ ch = 'G' then { flags with uppercase := true } else flags
      floatText float width precision flags va true
    else if ch = 'c' then charText width flags va
    else if ch = 's' then strText width precision flags va
    else if ch = 'p' then pointerText precision flags va
    else some ([ch],va)

theorem evalSpecifier_eq : evalSpecifier float port out maxlen p flags width precision ch va =
    (specifierText float port width precision flags ch va).run out maxlen p := by
  unfold evalSpecifier specifierText
  cases numericBaseOf ch with
  | some base => exact evalInteger_eq port out maxlen p width precision flags base ch va
  | none =>
    simp only [evalFloat_eq,evalChar_eq,evalString_eq,evalPointer_eq]
    repeat' split
    all_goals rfl

end Specifiers

end Ods
