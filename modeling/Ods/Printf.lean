import Ods.Emission

/-! `utl_printf.c`: the format interpreter `_vsnprintf`, the conversions of integers, characters,
strings and pointers under it, and the functions of the `printf` family over it. A string, the
format too, is the characters that can be read at its pointer; `none` is undefined behaviour: a
read past them, an argument of another type, or `-w` for the least `int`. The characters that
`sprint_floating_point` gives to `out` are a parameter. -/
namespace Ods
open Emission

abbrev SizeT := BitVec 64

def nul : Char := Char.ofNat 0

abbrev OutFct (σ : Type) := Char → σ → SizeT → SizeT → σ

variable {σ : Type}

def outBuffer : OutFct (SizeT → Char) := fun character buffer idx maxlen =>
  store maxlen character idx buffer

def outNull : OutFct σ := fun _ buffer _ _ => buffer

def outFct (fct : Char → σ → σ) : OutFct σ := fun character arg _ _ =>
  if character ≠ nul then fct character arg else arg

def outChar : OutFct (List Char) := outFct fun character printed => printed ++ [character]

def outAll (out : OutFct σ) (maxlen : SizeT) (characters : List Char) (p : σ × SizeT) : σ × SizeT :=
  emit (fun character idx buffer => out character buffer idx maxlen) (· + 1) characters p

def strnlenS : List Char → SizeT → Option Nat
  | [], _ => none
  | ch :: s, maxsize =>
    if ch ≠ nul ∧ maxsize ≠ 0 then (strnlenS s (maxsize - 1)).map (· + 1) else some 0

def isDigit (ch : Char) : Bool := '0' ≤ ch && ch ≤ '9'

def atoi (i : BitVec 32) : List Char → Option (BitVec 32 × List Char)
  | [] => none
  | ch :: str =>
    if isDigit ch then atoi (i * 10 + BitVec.ofNat 32 (ch.toNat - '0'.toNat)) str
    else some (i,ch :: str)

structure Flags where
  zeropad : Bool := false
  left : Bool := false
  plus : Bool := false
  space : Bool := false
  hash : Bool := false
  uppercase : Bool := false
  char : Bool := false
  short : Bool := false
  long : Bool := false
  longLong : Bool := false
  precision : Bool := false
  adaptExp : Bool := false
  pointer : Bool := false
  deriving DecidableEq, Repr

inductive NumericBase where
  | binary | octal | decimal | hex
  deriving DecidableEq, Repr

def NumericBase.value : NumericBase → Nat
  | .binary => 2
  | .octal => 8
  | .decimal => 10
  | .hex => 16

def printfNtoaBufferSize : Nat := 32

/-- `buf` and `len` of `_ntoa`: the characters written so far, the last one first, which is the
order `_out_rev` takes them in. -/
structure NtoaBuf where
  chars : List Char
  fits : chars.length ≤ printfNtoaBufferSize

namespace NtoaBuf

def empty : NtoaBuf := ⟨[],Nat.zero_le _⟩

def len (buf : NtoaBuf) : Nat := buf.chars.length

def put (buf : NtoaBuf) (c : Char) : NtoaBuf :=
  if h : buf.chars.length < printfNtoaBufferSize then ⟨c :: buf.chars,h⟩ else buf

def putZeros : Nat → NtoaBuf → NtoaBuf
  | 0, buf => buf
  | n + 1, buf => putZeros n (buf.put '0')

def pad (buf : NtoaBuf) (n : Nat) : NtoaBuf := putZeros (min n printfNtoaBufferSize - buf.len) buf

def takeBack (buf : NtoaBuf) (unpaddedLen : Nat) : NtoaBuf :=
  if unpaddedLen < buf.len then
    ⟨buf.chars.tail,(List.length_tail ▸ Nat.sub_le _ _).trans buf.fits⟩
  else buf

end NtoaBuf

section Out
variable (out : OutFct σ) (maxlen : SizeT)

/-- `buf` and `len` are given as the characters `buf[len - 1]` down to `buf[0]`. -/
def outRev (p : σ × SizeT) (buf : List Char) (width : BitVec 32) (flags : Flags) : σ × SizeT :=
  let startIdx := p.2
  let p := if !flags.left && !flags.zeropad then
    outAll out maxlen (List.replicate (width.toNat - buf.length) ' ') p else p
  let p := outAll out maxlen buf p
  if flags.left then outAll out maxlen (List.replicate (width.toNat - (p.2 - startIdx).toNat) ' ') p
  else p

end Out

def ntoaWidth (negative : Bool) (width : BitVec 32) (flags : Flags) : BitVec 32 :=
  if !flags.left && width ≠ 0 && flags.zeropad && (negative || flags.plus || flags.space) then
    width - 1
  else width

def ntoaZeros (buf : NtoaBuf) (precision width : BitVec 32) (flags : Flags) : NtoaBuf :=
  let buf := if !flags.left && flags.zeropad then buf.pad width.toNat else buf
  buf.pad precision.toNat

def ntoaHash (buf : NtoaBuf) (unpaddedLen : Nat) (base : NumericBase) (precision width : BitVec 32)
    (flags : Flags) : NtoaBuf :=
  if flags.hash || flags.pointer then
    let buf :=
      if !flags.precision && buf.len ≠ 0 &&
          (buf.len = precision.toNat || buf.len = width.toNat) then
        let buf := buf.takeBack unpaddedLen
        if buf.len ≠ 0 && base = .hex then buf.takeBack unpaddedLen else buf
      else buf
    let buf :=
      if base = .hex && !flags.uppercase then buf.put 'x'
      else if base = .hex && flags.uppercase then buf.put 'X'
      else if base = .binary then buf.put 'b'
      else buf
    buf.put '0'
  else buf

def ntoaSign (buf : NtoaBuf) (negative : Bool) (flags : Flags) : NtoaBuf :=
  if negative then buf.put '-'
  else if flags.plus then buf.put '+'
  else if flags.space then buf.put ' '
  else buf

def ntoaFormatBuf (buf : NtoaBuf) (negative : Bool) (base : NumericBase)
    (precision width : BitVec 32) (flags : Flags) : NtoaBuf :=
  let unpaddedLen := buf.len
  let width := ntoaWidth negative width flags
  let buf := ntoaZeros buf precision width flags
  let flags := if base = .octal && unpaddedLen < buf.len then { flags with hash := false } else flags
  ntoaSign (ntoaHash buf unpaddedLen base precision width flags) negative flags

def ntoaFormat (out : OutFct σ) (maxlen : SizeT) (p : σ × SizeT) (buf : NtoaBuf) (negative : Bool)
    (base : NumericBase) (precision width : BitVec 32) (flags : Flags) : σ × SizeT :=
  outRev out maxlen p (ntoaFormatBuf buf negative base precision width flags).chars
    (ntoaWidth negative width flags) flags

def ntoaDigit (digit : Nat) (uppercase : Bool) : Char :=
  if digit < 10 then Char.ofNat ('0'.toNat + digit)
  else Char.ofNat ((if uppercase then 'A' else 'a').toNat + digit - 10)

def ntoaLoop (base : NumericBase) (uppercase : Bool) : Nat → BitVec 64 → NtoaBuf → NtoaBuf
  | 0, _, buf => buf
  | room + 1, value, buf =>
    let digit := (value % BitVec.ofNat 64 base.value).toNat
    let buf := buf.put (ntoaDigit digit uppercase)
    let value := value / BitVec.ofNat 64 base.value
    if value ≠ 0 then ntoaLoop base uppercase room value buf else buf

def ntoaDigits (value : BitVec 64) (base : NumericBase) (flags : Flags) : NtoaBuf × Flags :=
  if value = 0 then
    if !flags.precision then (NtoaBuf.empty.put '0',{ flags with hash := false })
    else if base = .hex then (.empty,{ flags with hash := false })
    else (.empty,flags)
  else (ntoaLoop base flags.uppercase printfNtoaBufferSize value .empty,flags)

def ntoa (out : OutFct σ) (maxlen : SizeT) (p : σ × SizeT) (value : BitVec 64) (negative : Bool)
    (base : NumericBase) (precision width : BitVec 32) (flags : Flags) : σ × SizeT :=
  let (buf,flags) := ntoaDigits value base flags
  ntoaFormat out maxlen p buf negative base precision width flags

def ntoaAbs (x : BitVec 64) : BitVec 64 := if (0#64).slt x then x else -x

/-- The platforms under `port`: `long` has 64 bits on the one and 32 on the other; `size_t`,
`ptrdiff_t` and `intmax_t` have 64 on both. -/
inductive Port where
  | linux | win
  deriving DecidableEq, Repr

/-- An argument as `va_arg` finds it. A `double` is given by its bits, a string by the characters
that can be read at its pointer. -/
inductive VaArg where
  | word (v : BitVec 32)
  | dword (v : BitVec 64)
  | double (v : BitVec 64)
  | str (p : Option (List Char))
  | ptr (v : BitVec 64)
  deriving DecidableEq, Repr

def vaArg {α : Type} (type : VaArg → Option α) : List VaArg → Option (α × List VaArg)
  | [] => none
  | a :: va => (type a).map fun v => (v,va)

def VaArg.word? : VaArg → Option (BitVec 32)
  | .word v => some v
  | _ => none

def VaArg.dword? : VaArg → Option (BitVec 64)
  | .dword v => some v
  | _ => none

def VaArg.double? : VaArg → Option (BitVec 64)
  | .double v => some v
  | _ => none

def VaArg.str? : VaArg → Option (Option (List Char))
  | .str s => some s
  | _ => none

def VaArg.ptr? : VaArg → Option (BitVec 64)
  | .ptr v => some v
  | _ => none

def vaInteger (port : Port) (extend : {w : Nat} → BitVec w → BitVec 64) (flags : Flags)
    (va : List VaArg) : Option (BitVec 64 × List VaArg) :=
  if flags.longLong then vaArg VaArg.dword? va
  else if flags.long then
    match port with
    | .linux => vaArg VaArg.dword? va
    | .win => (vaArg VaArg.word? va).map fun (v,va) => (extend v,va)
  else
    (vaArg VaArg.word? va).map fun (v,va) =>
      if flags.char then (extend (v.setWidth 8),va)
      else if flags.short then (extend (v.setWidth 16),va)
      else (extend v,va)

def outString (out : OutFct σ) (maxlen : SizeT) (flags : Flags) :
    List Char → BitVec 32 → σ × SizeT → Option (σ × SizeT)
  | [], _, _ => none
  | ch :: s, precision, p =>
    if ch ≠ nul ∧ (flags.precision = false ∨ precision ≠ 0) then
      outString out maxlen flags s (precision - 1) (outAll out maxlen [ch] p)
    else some p

def outPadded (out : OutFct σ) (maxlen : SizeT) (l width : BitVec 32) (flags : Flags)
    (print : σ × SizeT → Option (σ × SizeT)) (p : σ × SizeT) : Option (σ × SizeT) := do
  let padding := List.replicate (width.toNat - l.toNat) ' '
  let p := if !flags.left then outAll out maxlen padding p else p
  let p ← print p
  some (if flags.left then outAll out maxlen padding p else p)

def numericBaseOf : Char → Option NumericBase
  | 'd' | 'i' | 'u' => some .decimal
  | 'x' | 'X' => some .hex
  | 'o' => some .octal
  | 'b' => some .binary
  | _ => none

def integerFlags (ch : Char) (base : NumericBase) (flags : Flags) : Flags :=
  let flags := if base = .decimal then { flags with hash := false } else flags
  let flags := if ch = 'X' then { flags with uppercase := true } else flags
  let flags := if ch ≠ 'i' ∧ ch ≠ 'd' then { flags with plus := false, space := false } else flags
  if flags.precision then { flags with zeropad := false } else flags

/-- What `sprint_floating_point` gives to `out`, for the value, the precision, the width, the flags
and `prefer_exponential`. -/
abbrev FloatText := BitVec 64 → BitVec 32 → BitVec 32 → Flags → Bool → List Char

section Interpreter
variable (float : FloatText) (port : Port) (out : OutFct σ) (maxlen : SizeT)

def evalFlags (flags : Flags) : List Char → Option (Flags × List Char)
  | [] => none
  | ch :: format =>
    if ch = '0' then evalFlags { flags with zeropad := true } format
    else if ch = '-' then evalFlags { flags with left := true } format
    else if ch = '+' then evalFlags { flags with plus := true } format
    else if ch = ' ' then evalFlags { flags with space := true } format
    else if ch = '#' then evalFlags { flags with hash := true } format
    else some (flags,ch :: format)

def evalWidth (flags : Flags) (va : List VaArg) :
    List Char → Option (Flags × BitVec 32 × List VaArg × List Char)
  | [] => none
  | ch :: format =>
    if isDigit ch then (atoi 0 (ch :: format)).map fun (width,format) => (flags,width,va,format)
    else if ch = '*' then do
      let (w,va) ← vaArg VaArg.word? va
      if w.slt 0 then
        if w = BitVec.intMin 32 then none else some ({ flags with left := true },-w,va,format)
      else some (flags,w,va,format)
    else some (flags,0,va,ch :: format)

def evalPrecision (flags : Flags) (va : List VaArg) :
    List Char → Option (Flags × BitVec 32 × List VaArg × List Char)
  | [] => none
  | ch :: format =>
    if ch = '.' then
      let flags := { flags with precision := true }
      match format with
      | [] => none
      | ch :: rest =>
        if isDigit ch then (atoi 0 format).map fun (precision,format) => (flags,precision,va,format)
        else if ch = '*' then do
          let (w,va) ← vaArg VaArg.word? va
          some (flags,if (0#32).slt w then w else 0,va,rest)
        else some (flags,0,va,format)
    else some (flags,0,va,ch :: format)

def evalTwice (ch : Char) (once twice : Flags) : List Char → Option (Flags × List Char)
  | [] => none
  | ch' :: format => if ch' = ch then some (twice,format) else some (once,ch' :: format)

def evalLength (flags : Flags) : List Char → Option (Flags × List Char)
  | [] => none
  | ch :: format =>
    if ch = 'l' then
      evalTwice 'l' { flags with long := true } { flags with long := true, longLong := true } format
    else if ch = 'h' then
      evalTwice 'h' { flags with short := true } { flags with short := true, char := true } format
    else if ch = 't' ∨ ch = 'j' ∨ ch = 'z' then
      match port with
      | .linux => some ({ flags with long := true },format)
      | .win => some ({ flags with longLong := true },format)
    else some (flags,ch :: format)

def evalInteger (p : σ × SizeT) (flags : Flags) (width precision : BitVec 32) (ch : Char)
    (base : NumericBase) (va : List VaArg) : Option ((σ × SizeT) × List VaArg) :=
  let flags := integerFlags ch base flags
  if ch = 'i' ∨ ch = 'd' then
    (vaInteger port (BitVec.signExtend 64) flags va).map fun (value,va) =>
      (ntoa out maxlen p (ntoaAbs value) (value.slt 0) base precision width flags,va)
  else
    (vaInteger port (BitVec.setWidth 64) flags va).map fun (value,va) =>
      (ntoa out maxlen p value false base precision width flags,va)

def evalFloat (p : σ × SizeT) (flags : Flags) (width precision : BitVec 32)
    (preferExponential : Bool) (va : List VaArg) : Option ((σ × SizeT) × List VaArg) :=
  (vaArg VaArg.double? va).map fun (value,va) =>
    (outAll out maxlen (float value precision width flags preferExponential) p,va)

def evalChar (p : σ × SizeT) (flags : Flags) (width : BitVec 32) (va : List VaArg) :
    Option ((σ × SizeT) × List VaArg) := do
  let (v,va) ← vaArg VaArg.word? va
  let p ← outPadded out maxlen 1 width flags
    (fun p => some (outAll out maxlen [Char.ofNat (v.setWidth 8).toNat] p)) p
  some (p,va)

def evalString (p : σ × SizeT) (flags : Flags) (width precision : BitVec 32) (va : List VaArg) :
    Option ((σ × SizeT) × List VaArg) := do
  let (s,va) ← vaArg VaArg.str? va
  match s with
  | none => some (outRev out maxlen p ")llun(".toList.reverse width flags,va)
  | some s => do
    let n ← strnlenS s (if precision ≠ 0 then precision.setWidth 64 else -1)
    let l := BitVec.ofNat 32 n
    let l := if flags.precision then (if l < precision then l else precision) else l
    let p ← outPadded out maxlen l width flags (outString out maxlen flags s precision) p
    some (p,va)

def evalPointer (p : σ × SizeT) (flags : Flags) (precision : BitVec 32) (va : List VaArg) :
    Option ((σ × SizeT) × List VaArg) :=
  let width := 18
  let flags := { flags with zeropad := true, pointer := true }
  (vaArg VaArg.ptr? va).map fun (value,va) =>
    if value = 0 then (outRev out maxlen p ")lin(".toList.reverse width flags,va)
    else (ntoa out maxlen p value false .hex precision width flags,va)

def evalSpecifier (p : σ × SizeT) (flags : Flags) (width precision : BitVec 32) (ch : Char)
    (va : List VaArg) : Option ((σ × SizeT) × List VaArg) :=
  match numericBaseOf ch with
  | some base => evalInteger port out maxlen p flags width precision ch base va
  | none =>
    if ch = 'f' ∨ ch = 'F' then
      let flags := if ch = 'F' then { flags with uppercase := true } else flags
      evalFloat float out maxlen p flags width precision false va
    else if ch = 'e' ∨ ch = 'E' ∨ ch = 'g' ∨ ch = 'G' then
      let flags := if ch = 'g' ∨ ch = 'G' then { flags with adaptExp := true } else flags
      let flags := if ch = 'E' ∨ ch = 'G' then { flags with uppercase := true } else flags
      evalFloat float out maxlen p flags width precision true va
    else if ch = 'c' then evalChar out maxlen p flags width va
    else if ch = 's' then evalString out maxlen p flags width precision va
    else if ch = 'p' then evalPointer out maxlen p flags precision va
    else some (outAll out maxlen [ch] p,va)

def evalSpecification (p : σ × SizeT) (va : List VaArg) (format : List Char) :
    Option ((σ × SizeT) × List VaArg × List Char) := do
  let (flags,format) ← evalFlags {} format
  let (flags,width,va,format) ← evalWidth flags va format
  let (flags,precision,va,format) ← evalPrecision flags va format
  let (flags,format) ← evalLength port flags format
  match format with
  | [] => none
  | ch :: format => do
    let (p,va) ← evalSpecifier float port out maxlen p flags width precision ch va
    some (p,va,format)

def vsnprintfLoop : Nat → σ × SizeT → List VaArg → List Char → Option (σ × SizeT)
  | 0, _, _, _ => none
  | _ + 1, _, _, [] => none
  | fuel + 1, p, va, ch :: format =>
    if ch = nul then some p
    else if ch ≠ '%' then vsnprintfLoop fuel (outAll out maxlen [ch] p) va format
    else do
      let (p,va,format) ← evalSpecification float port out maxlen p va format
      vsnprintfLoop fuel p va format

/-- A pass of the loop takes at least one character of the format, so `format.length` passes are
enough. The `int` that is returned is given by its bits. -/
def vsnprintf (buffer : σ) (format : List Char) (va : List VaArg) : Option (σ × BitVec 32) := do
  let (buffer,idx) ← vsnprintfLoop float port out maxlen format.length (buffer,0) va format
  let buffer := out nul buffer (if idx < maxlen then idx else maxlen - 1) maxlen
  some (buffer,idx.setWidth 32)

end Interpreter

section Family
variable (float : FloatText) (port : Port) (format : List Char) (va : List VaArg)

/-- `utl_printf` and `utl_vprintf`, on what the port printed before. -/
def utlPrintf (printed : List Char) : Option (List Char × BitVec 32) :=
  vsnprintf float port outChar (-1) printed format va

/-- `utl_snprintf` and `utl_vsnprintf`; a `NULL` buffer is given the null output function. -/
def utlSnprintf (buffer : Option (SizeT → Char)) (count : SizeT) :
    Option (Option (SizeT → Char) × BitVec 32) :=
  match buffer with
  | none => (vsnprintf float port outNull count () format va).map fun (_,ret) => (none,ret)
  | some buffer =>
    (vsnprintf float port outBuffer count buffer format va).map fun (buffer,ret) => (some buffer,ret)

def utlSprintf (buffer : Option (SizeT → Char)) : Option (Option (SizeT → Char) × BitVec 32) :=
  utlSnprintf float port format va buffer (-1)

def utlFctprintf (fct : Char → σ → σ) (arg : σ) : Option (σ × BitVec 32) :=
  vsnprintf float port (outFct fct) (-1) arg format va

end Family

end Ods
