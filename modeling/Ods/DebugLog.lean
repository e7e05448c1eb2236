import Ods.DumpRoundTrip
import Ods.StringText

/-! The functions of `utl_dbg.c` over `utl_printf`: what they leave on the port when the format
interpreter runs under them. A dump prints the text that its loop was told to print, and a log line
its header and message. -/
namespace Ods
open HexText

variable {float : FloatText} {port : Port} {printed text : List Char} {va rest : List VaArg}

section Calls
variable {ds : List Directive} {d : Directive} {s : Specification}

def printf (float : FloatText) (port : Port) (format : List Char) (va : List VaArg)
    (printed : List Char) : Option (List Char) :=
  (utlPrintf float port (format ++ [nul]) va printed).map Prod.fst

theorem printf_eq {format : List Char} (hparse : parseFormat (format ++ [nul]) = some ds)
    (htext : formatText float port ds va = some text) (hnul : nul ∉ text) :
    printf float port format va printed = some (printed ++ text) := by
  have hprinted : printedText float port (format ++ [nul]) va = some text := by
    rw [printedText,hparse]
    exact htext
  have hplain : text.filter (· ≠ nul) = text := by
    rw [List.filter_eq_self]
    intro c hc
    exact decide_eq_true fun he => hnul (he ▸ hc)
  rw [printf,utlPrintf_eq,hprinted,Option.map_some,Option.map_some,hplain]

theorem formatText_literal {c : Char} (h : formatText float port ds va = some text) :
    formatText float port (.literal c :: ds) va = some (c :: text) := by
  simp [formatText,Directive.text,h]

theorem formatText_conversion {front : List Char} (hs : s.text float port va = some (front,rest))
    (h : formatText float port ds rest = some text) :
    formatText float port (.conversion s :: ds) va = some (front ++ text) := by
  simp [formatText,Directive.text,hs,h]

def zeroPadded (w ch : Char) : Specification := ⟨['0'],.digits [w],none,.absent,ch⟩

theorem toUpper_of_isDigit {c : Char} (h : c.isDigit = true) : c.toUpper = c := by
  simp only [Char.isDigit,Bool.and_eq_true,decide_eq_true_eq] at h
  unfold Char.toUpper
  split
  · rename_i hlower
    have hle := hlower.1
    have hle' := h.2
    have hcontra := UInt32.le_trans hle hle'
    exact absurd hcontra (by decide)
  · rfl

theorem numeral_padded {ch : Char} {base : NumericBase} {n : Nat}
    (hch : ch = 'u' ∧ base = .decimal ∨ ch = 'X' ∧ base = .hex) :
    numeral base (ch = 'X') n = (Nat.toDigits base.value n).map Char.toUpper := by
  rcases hch with ⟨rfl,rfl⟩ | ⟨rfl,rfl⟩
  · have hupper : ∀ c ∈ Nat.toDigits 10 n, c.toUpper = id c := fun c hc =>
      toUpper_of_isDigit (Nat.isDigit_of_mem_toDigits (by decide) (by decide) hc)
    exact ((List.map_congr_left hupper).trans (List.map_id _)).symm
  · rfl

theorem standardNumber_padded {ch : Char} {base : NumericBase} {w n : Nat}
    (hch : ch = 'u' ∧ base = .decimal ∨ ch = 'X' ∧ base = .hex) :
    standardNumber ch base { zeropad := true } 0 w n = padded base.value w n := by
  have hneg : ¬ (n : Int) < 0 := Int.not_lt.mpr (Int.natCast_nonneg n)
  have hsign : standardSign ch { zeropad := true } n = [] := by simp [standardSign,hneg]
  have hmark : standardMark ch { zeropad := true } n = [] := by simp [standardMark]
  have hdigits : standardDigits ch base { zeropad := true } 0 n =
      (Nat.toDigits base.value n).map Char.toUpper := by
    rw [← numeral_padded hch]
    simp [standardDigits]
  unfold standardNumber
  dsimp only
  rw [hsign,hmark,hdigits]
  rfl

theorem text_zeroPadded {w ch : Char} {base : NumericBase} {v : BitVec 32}
    (hch : ch = 'u' ∧ base = .decimal ∨ ch = 'X' ∧ base = .hex) (hw : isDigit w = true) :
    (zeroPadded w ch).text float port (.word v :: rest) =
      some (padded base.value (w.toNat - '0'.toNat) v.toNat,rest) := by
  have hfields : (zeroPadded w ch).fields port (.word v :: rest) =
      some ({ zeropad := true },decimalValue 0 [w],0,.word v :: rest) := rfl
  have hw9 : w.toNat - '0'.toNat ≤ 9 := by
    simp only [isDigit,Bool.and_eq_true,decide_eq_true_eq] at hw
    have hle : w.toNat ≤ '9'.toNat := hw.2
    have hnine : '9'.toNat = 57 := rfl
    have hzero : '0'.toNat = 48 := rfl
    omega
  have hwidth : (decimalValue 0 [w]).toNat = w.toNat - '0'.toNat := by
    have hvalue : decimalValue 0 [w] = BitVec.ofNat 32 (w.toNat - '0'.toNat) := by
      simp [decimalValue]
    rw [hvalue,BitVec.toNat_ofNat,Nat.mod_eq_of_lt (by omega)]
  have hbase : numericBaseOf ch = some base := by
    rcases hch with ⟨rfl,rfl⟩ | ⟨rfl,rfl⟩ <;> rfl
  have hbinary : base ≠ .binary := by
    rcases hch with ⟨-,rfl⟩ | ⟨-,rfl⟩ <;> decide
  have hva : integerValue port ch { zeropad := true } (.word v :: rest) =
      some ((v.toNat : Int),rest) := by
    have hsigned : isSigned ch = false := by
      rcases hch with ⟨rfl,-⟩ | ⟨rfl,-⟩ <;> rfl
    simp [integerValue,integerWidth,integerOf,hsigned]
  have hnumber : standardNumber ch base { zeropad := true } (0 : BitVec 32).toNat
      (decimalValue 0 [w]).toNat v.toNat = padded base.value (w.toNat - '0'.toNat) v.toNat := by
    rw [hwidth]
    exact standardNumber_padded hch
  have hlen : (padded base.value (w.toNat - '0'.toNat) v.toNat).length ≤ 32 := by
    have hlt : v.toNat < base.value ^ 10 := by
      rcases hch with ⟨-,rfl⟩ | ⟨-,rfl⟩
      · exact v.isLt.trans (by decide)
      · exact v.isLt.trans (by decide)
    exact (length_padded_le base.value_bounds.1 (by decide) (by omega) hlt).trans (by decide)
  have hfield : standardText ch base { zeropad := true } (0 : BitVec 32).toNat
      (decimalValue 0 [w]).toNat v.toNat = padded base.value (w.toNat - '0'.toNat) v.toNat := by
    unfold standardText
    dsimp only
    rw [hnumber,hwidth,if_neg (by decide),leftpad_of_le]
    rw [length_padded]
    exact le_max_left _ _
  rw [← hfield]
  obtain ⟨huppercase,hpointer,hprecision⟩ := Specification.fields_flags hfields
  exact (Specification.text_integerText hbase hfields).trans
    (integerText_eq hbase hbinary huppercase hpointer hprecision hva (hnumber ▸ hlen))

end Calls

section Header
variable {mod : UtlDbgModule} {dt : HalRtcDateTime}

def logModuleName (mod : UtlDbgModule) : List Char := (logModules mod).toList.drop 14

def dateArgs (dt : HalRtcDateTime) : List VaArg :=
  [.word (dt.year.setWidth 32),.word dt.month,.word (dt.day.setWidth 32),
    .word (dt.hour.setWidth 32),.word (dt.minute.setWidth 32),.word (dt.second.setWidth 32)]

def dateDirectives : List Directive :=
  [.conversion (zeroPadded '4' 'u'),.literal '-',.conversion (zeroPadded '2' 'u'),.literal '-',
    .conversion (zeroPadded '2' 'u'),.literal 'T',.conversion (zeroPadded '2' 'u'),.literal ':',
    .conversion (zeroPadded '2' 'u'),.literal ':',.conversion (zeroPadded '2' 'u'),.literal ' ']

def dateText (dt : HalRtcDateTime) : List Char :=
  padded 10 4 dt.year.toNat ++ '-' :: (padded 10 2 dt.month.toNat ++ '-' ::
    (padded 10 2 dt.day.toNat ++ 'T' :: (padded 10 2 dt.hour.toNat ++ ':' ::
      (padded 10 2 dt.minute.toNat ++ ':' :: (padded 10 2 dt.second.toNat ++ [' '])))))

theorem formatText_date : formatText float port dateDirectives (dateArgs dt) = some (dateText dt) := by
  have hnumber {w : Char} {v : BitVec 32} {n : Nat} {rest : List VaArg} (hw : isDigit w = true)
      (hv : v.toNat = n) : (zeroPadded w 'u').text float port (.word v :: rest) =
        some (padded 10 (w.toNat - '0'.toNat) n,rest) := by
    rw [← hv]
    exact text_zeroPadded (.inl ⟨rfl,rfl⟩) hw
  have hyear := BitVec.toNat_setWidth_of_le (b := dt.year) (show 16 ≤ 32 by decide)
  have hday := BitVec.toNat_setWidth_of_le (b := dt.day) (show 8 ≤ 32 by decide)
  have hhour := BitVec.toNat_setWidth_of_le (b := dt.hour) (show 8 ≤ 32 by decide)
  have hminute := BitVec.toNat_setWidth_of_le (b := dt.minute) (show 8 ≤ 32 by decide)
  have hsecond := BitVec.toNat_setWidth_of_le (b := dt.second) (show 8 ≤ 32 by decide)
  exact formatText_conversion (hnumber rfl hyear) (formatText_literal
    (formatText_conversion (hnumber rfl rfl) (formatText_literal
      (formatText_conversion (hnumber rfl hday) (formatText_literal
        (formatText_conversion (hnumber rfl hhour) (formatText_literal
          (formatText_conversion (hnumber rfl hminute) (formatText_literal
            (formatText_conversion (hnumber rfl hsecond) (formatText_literal rfl)))))))))))

theorem nul_not_mem_padded {b w n : Nat} (hb : 1 < b) (hb' : b ≤ 16) : nul ∉ padded b w n :=
  not_mem_padded hb hb' (by decide)

theorem nul_not_mem_dateText : nul ∉ dateText dt := by
  have hnum (w n : Nat) : nul ∉ padded 10 w n := nul_not_mem_padded (by decide) (by decide)
  simp only [dateText,List.mem_append,List.mem_cons,hnum]
  decide

theorem stamp_eq : stamp mod dt = '[' :: (logModuleName mod ++ ']' :: ' ' :: dateText dt) := by
  simp [stamp,dateText,logModuleName]

theorem nul_not_mem_name : nul ∉ logModuleName mod := by
  cases mod <;> decide

theorem nul_not_mem_stamp : nul ∉ stamp mod dt := by
  have hname : nul ∉ logModuleName mod := nul_not_mem_name
  have hdate : nul ∉ dateText dt := nul_not_mem_dateText
  rw [stamp_eq]
  simp only [List.mem_append,List.mem_cons,hname,hdate]
  decide

def stampFormat : List Char := "[%s] %04u-%02u-%02uT%02u:%02u:%02u ".toList

def plainString : Specification := ⟨[],.absent,none,.absent,'s'⟩

theorem parseFormat_stamp : parseFormat (stampFormat ++ [nul]) =
    some (.literal '[' :: .conversion plainString :: .literal ']' :: .literal ' ' ::
      dateDirectives) := by
  decide

def stampArgs (mod : UtlDbgModule) (dt : HalRtcDateTime) : List VaArg :=
  .str (some (logModuleName mod ++ [nul])) :: dateArgs dt

theorem text_plainString {s : List Char} (hs : nul ∈ s) (hlen : s.length < 2 ^ 32) :
    plainString.text float port (.str (some s) :: rest) = some (beforeNul s,rest) := by
  have hfields : plainString.fields port (.str (some s) :: rest) =
      some ({},0,0,.str (some s) :: rest) := rfl
  have htext : plainString.text float port (.str (some s) :: rest) = _ :=
    (plainString.text_strText rfl hfields).trans (strText_eq hlen fun _ => rfl)
  have hreach : reach 0 (beforeNul s) < s.length := length_beforeNul_lt.mpr hs
  rw [htext,if_pos hreach]
  simp [field,shown,List.leftpad]

theorem printedText_stamp :
    printedText float port (stampFormat ++ [nul]) (stampArgs mod dt) = some (stamp mod dt) := by
  have hlen : (logModuleName mod ++ [nul]).length < 2 ^ 32 := by cases mod <;> decide
  have hname : plainString.text float port (stampArgs mod dt) =
      some (logModuleName mod,dateArgs dt) := by
    rw [stampArgs,text_plainString (by simp) hlen,beforeNul_append,
      beforeNul_of_not_mem nul_not_mem_name]
  rw [printedText,parseFormat_stamp,stamp_eq]
  exact formatText_literal (formatText_conversion hname
    (formatText_literal (formatText_literal formatText_date)))

/-- `char stamp[64]` after the `sprintf`. The interpreter's stands for the one of the C library, which
prints the same text for this format. -/
def stampArray (float : FloatText) (port : Port) (mod : UtlDbgModule) (dt : HalRtcDateTime) :
    Option (List Char) :=
  (utlSprintf float port (stampFormat ++ [nul]) (stampArgs mod dt) (some fun _ => nul)).bind
    fun (stamp,_) => stamp.map (contents · 64)

structure Holds (array : List Char) (s : List Char) : Prop where
  length : array.length < 2 ^ 32
  terminated : nul ∈ array
  string : beforeNul array = s

theorem stampArray_eq : ∃ array, stampArray float port mod dt = some array ∧
    Holds array (stamp mod dt) := by
  have hfits : (stamp mod dt).length + 1 ≤ 64 := stamp_fits
  have hlong : (stamp mod dt).length < 2 ^ 64 := by omega
  obtain ⟨b,hb,hall⟩ : ∃ b, utlSnprintf float port (stampFormat ++ [nul])
      (stampArgs mod dt) (some fun _ => nul) (-1) =
        some (some b,BitVec.ofNat 32 (stamp mod dt).length) ∧
      contents b (min (stamp mod dt).length ((-1 : SizeT).toNat - 1) + 1) =
        (stamp mod dt).take ((-1 : SizeT).toNat - 1) ++ [nul] :=
    ⟨_,utlSnprintf_some printedText_stamp,contents_finish hlong (by decide)⟩
  have hcount : (-1 : SizeT).toNat - 1 = 2 ^ 64 - 2 := rfl
  rw [hcount,min_eq_left (by omega),List.take_of_length_le (by omega)] at hall
  obtain ⟨m,hm⟩ := Nat.exists_eq_add_of_le hfits
  obtain ⟨more,hmore⟩ : ∃ more, contents b ((stamp mod dt).length + 1 + m) =
      contents b ((stamp mod dt).length + 1) ++ more := contents_add
  rw [← hm,hall,List.append_assoc] at hmore
  refine ⟨contents b 64,?_,by simp [contents],?_,?_⟩
  · rw [stampArray,utlSprintf,hb]
    rfl
  · rw [hmore]
    simp
  · rw [hmore]
    exact beforeNul_append.trans (beforeNul_of_not_mem nul_not_mem_stamp)

end Header

section Dump
variable (float : FloatText) (port : Port)

def utlDbgDumpLoopOutput (stamp : List Char) (data : List (BitVec 8)) (size : BitVec 16) :
    Nat → BitVec 32 → Nat → List Char → Option (List Char)
  | 0, _, _, _ => none
  | fuel + 1, pos, ptr, printed =>
    if pos < size.setWidth 32 then do
      let printed ← (if pos ≠ 0 ∧ pos % 32 = 0 then
        printf float port "\n%s".toList [.str (some stamp)] printed else some printed)
      let printed ← (if pos % 32 = 0 then printf float port "%04X ".toList [.word pos] printed
        else some printed)
      let byte ← data[ptr]?
      let printed ← printf float port "%02X".toList [.word (byte.setWidth 32)] printed
      utlDbgDumpLoopOutput stamp data size fuel (pos + 1) (ptr + 1) printed
    else some printed

def utlDbgDumpLinesOutput (fuel : Nat) (stamp : List Char) (data : List (BitVec 8))
    (size : BitVec 16) (printed : List Char) : Option (List Char) := do
  let printed ← printf float port "%s".toList [.str (some stamp)] printed
  let printed ← utlDbgDumpLoopOutput float port stamp data size fuel 0 0 printed
  printf float port "\n".toList [] printed

def utlDbgDumpOutput (fuel : Nat) (activated : BitVec 32) (mod : UtlDbgModule)
    (dt : HalRtcDateTime) (data : List (BitVec 8)) (size : BitVec 32) (printed : List Char) :
    Option (List Char) :=
  if utlDbgModuleIsEnabled activated mod then do
    let stamp ← stampArray float port mod dt
    utlDbgDumpLinesOutput float port fuel stamp data (size.setWidth 16) printed
  else some printed

end Dump

section DumpText
variable {array : List Char} {stamp : List Char} {data : List (BitVec 8)} {size : BitVec 16}
variable {pos : BitVec 32} {byte : BitVec 8} {fuel ptr : Nat}

theorem Holds.nul_not_mem (h : Holds array stamp) : nul ∉ stamp := by
  rw [← h.string]
  intro hmem
  have htrue := List.all_eq_true.mp List.all_takeWhile nul hmem
  simp at htrue

theorem text_array (h : Holds array stamp) :
    plainString.text float port (.str (some array) :: rest) = some (stamp,rest) := by
  rw [text_plainString h.terminated h.length,h.string]

theorem printf_string (h : Holds array stamp) :
    printf float port "%s".toList [.str (some array)] printed = some (printed ++ stamp) := by
  have hparse : parseFormat ("%s".toList ++ [nul]) = some [.conversion plainString] := by decide
  have htext : formatText float port [.conversion plainString] [.str (some array)] =
      some (stamp ++ []) := formatText_conversion (text_array h) rfl
  rw [List.append_nil] at htext
  exact printf_eq hparse htext h.nul_not_mem

theorem printf_newline_string (h : Holds array stamp) :
    printf float port "\n%s".toList [.str (some array)] printed =
      some (printed ++ '\n' :: stamp) := by
  have hparse : parseFormat ("\n%s".toList ++ [nul]) =
      some [.literal '\n',.conversion plainString] := by decide
  have htext : formatText float port [.literal '\n',.conversion plainString]
      [.str (some array)] = some ('\n' :: (stamp ++ [])) :=
    formatText_literal (formatText_conversion (text_array h) rfl)
  rw [List.append_nil] at htext
  have hnul : nul ∉ '\n' :: stamp := by
    rw [List.mem_cons]
    exact not_or.mpr ⟨by decide,h.nul_not_mem⟩
  exact printf_eq hparse htext hnul

theorem printf_index : printf float port "%04X ".toList [.word pos] printed =
    some (printed ++ (padded 16 4 pos.toNat ++ [' '])) := by
  have hparse : parseFormat ("%04X ".toList ++ [nul]) =
      some [.conversion (zeroPadded '4' 'X'),.literal ' '] := by decide
  have hindex : (zeroPadded '4' 'X').text float port [.word pos] =
      some (padded 16 4 pos.toNat,[]) := text_zeroPadded (.inr ⟨rfl,rfl⟩) rfl
  have htext : formatText float port [.conversion (zeroPadded '4' 'X'),.literal ' '] [.word pos] =
      some (padded 16 4 pos.toNat ++ [' ']) :=
    formatText_conversion hindex (formatText_literal rfl)
  have hnul : nul ∉ padded 16 4 pos.toNat ++ [' '] := by
    simp [nul_not_mem_padded]
    decide
  exact printf_eq hparse htext hnul

theorem printf_byte : printf float port "%02X".toList [.word (byte.setWidth 32)] printed =
    some (printed ++ padded 16 2 byte.toNat) := by
  have hparse : parseFormat ("%02X".toList ++ [nul]) =
      some [.conversion (zeroPadded '2' 'X')] := by decide
  have hbyte : (zeroPadded '2' 'X').text float port [.word (byte.setWidth 32)] =
      some (padded 16 2 byte.toNat,[]) := by
    have hwide : (byte.setWidth 32).toNat = byte.toNat :=
      BitVec.toNat_setWidth_of_le (show 8 ≤ 32 by decide)
    rw [← hwide]
    exact text_zeroPadded (.inr ⟨rfl,rfl⟩) rfl
  have htext : formatText float port [.conversion (zeroPadded '2' 'X')]
      [.word (byte.setWidth 32)] = some (padded 16 2 byte.toNat ++ []) :=
    formatText_conversion hbyte rfl
  rw [List.append_nil] at htext
  exact printf_eq hparse htext (nul_not_mem_padded (by decide) (by decide))

theorem printf_newline : printf float port "\n".toList [] printed = some (printed ++ ['\n']) :=
  printf_eq (show parseFormat _ = some [.literal '\n'] by decide) rfl (by decide)

/-- One pass after the other, the loop prints what it was told to. -/
theorem utlDbgDumpLoopOutput_eq (h : Holds array stamp) :
    utlDbgDumpLoopOutput float port array data size fuel pos ptr printed =
      (utlDbgDumpLoop stamp data size fuel pos ptr).map (printed ++ ·) := by
  induction fuel generalizing pos ptr printed with
  | zero => rfl
  | succ fuel ih =>
    rw [utlDbgDumpLoopOutput,utlDbgDumpLoop]
    by_cases hlt : pos < size.setWidth 32
    · have hstamp : (if pos ≠ 0 ∧ pos % 32 = 0 then
          printf float port "\n%s".toList [.str (some array)] printed else some printed) =
            some (printed ++ if pos ≠ 0 ∧ pos % 32 = 0 then '\n' :: stamp else []) := by
        split
        · exact printf_newline_string h
        · rw [List.append_nil]
      have hindex (printed : List Char) : (if pos % 32 = 0 then
          printf float port "%04X ".toList [.word pos] printed else some printed) =
            some (printed ++ if pos % 32 = 0 then padded 16 4 pos.toNat ++ [' '] else []) := by
        split
        · exact printf_index
        · rw [List.append_nil]
      rw [if_pos hlt,if_pos hlt,hstamp]
      simp only [Option.bind_eq_bind,Option.bind_some,hindex]
      cases data[ptr]? with
      | none => rfl
      | some byte =>
        simp only [Option.bind_some,printf_byte,ih]
        cases utlDbgDumpLoop stamp data size fuel (pos + 1) (ptr + 1) with
        | none => rfl
        | some text => simp [utlDbgDumpBody]
    · rw [if_neg hlt,if_neg hlt,Option.map_some,List.append_nil]

/-- With the format interpreter and the stamp's array under it, `utl_dbg_dump` adds to the output
of the port exactly the text that its calls of `utl_printf` stand for. -/
theorem utlDbgDumpOutput_eq {activated size : BitVec 32} {mod : UtlDbgModule}
    {dt : HalRtcDateTime} :
    utlDbgDumpOutput float port fuel activated mod dt data size printed =
      (utlDbgDump fuel activated mod dt data size).map (printed ++ ·) := by
  unfold utlDbgDumpOutput utlDbgDump
  split
  · obtain ⟨array,harray,h⟩ : ∃ array, stampArray float port mod dt = some array ∧
        Holds array (stamp mod dt) := stampArray_eq
    rw [harray]
    simp only [Option.bind_eq_bind,Option.bind_some,utlDbgDumpLinesOutput,utlDbgDumpLines,
      printf_string h,utlDbgDumpLoopOutput_eq h]
    cases utlDbgDumpLoop (stamp mod dt) data (size.setWidth 16) fuel 0 0 with
    | none => rfl
    | some text =>
      simp only [Option.map_some,Option.bind_some,printf_newline,List.append_assoc]
  · rw [Option.map_some,List.append_nil]

end DumpText

end Ods
