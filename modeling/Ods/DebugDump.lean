import Ods.HexText

/-! `utl_dbg.c`: which modules print, and `utl_dbg_dump` with the loop under it. The text is what
`utl_printf` is given to print; the time is what `hal_rtc_get` answers. The loop gets a bound on
its iterations; `none` means that the bound was reached or a byte outside the buffer was read. -/
namespace Ods
open HexText

inductive UtlDbgModule where
  | app | tmr | ods | port
  deriving DecidableEq, Repr

def UtlDbgModule.index : UtlDbgModule → Nat
  | .app => 0
  | .tmr => 1
  | .ods => 2
  | .port => 3

def logModules : UtlDbgModule → String
  | .app => "UTL_DBG_LEVEL_APP"
  | .tmr => "UTL_DBG_LEVEL_TMR"
  | .ods => "UTL_DBG_LEVEL_ODS"
  | .port => "UTL_DBG_LEVEL_PORT"

def utlDbgModuleEnable (activated : BitVec 32) (mod : UtlDbgModule) : BitVec 32 :=
  activated ||| 1#32 <<< mod.index

def utlDbgModuleDisable (activated : BitVec 32) (mod : UtlDbgModule) : BitVec 32 :=
  activated &&& ~~~(1#32 <<< mod.index)

def utlDbgModuleIsEnabled (activated : BitVec 32) (mod : UtlDbgModule) : Bool :=
  0 < activated &&& 1#32 <<< mod.index

def utlDbgInit (activated : BitVec 32) : BitVec 32 :=
  utlDbgModuleEnable (utlDbgModuleEnable (utlDbgModuleEnable activated .app) .port) .ods

/-- `hal_rtc_date_time_t` without `wday`, which no text shows. -/
structure HalRtcDateTime where
  year : BitVec 16
  month : BitVec 32
  day : BitVec 8
  hour : BitVec 8
  minute : BitVec 8
  second : BitVec 8

/-- `sprintf(stamp,"[%s] %04u-%02u-%02uT%02u:%02u:%02u ",&log_modules[mod_idx][14],...)` -/
def stamp (mod : UtlDbgModule) (dt : HalRtcDateTime) : List Char :=
  ['['] ++ (logModules mod).toList.drop 14 ++ [']',' '] ++
    padded 10 4 dt.year.toNat ++ ['-'] ++ padded 10 2 dt.month.toNat ++ ['-'] ++
    padded 10 2 dt.day.toNat ++ ['T'] ++ padded 10 2 dt.hour.toNat ++ [':'] ++
    padded 10 2 dt.minute.toNat ++ [':'] ++ padded 10 2 dt.second.toNat ++ [' ']

def utlDbgDumpBody (stamp : List Char) (pos : BitVec 32) (byte : BitVec 8) : List Char :=
  (if pos ≠ 0 ∧ pos % 32 = 0 then '\n' :: stamp else []) ++
    (if pos % 32 = 0 then padded 16 4 pos.toNat ++ [' '] else []) ++ padded 16 2 byte.toNat

def utlDbgDumpLoop (stamp : List Char) (data : List (BitVec 8)) (size : BitVec 16) :
    Nat → BitVec 32 → Nat → Option (List Char)
  | 0, _, _ => none
  | fuel + 1, pos, ptr =>
    if pos < size.setWidth 32 then do
      let byte ← data[ptr]?
      let text ← utlDbgDumpLoop stamp data size fuel (pos + 1) (ptr + 1)
      some (utlDbgDumpBody stamp pos byte ++ text)
    else some []

def utlDbgDumpLines (fuel : Nat) (stamp : List Char) (data : List (BitVec 8)) (size : BitVec 16) :
    Option (List Char) :=
  (utlDbgDumpLoop stamp data size fuel 0 0).map fun text => stamp ++ text ++ ['\n']

/-- `size` is converted to the `uint16_t` that `utl_dbg_dump_lines` takes. -/
def utlDbgDump (fuel : Nat) (activated : BitVec 32) (mod : UtlDbgModule) (dt : HalRtcDateTime)
    (data : List (BitVec 8)) (size : BitVec 32) : Option (List Char) :=
  if utlDbgModuleIsEnabled activated mod then
    utlDbgDumpLines fuel (stamp mod dt) data (size.setWidth 16)
  else some []

section Modules
variable {activated : BitVec 32} {mod mod' : UtlDbgModule}

theorem UtlDbgModule.index_lt : mod.index < 32 := by
  cases mod <;> decide

theorem UtlDbgModule.index_inj : mod.index = mod'.index ↔ mod = mod' := by
  cases mod <;> cases mod' <;> decide

/-- Every module has a bit of its own. -/
theorem utlDbgModuleIsEnabled_eq :
    utlDbgModuleIsEnabled activated mod = activated.getLsbD mod.index := by
  have hpos : 0#32 < BitVec.twoPow 32 mod.index := by cases mod <;> decide
  rw [utlDbgModuleIsEnabled,← BitVec.twoPow_eq,BitVec.and_twoPow]
  cases activated.getLsbD mod.index <;> simp [hpos]

theorem utlDbgModuleIsEnabled_enable :
    utlDbgModuleIsEnabled (utlDbgModuleEnable activated mod) mod' =
      (mod' = mod || utlDbgModuleIsEnabled activated mod') := by
  rw [utlDbgModuleIsEnabled_eq,utlDbgModuleIsEnabled_eq,utlDbgModuleEnable,← BitVec.twoPow_eq,
    BitVec.getLsbD_or,BitVec.getLsbD_twoPow]
  simp [mod.index_lt,UtlDbgModule.index_inj,eq_comm,Bool.or_comm]

theorem utlDbgModuleIsEnabled_disable :
    utlDbgModuleIsEnabled (utlDbgModuleDisable activated mod) mod' =
      (mod' ≠ mod && utlDbgModuleIsEnabled activated mod') := by
  rw [utlDbgModuleIsEnabled_eq,utlDbgModuleIsEnabled_eq,utlDbgModuleDisable,← BitVec.twoPow_eq,
    BitVec.getLsbD_and,BitVec.getLsbD_not,BitVec.getLsbD_twoPow]
  simp [mod.index_lt,mod'.index_lt,UtlDbgModule.index_inj,eq_comm,Bool.and_comm]

theorem utlDbgModuleIsEnabled_init :
    utlDbgModuleIsEnabled (utlDbgInit activated) mod =
      (mod ≠ .tmr || utlDbgModuleIsEnabled activated mod) := by
  simp only [utlDbgInit,utlDbgModuleIsEnabled_enable]
  cases mod <;> simp

end Modules

section Stamp
variable {mod : UtlDbgModule} {dt : HalRtcDateTime}

/-- The text and its terminating zero fit into `char stamp[64]`, whatever the clock says. -/
theorem stamp_fits : (stamp mod dt).length + 1 ≤ 64 := by
  have hname : ((logModules mod).toList.drop 14).length ≤ 4 := by cases mod <;> decide
  have hyear : (padded 10 4 dt.year.toNat).length ≤ 5 :=
    length_padded_le (by decide) (by decide) (by decide) (dt.year.isLt.trans (by decide))
  have hmonth : (padded 10 2 dt.month.toNat).length ≤ 10 :=
    length_padded_le (by decide) (by decide) (by decide) (dt.month.isLt.trans (by decide))
  have hbyte (v : BitVec 8) : (padded 10 2 v.toNat).length ≤ 3 :=
    length_padded_le (by decide) (by decide) (by decide) (v.isLt.trans (by decide))
  have hday := hbyte dt.day
  have hhour := hbyte dt.hour
  have hminute := hbyte dt.minute
  have hsecond := hbyte dt.second
  simp only [stamp,List.length_append,List.length_cons,List.length_nil]
  omega

/-- The stamp is one piece of a line. -/
theorem newline_not_mem_stamp : '\n' ∉ stamp mod dt := by
  have hname : '\n' ∉ (logModules mod).toList.drop 14 := by cases mod <;> decide
  have hnum (w n : Nat) : '\n' ∉ padded 10 w n :=
    not_mem_padded (by decide) (by decide) (by decide)
  simp only [stamp,List.mem_append,hname,hnum]
  decide

end Stamp

end Ods
