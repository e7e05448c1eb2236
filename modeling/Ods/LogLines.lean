import Ods.DebugLog

/-! `utl_dbg_printfl` and what a whole log tells: the lines of any sequence of calls, with modules
switched on and off in between, can be read back as the messages of the modules that were enabled,
with their modules and times. -/
namespace Ods
open HexText

variable {float : FloatText} {port : Port} {printed text : List Char} {va : List VaArg}
variable {activated : BitVec 32} {mod : UtlDbgModule} {dt : HalRtcDateTime}

section Model
variable (float : FloatText) (port : Port)

def headerFormat : List Char := "[%*.*s] %04u-%02u-%02uT%02u:%02u:%02u ".toList

def headerArgs (mod : UtlDbgModule) (dt : HalRtcDateTime) : List VaArg :=
  .word 3 :: .word 3 :: .str (some (logModuleName mod ++ [nul])) :: dateArgs dt

/-- `utl_dbg_printfl`, on what the port printed before; `dt` is what `hal_rtc_get` answers. -/
def utlDbgPrintfl (activated : BitVec 32) (mod : UtlDbgModule) (dt : HalRtcDateTime)
    (fmt : List Char) (va : List VaArg) (printed : List Char) : Option (List Char) :=
  if utlDbgModuleIsEnabled activated mod then do
    let printed ← printf float port headerFormat (headerArgs mod dt) printed
    (utlPrintf float port fmt va printed).map Prod.fst
  else some printed

def utlDbgPrintfsl (activated : BitVec 32) (mod : UtlDbgModule) (dt : HalRtcDateTime)
    (fmt : Option (List Char)) (printed : List Char) : Option (List Char) :=
  if utlDbgModuleIsEnabled activated mod then do
    let printed ← printf float port headerFormat (headerArgs mod dt) printed
    printf float port "%s".toList [.str fmt] printed
  else some printed

end Model

section Header

/-- `[APP] 2026-09-26T12:00:00 `; the name is cut to three characters. -/
def header (mod : UtlDbgModule) (dt : HalRtcDateTime) : List Char :=
  '[' :: ((logModuleName mod).take 3 ++ ']' :: ' ' :: dateText dt)

def starString : Specification := ⟨[],.star,some .star,.absent,'s'⟩

theorem parseFormat_header : parseFormat (headerFormat ++ [nul]) =
    some (.literal '[' :: .conversion starString :: .literal ']' :: .literal ' ' ::
      dateDirectives) := by
  decide

theorem text_starString : starString.text float port (headerArgs mod dt) =
    some ((logModuleName mod).take 3,dateArgs dt) := by
  have hfields : starString.fields port (headerArgs mod dt) = some ({ precision := true },3,3,
      .str (some (logModuleName mod ++ [nul])) :: dateArgs dt) := rfl
  have hlen : (logModuleName mod ++ [nul]).length < 2 ^ 32 := by cases mod <;> decide
  have htext : starString.text float port (headerArgs mod dt) = _ :=
    (starString.text_strText rfl hfields).trans (strText_eq hlen (by simp))
  have hreach : reach 3 (beforeNul (logModuleName mod ++ [nul])) <
      (logModuleName mod ++ [nul]).length := by cases mod <;> decide
  have hfield : field { precision := true } (3 : BitVec 32).toNat
      (shown { precision := true } (3 : BitVec 32).toNat
        (beforeNul (logModuleName mod ++ [nul]))) = (logModuleName mod).take 3 := by
    cases mod <;> decide
  rw [htext,if_pos hreach,hfield]

theorem nul_not_mem_header : nul ∉ header mod dt := by
  have hname : nul ∉ (logModuleName mod).take 3 := fun h =>
    nul_not_mem_name (List.mem_of_mem_take h)
  have hdate : nul ∉ dateText dt := nul_not_mem_dateText
  simp only [header,List.mem_append,List.mem_cons,hname,hdate]
  decide

theorem printf_header : printf float port headerFormat (headerArgs mod dt) printed =
    some (printed ++ header mod dt) :=
  printf_eq parseFormat_header (formatText_literal (formatText_conversion text_starString
    (formatText_literal (formatText_literal formatText_date)))) nul_not_mem_header

/-- A line of an enabled module is its header and the text of its message. -/
theorem utlDbgPrintfl_eq {fmt : List Char} :
    utlDbgPrintfl float port activated mod dt fmt va printed =
      if utlDbgModuleIsEnabled activated mod then
        (printedText float port fmt va).map fun text =>
          printed ++ header mod dt ++ text.filter (· ≠ nul)
      else some printed := by
  unfold utlDbgPrintfl
  split
  · simp only [printf_header,Option.bind_eq_bind,Option.bind_some,utlPrintf_eq,Option.map_map]
    rfl
  · rfl

theorem utlDbgPrintfsl_eq {array : List Char} (h : Holds array text) :
    utlDbgPrintfsl float port activated mod dt (some array) printed =
      some (if utlDbgModuleIsEnabled activated mod then printed ++ header mod dt ++ text
        else printed) := by
  unfold utlDbgPrintfsl
  split
  · simp only [printf_header,Option.bind_eq_bind,Option.bind_some]
    exact printf_string h
  · rfl

end Header

section Calls

inductive DbgCall where
  | moduleEnable (mod : UtlDbgModule)
  | moduleDisable (mod : UtlDbgModule)
  | printfl (mod : UtlDbgModule) (dt : HalRtcDateTime) (fmt : List Char) (va : List VaArg)

structure DbgState where
  activated : BitVec 32
  printed : List Char

def DbgCall.run (float : FloatText) (port : Port) (s : DbgState) : DbgCall → Option DbgState
  | .moduleEnable mod => some { s with activated := utlDbgModuleEnable s.activated mod }
  | .moduleDisable mod => some { s with activated := utlDbgModuleDisable s.activated mod }
  | .printfl mod dt fmt va =>
    (utlDbgPrintfl float port s.activated mod dt fmt va s.printed).map fun printed =>
      { s with printed := printed }

structure LogEntry where
  mod : UtlDbgModule
  dt : HalRtcDateTime
  message : List Char

/-- The entries that calls make, when the modules that are `on` are enabled before; every message
that is printed is one line. -/
inductive Logs (float : FloatText) (port : Port) :
    (UtlDbgModule → Bool) → List DbgCall → List LogEntry → Prop
  | nil {on : UtlDbgModule → Bool} : Logs float port on [] []
  | enable {on : UtlDbgModule → Bool} {mod : UtlDbgModule} {calls : List DbgCall}
      {entries : List LogEntry} (h : Logs float port (Function.update on mod true) calls entries) :
      Logs float port on (.moduleEnable mod :: calls) entries
  | disable {on : UtlDbgModule → Bool} {mod : UtlDbgModule} {calls : List DbgCall}
      {entries : List LogEntry} (h : Logs float port (Function.update on mod false) calls entries) :
      Logs float port on (.moduleDisable mod :: calls) entries
  | silent {on : UtlDbgModule → Bool} {mod : UtlDbgModule} {dt : HalRtcDateTime}
      {fmt : List Char} {va : List VaArg} {calls : List DbgCall} {entries : List LogEntry}
      (hoff : on mod = false) (h : Logs float port on calls entries) :
      Logs float port on (.printfl mod dt fmt va :: calls) entries
  | entry {on : UtlDbgModule → Bool} {mod : UtlDbgModule} {dt : HalRtcDateTime}
      {fmt message : List Char} {va : List VaArg} {calls : List DbgCall} {entries : List LogEntry}
      (hon : on mod = true) (hmessage : printedText float port fmt va = some (message ++ ['\n']))
      (hline : '\n' ∉ message) (hnul : nul ∉ message) (h : Logs float port on calls entries) :
      Logs float port on (.printfl mod dt fmt va :: calls) (⟨mod,dt,message⟩ :: entries)

def LogEntry.line (e : LogEntry) : List Char := header e.mod e.dt ++ e.message

def logText (entries : List LogEntry) : List Char :=
  entries.flatMap fun e => e.line ++ ['\n']

variable {calls : List DbgCall} {entries : List LogEntry} {on : UtlDbgModule → Bool}

theorem enabled_enable : utlDbgModuleIsEnabled (utlDbgModuleEnable activated mod) =
    Function.update (utlDbgModuleIsEnabled activated) mod true := by
  funext m
  rw [utlDbgModuleIsEnabled_enable,Function.update_apply]
  by_cases hm : m = mod
  · simp [hm]
  · simp [hm]

theorem enabled_disable : utlDbgModuleIsEnabled (utlDbgModuleDisable activated mod) =
    Function.update (utlDbgModuleIsEnabled activated) mod false := by
  funext m
  rw [utlDbgModuleIsEnabled_disable,Function.update_apply]
  by_cases hm : m = mod
  · simp [hm]
  · simp [hm]

/-- Each call appends its entry to the output. -/
theorem run_logs (printed : List Char) (h : Logs float port on calls entries)
    (hon : utlDbgModuleIsEnabled activated = on) :
    ∃ activated', calls.foldlM (DbgCall.run float port) ⟨activated,printed⟩ =
      some ⟨activated',printed ++ logText entries⟩ := by
  induction h generalizing activated printed with
  | nil => exact ⟨activated,by simp [logText]⟩
  | enable h ih =>
    obtain ⟨activated',hrun⟩ := ih printed (hon ▸ enabled_enable)
    exact ⟨activated',hrun⟩
  | disable h ih =>
    obtain ⟨activated',hrun⟩ := ih printed (hon ▸ enabled_disable)
    exact ⟨activated',hrun⟩
  | silent hoff h ih =>
    obtain ⟨activated',hrun⟩ := ih printed hon
    refine ⟨activated',?_⟩
    rw [List.foldlM_cons,DbgCall.run,utlDbgPrintfl_eq,hon,hoff]
    exact hrun
  | @entry on mod dt fmt message va calls entries hmod hmessage hline hnul h ih =>
    have hplain : (message ++ ['\n']).filter (· ≠ nul) = message ++ ['\n'] := by
      rw [List.filter_eq_self]
      intro c hc
      refine decide_eq_true fun he => ?_
      rw [he,List.mem_append] at hc
      exact hc.elim hnul (by decide)
    obtain ⟨activated',hrun⟩ := ih (printed ++ header mod dt ++ (message ++ ['\n'])) hon
    refine ⟨activated',?_⟩
    rw [List.foldlM_cons,DbgCall.run,utlDbgPrintfl_eq,hon,hmod,hmessage]
    simp only [if_true,Option.map_some,Option.bind_eq_bind,Option.bind_some,hplain]
    rw [hrun]
    simp [logText,LogEntry.line]

end Calls

section Reading
variable {e : LogEntry}

def dateNumbers (dt : HalRtcDateTime) : List Numbered :=
  [⟨4,dt.year.toNat,'-'⟩,⟨2,dt.month.toNat,'-'⟩,⟨2,dt.day.toNat,'T'⟩,⟨2,dt.hour.toNat,':'⟩,
    ⟨2,dt.minute.toNat,':'⟩,⟨2,dt.second.toNat,' '⟩]

theorem dateText_eq : dateText dt = writeNumbers (dateNumbers dt) := by
  simp [dateText,writeNumbers,dateNumbers]

def moduleOf (name : List Char) : Option UtlDbgModule :=
  [.app,.tmr,.ods,.port].find? fun mod => (logModuleName mod).take 3 = name

theorem moduleOf_name : moduleOf ((logModuleName mod).take 3) = some mod := by
  cases mod <;> decide

theorem length_name : ((logModuleName mod).take 3).length = 3 := by
  cases mod <;> decide

def readLogLine (line : List Char) : Option LogEntry := do
  let mod ← moduleOf ((line.drop 1).take 3)
  let (numbers,message) ← readNumbers ['-','-','T',':',':',' '] (line.drop 6)
  match numbers with
  | [year,month,day,hour,minute,second] =>
    some ⟨mod,⟨BitVec.ofNat 16 year,BitVec.ofNat 32 month,BitVec.ofNat 8 day,BitVec.ofNat 8 hour,
      BitVec.ofNat 8 minute,BitVec.ofNat 8 second⟩,message⟩
  | _ => none

def readLog (text : List Char) : Option (List LogEntry) :=
  (text.splitOn '\n').dropLast.mapM readLogLine

theorem readLogLine_line : readLogLine e.line = some e := by
  obtain ⟨mod,dt,message⟩ := e
  have hname : (((LogEntry.mk mod dt message).line).drop 1).take 3 =
      (logModuleName mod).take 3 := by
    rw [LogEntry.line,header,List.cons_append,List.drop_succ_cons,List.drop_zero,List.append_assoc,
      List.take_append_of_le_length length_name.ge,List.take_of_length_le length_name.le]
  have hrest : ((LogEntry.mk mod dt message).line).drop 6 =
      writeNumbers (dateNumbers dt) ++ message := by
    have hsplit : (LogEntry.mk mod dt message).line =
        ('[' :: (logModuleName mod).take 3 ++ [']',' ']) ++ (dateText dt ++ message) := by
      simp [LogEntry.line,header]
    rw [hsplit,← dateText_eq]
    refine List.drop_left' ?_
    rw [List.length_append,List.length_cons,length_name]
    rfl
  have hsep : ∀ n ∈ dateNumbers dt, digitValue n.sep = none := by
    simp only [dateNumbers,List.forall_mem_cons]
    decide
  have hnumbers : readNumbers ['-','-','T',':',':',' '] (writeNumbers (dateNumbers dt) ++ message) =
      some ((dateNumbers dt).map Numbered.value,message) := readNumbers_writeNumbers hsep
  unfold readLogLine
  rw [hname,hrest,moduleOf_name,hnumbers]
  simp [dateNumbers]

theorem newline_not_mem_header : '\n' ∉ header mod dt := by
  have hname : '\n' ∉ (logModuleName mod).take 3 := by cases mod <;> decide
  have hnum (w n : Nat) : '\n' ∉ padded 10 w n :=
    not_mem_padded (by decide) (by decide) (by decide)
  simp only [header,dateText,List.mem_append,List.mem_cons,hname,hnum]
  decide

theorem readLog_logText (h : ∀ e ∈ entries, '\n' ∉ LogEntry.message e) :
    readLog (logText entries) = some entries := by
  have hlines : ∀ line ∈ entries.map LogEntry.line, '\n' ∉ line := by
    intro line hline
    obtain ⟨e,he,rfl⟩ := List.mem_map.mp hline
    rw [LogEntry.line,List.mem_append]
    exact not_or.mpr ⟨newline_not_mem_header,h e he⟩
  have hsplit : (logText entries).splitOn '\n' = entries.map LogEntry.line ++ [[]] := by
    rw [← splitOn_terminated hlines,logText,List.flatMap_map]
  rw [readLog,hsplit,List.dropLast_concat]
  clear hsplit hlines h
  induction entries with
  | nil => rfl
  | cons e entries ih => simp [readLogLine_line,ih]

theorem Logs.newline_not_mem (h : Logs float port on calls entries) :
    ∀ e ∈ entries, '\n' ∉ LogEntry.message e := by
  induction h with
  | nil => simp
  | enable h ih => exact ih
  | disable h ih => exact ih
  | silent hoff h ih => exact ih
  | entry hon hmessage hline hnul h ih => exact List.forall_mem_cons.mpr ⟨hline,ih⟩

/-- Whatever is called in whatever order, the text that the port prints reads back as the entries
of the modules that were enabled when they were made. -/
theorem readLog_run (h : Logs float port (utlDbgModuleIsEnabled activated) calls entries) :
    ∃ activated' text, calls.foldlM (DbgCall.run float port) ⟨activated,printed⟩ =
      some ⟨activated',printed ++ text⟩ ∧ readLog text = some entries := by
  obtain ⟨activated',hrun⟩ := run_logs printed h rfl
  exact ⟨activated',logText entries,hrun,readLog_logText h.newline_not_mem⟩

def threeCalls : List DbgCall :=
  [.printfl .ods noon ['%','d','\n',nul] [.word 5],.moduleDisable .ods,
    .printfl .ods noon ['%','d','\n',nul] [.word 6],.moduleEnable .tmr,
    .printfl .tmr noon ['x','\n',nul] []]

theorem readLog_run_three : ∃ activated' text,
    threeCalls.foldlM (DbgCall.run (fun _ _ _ _ _ => []) .linux) ⟨utlDbgInit 0,[]⟩ =
      some ⟨activated',[] ++ text⟩ ∧
    readLog text = some [⟨.ods,noon,['5']⟩,⟨.tmr,noon,['x']⟩] := by
  have hfive : printedText (fun _ _ _ _ _ => []) .linux ['%','d','\n',nul] [.word 5] =
      some (['5'] ++ ['\n']) := rfl
  have hx : printedText (fun _ _ _ _ _ => []) .linux ['x','\n',nul] [] =
      some (['x'] ++ ['\n']) := rfl
  refine readLog_run (.entry (by decide) hfive (by decide) (by decide) (.disable (.silent ?_
    (.enable (.entry ?_ hx (by decide) (by decide) .nil)))))
  · rfl
  · rfl

end Reading

end Ods
