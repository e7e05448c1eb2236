import Ods.DebugDump

/-! What a debug dump shows: its text is cut into lines of 32 bytes, and reading the lines back
gives the bytes that were dumped, which is the whole buffer if its size fits into 16 bits. -/
namespace Ods
open HexText

variable {text : List Char} {data bytes : List (BitVec 8)} {fuel i : Nat}

section Reading
variable {stamp : List Char} {line : Nat × List (BitVec 8)} {lines : List (Nat × List (BitVec 8))}

def dumpLine (stamp : List Char) (line : Nat × List (BitVec 8)) : List Char :=
  stamp ++ padded 16 4 line.1 ++ ' ' :: hexBytes line.2

def readLine (stamp text : List Char) : Option (Nat × List (BitVec 8)) := do
  let rest ← text.dropPrefix? stamp
  let index ← readNumeral 16 (rest.takeWhile (· ≠ ' '))
  match rest.dropWhile (· ≠ ' ') with
  | [] => none
  | _ :: hex => (readBytes hex).map fun bytes => (index,bytes)

def readDump (stamp text : List Char) : Option (List (Nat × List (BitVec 8))) :=
  (text.splitOn '\n').dropLast.mapM (readLine stamp)

theorem readLine_dumpLine : readLine stamp (dumpLine stamp line) = some line := by
  have hdrop : (dumpLine stamp line).dropPrefix? stamp =
      some (padded 16 4 line.1 ++ ' ' :: hexBytes line.2) := by
    rw [dumpLine,List.append_assoc]
    exact List.dropPrefix?_append_of_beq _ BEq.rfl
  have hblank : ∀ c ∈ padded 16 4 line.1, decide (c ≠ ' ') = true := by
    intro c hc
    refine decide_eq_true fun he => ?_
    exact not_mem_padded (by decide) (by decide) (by decide) (he ▸ hc)
  have hindex : readNumeral 16 (padded 16 4 line.1) = some line.1 :=
    readNumeral_padded (by decide) (by decide)
  have htake : (padded 16 4 line.1 ++ ' ' :: hexBytes line.2).takeWhile (· ≠ ' ') =
      padded 16 4 line.1 := by
    rw [List.takeWhile_append_of_pos hblank]
    simp
  have hskip : (padded 16 4 line.1 ++ ' ' :: hexBytes line.2).dropWhile (· ≠ ' ') =
      ' ' :: hexBytes line.2 := by
    rw [List.dropWhile_append_of_pos hblank]
    simp
  simp only [readLine,hdrop,Option.bind_eq_bind,Option.bind_some,htake,hskip,hindex,
    readBytes_hexBytes,Option.map_some]

theorem newline_not_mem_dumpLine (hs : '\n' ∉ stamp) : '\n' ∉ dumpLine stamp line := by
  have hindex : '\n' ∉ padded 16 4 line.1 := not_mem_padded (by decide) (by decide) (by decide)
  have hbytes : '\n' ∉ hexBytes line.2 := not_mem_hexBytes (by decide)
  simp [dumpLine,hs,hindex,hbytes]

def dumpText (stamp : List Char) (lines : List (Nat × List (BitVec 8))) : List Char :=
  lines.flatMap fun line => dumpLine stamp line ++ ['\n']

theorem readDump_dumpText (hs : '\n' ∉ stamp) : readDump stamp (dumpText stamp lines) = some lines := by
  have hsplit : (dumpText stamp lines).splitOn '\n' = lines.map (dumpLine stamp) ++ [[]] := by
    have hlines : ∀ line ∈ lines.map (dumpLine stamp), '\n' ∉ line := by
      intro line hline
      obtain ⟨r,-,rfl⟩ := List.mem_map.mp hline
      exact newline_not_mem_dumpLine hs
    rw [← splitOn_terminated hlines,dumpText,List.flatMap_map]
  rw [readDump,hsplit,List.dropLast_concat]
  clear hsplit
  induction lines with
  | nil => rfl
  | cons line lines ih => simp [readLine_dumpLine,ih]

/-- A stamp alone is no line. -/
theorem readDump_stamp (hs : '\n' ∉ stamp) : readDump stamp (stamp ++ ['\n']) = none := by
  have hsplit : (stamp ++ ['\n']).splitOn '\n' = [stamp] ++ [[]] := by
    rw [List.splitOn_append_cons_self_of_not_mem hs]
    rfl
  have hself : (stamp == stamp) = true := BEq.rfl
  have hdrop := List.dropPrefix?_append_of_beq [] hself
  rw [List.append_nil] at hdrop
  rw [readDump,hsplit,List.dropLast_concat]
  simp [readLine,hdrop]

end Reading

section Passes
variable {stamp : List Char} {b : BitVec 8}
variable {line : Nat × List (BitVec 8)} {lines : List (Nat × List (BitVec 8))}

def dumpPasses (stamp : List Char) : Nat → List (BitVec 8) → List Char
  | _, [] => []
  | i, b :: bytes => utlDbgDumpBody stamp (BitVec.ofNat 32 i) b ++ dumpPasses stamp (i + 1) bytes

theorem dumpPasses_append (as bs : List (BitVec 8)) :
    dumpPasses stamp i (as ++ bs) = dumpPasses stamp i as ++ dumpPasses stamp (i + as.length) bs := by
  induction as generalizing i with
  | nil => rfl
  | cons a as ih =>
    rw [List.cons_append,dumpPasses,dumpPasses,ih,List.append_assoc,List.length_cons,
      Nat.add_right_comm,Nat.add_assoc]

theorem ofNat_umod_32_eq_zero_iff : BitVec.ofNat 32 i % 32#32 = 0#32 ↔ i % 32 = 0 := by
  rw [← BitVec.toNat_inj,BitVec.toNat_umod,BitVec.toNat_ofNat]
  exact iff_of_eq (congrArg (· = 0) (Nat.mod_mod_of_dvd i (by decide)))

theorem utlDbgDumpBody_inside (h : i % 32 ≠ 0) :
    utlDbgDumpBody stamp (BitVec.ofNat 32 i) b = padded 16 2 b.toNat := by
  simp [utlDbgDumpBody,ofNat_umod_32_eq_zero_iff,h]

/-- At a multiple of 32 a line begins; the stamp of the first one is there already. -/
theorem utlDbgDumpBody_first (h : i % 32 = 0) (hi : i < 2 ^ 32) :
    utlDbgDumpBody stamp (BitVec.ofNat 32 i) b =
      (if i = 0 then [] else '\n' :: stamp) ++ padded 16 4 i ++ ' ' :: padded 16 2 b.toNat := by
  have hmod := ofNat_umod_32_eq_zero_iff.mpr h
  have hnat : i % 4294967296 = i := Nat.mod_eq_of_lt hi
  have hzero : BitVec.ofNat 32 i = 0#32 ↔ i = 0 := by
    rw [← BitVec.toNat_inj,BitVec.toNat_ofNat,Nat.mod_eq_of_lt hi]
    rfl
  by_cases h0 : i = 0
  · simp [utlDbgDumpBody,h0]
  · simp [utlDbgDumpBody,hmod,hzero,h0,hnat]

/-- Inside a line only digits are printed. -/
theorem dumpPasses_inside (h : 0 < i % 32) (hlen : i % 32 + bytes.length ≤ 32) :
    dumpPasses stamp i bytes = hexBytes bytes := by
  induction bytes generalizing i with
  | nil => rfl
  | cons b bytes ih =>
    rw [List.length_cons] at hlen
    rw [dumpPasses,utlDbgDumpBody_inside h.ne',hexBytes_cons]
    cases bytes with
    | nil => rfl
    | cons b' bytes =>
      rw [List.length_cons] at hlen
      rw [ih (by omega) (by rw [List.length_cons]; omega)]

/-- The passes for one line. -/
theorem dumpPasses_line (h : i % 32 = 0) (hi : i < 2 ^ 32) (hne : bytes ≠ [])
    (hlen : bytes.length ≤ 32) : dumpPasses stamp i bytes =
      (if i = 0 then [] else '\n' :: stamp) ++ padded 16 4 i ++ ' ' :: hexBytes bytes := by
  cases bytes with
  | nil => exact (hne rfl).elim
  | cons b bytes =>
    rw [List.length_cons] at hlen
    have hrest : dumpPasses stamp (i + 1) bytes = hexBytes bytes :=
      dumpPasses_inside (by omega) (by omega)
    rw [dumpPasses,utlDbgDumpBody_first h hi,hrest,hexBytes_cons,List.append_assoc]
    rfl

theorem dumpPasses_split : dumpPasses stamp i bytes =
    dumpPasses stamp i (bytes.take 32) ++ dumpPasses stamp (i + 32) (bytes.drop 32) := by
  rcases Nat.le_total bytes.length 32 with h | h
  · rw [List.take_of_length_le h,List.drop_of_length_le h,dumpPasses,List.append_nil]
  · have hlen : (bytes.take 32).length = 32 := List.length_take_of_le h
    calc
      dumpPasses stamp i bytes = dumpPasses stamp i (bytes.take 32 ++ bytes.drop 32) := by
        rw [List.take_append_drop]
      _ = dumpPasses stamp i (bytes.take 32) ++ dumpPasses stamp (i + 32) (bytes.drop 32) := by
        rw [dumpPasses_append,hlen]

/-- The passes for the first line, and the rest. -/
theorem dumpPasses_row (h : i % 32 = 0) (hi : i < 2 ^ 32) (hne : bytes ≠ []) :
    dumpPasses stamp i bytes = (if i = 0 then [] else '\n' :: stamp) ++ padded 16 4 i ++
      ' ' :: hexBytes (bytes.take 32) ++ dumpPasses stamp (i + 32) (bytes.drop 32) := by
  have htake : bytes.take 32 ≠ [] := by simp [hne]
  rw [dumpPasses_split,dumpPasses_line h hi htake (List.length_take_le 32 bytes)]

theorem dumpText_cons : dumpText stamp (line :: lines) =
    dumpLine stamp line ++ '\n' :: dumpText stamp lines := by
  simp [dumpText]

/-- After the first line, every line break ends one line and begins the next. -/
theorem dumpPasses_rows (h : i % 32 = 0) (hi : 0 < i) (hlt : i + bytes.length ≤ 2 ^ 32) :
    dumpPasses stamp i bytes ++ ['\n'] = '\n' :: dumpText stamp (rows 32 i bytes) := by
  induction i, bytes using rows_induction (show 0 < 32 by decide) with
  | nil i => rw [rows_nil]; rfl
  | cons i bytes hne ih =>
    have hpos : 0 < bytes.length := List.length_pos_iff.mpr hne
    have hrest := ih (by omega) (by omega) (by rw [List.length_drop]; omega)
    rw [dumpPasses_row h (by omega) hne,if_neg hi.ne',rows_of_ne_nil (by decide) hne,
      dumpText_cons,← hrest]
    simp [dumpLine]

/-- The text of a dump is that of its lines. -/
theorem dumpPasses_dumpText (hne : bytes ≠ []) (hlt : bytes.length ≤ 2 ^ 32) :
    stamp ++ dumpPasses stamp 0 bytes ++ ['\n'] = dumpText stamp (rows 32 0 bytes) := by
  have hpos : 0 < bytes.length := List.length_pos_iff.mpr hne
  have hrest : dumpPasses stamp 32 (bytes.drop 32) ++ ['\n'] =
      '\n' :: dumpText stamp (rows 32 32 (bytes.drop 32)) :=
    dumpPasses_rows (by decide) (by decide) (by rw [List.length_drop]; omega)
  rw [dumpPasses_row (Nat.zero_mod 32) (by decide) hne,if_pos rfl,rows_of_ne_nil (by decide) hne,
    dumpText_cons,← hrest]
  simp [dumpLine]

end Passes

section Loop
variable {stamp : List Char} {size : BitVec 16} {left : List (BitVec 8)}

theorem ofNat_lt_setWidth_iff (hi : i ≤ size.toNat) :
    BitVec.ofNat 32 i < size.setWidth 32 ↔ i < size.toNat := by
  have hsize := size.isLt
  rw [BitVec.lt_def,BitVec.toNat_ofNat,BitVec.toNat_setWidth,Nat.mod_eq_of_lt (by omega),
    Nat.mod_eq_of_lt (by omega)]

/-- The loop with `past` behind it: position and pointer stay in step, and it ends at `size`. -/
theorem utlDbgDumpLoop_eq (past : List (BitVec 8)) (hsplit : data.take size.toNat = past ++ left)
    (hle : size.toNat ≤ data.length) (hf : left.length < fuel) :
    utlDbgDumpLoop stamp data size fuel (BitVec.ofNat 32 past.length) past.length =
      some (dumpPasses stamp past.length left) := by
  have hlen : past.length + left.length = size.toNat := by
    rw [← List.length_append,← hsplit,List.length_take_of_le hle]
  induction left generalizing past fuel with
  | nil =>
    rw [List.length_nil] at hlen
    obtain ⟨fuel,rfl⟩ := Nat.exists_eq_add_of_lt hf
    have hend : ¬ BitVec.ofNat 32 past.length < size.setWidth 32 := by
      rw [ofNat_lt_setWidth_iff (by omega)]
      omega
    rw [utlDbgDumpLoop,if_neg hend]
    rfl
  | cons b left ih =>
    rw [List.length_cons] at hf hlen
    obtain ⟨fuel,rfl⟩ := Nat.exists_eq_add_of_lt hf
    have hgo : BitVec.ofNat 32 past.length < size.setWidth 32 :=
      (ofNat_lt_setWidth_iff (by omega)).mpr (by omega)
    have hbyte : data[past.length]? = some b := by
      have hget : (data.take size.toNat)[past.length]? = some b := by simp [hsplit]
      rwa [List.getElem?_take_of_lt (by omega)] at hget
    have hpos : BitVec.ofNat 32 past.length + 1 = BitVec.ofNat 32 (past.length + 1) :=
      (BitVec.ofNat_add past.length 1).symm
    have hnext : data.take size.toNat = past ++ [b] ++ left := by rw [hsplit]; simp
    have hlast : (past ++ [b]).length = past.length + 1 := by simp
    have hrest : utlDbgDumpLoop stamp data size (left.length + 1 + fuel)
        (BitVec.ofNat 32 (past.length + 1)) (past.length + 1) =
          some (dumpPasses stamp (past.length + 1) left) := by
      have hfuel : left.length < left.length + 1 + fuel := by omega
      have hih := ih _ hnext hfuel (by omega)
      rwa [hlast] at hih
    rw [utlDbgDumpLoop,if_pos hgo,hbyte,hpos]
    simp [hrest,dumpPasses]

theorem utlDbgDumpLines_eq (hle : size.toNat ≤ data.length) (hf : size.toNat < fuel) :
    utlDbgDumpLines fuel stamp data size =
      some (stamp ++ dumpPasses stamp 0 (data.take size.toNat) ++ ['\n']) := by
  have hlen : (data.take size.toNat).length < fuel := by rwa [List.length_take_of_le hle]
  have hloop : utlDbgDumpLoop stamp data size fuel 0 0 =
      some (dumpPasses stamp 0 (data.take size.toNat)) :=
    utlDbgDumpLoop_eq [] rfl hle hlen
  rw [utlDbgDumpLines,hloop]
  rfl

end Loop

section Dump
variable {activated : BitVec 32} {mod : UtlDbgModule} {size : BitVec 32}

/-- `text` shows `bytes`, each line 32 of them and the last one the rest. -/
structure ShowsWhole (stamp text : List Char) (bytes : List (BitVec 8))
    (lines : List (Nat × List (BitVec 8))) : Prop where
  printed : text = dumpText stamp lines
  count : lines.length = (bytes.length + 31) / 32
  line : ∀ k line, lines[k]? = some line → line = (32 * k,(bytes.drop (32 * k)).take 32)
  reads : readDump stamp text = some lines
  whole : lines.flatMap Prod.snd = bytes

theorem showsWhole_rows {stamp : List Char} (hs : '\n' ∉ stamp) :
    ShowsWhole stamp (dumpText stamp (rows 32 0 bytes)) bytes (rows 32 0 bytes) where
  printed := rfl
  count := rows_length (by decide)
  line k line h := by
    rw [rows_getElem? (by decide) h,Nat.zero_add]
  reads := readDump_dumpText hs
  whole := rows_flatMap (by decide)

/-- What `utl_dbg_dump` prints: as many bytes as 16 bits of the size say. -/
theorem utlDbgDump_eq (dt : HalRtcDateTime) (hmod : utlDbgModuleIsEnabled activated mod = true)
    (hle : size.toNat ≤ data.length) (hf : size.toNat < fuel) :
    utlDbgDump fuel activated mod dt data size = some (stamp mod dt ++
      dumpPasses (stamp mod dt) 0 (data.take (size.toNat % 2 ^ 16)) ++ ['\n']) := by
  have hmod16 : (size.setWidth 16).toNat = size.toNat % 2 ^ 16 := BitVec.toNat_setWidth ..
  have hmle : size.toNat % 2 ^ 16 ≤ size.toNat := Nat.mod_le _ _
  rw [utlDbgDump,if_pos hmod,utlDbgDumpLines_eq (by omega) (by omega),hmod16]

/-- A dump of an enabled module shows the whole buffer, line by line and read back without a
byte missing, repeated or out of order, if and only if its size fits into 16 bits. -/
theorem utlDbgDump_whole_iff (dt : HalRtcDateTime)
    (hmod : utlDbgModuleIsEnabled activated mod = true) (hpos : 1 ≤ size.toNat)
    (hle : size.toNat ≤ data.length) (hf : size.toNat < fuel) :
    ∃ text, utlDbgDump fuel activated mod dt data size = some text ∧
      ((∃ lines, ShowsWhole (stamp mod dt) text (data.take size.toNat) lines) ↔
        size.toNat < 2 ^ 16) := by
  refine ⟨_,utlDbgDump_eq dt hmod hle hf,?_⟩
  have hs : '\n' ∉ stamp mod dt := newline_not_mem_stamp
  have htext : ∀ n, 1 ≤ n → n ≤ size.toNat →
      stamp mod dt ++ dumpPasses (stamp mod dt) 0 (data.take n) ++ ['\n'] =
        dumpText (stamp mod dt) (rows 32 0 (data.take n)) := by
    intro n hn hns
    have hlen : (data.take n).length = n := List.length_take_of_le (hns.trans hle)
    have hsize := size.isLt
    refine dumpPasses_dumpText (fun hnil => ?_) (by omega)
    rw [hnil,List.length_nil] at hlen
    omega
  constructor
  · rintro ⟨lines,hwhole⟩
    have hreads := hwhole.reads
    by_cases hz : size.toNat % 2 ^ 16 = 0
    · rw [hz,List.take_zero,dumpPasses,List.append_nil,readDump_stamp hs] at hreads
      cases hreads
    · rw [htext _ (Nat.pos_of_ne_zero hz) (Nat.mod_le _ _),readDump_dumpText hs] at hreads
      obtain rfl := Option.some.inj hreads
      have hlen := congrArg List.length hwhole.whole
      rw [rows_flatMap (by decide),List.length_take_of_le ((Nat.mod_le _ _).trans hle),
        List.length_take_of_le hle] at hlen
      rw [← hlen]
      exact Nat.mod_lt _ (by decide)
  · intro hlt
    rw [Nat.mod_eq_of_lt hlt,htext _ hpos le_rfl]
    exact ⟨_,showsWhole_rows hs⟩

def noon : HalRtcDateTime := ⟨2026,9,26,12,0,0⟩

def thirtyThree : List (BitVec 8) := (List.range 33).map (BitVec.ofNat 8)

theorem utlDbgDump_whole_thirtyThree : ∃ text lines,
    utlDbgDump 34 (utlDbgInit 0) .ods noon thirtyThree 33 = some text ∧
      ShowsWhole (stamp .ods noon) text (thirtyThree.take 33) lines ∧ lines.length = 2 := by
  have hmod : utlDbgModuleIsEnabled (utlDbgInit 0) .ods = true := by decide
  have hle : (33#32).toNat ≤ thirtyThree.length := by decide
  have hf : (33#32).toNat < 34 := by decide
  obtain ⟨text,htext,hiff⟩ := utlDbgDump_whole_iff noon hmod (by decide) hle hf
  obtain ⟨lines,hlines⟩ := hiff.mpr (by decide)
  exact ⟨text,lines,htext,hlines,hlines.count⟩

/-- Of 65536 bytes nothing is shown: 16 bits of that size are zero. -/
theorem utlDbgDump_shows_nothing : ∃ text,
    utlDbgDump 65537 (utlDbgInit 0) .ods noon (List.replicate 65536 0) 65536 = some text ∧
      text = stamp .ods noon ++ ['\n'] ∧
      ¬ ∃ lines, ShowsWhole (stamp .ods noon) text ((List.replicate 65536 0).take 65536) lines := by
  have hmod : utlDbgModuleIsEnabled (utlDbgInit 0) .ods = true := by decide
  have hlen : (65536#32).toNat ≤ (List.replicate 65536 0#8).length := by
    rw [List.length_replicate]
    decide
  have hf : (65536#32).toNat < 65537 := by decide
  have hdump := utlDbgDump_eq noon hmod hlen hf
  have hnone : (65536#32).toNat % 2 ^ 16 = 0 := by decide
  rw [hnone,List.take_zero,dumpPasses,List.append_nil] at hdump
  refine ⟨_,hdump,rfl,?_⟩
  rintro ⟨lines,hlines⟩
  have hreads := hlines.reads
  rw [readDump_stamp newline_not_mem_stamp] at hreads
  cases hreads

end Dump

end Ods
