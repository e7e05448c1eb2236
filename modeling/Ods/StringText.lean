import Ods.PrintfFamily
import Ods.IntegerRoundTrip

/-! The text of `%s`: the string up to its terminator, or as much as the precision asks for, in a
field of the width. A character is read before it is decided whether it belongs to the text. -/
namespace Ods

variable {s t behind : List Char} {flags : Flags} {precision width : BitVec 32} {va : List VaArg}
variable {maxsize : SizeT}

theorem strnlenS_eq : strnlenS s maxsize =
    if min (beforeNul s).length maxsize.toNat < s.length then
      some (min (beforeNul s).length maxsize.toNat) else none := by
  induction s generalizing maxsize with
  | nil => rfl
  | cons c s ih =>
    rw [strnlenS]
    by_cases hc : c = nul
    · subst hc
      simp [beforeNul_nul]
    by_cases hm : maxsize = 0
    · subst hm
      simp
    have hne : maxsize.toNat ≠ 0 := fun h => hm (BitVec.eq_of_toNat_eq h)
    have hone : (1 : BitVec 64).toNat = 1 := rfl
    have hsub : (maxsize - 1).toNat = maxsize.toNat - 1 := by
      rw [BitVec.toNat_sub_of_le (by rw [BitVec.le_def,hone]; omega),hone]
    rw [if_pos ⟨hc,hm⟩,ih,beforeNul_cons hc,hsub,List.length_cons,List.length_cons]
    have hmin : min ((beforeNul s).length + 1) maxsize.toNat =
        min (beforeNul s).length (maxsize.toNat - 1) + 1 := by omega
    rw [hmin]
    by_cases hlt : min (beforeNul s).length (maxsize.toNat - 1) < s.length
    · rw [if_pos hlt,if_pos (Nat.succ_lt_succ hlt)]
      rfl
    · rw [if_neg hlt,if_neg fun h => hlt (Nat.lt_of_succ_lt_succ h)]
      rfl

def shown (flags : Flags) (precision : Nat) (t : List Char) : List Char :=
  if flags.precision then t.take precision else t

theorem stringText_eq : stringText flags s precision =
    if (shown flags precision.toNat (beforeNul s)).length < s.length then
      some (shown flags precision.toNat (beforeNul s)) else none := by
  induction s generalizing precision with
  | nil => rfl
  | cons c s ih =>
    rw [stringText]
    by_cases hc : c = nul
    · subst hc
      have hnone : shown flags precision.toNat (beforeNul (nul :: s)) = [] := by
        simp [shown,beforeNul_nul]
      rw [if_neg fun h => h.1 rfl,hnone]
      exact (if_pos (Nat.succ_pos _)).symm
    -- a precision that is given counts down, with or without wrapping no more than it has to
    have hnext (hmore : flags.precision = false ∨ precision ≠ 0) :
        shown flags precision.toNat (beforeNul (c :: s)) =
          c :: shown flags (precision - 1).toNat (beforeNul s) := by
      rw [beforeNul_cons hc]
      unfold shown
      rcases hmore with hp | hp
      · rw [hp]
        rfl
      · have hne : precision.toNat ≠ 0 := fun h => hp (BitVec.eq_of_toNat_eq h)
        have hone : (1 : BitVec 32).toNat = 1 := rfl
        have hsub : (precision - 1).toNat + 1 = precision.toNat := by
          rw [BitVec.toNat_sub_of_le (by rw [BitVec.le_def,hone]; omega),hone]
          omega
        rw [← hsub,List.take_succ_cons]
        split <;> rfl
    by_cases hmore : flags.precision = false ∨ precision ≠ 0
    · rw [if_pos ⟨hc,hmore⟩,ih,hnext hmore,List.length_cons,List.length_cons]
      by_cases hlt : (shown flags (precision - 1).toNat (beforeNul s)).length < s.length
      · rw [if_pos hlt,if_pos (Nat.succ_lt_succ hlt)]
        rfl
      · rw [if_neg hlt,if_neg fun h => hlt (Nat.lt_of_succ_lt_succ h)]
        rfl
    · have hp : flags.precision = true ∧ precision = 0 := by simpa using hmore
      have hnone : shown flags precision.toNat (beforeNul (c :: s)) = [] := by
        simp [shown,hp]
      rw [if_neg fun h => hmore h.2,hnone]
      exact (if_pos (Nat.succ_pos _)).symm

/-- How far `%s` reads: up to the terminator, or up to the character behind those that the
precision asks for. With precision zero nothing is printed, but the terminator is looked for. -/
def reach (precision : BitVec 32) (t : List Char) : Nat :=
  if precision = 0 then t.length else min t.length precision.toNat

def field (flags : Flags) (width : Nat) (text : List Char) : List Char :=
  if flags.left then text.rightpad width ' ' else text.leftpad width ' '

theorem paddedText_eq {l : BitVec 32} {text : List Char} (hl : l.toNat = text.length) :
    paddedText width l flags text = field flags width.toNat text := by
  unfold paddedText field
  rw [hl]
  cases flags.left with
  | true => simp [List.rightpad]
  | false => simp [List.leftpad]

theorem length_beforeNul_le : (beforeNul s).length ≤ s.length :=
  (List.takeWhile_prefix _).length_le

theorem reach_eq (hlen : t.length < 2 ^ 32) :
    min t.length (if precision ≠ 0 then precision.setWidth 64 else -1).toNat = reach precision t := by
  unfold reach
  by_cases hp : precision = 0
  · have hall : (-1 : BitVec 64).toNat = 2 ^ 64 - 1 := rfl
    rw [if_neg (not_not.mpr hp),if_pos hp,hall]
    omega
  · have hlt := precision.isLt
    rw [if_pos hp,if_neg hp,BitVec.toNat_setWidth,Nat.mod_eq_of_lt (by omega)]

/-- The length that `%s` pads to the width. -/
theorem length_shown (hlen : t.length < 2 ^ 32)
    (hprecision : flags.precision = false → precision = 0) :
    (if flags.precision then
      (if BitVec.ofNat 32 (reach precision t) < precision then
        BitVec.ofNat 32 (reach precision t) else precision)
      else BitVec.ofNat 32 (reach precision t)).toNat = (shown flags precision.toNat t).length := by
  have hle : reach precision t ≤ t.length := by
    unfold reach
    split
    · exact le_rfl
    · exact min_le_left _ _
  have hnat : (BitVec.ofNat 32 (reach precision t)).toNat = reach precision t := by
    rw [BitVec.toNat_ofNat,Nat.mod_eq_of_lt (by omega)]
  unfold shown
  cases hp : flags.precision with
  | false =>
    have hreach : reach precision t = t.length := if_pos (hprecision hp)
    simp only [Bool.false_eq_true,if_false]
    rw [hnat,hreach]
  | true =>
    simp only [if_true,BitVec.lt_def,hnat,List.length_take]
    unfold reach at *
    by_cases hzero : precision = 0
    · subst hzero
      simp
    · rw [if_neg hzero] at hnat ⊢
      split
      · rw [hnat]
        omega
      · omega

theorem length_shown_le (hprecision : flags.precision = false → precision = 0) :
    (shown flags precision.toNat t).length ≤ reach precision t := by
  unfold shown reach
  cases hp : flags.precision with
  | false =>
    rw [if_pos (hprecision hp)]
    exact le_rfl
  | true =>
    rw [if_pos rfl,List.length_take]
    split <;> omega

theorem strText_eq (hlen : s.length < 2 ^ 32) (hprecision : flags.precision = false → precision = 0) :
    strText width precision flags (.str (some s) :: va) =
      if reach precision (beforeNul s) < s.length then
        some (field flags width.toNat (shown flags precision.toNat (beforeNul s)),va)
      else none := by
  have hbefore : (beforeNul s).length < 2 ^ 32 := length_beforeNul_le.trans_lt hlen
  have hshown := length_shown hbefore hprecision
  have hva : vaArg VaArg.str? (.str (some s) :: va) = some (some s,va) := rfl
  unfold strText
  rw [hva]
  simp only [Option.bind_eq_bind,Option.bind_some]
  rw [strnlenS_eq,reach_eq hbefore]
  by_cases hreach : reach precision (beforeNul s) < s.length
  · have hlt : (shown flags precision.toNat (beforeNul s)).length < s.length :=
      (length_shown_le hprecision).trans_lt hreach
    rw [if_pos hreach,if_pos hreach,stringText_eq,if_pos hlt,Option.bind_some,Option.bind_some,
      paddedText_eq hshown]
  · rw [if_neg hreach,if_neg hreach]
    rfl

variable {float : FloatText} {port : Port} {format : List Char} {rest : List VaArg}
variable {text printed : List Char} {count : SizeT} {buffer : SizeT → Char} {spec : Specification}

theorem Specification.text_strText (hspec : spec.specifier = 's')
    (hfields : spec.fields port va = some (flags,width,precision,.str (some s) :: rest)) :
    spec.text float port va = strText width precision flags (.str (some s) :: rest) := by
  rw [text_eq,hfields,Option.bind_some,hspec]
  rfl

/-- `%s` prints the string of an object that can be read for `s`, where it can be read as far as
that takes. -/
theorem Specification.text_string (hspec : spec.specifier = 's') (hlen : s.length < 2 ^ 32)
    (hfields : spec.fields port va = some (flags,width,precision,.str (some s) :: rest)) :
    spec.text float port va = if reach precision (beforeNul s) < s.length then
      some (field flags width.toNat (shown flags precision.toNat (beforeNul s)),rest)
    else none := by
  obtain ⟨-,-,hprecision⟩ := fields_flags hfields
  rw [text_strText hspec hfields,strText_eq hlen hprecision]

/-- `%-8.3s` of an object of four characters without a terminator: the fourth one is read, but not
printed. -/
theorem Specification.text_string_cut :
    Specification.text (fun _ _ _ _ _ => []) .linux
        ⟨['-'],.digits ['8'],some (.digits ['3']),.absent,'s'⟩ [.str (some ['a','b','c','d'])] =
      if reach 3 (beforeNul ['a','b','c','d']) < 4 then
        some (['a','b','c',' ',' ',' ',' ',' '],[]) else none := by
  have hfields : Specification.fields .linux
      ⟨['-'],.digits ['8'],some (.digits ['3']),.absent,'s'⟩ [.str (some ['a','b','c','d'])] =
        some ({ left := true, precision := true },8,3,[.str (some ['a','b','c','d'])]) := rfl
  exact text_string rfl (by decide) hfields

def stringFormat : List Char := ['%','s',nul]

theorem length_beforeNul_lt : (beforeNul s).length < s.length ↔ nul ∈ s := by
  induction s with
  | nil => simp [beforeNul]
  | cons c s ih =>
    by_cases hc : c = nul
    · subst hc
      simp [beforeNul_nul]
    · rw [beforeNul_cons hc,List.length_cons,List.length_cons,Nat.succ_lt_succ_iff,ih]
      simp [Ne.symm hc]

theorem printedText_string (hlen : s.length < 2 ^ 32) :
    printedText float port stringFormat [.str (some s)] =
      if nul ∈ s then some (beforeNul s) else none := by
  let spec : Specification := ⟨[],.absent,none,.absent,'s'⟩
  have hparse : parseFormat stringFormat = some [.conversion spec] := rfl
  have hfields : spec.fields port [.str (some s)] = some ({},0,0,[.str (some s)]) := rfl
  have htext : spec.text float port [.str (some s)] = _ :=
    (spec.text_strText rfl hfields).trans (strText_eq hlen fun _ => rfl)
  have hreach : reach 0 (beforeNul s) < s.length ↔ nul ∈ s := length_beforeNul_lt
  have hfield : field {} (0 : BitVec 32).toNat (shown {} (0 : BitVec 32).toNat (beforeNul s)) =
      beforeNul s := by
    simp [field,shown,List.leftpad]
  unfold printedText
  rw [hparse,Option.bind_some]
  unfold formatText Directive.text
  simp only [htext,hreach,hfield]
  split
  · simp [formatText]
  · rfl

theorem contents_add {n m : Nat} : ∃ more, contents buffer (n + m) = contents buffer n ++ more := by
  refine ⟨(List.range m).map fun i => buffer (BitVec.ofNat 64 (n + i)),?_⟩
  rw [contents,List.range_add,List.map_append,List.map_map]
  rfl

/-- A text that was stored in an array of `count` characters is printed again as far as there was
room for it, and no further than to its first NUL. -/
theorem utlPrintf_stored (htext : printedText float port format va = some text)
    (hlen : text.length < 2 ^ 64) (hcount : count ≠ 0) (hcount' : count.toNat < 2 ^ 32) :
    ∃ buffer' ret, utlSnprintf float port format va (some buffer) count =
        some (some buffer',ret) ∧ ∀ printed,
      utlPrintf float port stringFormat [.str (some (contents buffer' count.toNat))] printed =
        some (printed ++ beforeNul (text.take (count.toNat - 1)),
          BitVec.ofNat 32 (beforeNul (text.take (count.toNat - 1))).length) := by
  obtain ⟨b,hb,hcontents⟩ : ∃ b, utlSnprintf float port format va (some buffer) count =
      some (some b,BitVec.ofNat 32 text.length) ∧
        contents b (min text.length (count.toNat - 1) + 1) = text.take (count.toNat - 1) ++ [nul] :=
    ⟨_,utlSnprintf_some htext,contents_finish hlen hcount⟩
  have hpos : 0 < count.toNat := by
    rw [Nat.pos_iff_ne_zero]
    exact fun h => hcount (BitVec.eq_of_toNat_eq h)
  obtain ⟨more,hmore⟩ : ∃ more, contents b count.toNat =
      text.take (count.toNat - 1) ++ nul :: more := by
    obtain ⟨m,hm⟩ := Nat.exists_eq_add_of_le
      (show min text.length (count.toNat - 1) + 1 ≤ count.toNat by omega)
    obtain ⟨more,hmore⟩ : ∃ more, contents b (min text.length (count.toNat - 1) + 1 + m) =
        contents b (min text.length (count.toNat - 1) + 1) ++ more := contents_add
    rw [← hm,hcontents] at hmore
    exact ⟨more,by simpa using hmore⟩
  have hlength : (contents b count.toNat).length < 2 ^ 32 := by
    simpa [contents] using hcount'
  have hplain : (beforeNul (text.take (count.toNat - 1))).filter (· ≠ nul) =
      beforeNul (text.take (count.toNat - 1)) := by
    rw [List.filter_eq_self]
    exact fun c hc => decide_eq_true (ne_nul_of_mem_beforeNul hc)
  refine ⟨b,_,hb,fun printed => ?_⟩
  rw [utlPrintf_eq,printedText_string hlength,hmore,if_pos (by simp),beforeNul_append,
    Option.map_some,hplain]

/-- `"%d%c%d"` of 42, NUL and 7 in an array of four characters -/
theorem utlPrintf_stored_cut :
    ∃ buffer' ret, utlSnprintf (fun _ _ _ _ _ => []) .linux ['%','d','%','c','%','d',nul]
        [.word 42,.word 0,.word 7] (some fun _ => '?') 4 = some (some buffer',ret) ∧ ∀ printed,
      utlPrintf (fun _ _ _ _ _ => []) .linux stringFormat [.str (some (contents buffer' 4))]
        printed = some (printed ++ ['4','2'],2) :=
  utlPrintf_stored (show printedText _ .linux ['%','d','%','c','%','d',nul]
    [.word 42,.word 0,.word 7] = some ['4','2',nul,'7'] from rfl) (by decide) (by decide) (by decide)

end Ods
