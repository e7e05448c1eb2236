import Ods.FormatMeaning

/-! The functions of the `printf` family: the text of a format goes into a buffer, to the port or
to a function, and the functions agree on it. A string that was stored can be printed again. -/
namespace Ods
open Emission

variable {σ : Type} {float : FloatText} {port : Port} {format : List Char} {va : List VaArg}
variable {out : OutFct σ} {maxlen count : SizeT} {buffer : SizeT → Char} {text : List Char}

def printedText (float : FloatText) (port : Port) (format : List Char) (va : List VaArg) :
    Option (List Char) :=
  (parseFormat format).bind fun ds => formatText float port ds va

theorem finish_fst (b : σ) : (finish out maxlen b text).1 =
    out nul (outAll out maxlen text (b,0)).1 (if (outAll out maxlen text (b,0)).2 < maxlen
      then (outAll out maxlen text (b,0)).2 else maxlen - 1) maxlen := rfl

theorem finish_snd (b : σ) : (finish out maxlen b text).2 = BitVec.ofNat 32 text.length := by
  have hidx : (outAll out maxlen text (b,0)).2 = BitVec.ofNat 64 text.length :=
    (outAll_snd ..).trans (BitVec.zero_add _)
  unfold finish
  dsimp only
  rw [hidx,BitVec.setWidth_ofNat_of_le (by decide)]

/-- On any output function, `_vsnprintf` outputs the text of its format and a terminator behind it,
or at the last index where the text is too long, and returns the length of the text. -/
theorem vsnprintf_eq (buffer : σ) : vsnprintf float port out maxlen buffer format va =
    (printedText float port format va).map fun text =>
      (out nul (outAll out maxlen text (buffer,0)).1
        (if BitVec.ofNat 64 text.length < maxlen then BitVec.ofNat 64 text.length else maxlen - 1)
        maxlen,BitVec.ofNat 32 text.length) := by
  rw [vsnprintf_finish,printedText]
  congr 1
  funext text
  have hidx : (outAll out maxlen text (buffer,0)).2 = BitVec.ofNat 64 text.length :=
    (outAll_snd ..).trans (BitVec.zero_add _)
  refine Prod.ext ?_ (finish_snd buffer)
  rw [finish_fst,hidx]

section Buffer

def contents (buffer : SizeT → Char) (n : Nat) : List Char :=
  (List.range n).map fun i => buffer (BitVec.ofNat 64 i)

/-- The terminator stands behind the text, or at the end of the buffer. -/
theorem terminator_index (hlen : text.length < 2 ^ 64) (hcount : 0 < count.toNat) :
    (if BitVec.ofNat 64 text.length < count then BitVec.ofNat 64 text.length
      else count - 1).toNat = min text.length (count.toNat - 1) := by
  have hidx : (BitVec.ofNat 64 text.length).toNat = text.length := by
    rw [BitVec.toNat_ofNat,Nat.mod_eq_of_lt hlen]
  have hone : (1 : BitVec 64).toNat = 1 := rfl
  have hle : (1 : BitVec 64) ≤ count := by
    rw [BitVec.le_def,hone]
    exact hcount
  have hsub : (count - 1).toNat = count.toNat - 1 := by
    rw [BitVec.toNat_sub_of_le hle,hone]
  split
  · rename_i hlt
    rw [BitVec.lt_def,hidx] at hlt
    rw [hidx]
    omega
  · rename_i hlt
    rw [BitVec.lt_def,hidx] at hlt
    rw [hsub]
    omega

theorem finish_buffer (hlen : text.length < 2 ^ 64) (j : SizeT) :
    (finish outBuffer count buffer text).1 j =
      if count.toNat ≤ j.toNat ∨ min text.length (count.toNat - 1) < j.toNat then buffer j
      else if j.toNat = min text.length (count.toNat - 1) then nul
      else text[j.toNat]?.getD (buffer j) := by
  obtain ⟨last,hlast⟩ : ∃ last, last = if BitVec.ofNat 64 text.length < count then
      BitVec.ofNat 64 text.length else count - 1 := ⟨_,rfl⟩
  have hidx : (outAll outBuffer count text (buffer,0)).2 = BitVec.ofNat 64 text.length :=
    (outAll_snd ..).trans (BitVec.zero_add _)
  have htext : (outAll outBuffer count text (buffer,0)).1 j =
      if 0 ≤ j.toNat ∧ j < count then text[j.toNat - 0]?.getD (buffer j) else buffer j :=
    emit_store (by simpa using hlen)
  have hstore : (finish outBuffer count buffer text).1 j = if last < count ∧ j = last then nul
      else (outAll outBuffer count text (buffer,0)).1 j := by
    rw [finish_fst,hidx,← hlast]
    exact store_apply
  have hlt : j < count ↔ j.toNat < count.toNat := BitVec.lt_def
  rw [hstore,htext,Nat.sub_zero]
  simp only [hlt]
  by_cases hcount : 0 < count.toNat
  · have hnat : last.toNat = min text.length (count.toNat - 1) := by
      rw [hlast,terminator_index hlen hcount]
    have hroom : last < count := by
      rw [BitVec.lt_def,hnat]
      omega
    have heq : j = last ↔ j.toNat = min text.length (count.toNat - 1) := by
      rw [← hnat,BitVec.toNat_inj]
    simp only [heq]
    by_cases hj : j.toNat = min text.length (count.toNat - 1)
    · rw [if_pos ⟨hroom,hj⟩,if_neg (by omega),if_pos hj]
    · rw [if_neg fun h => hj h.2]
      by_cases hbehind : count.toNat ≤ j.toNat ∨ min text.length (count.toNat - 1) < j.toNat
      · rw [if_pos hbehind]
        split
        · rw [List.getElem?_eq_none (by omega)]
          rfl
        · rfl
      · rw [if_neg hbehind,if_neg hj,if_pos (by omega)]
  · have hnone : ¬ last < count := by
      rw [BitVec.lt_def]
      omega
    rw [if_neg fun h => hnone h.1,if_neg (by omega),if_pos (by omega)]

theorem contents_succ {n : Nat} :
    contents buffer (n + 1) = contents buffer n ++ [buffer (BitVec.ofNat 64 n)] := by
  rw [contents,List.range_succ,List.map_append]
  rfl

theorem contents_eq (h : ∀ i, (hi : i < text.length) → buffer (BitVec.ofNat 64 i) = text[i]) :
    contents buffer text.length = text := by
  refine List.ext_getElem (by simp [contents]) fun i hi hi' => ?_
  rw [← h i hi']
  simp [contents]

theorem utlSnprintf_some (htext : printedText float port format va = some text) :
    utlSnprintf float port format va (some buffer) count =
      some (some (finish outBuffer count buffer text).1,BitVec.ofNat 32 text.length) := by
  have hret : (finish outBuffer count buffer text).2 = BitVec.ofNat 32 text.length :=
    finish_snd buffer
  unfold printedText at htext
  rw [utlSnprintf,vsnprintf_finish,htext,← hret]
  rfl

theorem contents_finish (hlen : text.length < 2 ^ 64) (hcount : count ≠ 0) :
    contents (finish outBuffer count buffer text).1 (min text.length (count.toNat - 1) + 1) =
      text.take (count.toNat - 1) ++ [nul] := by
  have hpos : 0 < count.toNat := by
    rw [Nat.pos_iff_ne_zero]
    exact fun h => hcount (BitVec.eq_of_toNat_eq h)
  have hlt := count.isLt
  have hnat (i : Nat) (hi : i ≤ min text.length (count.toNat - 1)) :
      (BitVec.ofNat 64 i).toNat = i := by
    rw [BitVec.toNat_ofNat,Nat.mod_eq_of_lt (by omega)]
  have htake : (text.take (count.toNat - 1)).length = min text.length (count.toNat - 1) := by
    rw [List.length_take,min_comm]
  rw [contents_succ]
  congr 1
  · rw [← htake]
    refine contents_eq fun i hi => ?_
    rw [htake] at hi
    rw [finish_buffer hlen,hnat i hi.le,if_neg (by omega),if_neg hi.ne,
      List.getElem?_eq_getElem (by omega)]
    simp
  · rw [finish_buffer hlen,hnat _ le_rfl,if_neg (by omega),if_pos rfl]

/-- The text stands in the buffer as far as there is room, with its terminator, and nothing is
written behind it; the length of the whole text is returned. -/
theorem utlSnprintf_buffer (htext : printedText float port format va = some text)
    (hlen : text.length < 2 ^ 64) :
    ∃ buffer', utlSnprintf float port format va (some buffer) count =
        some (some buffer',BitVec.ofNat 32 text.length) ∧
      (count ≠ 0 → contents buffer' (min text.length (count.toNat - 1) + 1) =
        text.take (count.toNat - 1) ++ [nul]) ∧
      ∀ j, count = 0 ∨ min text.length (count.toNat - 1) < j.toNat → buffer' j = buffer j := by
  refine ⟨_,utlSnprintf_some htext,contents_finish hlen,fun j hj => ?_⟩
  rw [finish_buffer hlen]
  refine if_pos ?_
  rcases hj with rfl | hj
  · exact .inl (Nat.zero_le _)
  · exact .inr hj

/-- `"%d!"` of 42 in an array of three characters -/
theorem utlSnprintf_buffer_cut :
    ∃ buffer', utlSnprintf (fun _ _ _ _ _ => []) .linux ['%','d','!',nul] [.word 42]
        (some fun _ => '?') 3 = some (some buffer',3) ∧
      ((3 : SizeT) ≠ 0 → contents buffer' 3 = ['4','2',nul]) ∧
      ∀ j : SizeT, (3 : SizeT) = 0 ∨ 2 < j.toNat → buffer' j = '?' :=
  utlSnprintf_buffer (show printedText _ .linux ['%','d','!',nul] [.word 42] =
    some ['4','2','!'] from rfl) (by decide)

/-- The value that is returned tells whether the text is complete, unless it overflows. -/
theorem utlSnprintf_complete (htext : printedText float port format va = some text)
    (hlen : text.length < 2 ^ 31) :
    ∃ buffer' ret, utlSnprintf float port format va (some buffer) count =
        some (some buffer',ret) ∧
      if 0 ≤ ret.toInt ∧ ret.toInt < count.toNat then
        contents buffer' (text.length + 1) = text ++ [nul]
      else count.toNat ≤ text.length := by
  have hret : (BitVec.ofNat 32 text.length).toInt = text.length := by
    rw [BitVec.toInt_eq_toNat_cond,BitVec.toNat_ofNat,Nat.mod_eq_of_lt (by omega),
      if_pos (by omega)]
  refine ⟨_,_,utlSnprintf_some htext,?_⟩
  rw [hret]
  split
  · have hcount : count ≠ 0 := by
      rintro rfl
      simp at *
      omega
    have hle : text.length ≤ count.toNat - 1 := by omega
    have hbound : text.length < 2 ^ 64 := by omega
    have htake : contents (finish outBuffer count buffer text).1 _ = _ :=
      contents_finish hbound hcount
    rwa [min_eq_left hle,List.take_of_length_le hle] at htake
  · omega

theorem utlSnprintf_complete_fits :
    ∃ buffer' ret, utlSnprintf (fun _ _ _ _ _ => []) .linux ['%','d','!',nul] [.word 42]
        (some fun _ => '?') 4 = some (some buffer',ret) ∧
      if 0 ≤ ret.toInt ∧ ret.toInt < (4 : SizeT).toNat then contents buffer' 4 = ['4','2','!',nul]
      else (4 : SizeT).toNat ≤ 3 :=
  utlSnprintf_complete (show printedText _ .linux ['%','d','!',nul] [.word 42] =
    some ['4','2','!'] from rfl) (by decide)

end Buffer

section Stream

theorem outFct_nul {fct : Char → σ → σ} {arg : σ} {idx : SizeT} :
    outFct fct nul arg idx maxlen = arg :=
  if_neg (not_not.mpr rfl)

theorem finish_outFct {fct : Char → σ → σ} (arg : σ) : (finish (outFct fct) maxlen arg text).1 =
    (text.filter (· ≠ nul)).foldl (fun arg c => fct c arg) arg := by
  have hput : (fun (c : Char) (idx : SizeT) arg => outFct fct c arg idx maxlen) =
      fun c _ arg => if decide (c ≠ nul) = true then fct c arg else arg := by
    funext c idx arg
    simp [outFct]
  have hstream : (outAll (outFct fct) maxlen text (arg,0)).1 =
      (text.filter (· ≠ nul)).foldl (fun arg c => fct c arg) arg := by
    rw [outAll,hput]
    exact emit_stream
  rw [finish_fst,outFct_nul,hstream]

/-- The function is called for each character of the text, the `NUL` characters apart, which the
returned length counts. -/
theorem utlFctprintf_eq {fct : Char → σ → σ} {arg : σ} : utlFctprintf float port format va fct arg =
    (printedText float port format va).map fun text =>
      ((text.filter (· ≠ nul)).foldl (fun arg c => fct c arg) arg,
        BitVec.ofNat 32 text.length) := by
  rw [utlFctprintf,vsnprintf_finish]
  congr 1
  funext text
  exact Prod.ext (finish_outFct arg) (finish_snd arg)

theorem utlPrintf_eq {printed : List Char} : utlPrintf float port format va printed =
    (printedText float port format va).map fun text =>
      (printed ++ text.filter (· ≠ nul),BitVec.ofNat 32 text.length) := by
  have hfoldl (cs printed : List Char) :
      cs.foldl (fun printed c => printed ++ [c]) printed = printed ++ cs := by
    induction cs generalizing printed with
    | nil => simp
    | cons c cs ih => simp [ih]
  have hfct : utlPrintf float port format va printed =
      vsnprintf float port (outFct fun c printed => printed ++ [c]) (-1) printed format va := rfl
  rw [hfct,vsnprintf_finish]
  congr 1
  funext text
  exact Prod.ext ((finish_outFct printed).trans (hfoldl _ printed)) (finish_snd printed)

theorem utlSnprintf_null : utlSnprintf float port format va none count =
    (printedText float port format va).map fun text => (none,BitVec.ofNat 32 text.length) := by
  rw [utlSnprintf,vsnprintf_finish,Option.map_map]
  congr 1
  funext text
  exact Prod.ext rfl (finish_snd ())

end Stream

end Ods
