import Ods.FormatMeaning
import Ods.HexText

/-! What `_ntoa` makes of a number: its digits, leading zeros, the mark of the base and the sign, as
long as they take at most the 32 characters of its buffer. -/
namespace Ods
open HexText

variable {base : NumericBase} {uppercase negative : Bool} {n k room : Nat} {ds : List Char}
variable {buf : NtoaBuf} {c : Char} {flags : Flags} {precision width : BitVec 32} {value : BitVec 64}

section Zeros

theorem leftpad_leftpad {α : Type*} {a : α} {l : List α} {m : Nat} :
    (l.leftpad k a).leftpad m a = l.leftpad (max k m) a := by
  simp only [List.leftpad,List.length_append,List.length_replicate,← List.append_assoc,
    List.replicate_append_replicate]
  congr 2
  omega

theorem leftpad_of_le {α : Type*} {a : α} {l : List α} (h : k ≤ l.length) : l.leftpad k a = l := by
  rw [List.leftpad,Nat.sub_eq_zero_of_le h]
  rfl

namespace NtoaBuf

theorem len_le : buf.len ≤ 32 := buf.fits

theorem put_chars (h : buf.len < 32) : (buf.put c).chars = c :: buf.chars := by
  rw [put,dif_pos (by exact h)]

theorem putZeros_chars (h : k + buf.len ≤ 32) :
    (putZeros k buf).chars = List.replicate k '0' ++ buf.chars := by
  induction k generalizing buf with
  | zero => rfl
  | succ k ih =>
    have hput : (buf.put '0').chars = '0' :: buf.chars := put_chars (by omega)
    have hlen : (buf.put '0').len = buf.len + 1 := by rw [len,hput]; rfl
    rw [putZeros,ih (by omega),hput,List.replicate_succ',List.append_assoc]
    rfl

theorem pad_chars (h : k ≤ 32) : (buf.pad k).chars = buf.chars.leftpad k '0' := by
  have hlen := buf.len_le
  have hmin : min k printfNtoaBufferSize = k := min_eq_left h
  rw [pad,hmin,putZeros_chars (by omega)]
  rfl

/-- Of leading zeros one is taken back, of digits none. -/
theorem takeBack_chars (h : buf.chars = ds.leftpad k '0') :
    (buf.takeBack ds.length).chars = ds.leftpad (k - 1) '0' := by
  unfold takeBack
  have hlen : buf.len = max k ds.length := by rw [len,h,List.length_leftpad]
  by_cases hlt : ds.length < buf.len
  · have hsub : k - ds.length = (k - 1 - ds.length) + 1 := by omega
    have htail : buf.chars.tail = ds.leftpad (k - 1) '0' := by
      rw [h,List.leftpad,hsub]
      rfl
    rwa [if_pos hlt]
  · rw [if_neg hlt,h,leftpad_of_le (by omega),leftpad_of_le (by omega)]

end NtoaBuf

end Zeros

section Digits

theorem ntoaDigit_eq {d : Nat} (h : d < 16) :
    ntoaDigit d uppercase = if uppercase then digit d else Nat.digitChar d := by
  decide +revert

def numeral (base : NumericBase) (uppercase : Bool) (n : Nat) : List Char :=
  if uppercase then (Nat.toDigits base.value n).map Char.toUpper else Nat.toDigits base.value n

theorem NumericBase.value_bounds : 1 < base.value ∧ base.value ≤ 16 := by
  cases base <;> decide

theorem numeral_eq : numeral base uppercase n =
    if n < base.value then [ntoaDigit n uppercase]
    else numeral base uppercase (n / base.value) ++ [ntoaDigit (n % base.value) uppercase] := by
  obtain ⟨hb,hb'⟩ := base.value_bounds
  have hmod : n % base.value < 16 := (Nat.mod_lt n (by omega)).trans_le hb'
  rw [ntoaDigit_eq hmod]
  unfold numeral
  by_cases hn : n < base.value
  · rw [if_pos hn,ntoaDigit_eq (hn.trans_le hb'),Nat.toDigits_of_lt_base hn]
    cases uppercase <;> rfl
  · rw [if_neg hn]
    cases uppercase with
    | true => exact (upper_toDigits hb).trans (if_neg hn)
    | false => exact (Nat.toDigits_eq_if hb).trans (if_neg hn)

theorem numeral_ne_nil : numeral base uppercase n ≠ [] := by
  rw [numeral_eq]
  split <;> simp

/-- With room for them, `_ntoa` writes all digits. -/
theorem ntoaLoop_chars (hroom : (numeral base uppercase value.toNat).length ≤ room)
    (hbuf : room + buf.len ≤ 32) : (ntoaLoop base uppercase room value buf).chars =
      numeral base uppercase value.toNat ++ buf.chars := by
  obtain ⟨hb,hb'⟩ := base.value_bounds
  have hbase : (BitVec.ofNat 64 base.value).toNat = base.value := Nat.mod_eq_of_lt (by omega)
  induction room generalizing value buf with
  | zero => exact (numeral_ne_nil (List.length_eq_zero_iff.mp (Nat.le_zero.mp hroom))).elim
  | succ room ih =>
    have hdiv : (value / BitVec.ofNat 64 base.value).toNat = value.toNat / base.value := by
      rw [BitVec.toNat_udiv,hbase]
    have hmod : (value % BitVec.ofNat 64 base.value).toNat = value.toNat % base.value := by
      rw [BitVec.toNat_umod,hbase]
    have hput := buf.put_chars (c := ntoaDigit (value.toNat % base.value) uppercase) (by omega)
    have hlen : (buf.put (ntoaDigit (value.toNat % base.value) uppercase)).len = buf.len + 1 := by
      rw [NtoaBuf.len,hput]
      rfl
    have hzero : value / BitVec.ofNat 64 base.value = 0 ↔ value.toNat < base.value := by
      rw [← BitVec.toNat_inj,hdiv]
      exact Nat.div_eq_zero_iff_lt (by omega)
    rw [numeral_eq] at hroom ⊢
    simp only [ntoaLoop,hmod]
    by_cases hlt : value.toNat < base.value
    · rw [if_neg (not_not.mpr (hzero.mpr hlt)),if_pos hlt,hput,Nat.mod_eq_of_lt hlt]
      rfl
    · rw [if_neg hlt,List.length_append,List.length_singleton,← hdiv] at hroom
      rw [if_pos (mt hzero.mp hlt),if_neg hlt,ih (by omega) (by omega),hput,hdiv,List.append_assoc]
      rfl

theorem numeral_head (hn : n ≠ 0) : (numeral base uppercase n).head? ≠ some '0' := by
  induction n using Nat.strong_induction_on with
  | _ n ih =>
    obtain ⟨hb,hb'⟩ := base.value_bounds
    rw [numeral_eq]
    by_cases hlt : n < base.value
    · rw [if_pos hlt,List.head?_singleton,ntoaDigit_eq (hlt.trans_le hb')]
      have hdigit : ∀ d < 16, ∀ u : Bool, d ≠ 0 →
          (if u then digit d else Nat.digitChar d) ≠ '0' := by decide
      have h := hdigit n (hlt.trans_le hb') uppercase hn
      simpa using h
    · rw [if_neg hlt,List.head?_append_of_ne_nil _ numeral_ne_nil]
      have hdiv : n / base.value ≠ 0 := by
        rw [Nat.div_ne_zero_iff]
        omega
      exact ih _ (Nat.div_lt_self (by omega) hb) hdiv

def ntoaNumeral (base : NumericBase) (flags : Flags) (n : Nat) : List Char :=
  if n = 0 ∧ flags.precision = true then [] else numeral base flags.uppercase n

theorem ntoaNumeral_of_ne (hn : n ≠ 0) :
    ntoaNumeral base flags n = numeral base flags.uppercase n :=
  if_neg fun h => hn h.1

theorem ntoaDigits_chars (h : (ntoaNumeral base flags value.toNat).length ≤ 32) :
    (ntoaDigits value base flags).1.chars = ntoaNumeral base flags value.toNat := by
  have hone : numeral base flags.uppercase 0 = ['0'] := by
    cases base <;> cases flags.uppercase <;> rfl
  unfold ntoaDigits
  by_cases hv : value = 0
  · subst hv
    rw [if_pos rfl]
    cases hp : flags.precision with
    | false =>
      have hnumeral : ntoaNumeral base flags 0 = ['0'] := by simp [ntoaNumeral,hp,hone]
      exact hnumeral.symm
    | true =>
      have hnumeral : ntoaNumeral base flags 0 = [] := by simp [ntoaNumeral,hp]
      cases base <;> exact hnumeral.symm
  · have hn : value.toNat ≠ 0 := fun h0 => hv (BitVec.eq_of_toNat_eq h0)
    rw [ntoaNumeral_of_ne hn] at h ⊢
    rw [if_neg hv]
    have hloop : (ntoaLoop base flags.uppercase 32 value .empty).chars =
        numeral base flags.uppercase value.toNat ++ [] := ntoaLoop_chars h (by decide)
    exact hloop.trans (List.append_nil _)

theorem ntoaDigits_flags : (ntoaDigits value base flags).2 =
    { flags with hash := flags.hash && (value ≠ 0 || (flags.precision && base ≠ .hex)) } := by
  unfold ntoaDigits
  by_cases hv : value = 0
  · obtain ⟨zeropad,left,plus,space,hash,uppercase,char,short,long,longLong,precision⟩ := flags
    cases precision <;> cases base <;> simp [hv]
  · have hne : decide (value ≠ 0) = true := decide_eq_true hv
    rw [if_neg hv,hne,Bool.true_or,Bool.and_true]

end Digits

section Format

def signText (negative : Bool) (flags : Flags) : List Char :=
  if negative then ['-'] else if flags.plus then ['+'] else if flags.space then [' '] else []

def hexMark (base : NumericBase) (flags : Flags) : List Char :=
  if flags.hash && base = .hex then ['0',if flags.uppercase then 'X' else 'x'] else []

def octalZero (base : NumericBase) (flags : Flags) (ds : List Char) : List Char :=
  if flags.hash && base = .octal && ds.head? ≠ some '0' then '0' :: ds else ds

def markedDigits (base : NumericBase) (flags : Flags) (precision width : Nat)
    (ds : List Char) : List Char :=
  let ds := octalZero base flags (ds.leftpad precision '0')
  hexMark base flags ++ if flags.zeropad && !flags.left then
    ds.leftpad (width - (hexMark base flags).length) '0' else ds

structure Effective (base : NumericBase) (precision : BitVec 32) (flags : Flags) : Prop where
  notBinary : base ≠ .binary
  pointer : flags.pointer = false
  decimal : base = .decimal → flags.hash = false
  precision : flags.precision = false → precision = 0
  zeropad : flags.precision = true → flags.zeropad = false

theorem length_signText : (signText negative flags).length =
    if negative || flags.plus || flags.space then 1 else 0 := by
  unfold signText
  cases negative <;> cases flags.plus <;> cases flags.space <;> rfl

theorem ntoaWidth_toNat : (ntoaWidth negative width flags).toNat =
    if flags.zeropad && !flags.left then width.toNat - (signText negative flags).length
    else width.toNat := by
  rw [length_signText]
  unfold ntoaWidth
  by_cases hw : width = 0
  · subst hw
    simp
  · have hpos : (width - 1).toNat = width.toNat - 1 := by
      have hne : width.toNat ≠ 0 := fun h => hw (BitVec.eq_of_toNat_eq h)
      have hone : (1 : BitVec 32).toNat = 1 := rfl
      rw [BitVec.toNat_sub_of_le (by rw [BitVec.le_def,hone]; omega),hone]
    have hnot : decide (width ≠ 0) = true := decide_eq_true hw
    rw [hnot]
    cases flags.left <;> cases flags.zeropad <;>
      cases negative || flags.plus || flags.space <;> first | exact hpos | rfl

def zerosTo (precision width : BitVec 32) (flags : Flags) : Nat :=
  if flags.zeropad && !flags.left then width.toNat else precision.toNat

theorem ntoaZeros_chars (hzero : flags.zeropad = true → precision = 0)
    (h : zerosTo precision width flags ≤ 32) :
    (ntoaZeros buf precision width flags).chars =
      buf.chars.leftpad (zerosTo precision width flags) '0' := by
  unfold ntoaZeros zerosTo at *
  by_cases hz : (flags.zeropad && !flags.left) = true
  · have hz' : (!flags.left && flags.zeropad) = true := by rwa [Bool.and_comm]
    have hp : precision = 0 := hzero (Bool.and_eq_true_iff.mp hz).1
    rw [if_pos hz] at h ⊢
    subst hp
    have hpad : ((buf.pad width.toNat).pad 0).chars = (buf.pad width.toNat).chars :=
      (NtoaBuf.pad_chars (Nat.zero_le 32)).trans (leftpad_of_le (Nat.zero_le _))
    rw [if_pos hz']
    exact hpad.trans (NtoaBuf.pad_chars h)
  · have hz' : ¬ (!flags.left && flags.zeropad) = true := by rwa [Bool.and_comm]
    rw [if_neg hz] at h ⊢
    rw [if_neg hz']
    exact NtoaBuf.pad_chars h

theorem ntoaSign_chars (h : (signText negative flags).length + buf.len ≤ 32) :
    (ntoaSign buf negative flags).chars = signText negative flags ++ buf.chars := by
  rw [length_signText] at h
  unfold ntoaSign signText
  cases negative with
  | true => exact NtoaBuf.put_chars (by simp at h; omega)
  | false =>
    cases hp : flags.plus with
    | true => exact NtoaBuf.put_chars (by simp [hp] at h; omega)
    | false =>
      cases hs : flags.space with
      | true => exact NtoaBuf.put_chars (by simp [hp,hs] at h; omega)
      | false => rfl

theorem ntoaHash_off (hhash : flags.hash = false) (hpointer : flags.pointer = false) :
    ntoaHash buf k base precision width flags = buf := by
  rw [ntoaHash,hhash,hpointer]
  rfl

/-- Without leading zeros there is nothing to take back. -/
theorem ntoaHash_octal (hhash : flags.hash = true) (hlen : buf.len = k) (h : buf.len < 32) :
    (ntoaHash buf k .octal precision width flags).chars = '0' :: buf.chars := by
  have hback : buf.takeBack k = buf := if_neg (by omega)
  unfold ntoaHash
  simp only [hhash,hback,Bool.true_or,if_true,ite_self,Bool.and_false,reduceCtorEq,decide_false,
    Bool.false_and,Bool.false_eq_true,if_false]
  exact NtoaBuf.put_chars h

def hexZeros (precision width : BitVec 32) (flags : Flags) : Nat :=
  if flags.zeropad && !flags.left then width.toNat - 2 else precision.toNat

def hexTakenBack (buf : NtoaBuf) (unpaddedLen : Nat) (precision width : BitVec 32)
    (flags : Flags) : NtoaBuf :=
  if !flags.precision && buf.len ≠ 0 &&
      (buf.len = precision.toNat || buf.len = width.toNat) then
    let buf := buf.takeBack unpaddedLen
    if buf.len ≠ 0 then buf.takeBack unpaddedLen else buf
  else buf

theorem ntoaHash_hex (hhash : flags.hash = true) : ntoaHash buf k .hex precision width flags =
    ((hexTakenBack buf k precision width flags).put (if flags.uppercase then 'X' else 'x')).put
      '0' := by
  unfold ntoaHash hexTakenBack
  cases flags.uppercase <;> simp [hhash]

theorem hexTakenBack_chars (he : Effective base precision flags) (hds : flags.precision = false → ds ≠ [])
    (hbuf : buf.chars = ds.leftpad (zerosTo precision width flags) '0') :
    (hexTakenBack buf ds.length precision width flags).chars =
      ds.leftpad (hexZeros precision width flags) '0' := by
  have hlen : buf.len = max (zerosTo precision width flags) ds.length := by
    rw [NtoaBuf.len,hbuf,List.length_leftpad]
  unfold hexTakenBack zerosTo hexZeros at *
  cases hp : flags.precision with
  | true => simpa [hp,he.zeropad hp] using hbuf
  | false =>
    have hprecision : precision = 0 := he.precision hp
    have hpos : 0 < ds.length := List.length_pos_iff.mpr (hds hp)
    by_cases hfill : (flags.zeropad && !flags.left) = true
    · rw [if_pos hfill] at hbuf hlen ⊢
      have hback := NtoaBuf.takeBack_chars hbuf
      by_cases hw : ds.length ≤ width.toNat
      · have hlen' : (buf.takeBack ds.length).len ≠ 0 := by
          rw [NtoaBuf.len,hback,List.length_leftpad]
          omega
        have hcond : (!false && decide (buf.len ≠ 0) &&
            (decide (buf.len = precision.toNat) || decide (buf.len = width.toNat))) = true := by
          simp
          omega
        rw [if_pos hcond]
        dsimp only
        rw [if_pos hlen']
        exact NtoaBuf.takeBack_chars hback
      · have hcond : ¬ (!false && decide (buf.len ≠ 0) &&
            (decide (buf.len = precision.toNat) || decide (buf.len = width.toNat))) = true := by
          subst hprecision
          simp
          omega
        rw [if_neg hcond,hbuf,leftpad_of_le (by omega),leftpad_of_le (by omega)]
    · rw [if_neg hfill] at hbuf hlen ⊢
      subst hprecision
      have hback : buf.takeBack ds.length = buf := by
        have hzero : (0 : BitVec 32).toNat = 0 := rfl
        exact if_neg (by omega)
      rw [hback]
      dsimp only
      rw [hback,ite_self,ite_self]
      exact hbuf

theorem Effective.precision_eq (he : Effective base precision flags)
    (hfill : (flags.zeropad && !flags.left) = true) : precision.toNat = 0 := by
  have hp : flags.precision = false := by
    by_contra hp
    have hz := he.zeropad (Bool.eq_true_of_not_eq_false hp)
    simp [hz] at hfill
  exact congrArg BitVec.toNat (he.precision hp)

theorem leftpad_zero_digits {ds : List Char} : ds.leftpad 0 '0' = ds := leftpad_of_le (Nat.zero_le _)

theorem markedDigits_off (he : Effective base precision flags) (hhash : flags.hash = false) :
    markedDigits base flags precision.toNat width.toNat ds =
      ds.leftpad (zerosTo precision width flags) '0' := by
  have hmark : hexMark base flags = [] := by simp [hexMark,hhash]
  have hoctal : octalZero base flags (ds.leftpad precision.toNat '0') =
      ds.leftpad precision.toNat '0' := by simp [octalZero,hhash]
  unfold markedDigits zerosTo
  dsimp only
  rw [hmark,hoctal]
  by_cases hfill : (flags.zeropad && !flags.left) = true
  · rw [if_pos hfill,if_pos hfill,he.precision_eq hfill,leftpad_zero_digits]
    rfl
  · rw [if_neg hfill,if_neg hfill]
    rfl

theorem markedDigits_hex (he : Effective .hex precision flags) (hhash : flags.hash = true) :
    markedDigits .hex flags precision.toNat width.toNat ds =
      hexMark .hex flags ++ ds.leftpad (hexZeros precision width flags) '0' := by
  have hlen : (hexMark .hex flags).length = 2 := by simp [hexMark,hhash]
  have hoctal : octalZero .hex flags (ds.leftpad precision.toNat '0') =
      ds.leftpad precision.toNat '0' := by simp [octalZero]
  unfold markedDigits hexZeros
  dsimp only
  rw [hlen,hoctal]
  by_cases hfill : (flags.zeropad && !flags.left) = true
  · rw [if_pos hfill,if_pos hfill,he.precision_eq hfill,leftpad_zero_digits]
  · rw [if_neg hfill,if_neg hfill]

theorem octalZero_of_head (hhead : ds.head? = some '0') : octalZero base flags ds = ds := by
  simp [octalZero,hhead]

theorem octalZero_octal (hhash : flags.hash = true) (hhead : ds.head? ≠ some '0') :
    octalZero .octal flags ds = '0' :: ds := by
  simp [octalZero,hhash,hhead]

theorem head_leftpad (h : ds.length < k) : (ds.leftpad k '0').head? = some '0' := by
  obtain ⟨m,hm⟩ := Nat.exists_eq_add_of_lt h
  have hsub : k - ds.length = m + 1 := by omega
  rw [List.leftpad,hsub]
  rfl

/-- Where there are leading zeros, an octal number has its zero. -/
theorem markedDigits_octal (he : Effective .octal precision flags) (hhash : flags.hash = true)
    (hhead : ds.head? ≠ some '0') :
    markedDigits .octal flags precision.toNat width.toNat ds =
      if ds.length < zerosTo precision width flags then
        ds.leftpad (zerosTo precision width flags) '0'
      else '0' :: ds := by
  have hmark : hexMark .octal flags = [] := by simp [hexMark]
  unfold markedDigits zerosTo
  dsimp only
  rw [hmark]
  by_cases hfill : (flags.zeropad && !flags.left) = true
  · rw [if_pos hfill,if_pos hfill,he.precision_eq hfill,leftpad_zero_digits,
      octalZero_octal hhash hhead]
    have hcons : '0' :: ds = ds.leftpad (ds.length + 1) '0' := by simp [List.leftpad]
    split
    · rw [hcons,leftpad_leftpad,max_eq_right (by simp; omega)]
      rfl
    · rw [leftpad_of_le (by simp; omega)]
      rfl
  · rw [if_neg hfill,if_neg hfill]
    split
    · rename_i hlt
      rw [octalZero_of_head (head_leftpad hlt)]
      rfl
    · rw [leftpad_of_le (by omega),octalZero_octal hhash hhead]
      rfl

theorem zerosTo_le :
    zerosTo precision width flags ≤
      (markedDigits base flags precision.toNat width.toNat ds).length := by
  unfold markedDigits zerosTo
  dsimp only
  by_cases hfill : (flags.zeropad && !flags.left) = true
  · rw [if_pos hfill,if_pos hfill,List.length_append,List.length_leftpad]
    omega
  · rw [if_neg hfill,if_neg hfill,List.length_append]
    have hpad : precision.toNat ≤ (ds.leftpad precision.toNat '0').length := by
      rw [List.length_leftpad]
      exact le_max_left _ _
    have hoctal : (ds.leftpad precision.toNat '0').length ≤
        (octalZero base flags (ds.leftpad precision.toNat '0')).length := by
      unfold octalZero
      split
      · exact Nat.le_succ _
      · exact le_rfl
    omega

theorem ntoaZeros_len (he : Effective base precision flags)
    (h : (markedDigits base flags precision.toNat width.toNat buf.chars).length ≤ 32) :
    (ntoaZeros buf precision width flags).chars =
      buf.chars.leftpad (zerosTo precision width flags) '0' := by
  refine ntoaZeros_chars (fun hzero => he.precision ?_) (zerosTo_le.trans h)
  by_contra hp
  exact Bool.noConfusion ((he.zeropad (Bool.eq_true_of_not_eq_false hp)).symm.trans hzero)

/-- What the leading zeros and the mark make of the digits in `buf`. -/
theorem ntoaHash_chars (he : Effective base precision flags)
    (hds : flags.precision = false → buf.chars ≠ [])
    (hhead : flags.hash = true → buf.chars.head? ≠ some '0')
    (h : (markedDigits base flags precision.toNat width.toNat buf.chars).length ≤ 32) :
    (ntoaHash (ntoaZeros buf precision width flags) buf.len base precision width
      (if base = .octal && buf.len < (ntoaZeros buf precision width flags).len then
        { flags with hash := false } else flags)).chars =
      markedDigits base flags precision.toNat width.toNat buf.chars := by
  have hzeros := ntoaZeros_len he h
  have hlen : (ntoaZeros buf precision width flags).len =
      max (zerosTo precision width flags) buf.len := by
    rw [NtoaBuf.len,hzeros,List.length_leftpad]
    rfl
  have hnone : ntoaHash (ntoaZeros buf precision width flags) buf.len base precision width
      { flags with hash := false } = ntoaZeros buf precision width flags :=
    ntoaHash_off rfl he.pointer
  by_cases hhash : flags.hash = true
  · cases base with
    | binary => exact (he.notBinary rfl).elim
    | decimal => exact Bool.noConfusion ((he.decimal rfl).symm.trans hhash)
    | octal =>
      rw [markedDigits_octal he hhash (hhead hhash)] at h ⊢
      have hdef : buf.len = buf.chars.length := rfl
      by_cases hlt : buf.chars.length < zerosTo precision width flags
      · rw [if_pos (by simp; omega),hnone,hzeros,if_pos hlt]
      · have hlen' : (ntoaZeros buf precision width flags).len = buf.len := by omega
        rw [if_neg hlt,List.length_cons] at h
        rw [if_neg (by simp; omega),ntoaHash_octal hhash hlen' (by rw [hlen']; exact h),hzeros,
          if_neg hlt,leftpad_of_le (Nat.le_of_not_lt hlt)]
    | hex =>
      rw [markedDigits_hex he hhash] at h ⊢
      have hmark : hexMark .hex flags = ['0',if flags.uppercase then 'X' else 'x'] := by
        simp [hexMark,hhash]
      have hback := hexTakenBack_chars he hds hzeros
      rw [hmark,← hback] at h ⊢
      have hroom : (hexTakenBack (ntoaZeros buf precision width flags) buf.len precision width
          flags).len + 2 ≤ 32 := by
        rw [List.length_append,Nat.add_comm] at h
        exact h
      have hput := NtoaBuf.put_chars (c := if flags.uppercase then 'X' else 'x')
        (Nat.lt_of_succ_lt hroom)
      rw [if_neg (by simp),ntoaHash_hex hhash,NtoaBuf.put_chars,hput]
      · rfl
      · rw [NtoaBuf.len,hput]
        exact hroom
  · have hoff := Bool.eq_false_of_not_eq_true hhash
    rw [markedDigits_off he hoff,← hzeros]
    split
    · rw [hnone]
    · rw [ntoaHash_off hoff he.pointer]

def ntoaNumber (base : NumericBase) (flags : Flags) (precision width : BitVec 32) (negative : Bool)
    (ds : List Char) : List Char :=
  signText negative flags ++
    markedDigits base flags precision.toNat (ntoaWidth negative width flags).toNat ds

theorem ntoaFormatBuf_chars (he : Effective base precision flags)
    (hds : flags.precision = false → buf.chars ≠ [])
    (hhead : flags.hash = true → buf.chars.head? ≠ some '0')
    (h : (ntoaNumber base flags precision width negative buf.chars).length ≤ 32) :
    (ntoaFormatBuf buf negative base precision width flags).chars =
      ntoaNumber base flags precision width negative buf.chars := by
  rw [ntoaNumber,List.length_append] at h
  have hmarked : (markedDigits base flags precision.toNat (ntoaWidth negative width flags).toNat
      buf.chars).length ≤ 32 := by omega
  have hhash := ntoaHash_chars he hds hhead hmarked
  unfold ntoaFormatBuf ntoaNumber
  dsimp only
  rw [← hhash] at h ⊢
  have hsign (flags' : Flags) (hf : flags' = if base = .octal && buf.len <
      (ntoaZeros buf precision (ntoaWidth negative width flags) flags).len then
        { flags with hash := false } else flags) :
      signText negative flags' = signText negative flags := by
    rw [hf]
    split <;> rfl
  rw [ntoaSign_chars]
  · rw [hsign _ rfl]
  · rw [hsign _ rfl]
    exact h

end Format

end Ods
