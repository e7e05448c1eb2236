import Mathlib.Data.List.Basic
import Mathlib.Data.Nat.Digits.Defs

/-! Zero-padded numerals and bytes in hexadecimal, written and read back; and a list cut into
rows. Nothing here knows what the texts are for. -/
namespace HexText

section Numerals
variable {b d k n w : Nat} {c : Char}

def digit (d : Nat) : Char := (Nat.digitChar d).toUpper

def padded (b w n : Nat) : List Char := ((Nat.toDigits b n).map Char.toUpper).leftpad w '0'

def digitValue (c : Char) : Option Nat :=
  if '0' ≤ c ∧ c ≤ '9' then some (c.toNat - '0'.toNat)
  else if 'A' ≤ c ∧ c ≤ 'F' then some (c.toNat - 'A'.toNat + 10)
  else none

def readDigits (b v : Nat) (cs : List Char) : Option Nat :=
  cs.foldlM (fun v c => (digitValue c).map (b * v + ·)) v

def readNumeral (b : Nat) (cs : List Char) : Option Nat := readDigits b 0 cs

theorem digitValue_digit (h : d < 16) : digitValue (digit d) = some d := by
  decide +revert

theorem readDigits_append (v : Nat) (cs ds : List Char) :
    readDigits b v (cs ++ ds) = (readDigits b v cs).bind fun v => readDigits b v ds :=
  List.foldlM_append

theorem readDigits_digit (v : Nat) (h : d < 16) : readDigits b v [digit d] = some (b * v + d) := by
  simp [readDigits,digitValue_digit h]

/-- The digits of a numeral, the last one apart. -/
theorem upper_toDigits (hb : 1 < b) : (Nat.toDigits b n).map Char.toUpper =
    if n < b then [digit n] else (Nat.toDigits b (n / b)).map Char.toUpper ++ [digit (n % b)] := by
  rw [Nat.toDigits_eq_if hb]
  split
  · rfl
  · rw [List.map_append]
    rfl

/-- What can be read are digits. -/
theorem digitValue_of_readDigits {v : Nat} {cs : List Char} (h : readDigits b v cs = some n)
    (hc : c ∈ cs) : digitValue c ≠ none := by
  induction cs generalizing v with
  | nil => cases hc
  | cons d cs ih =>
    rw [← List.singleton_append,readDigits_append,Option.bind_eq_some_iff] at h
    obtain ⟨v',hd,hcs⟩ := h
    rcases List.mem_cons.mp hc with rfl | hc
    · intro hnone
      simp [readDigits,hnone] at hd
    · exact ih hcs hc

theorem readDigits_toDigits (hb : 1 < b) (hb' : b ≤ 16) :
    readDigits b 0 ((Nat.toDigits b n).map Char.toUpper) = some n := by
  induction n using Nat.strong_induction_on with
  | _ n ih =>
    rw [upper_toDigits hb]
    split
    · rename_i hn
      rw [readDigits_digit 0 (hn.trans_le hb')]
      simp
    · rename_i hn
      have hlt : n / b < n := Nat.div_lt_self (by omega) hb
      have hmod : n % b < 16 := (Nat.mod_lt n (by omega)).trans_le hb'
      rw [readDigits_append,ih _ hlt,Option.bind_some,readDigits_digit _ hmod,Nat.div_add_mod]

theorem readDigits_zeros (k : Nat) (cs : List Char) :
    readDigits b 0 (List.replicate k '0' ++ cs) = readDigits b 0 cs := by
  induction k with
  | zero => rfl
  | succ k ih =>
    have hzero : readDigits b 0 ['0'] = some 0 := by
      rw [show '0' = digit 0 from rfl,readDigits_digit 0 (by decide)]
      rfl
    rw [List.replicate_succ,List.cons_append,← List.singleton_append,readDigits_append,hzero,
      Option.bind_some,ih]

theorem readNumeral_padded (hb : 1 < b) (hb' : b ≤ 16) : readNumeral b (padded b w n) = some n := by
  rw [readNumeral,padded,List.leftpad,readDigits_zeros,readDigits_toDigits hb hb']

theorem length_padded : (padded b w n).length = max w (Nat.toDigits b n).length := by
  rw [padded,List.length_leftpad,List.length_map]

/-- The width is what a numeral takes that fits into it. -/
theorem length_padded_of_lt (hb : 1 < b) (hw : 0 < w) (hn : n < b ^ w) :
    (padded b w n).length = w := by
  rw [length_padded]
  exact max_eq_left ((Nat.length_toDigits_le_iff hb hw).mpr hn)

theorem length_padded_le (hb : 1 < b) (hk : 0 < k) (hwk : w ≤ k) (hn : n < b ^ k) :
    (padded b w n).length ≤ k := by
  rw [length_padded]
  exact max_le hwk ((Nat.length_toDigits_le_iff hb hk).mpr hn)

theorem mem_upper_toDigits (hb : 1 < b) (h : c ∈ (Nat.toDigits b n).map Char.toUpper) :
    ∃ d < b, c = digit d := by
  induction n using Nat.strong_induction_on with
  | _ n ih =>
    rw [upper_toDigits hb] at h
    split at h
    · rename_i hn
      exact ⟨n,hn,List.mem_singleton.mp h⟩
    · rename_i hn
      rcases List.mem_append.mp h with h | h
      · exact ih _ (Nat.div_lt_self (by omega) hb) h
      · exact ⟨n % b,Nat.mod_lt n (by omega),List.mem_singleton.mp h⟩

theorem mem_padded (hb : 1 < b) (h : c ∈ padded b w n) : ∃ d < b, c = digit d := by
  rcases List.mem_append.mp h with h | h
  · exact ⟨0,by omega,List.eq_of_mem_replicate h⟩
  · exact mem_upper_toDigits hb h

/-- A numeral has no characters but digits. -/
theorem not_mem_padded (hb : 1 < b) (hb' : b ≤ 16) (hc : digitValue c = none) :
    c ∉ padded b w n := by
  intro h
  obtain ⟨d,hd,rfl⟩ := mem_padded hb h
  rw [digitValue_digit (hd.trans_le hb')] at hc
  cases hc

structure Numbered where
  width : Nat
  value : Nat
  sep : Char

def writeNumbers (ns : List Numbered) : List Char :=
  ns.flatMap fun n => padded 10 n.width n.value ++ [n.sep]

def readNumbers : List Char → List Char → Option (List Nat × List Char)
  | [], cs => some ([],cs)
  | sep :: seps, cs => do
    let n ← readNumeral 10 (cs.takeWhile (· ≠ sep))
    let (ns,cs) ← readNumbers seps (cs.dropWhile (· ≠ sep)).tail
    some (n :: ns,cs)

theorem readNumbers_writeNumbers {ns : List Numbered} {rest : List Char}
    (h : ∀ n ∈ ns, digitValue n.sep = none) :
    readNumbers (ns.map Numbered.sep) (writeNumbers ns ++ rest) =
      some (ns.map Numbered.value,rest) := by
  induction ns with
  | nil => rfl
  | cons n ns ih =>
    obtain ⟨hsep,hall⟩ := List.forall_mem_cons.mp h
    have htext : writeNumbers (n :: ns) ++ rest =
        padded 10 n.width n.value ++ n.sep :: (writeNumbers ns ++ rest) := by
      simp [writeNumbers]
    have hdigits : ∀ c ∈ padded 10 n.width n.value, decide (c ≠ n.sep) = true := by
      intro c hc
      refine decide_eq_true fun he => ?_
      exact not_mem_padded (by decide) (by decide) hsep (he ▸ hc)
    have hread : readNumeral 10 (padded 10 n.width n.value) = some n.value :=
      readNumeral_padded (by decide) (by decide)
    have htake : (padded 10 n.width n.value ++ n.sep :: (writeNumbers ns ++ rest)).takeWhile
        (· ≠ n.sep) = padded 10 n.width n.value := by
      rw [List.takeWhile_append_of_pos hdigits]
      simp
    have hdrop : (padded 10 n.width n.value ++ n.sep :: (writeNumbers ns ++ rest)).dropWhile
        (· ≠ n.sep) = n.sep :: (writeNumbers ns ++ rest) := by
      rw [List.dropWhile_append_of_pos hdigits]
      simp
    rw [htext,List.map_cons,readNumbers,htake,hdrop,hread,List.tail_cons,ih hall]
    rfl

end Numerals

section Bytes
variable {c : Char}

def hexBytes (bs : List (BitVec 8)) : List Char := bs.flatMap fun v => padded 16 2 v.toNat

def readBytes : List Char → Option (List (BitVec 8))
  | [] => some []
  | [_] => none
  | c :: d :: cs => do
    let v ← readNumeral 16 [c,d]
    let bs ← readBytes cs
    some (BitVec.ofNat 8 v :: bs)

theorem hexBytes_cons (v : BitVec 8) (bs : List (BitVec 8)) :
    hexBytes (v :: bs) = padded 16 2 v.toNat ++ hexBytes bs :=
  List.flatMap_cons

theorem readBytes_hexBytes (bs : List (BitVec 8)) : readBytes (hexBytes bs) = some bs := by
  induction bs with
  | nil => rfl
  | cons v bs ih =>
    have hlen : (padded 16 2 v.toNat).length = 2 :=
      length_padded_of_lt (by decide) (by decide) v.isLt
    have hread : readNumeral 16 (padded 16 2 v.toNat) = some v.toNat :=
      readNumeral_padded (by decide) (by decide)
    obtain ⟨c,d,hcd⟩ := List.length_eq_two.mp hlen
    rw [hcd] at hread
    simp [hexBytes_cons,hcd,readBytes,hread,ih]

theorem not_mem_hexBytes {bs : List (BitVec 8)} (hc : digitValue c = none) : c ∉ hexBytes bs := by
  intro h
  obtain ⟨v,-,hv⟩ := List.mem_flatMap.mp h
  exact not_mem_padded (by decide) (by decide) hc hv

end Bytes

/-- Pieces that each end with a separator, and hold no other, are told apart. -/
theorem splitOn_terminated {α : Type*} [BEq α] [LawfulBEq α] {a : α} {ls : List (List α)}
    (h : ∀ l ∈ ls, a ∉ l) : (ls.flatMap fun l => l ++ [a]).splitOn a = ls ++ [[]] := by
  induction ls with
  | nil => rfl
  | cons l ls ih =>
    have hl := h l List.mem_cons_self
    have hls := ih fun l hm => h l (List.mem_cons_of_mem _ hm)
    rw [List.flatMap_cons,List.append_assoc,List.singleton_append,
      List.splitOn_append_cons_self_of_not_mem hl,hls]
    rfl

section Rows
variable {α : Type*} {w i k : Nat} {xs : List α} {r : Nat × List α}

/-- `xs` cut into rows of `w`, each with the position of its first element; `i` is the first. -/
def rows (w i : Nat) (xs : List α) : List (Nat × List α) :=
  if xs = [] ∨ w = 0 then [] else (i,xs.take w) :: rows w (i + w) (xs.drop w)
termination_by xs.length
decreasing_by
  rename_i h
  obtain ⟨hne,hw⟩ := not_or.mp h
  have hpos : 0 < xs.length := List.length_pos_iff.mpr hne
  rw [List.length_drop]
  omega

theorem rows_nil : rows w i ([] : List α) = [] := by
  rw [rows,if_pos (.inl rfl)]

theorem rows_of_ne_nil (hw : 0 < w) (h : xs ≠ []) :
    rows w i xs = (i,xs.take w) :: rows w (i + w) (xs.drop w) := by
  rw [rows,if_neg (by simp [h,hw.ne'])]

/-- Induction along the rows. -/
theorem rows_induction (hw : 0 < w) {motive : Nat → List α → Prop} (nil : ∀ i, motive i [])
    (cons : ∀ i xs, xs ≠ [] → motive (i + w) (xs.drop w) → motive i xs) (i : Nat) (xs : List α) :
    motive i xs := by
  induction hn : xs.length using Nat.strong_induction_on generalizing i xs with
  | _ n ih =>
    by_cases h : xs = []
    · exact h ▸ nil i
    · have hpos : 0 < xs.length := List.length_pos_iff.mpr h
      refine cons i xs h (ih _ ?_ (i + w) (xs.drop w) rfl)
      rw [List.length_drop]
      omega

theorem rows_flatMap (hw : 0 < w) : (rows w i xs).flatMap Prod.snd = xs := by
  induction i, xs using rows_induction hw with
  | nil i => rw [rows_nil]; rfl
  | cons i xs h ih => rw [rows_of_ne_nil hw h,List.flatMap_cons,ih,List.take_append_drop]

theorem rows_length (hw : 0 < w) : (rows w i xs).length = (xs.length + (w - 1)) / w := by
  induction i, xs using rows_induction hw with
  | nil i =>
    rw [rows_nil,List.length_nil,List.length_nil,Nat.zero_add]
    exact (Nat.div_eq_of_lt (by omega)).symm
  | cons i xs h ih =>
    have hpos : 0 < xs.length := List.length_pos_iff.mpr h
    rw [rows_of_ne_nil hw h,List.length_cons,ih,List.length_drop]
    by_cases hle : xs.length ≤ w
    · rw [Nat.sub_eq_zero_of_le hle,Nat.zero_add,Nat.div_eq_of_lt (by omega)]
      exact (Nat.div_eq_of_lt_le (by omega) (by omega)).symm
    · rw [← Nat.add_div_right _ hw]
      congr 1
      omega

/-- What the row number `k` holds, and where it begins. -/
theorem rows_getElem? (hw : 0 < w) (h : (rows w i xs)[k]? = some r) :
    r = (i + w * k,(xs.drop (w * k)).take w) := by
  induction i, xs using rows_induction hw generalizing k with
  | nil i =>
    rw [rows_nil] at h
    simp at h
  | cons i xs hne ih =>
    rw [rows_of_ne_nil hw hne] at h
    cases k with
    | zero =>
      cases h
      simp
    | succ k =>
      rw [List.getElem?_cons_succ] at h
      rw [ih h,List.drop_drop,Nat.mul_succ]
      congr 1 <;> ring_nf

end Rows

end HexText
