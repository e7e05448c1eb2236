import Ods.HexText

/-! Numerals of one width, and texts made of them, stand in the order of characters as the
numbers do. -/
namespace HexText

section Lists
variable {α : Type*} [LT α] [DecidableEq α] {as bs cs ds : List α}

/-- Texts that begin with pieces of the same length are compared by these first. -/
theorem append_lt_append_iff [Std.Irrefl (α := α) (· < ·)] (h : as.length = bs.length) :
    as ++ cs < bs ++ ds ↔ as < bs ∨ as = bs ∧ cs < ds := by
  induction as generalizing bs with
  | nil =>
    obtain rfl := List.eq_nil_of_length_eq_zero h.symm
    simp
  | cons a as ih =>
    cases bs with
    | nil => cases h
    | cons b bs =>
      have hlen : as.length = bs.length := Nat.succ.inj h
      simp only [List.cons_append,List.cons_lt_cons_iff,ih hlen,List.cons.injEq]
      tauto

end Lists

section Order
variable {b d e k m n v w : Nat} {cs ds : List Char}

theorem digit_lt_iff (hd : d < 16) (he : e < 16) : digit d < digit e ↔ d < e := by
  have hall : ∀ d < 16, ∀ e < 16, digit d < digit e ↔ d < e := by decide
  exact hall d hd e he

theorem digit_inj (hd : d < 16) (he : e < 16) (h : digit d = digit e) : d = e := by
  have hd' := digitValue_digit hd
  rw [h,digitValue_digit he] at hd'
  exact (Option.some.inj hd').symm

def Digits (b : Nat) (cs : List Char) : Prop := ∀ c ∈ cs, ∃ d < b, c = digit d

theorem readDigits_cons (hd : d < 16) :
    readDigits b v (digit d :: cs) = readDigits b (b * v + d) cs := by
  rw [← List.singleton_append,readDigits_append,readDigits_digit v hd,Option.bind_some]

/-- A number that was ahead stays ahead. -/
theorem readDigits_lt {v' : Nat} (hb : b ≤ 16) (hlen : cs.length = ds.length) (hc : Digits b cs)
    (hd : Digits b ds) (hm : readDigits b v cs = some m) (hn : readDigits b v' ds = some n)
    (hv : v < v') : m < n := by
  induction cs generalizing ds v v' with
  | nil =>
    obtain rfl := List.eq_nil_of_length_eq_zero hlen.symm
    cases hm
    cases hn
    exact hv
  | cons c cs ih =>
    cases ds with
    | nil => cases hlen
    | cons d ds =>
      obtain ⟨⟨x,hx,rfl⟩,hcs⟩ := List.forall_mem_cons.mp hc
      obtain ⟨⟨y,hy,rfl⟩,hds⟩ := List.forall_mem_cons.mp hd
      rw [readDigits_cons (hx.trans_le hb)] at hm
      rw [readDigits_cons (hy.trans_le hb)] at hn
      have hmul : b * (v + 1) ≤ b * v' := Nat.mul_le_mul_left b hv
      rw [Nat.mul_succ] at hmul
      exact ih (Nat.succ.inj hlen) hcs hds hm hn (by omega)

/-- Numerals of the same length stand in the order of their numbers. -/
theorem digits_lt_iff (hb : b ≤ 16) (hlen : cs.length = ds.length) (hc : Digits b cs)
    (hd : Digits b ds) (hm : readDigits b v cs = some m) (hn : readDigits b v ds = some n) :
    cs < ds ↔ m < n := by
  induction cs generalizing ds v with
  | nil =>
    obtain rfl := List.eq_nil_of_length_eq_zero hlen.symm
    obtain rfl : m = n := Option.some.inj (hm.symm.trans hn)
    simp
  | cons c cs ih =>
    cases ds with
    | nil => cases hlen
    | cons d ds =>
      have hrest : cs.length = ds.length := Nat.succ.inj hlen
      obtain ⟨⟨x,hx,rfl⟩,hcs⟩ := List.forall_mem_cons.mp hc
      obtain ⟨⟨y,hy,rfl⟩,hds⟩ := List.forall_mem_cons.mp hd
      have hx' := hx.trans_le hb
      have hy' := hy.trans_le hb
      rw [readDigits_cons hx'] at hm
      rw [readDigits_cons hy'] at hn
      rw [List.cons_lt_cons_iff,digit_lt_iff hx' hy']
      rcases Nat.lt_trichotomy x y with hlt | rfl | hgt
      · have hmn := readDigits_lt hb hrest hcs hds hm hn (by omega)
        exact iff_of_true (.inl hlt) hmn
      · rw [ih hrest hcs hds hm hn]
        simp
      · have hnm := readDigits_lt hb hrest.symm hds hcs hn hm (by omega)
        have hne : digit x ≠ digit y := fun h => hgt.ne' (digit_inj hx' hy' h)
        refine iff_of_false ?_ hnm.not_gt
        rintro (hlt | ⟨heq,-⟩)
        · exact hgt.not_gt hlt
        · exact hne heq

theorem padded_digits (hb : 1 < b) : Digits b (padded b w n) := fun _ => mem_padded hb

theorem padded_lt_iff (hb : 1 < b) (hb' : b ≤ 16) (hw : 0 < w) (hm : m < b ^ w) (hn : n < b ^ w) :
    padded b w m < padded b w n ↔ m < n := by
  have hlen : (padded b w m).length = (padded b w n).length := by
    rw [length_padded_of_lt hb hw hm,length_padded_of_lt hb hw hn]
  exact digits_lt_iff hb' hlen (padded_digits hb) (padded_digits hb) (readNumeral_padded hb hb')
    (readNumeral_padded hb hb')

theorem padded_inj (hb : 1 < b) (hb' : b ≤ 16) (h : padded b w m = padded b w n) : m = n := by
  have hm : readNumeral b (padded b w m) = some m := readNumeral_padded hb hb'
  rw [h,readNumeral_padded hb hb'] at hm
  exact (Option.some.inj hm).symm

/-- Texts that begin with numerals of one width are compared by the numbers first. -/
theorem padded_append_lt_iff (hb : 1 < b) (hb' : b ≤ 16) (hw : 0 < w) (hm : m < b ^ w)
    (hn : n < b ^ w) : padded b w m ++ cs < padded b w n ++ ds ↔ m < n ∨ m = n ∧ cs < ds := by
  have hlen : (padded b w m).length = (padded b w n).length := by
    rw [length_padded_of_lt hb hw hm,length_padded_of_lt hb hw hn]
  have heq : padded b w m = padded b w n ↔ m = n :=
    ⟨padded_inj hb hb',fun h => congrArg (padded b w) h⟩
  rw [append_lt_append_iff hlen,padded_lt_iff hb hb' hw hm hn,heq]

end Order

end HexText
