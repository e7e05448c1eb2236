import Mathlib.Data.Nat.Log
import Mathlib.Algebra.Order.Ring.Nat
import Mathlib.Tactic.Ring
import Mathlib.Tactic.Linarith

/-! Binary numbers of a bounded number of digits, whole ones as fixed point numbers are: rounding
to the nearest of them, what it leaves as it is, and how far it goes. -/
namespace Rounding
variable {d e k m n p : Nat}

def nearest (n d : Nat) : Nat :=
  if 2 * (n % d) < d ∨ 2 * (n % d) = d ∧ n / d % 2 = 0 then n / d else n / d + 1

def lastPlace (p n : Nat) : Nat := n.log2 + 1 - p

def roundTo (p n : Nat) : Nat := nearest n (2 ^ lastPlace p n) * 2 ^ lastPlace p n

/-- A number that `p` binary digits and zeros behind them can write. -/
def Binary (p n : Nat) : Prop := ∃ m e, m < 2 ^ p ∧ n = m * 2 ^ e

theorem nearest_le : nearest n d ≤ n / d + 1 := by
  unfold nearest
  split
  · exact Nat.le_succ _
  · exact le_rfl

/-- The quotient is no more than one half away. -/
theorem nearest_bounds (hd : 0 < d) :
    2 * (nearest n d * d) ≤ 2 * n + d ∧ 2 * n ≤ 2 * (nearest n d * d) + d := by
  have hdiv := Nat.div_add_mod' n d
  have hmod := Nat.mod_lt n hd
  unfold nearest
  split
  · omega
  · rw [Nat.add_mul,Nat.one_mul]
    omega

theorem nearest_of_dvd (hd : 0 < d) (h : d ∣ n) : nearest n d * d = n := by
  have hmod : n % d = 0 := Nat.mod_eq_zero_of_dvd h
  rw [nearest,if_pos (by omega)]
  exact Nat.div_mul_cancel h

theorem lt_two_pow_lastPlace : n < 2 ^ (p + lastPlace p n) := by
  have hlt : n < 2 ^ (n.log2 + 1) := Nat.lt_log2_self
  exact hlt.trans_le (Nat.pow_le_pow_right (by decide) (by rw [lastPlace]; omega))

/-- A number that can be written is not changed. -/
theorem roundTo_binary (h : Binary p n) : roundTo p n = n := by
  obtain ⟨m,e,hm,rfl⟩ := h
  rcases Nat.eq_zero_or_pos m with rfl | hpos
  · rw [Nat.zero_mul,roundTo,nearest_of_dvd (Nat.two_pow_pos _) (Nat.dvd_zero _)]
  · have hne : m * 2 ^ e ≠ 0 := (Nat.mul_pos hpos (Nat.two_pow_pos e)).ne'
    have hlog : (m * 2 ^ e).log2 < p + e := by
      rw [Nat.log2_lt hne,Nat.pow_add]
      exact Nat.mul_lt_mul_of_pos_right hm (Nat.two_pow_pos e)
    have hdvd : 2 ^ lastPlace p (m * 2 ^ e) ∣ m * 2 ^ e :=
      (Nat.pow_dvd_pow 2 (by rw [lastPlace]; omega)).mul_left m
    exact nearest_of_dvd (Nat.two_pow_pos _) hdvd

/-- Where the digits overflow, the number is a power of 2. -/
theorem binary_roundTo (hp : 0 < p) : Binary p (roundTo p n) := by
  have hdiv : n / 2 ^ lastPlace p n < 2 ^ p := by
    rw [Nat.div_lt_iff_lt_mul (Nat.two_pow_pos _),← Nat.pow_add]
    exact lt_two_pow_lastPlace
  have hle : nearest n (2 ^ lastPlace p n) ≤ n / 2 ^ lastPlace p n + 1 := nearest_le
  rcases (hle.trans hdiv).lt_or_eq with hlt | heq
  · exact ⟨_,_,hlt,rfl⟩
  · refine ⟨2 ^ (p - 1),lastPlace p n + 1,Nat.pow_lt_pow_right (by decide) (by omega),?_⟩
    rw [roundTo,heq,← Nat.pow_add,← Nat.pow_add]
    congr 1
    omega

/-- The relative error of rounding. -/
theorem roundTo_bounds :
    2 ^ p * roundTo p n ≤ 2 ^ p * n + n ∧ 2 ^ p * n ≤ 2 ^ p * roundTo p n + n := by
  rcases Nat.eq_zero_or_pos n with rfl | hpos
  · have hzero : roundTo p 0 = 0 := roundTo_binary ⟨0,0,Nat.two_pow_pos p,rfl⟩
    rw [hzero]
    simp
  rcases Nat.eq_zero_or_pos (lastPlace p n) with hzero | hlast
  · have hsame : roundTo p n = n := by
      rw [roundTo,hzero]
      exact nearest_of_dvd (Nat.two_pow_pos 0) (one_dvd n)
    rw [hsame]
    omega
  · obtain ⟨hle,hge⟩ := nearest_bounds (n := n) (Nat.two_pow_pos (lastPlace p n))
    have hpow : 2 ^ p * 2 ^ lastPlace p n = 2 * 2 ^ n.log2 := by
      rw [← Nat.pow_add,← Nat.pow_succ']
      congr 1
      rw [lastPlace] at hlast ⊢
      omega
    have hlog : 2 ^ n.log2 ≤ n := Nat.log2_self_le hpos.ne'
    rw [← roundTo] at hle hge
    have hle' := Nat.mul_le_mul_left (2 ^ p) hle
    have hge' := Nat.mul_le_mul_left (2 ^ p) hge
    rw [Nat.mul_add,hpow,Nat.mul_left_comm,Nat.mul_left_comm _ 2] at hle' hge'
    omega

theorem Binary.of_lt (h : n < 2 ^ p) : Binary p n := ⟨n,0,h,(Nat.mul_one n).symm⟩

theorem Binary.mul_two_pow (h : Binary p n) : Binary p (n * 2 ^ k) := by
  obtain ⟨m,e,hm,rfl⟩ := h
  exact ⟨m,e + k,hm,by rw [Nat.pow_add,Nat.mul_assoc]⟩

theorem pow_split (h : e ≤ k) : 2 ^ k = 2 ^ (k - e) * 2 ^ e := by
  rw [← Nat.pow_add,Nat.sub_add_cancel h]

/-- The whole part of a number that can be written, and the part behind the point. -/
theorem Binary.div (h : Binary p n) : Binary p (n / 2 ^ k * 2 ^ k) := by
  obtain ⟨m,e,hm,rfl⟩ := h
  rcases le_or_gt k e with hle | hlt
  · rw [Nat.div_mul_cancel ((Nat.pow_dvd_pow 2 hle).mul_left m)]
    exact ⟨m,e,hm,rfl⟩
  · rw [pow_split hlt.le,Nat.mul_div_mul_right _ _ (Nat.two_pow_pos e),← pow_split hlt.le]
    exact ⟨m / 2 ^ (k - e),k,(Nat.div_le_self _ _).trans_lt hm,rfl⟩

theorem Binary.mod (h : Binary p n) : Binary p (n % 2 ^ k) := by
  obtain ⟨m,e,hm,rfl⟩ := h
  rcases le_or_gt k e with hle | hlt
  · rw [Nat.mod_eq_zero_of_dvd ((Nat.pow_dvd_pow 2 hle).mul_left m)]
    exact ⟨0,0,Nat.two_pow_pos p,rfl⟩
  · rw [pow_split hlt.le,Nat.mul_mod_mul_right]
    exact ⟨m % 2 ^ (k - e),e,(Nat.mod_le _ _).trans_lt hm,rfl⟩

/-- A number with digits behind the point is not large. -/
theorem Binary.lt_of_mod_ne (h : Binary p n) (hmod : n % 2 ^ k ≠ 0) : n < 2 ^ p * 2 ^ k := by
  obtain ⟨m,e,hm,rfl⟩ := h
  have he : e < k := by
    by_contra hge
    exact hmod (Nat.mod_eq_zero_of_dvd ((Nat.pow_dvd_pow 2 (Nat.not_lt.mp hge)).mul_left m))
  have hle : 2 ^ e ≤ 2 ^ k := Nat.pow_le_pow_right (by decide) he.le
  exact (Nat.mul_le_mul_left m hle).trans_lt (Nat.mul_lt_mul_of_pos_right hm (Nat.two_pow_pos k))

/-- A number below a power of 2 is not next to it. -/
theorem Binary.gap (h : Binary p n) (hlt : n < 2 ^ k) : 2 ^ p * n + 2 ^ k ≤ 2 ^ p * 2 ^ k := by
  obtain ⟨m,e,hm,rfl⟩ := h
  rcases le_or_gt k e with hle | he
  · have hzero : m = 0 := by
      by_contra hne
      have hpow : 2 ^ k ≤ 2 ^ e := Nat.pow_le_pow_right (by decide) hle
      have hmul : 1 * 2 ^ e ≤ m * 2 ^ e := Nat.mul_le_mul_right _ (Nat.pos_of_ne_zero hne)
      omega
    rw [hzero,Nat.zero_mul,Nat.mul_zero,Nat.zero_add]
    exact Nat.le_mul_of_pos_left _ (Nat.two_pow_pos p)
  · rw [pow_split he.le] at hlt ⊢
    have hb : m < 2 ^ (k - e) := Nat.lt_of_mul_lt_mul_right hlt
    obtain ⟨s,hs⟩ := Nat.exists_eq_add_of_lt hb
    have hle : (m + 1) * (s + 1) ≤ 2 ^ p * (s + 1) := Nat.mul_le_mul_right _ hm
    have hmain : 2 ^ p * m + 2 ^ (k - e) ≤ 2 ^ p * 2 ^ (k - e) := by
      rw [hs]
      have hsplit : 2 ^ p * (m + s + 1) = 2 ^ p * m + 2 ^ p * (s + 1) := by ring
      have hprod : (m + 1) * (s + 1) = m * s + m + s + 1 := by ring
      omega
    have hall := Nat.mul_le_mul_right (2 ^ e) hmain
    rw [Nat.add_mul] at hall
    rw [← Nat.mul_assoc,← Nat.mul_assoc]
    exact hall

end Rounding
