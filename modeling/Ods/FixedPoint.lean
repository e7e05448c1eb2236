import Ods.FloatingPoint
import Mathlib.Data.Rat.Lemmas

/-! What `get_components` makes of a `double`: a decimal number next to it. The digits behind the
point are those of one product, rounded to a `double` before it is rounded to a whole number; and
there is one product whose fractional part runs over. -/
namespace Ods
open Rounding

variable {x : BitVec 64} {a i p v : Nat} {up : Nat}

section Operations

theorem doubleOne_eq : doubleOne = 2 * doubleHalf := by
  have hbits : pointBits ≠ 0 := by decide +kernel
  have hdvd : 2 ∣ doubleOne := dvd_pow_self 2 hbits
  rw [doubleHalf,Nat.mul_div_cancel' hdvd]

theorem doubleHalf_pos : 0 < doubleHalf := by
  have hpos : 0 < doubleOne := Nat.pow_pos (by decide)
  have hone := doubleOne_eq
  omega

theorem doubleOne_pos : 0 < doubleOne := Nat.pow_pos (by decide)

theorem binary_mul_one (h : i < 2 ^ 53) : Binary 53 (i * doubleOne) := ⟨i,pointBits,h,rfl⟩

theorem binary_whole (h : Binary 53 v) : Binary 53 (v / doubleOne * doubleOne) := by
  unfold doubleOne
  exact h.div

theorem binary_part (h : Binary 53 v) : Binary 53 (v % doubleOne) := by
  unfold doubleOne
  exact h.mod

theorem rounded_natCast {n : Nat} : rounded n = (roundTo 53 n : Nat) := by
  rcases Nat.eq_zero_or_pos n with rfl | hpos
  · have hzero : roundTo 53 0 = 0 := roundTo_binary (.of_lt (Nat.two_pow_pos 53))
    simp [rounded,hzero]
  · rw [rounded,Int.sign_eq_one_of_pos (by exact_mod_cast hpos),Int.natAbs_natCast,one_mul]

theorem rounded_binary {n : Nat} (h : Binary 53 n) : rounded n = n := by
  rw [rounded_natCast,roundTo_binary h]

theorem toInt64_natCast {n : Nat} : toInt64 n = n / doubleOne := by
  rw [toInt64,← Int.natCast_ediv,Int.toNat_natCast]

theorem ofInt64_eq (h : Binary 53 (i * doubleOne)) : ofInt64 i = (i * doubleOne : Nat) := by
  rw [ofInt64,← Int.natCast_mul,rounded_binary h]

/-- A finite `double` is one. -/
theorem binary_absUnits : Binary 53 (absUnits x) := by
  have hm : mantissaBits x < 2 ^ 52 := Nat.mod_lt _ (Nat.two_pow_pos 52)
  unfold absUnits
  split
  · exact .of_lt (hm.trans (by decide))
  · exact ⟨_,_,by omega,rfl⟩

/-- What is left of a number that the conversion cut. -/
theorem rounded_sub (h : Binary 53 v) :
    rounded (v - ofInt64 (toInt64 v)) = (v % doubleOne : Nat) := by
  have hdiv := Nat.div_add_mod' v doubleOne
  rw [toInt64_natCast,ofInt64_eq (binary_whole h)]
  have hsub : (v : Int) - (v / doubleOne * doubleOne : Nat) = (v % doubleOne : Nat) := by omega
  rw [hsub,rounded_binary (binary_part h)]

end Operations

section Components

def scaled (a p : Nat) : Nat := roundTo 53 (a % doubleOne * 10 ^ p)

theorem binary_scaled : Binary 53 (scaled a p) := binary_roundTo (by decide)

theorem scaled_bounds :
    2 ^ 53 * scaled a p ≤ 2 ^ 53 * (a % doubleOne * 10 ^ p) + a % doubleOne * 10 ^ p ∧
    2 ^ 53 * (a % doubleOne * 10 ^ p) ≤ 2 ^ 53 * scaled a p + a % doubleOne * 10 ^ p :=
  roundTo_bounds

/-- The part behind the point is a `double`, so it is not so near to 1 that the product could be
rounded to the power. -/
theorem scaled_lt (h : Binary 53 a) : scaled a p < 10 ^ p * doubleOne := by
  have hgap : 2 ^ 53 * (a % doubleOne) + doubleOne ≤ 2 ^ 53 * doubleOne :=
    (binary_part h).gap (Nat.mod_lt _ doubleOne_pos)
  have hmul := Nat.mul_le_mul_right (10 ^ p) hgap
  have hpos : 0 < doubleOne * 10 ^ p := Nat.mul_pos doubleOne_pos (Nat.pow_pos (by decide))
  obtain ⟨hle,-⟩ : 2 ^ 53 * scaled a p ≤ _ ∧ _ := scaled_bounds
  rw [Nat.add_mul,Nat.mul_assoc,Nat.mul_assoc] at hmul
  rw [Nat.mul_comm (10 ^ p)]
  omega

/-- The whole number above a `double` that is not one is a `double` too. -/
theorem binary_next (hv : Binary 53 v) (hpart : v % doubleOne ≠ 0) :
    Binary 53 ((v / doubleOne + 1) * doubleOne) := by
  have hlt : v < 2 ^ 53 * doubleOne := hv.lt_of_mod_ne hpart
  have hsmall : v / doubleOne < 2 ^ 53 := (Nat.div_lt_iff_lt_mul doubleOne_pos).mpr hlt
  rcases Nat.lt_or_ge (v / doubleOne + 1) (2 ^ 53) with hless | hge
  · exact binary_mul_one hless
  · have heq : v / doubleOne + 1 = 1 * 2 ^ 53 := by omega
    have hone : Binary 53 (1 * 2 ^ 53) := ⟨1,53,by decide,rfl⟩
    rw [heq]
    exact hone.mul_two_pow

/-- The comparison that handles the rollover. -/
theorem ofInt64_ge (hf : v / doubleOne < 10 ^ p) (hv : Binary 53 v)
    (hpart : v % doubleOne ≠ 0) :
    ofInt64 (v / doubleOne + 1) ≥ 10 ^ p * doubleOne ↔ v / doubleOne + 1 = 10 ^ p := by
  rw [ofInt64_eq (binary_next hv hpart)]
  constructor
  · intro h
    have hle : 10 ^ p * doubleOne ≤ (v / doubleOne + 1) * doubleOne := by exact_mod_cast h
    have hle' : 10 ^ p ≤ v / doubleOne + 1 := Nat.le_of_mul_le_mul_right hle doubleOne_pos
    omega
  · intro h
    rw [h]
    exact_mod_cast le_rfl

/-- `get_components` on whole numbers of units. -/
theorem getComponents_eq : getComponents x p =
    let v := scaled (absUnits x) p
    let parts := carryFraction p (absUnits x / doubleOne) (v / doubleOne) (v % doubleOne : Nat)
    ⟨if p = 0 then carryIntegral (absUnits x) parts.1 else parts.1,parts.2,getSign x⟩ := by
  have hpart : rounded (absUnits x - ofInt64 (toInt64 (absUnits x))) =
      (absUnits x % doubleOne : Nat) := rounded_sub binary_absUnits
  have hscaled : rounded ((absUnits x % doubleOne : Nat) * 10 ^ p) =
      (scaled (absUnits x) p : Nat) := by
    have hcast : ((absUnits x % doubleOne : Nat) * 10 ^ p : Int) =
        (absUnits x % doubleOne * 10 ^ p : Nat) := by
      rw [Nat.cast_mul,Nat.cast_pow,Nat.cast_ofNat]
    rw [hcast,rounded_natCast,scaled]
  have hrest : rounded (scaled (absUnits x) p - ofInt64 (toInt64 (scaled (absUnits x) p))) =
      (scaled (absUnits x) p % doubleOne : Nat) := rounded_sub binary_scaled
  rw [getComponents]
  dsimp only
  rw [hpart,hscaled,hrest,toInt64_natCast,toInt64_natCast]

theorem isNegative_eq : (getComponents x p).isNegative = getSign x := by
  rw [getComponents_eq]

/-- The carry goes to the nearest number: the parts together are the product or one more. Only
where the product is one half below the power does the fractional part run over. -/
theorem carryFraction_cases (hp : p ≠ 0) (hv : Binary 53 v) (hlt : v < 10 ^ p * doubleOne) :
    ∃ up ≤ 1, (carryFraction p i (v / doubleOne) (v % doubleOne : Nat)).1 * 10 ^ p +
          (carryFraction p i (v / doubleOne) (v % doubleOne : Nat)).2 =
        i * 10 ^ p + v / doubleOne + up ∧
      (up = 1 → doubleHalf ≤ v % doubleOne) ∧ (up = 0 → v % doubleOne ≤ doubleHalf) ∧
      (carryFraction p i (v / doubleOne) (v % doubleOne : Nat)).2 ≤ 10 ^ p ∧
      ((carryFraction p i (v / doubleOne) (v % doubleOne : Nat)).2 = 10 ^ p ↔
        v / doubleOne + 1 = 10 ^ p ∧ v % doubleOne = doubleHalf) := by
  have hf : v / doubleOne < 10 ^ p := (Nat.div_lt_iff_lt_mul doubleOne_pos).mpr hlt
  have heven : 10 ^ p % 2 = 0 := by
    obtain ⟨k,rfl⟩ := Nat.exists_eq_succ_of_ne_zero hp
    rw [Nat.pow_succ]
    omega
  have hroll (h : doubleHalf < v % doubleOne) :
      ofInt64 (v / doubleOne + 1) ≥ 10 ^ p * doubleOne ↔ v / doubleOne + 1 = 10 ^ p :=
    ofInt64_ge hf hv (Nat.ne_zero_of_lt h)
  clear hlt hv
  rw [carryFraction]
  generalize v / doubleOne = f at *
  generalize v % doubleOne = t at *
  generalize doubleHalf = half at *
  generalize (10 ^ p * doubleOne : Int) = top at *
  generalize 10 ^ p = power at *
  split
  · rename_i hup
    have hhalf : half < t := by exact_mod_cast hup
    have hiff := hroll hhalf
    by_cases hfull : f + 1 = power
    · simp only [if_pos (hiff.mpr hfull)]
      refine ⟨1,le_rfl,?_,fun _ => hhalf.le,by omega,by omega,by omega⟩
      rw [Nat.add_mul,Nat.one_mul,← hfull]
      omega
    · simp only [if_neg (mt hiff.mp hfull)]
      exact ⟨1,le_rfl,(Nat.add_assoc _ _ _).symm,fun _ => hhalf.le,by omega,by omega,by omega⟩
  · rename_i hdown
    have hle : t ≤ half := not_lt.mp fun h => hdown (by exact_mod_cast h)
    split
    · rename_i heq
      have htie : t = half := by exact_mod_cast heq
      split
      · exact ⟨1,le_rfl,(Nat.add_assoc _ _ _).symm,fun _ => htie.ge,by omega,by omega,by omega⟩
      · exact ⟨0,by omega,(Nat.add_zero _).symm,by omega,fun _ => hle,by omega,by omega⟩
    · rename_i hne
      have hnot : t ≠ half := fun h => hne (by exact_mod_cast h)
      exact ⟨0,by omega,(Nat.add_zero _).symm,by omega,fun _ => hle,by omega,by omega⟩

theorem scaled_zero (h : Binary 53 a) : scaled a 0 = a % doubleOne := by
  rw [scaled,Nat.pow_zero,Nat.mul_one,roundTo_binary (binary_part h)]

/-- Where the carry went up, what is left is negative, and it stays so. -/
theorem carryIntegral_up (ha : Binary 53 a) (hpart : a % doubleOne ≠ 0) :
    carryIntegral a (a / doubleOne + 1) = a / doubleOne + 1 := by
  have hdiv := Nat.div_add_mod' a doubleOne
  have hmod := Nat.mod_lt a doubleOne_pos
  have hnext : ofInt64 (a / doubleOne + 1) = ((a / doubleOne + 1) * doubleOne : Nat) :=
    ofInt64_eq (binary_next ha hpart)
  have hneg : (a : Int) - ofInt64 (a / doubleOne + 1) < 0 := by
    rw [hnext,Nat.add_mul,Nat.one_mul]
    omega
  have hrounded : rounded (a - ofInt64 (a / doubleOne + 1)) ≤ 0 := by
    rw [rounded,Int.sign_eq_neg_one_of_neg hneg]
    omega
  have hhalf : (0 : Int) < doubleHalf := Nat.cast_pos.mpr doubleHalf_pos
  rw [carryIntegral]
  generalize rounded (a - ofInt64 (a / doubleOne + 1)) = remainder at *
  generalize (doubleHalf : Int) = half at *
  exact if_neg fun h => by omega

/-- What is left of a number that was cut decides about the carry. -/
theorem carryIntegral_cut (ha : Binary 53 a) : carryIntegral a (a / doubleOne) =
    if doubleHalf ≤ a % doubleOne ∧ a / doubleOne % 2 = 1 then a / doubleOne + 1
    else a / doubleOne := by
  have hrest : rounded (a - ofInt64 (a / doubleOne)) = (a % doubleOne : Nat) := by
    have h : rounded (a - ofInt64 (toInt64 a)) = (a % doubleOne : Nat) := rounded_sub ha
    rwa [toInt64_natCast] at h
  rw [carryIntegral,hrest]
  generalize doubleHalf = half
  generalize a % doubleOne = t
  generalize a / doubleOne = i
  by_cases hle : half ≤ t
  · have hup : ¬ (t : Int) < half ∨ (t : Int) > half := .inl (by omega)
    simp only [hup,hle,true_and]
  · have hdown : ¬ (¬ (t : Int) < half ∨ (t : Int) > half) := by omega
    simp only [hdown,hle,false_and]

/-- Without digits behind the point, the integral part is the nearest number, of two the even
one. -/
theorem getComponents_zero :
    (getComponents x 0).integral = nearest (absUnits x) doubleOne := by
  have ha : Binary 53 (absUnits x) := binary_absUnits
  have hmod := Nat.mod_lt (absUnits x) doubleOne_pos
  have hone := doubleOne_eq
  have hpos := doubleHalf_pos
  have hfull : (10 : Int) ^ 0 * doubleOne ≤ ofInt64 (0 + 1) := by
    have h₁ : Binary 53 ((0 + 1) * doubleOne) := binary_mul_one (by decide)
    rw [ofInt64_eq h₁,pow_zero,one_mul,Nat.zero_add,Nat.one_mul]
  have hcarry : (getComponents x 0).integral = carryIntegral (absUnits x)
      (carryFraction 0 (absUnits x / doubleOne) 0 (absUnits x % doubleOne : Nat)).1 := by
    rw [getComponents_eq,scaled_zero ha]
    dsimp only
    rw [if_pos rfl,Nat.div_eq_of_lt hmod,Nat.mod_mod]
  rw [hcarry,nearest,carryFraction]
  by_cases hup : doubleHalf < absUnits x % doubleOne
  · rw [if_pos (by exact_mod_cast hup),if_pos hfull,carryIntegral_up ha (by omega),if_neg (by omega)]
  · rw [if_neg (by exact_mod_cast hup)]
    have hsame : (if ((absUnits x % doubleOne : Nat) : Int) = doubleHalf then
        if 0 = 0 ∨ 0 % 2 = 1 then (absUnits x / doubleOne,0 + 1) else (absUnits x / doubleOne,0)
        else (absUnits x / doubleOne,0)).1 = absUnits x / doubleOne := by
      split_ifs <;> rfl
    rw [hsame,carryIntegral_cut ha]
    generalize doubleHalf = half at *
    generalize absUnits x % doubleOne = t at *
    generalize absUnits x / doubleOne = i at *
    split_ifs <;> omega

def doubleAbs (x : BitVec 64) : ℚ := absUnits x / doubleOne

def DoubleComponents.number (c : DoubleComponents) (p : Nat) : Nat :=
  c.integral * 10 ^ p + c.fractional

theorem absUnits_mul : absUnits x * 10 ^ p =
    absUnits x / doubleOne * 10 ^ p * doubleOne + absUnits x % doubleOne * 10 ^ p := by
  have hdiv := Nat.div_add_mod' (absUnits x) doubleOne
  rw [Nat.mul_right_comm,← Nat.add_mul,hdiv]

/-- The product with the whole part in front of it, against the number. -/
theorem product_bounds (w : Nat)
    (hw : w = absUnits x / doubleOne * 10 ^ p * doubleOne + scaled (absUnits x) p) :
    2 ^ 53 * w ≤ 2 ^ 53 * (absUnits x * 10 ^ p) + 10 ^ p * doubleOne ∧
      2 ^ 53 * (absUnits x * 10 ^ p) ≤ 2 ^ 53 * w + 10 ^ p * doubleOne := by
  obtain ⟨hle,hge⟩ := scaled_bounds (a := absUnits x) (p := p)
  have hpart : absUnits x % doubleOne * 10 ^ p ≤ 10 ^ p * doubleOne := by
    rw [Nat.mul_comm]
    exact Nat.mul_le_mul_left _ (Nat.mod_lt _ doubleOne_pos).le
  rw [absUnits_mul,hw]
  omega

theorem components_of_ne_zero (hp : p ≠ 0) :
    (getComponents x p).integral = (carryFraction p (absUnits x / doubleOne)
        (scaled (absUnits x) p / doubleOne) (scaled (absUnits x) p % doubleOne : Nat)).1 ∧
      (getComponents x p).fractional = (carryFraction p (absUnits x / doubleOne)
        (scaled (absUnits x) p / doubleOne) (scaled (absUnits x) p % doubleOne : Nat)).2 := by
  rw [getComponents_eq]
  simp only [if_neg hp,and_self]

/-- What the components are, and how far from the product. -/
theorem number_cases (hp : p ≠ 0) : ∃ w, w = absUnits x / doubleOne * 10 ^ p * doubleOne +
      scaled (absUnits x) p ∧ 2 * ((getComponents x p).number p * doubleOne) ≤ 2 * w + doubleOne ∧
    2 * w ≤ 2 * ((getComponents x p).number p * doubleOne) + doubleOne ∧
    (getComponents x p).fractional ≤ 10 ^ p ∧ ((getComponents x p).fractional = 10 ^ p ↔
      2 * scaled (absUnits x) p + doubleOne = 2 * (10 ^ p * doubleOne)) := by
  have hv : Binary 53 (scaled (absUnits x) p) := binary_scaled
  have hdiv := Nat.div_add_mod' (scaled (absUnits x) p) doubleOne
  have hmod := Nat.mod_lt (scaled (absUnits x) p) doubleOne_pos
  have hone := doubleOne_eq
  obtain ⟨up,hup,hsum,hfar,hnear,hle,hfull⟩ :=
    carryFraction_cases (i := absUnits x / doubleOne) hp hv (scaled_lt binary_absUnits)
  obtain ⟨hintegral,hfraction⟩ := components_of_ne_zero (x := x) hp
  have hnumber : (getComponents x p).number p =
      absUnits x / doubleOne * 10 ^ p + scaled (absUnits x) p / doubleOne + up := by
    rw [DoubleComponents.number,hintegral,hfraction]
    exact hsum
  rw [hnumber,hfraction,hfull,Nat.add_mul,Nat.add_mul]
  refine ⟨_,rfl,?_,?_,hle,?_⟩
  · rcases Nat.le_one_iff_eq_zero_or_eq_one.mp hup with rfl | rfl
    · omega
    · have h := hfar rfl
      omega
  · rcases Nat.le_one_iff_eq_zero_or_eq_one.mp hup with rfl | rfl
    · have h := hnear rfl
      omega
    · omega
  · constructor
    · rintro ⟨hpower,htie⟩
      rw [← hpower,Nat.add_mul]
      omega
    · intro h
      have hlt : scaled (absUnits x) p / doubleOne < 10 ^ p :=
        (Nat.div_lt_iff_lt_mul doubleOne_pos).mpr (scaled_lt binary_absUnits)
      obtain ⟨s,hs⟩ := Nat.exists_eq_add_of_lt hlt
      have hs₀ : s = 0 := by
        by_contra hne
        have hmul : 1 * doubleOne ≤ s * doubleOne :=
          Nat.mul_le_mul_right _ (Nat.pos_of_ne_zero hne)
        rw [hs,Nat.add_mul,Nat.add_mul] at h
        omega
      rw [hs,hs₀,Nat.add_zero,Nat.add_mul] at h
      exact ⟨by rw [hs,hs₀],by omega⟩

theorem number_bounds (hp : p ≠ 0) : 2 ^ 53 * ((getComponents x p).number p * doubleOne) ≤
      2 ^ 53 * (absUnits x * 10 ^ p) + (2 ^ 52 + 10 ^ p) * doubleOne ∧
    2 ^ 53 * (absUnits x * 10 ^ p) ≤
      2 ^ 53 * ((getComponents x p).number p * doubleOne) + (2 ^ 52 + 10 ^ p) * doubleOne := by
  obtain ⟨w,hw,hle,hge,-⟩ := number_cases (x := x) hp
  obtain ⟨hle',hge'⟩ := product_bounds w hw
  have hsplit : (2 ^ 52 + 10 ^ p) * doubleOne = 2 ^ 52 * doubleOne + 10 ^ p * doubleOne :=
    Nat.add_mul _ _ _
  omega

theorem absUnits_cast : (absUnits x : ℚ) = doubleAbs x * doubleOne := by
  have hne : (doubleOne : ℚ) ≠ 0 := Nat.cast_ne_zero.mpr doubleOne_pos.ne'
  rw [doubleAbs,div_mul_cancel₀ _ hne]

theorem carryFraction_fst_le {f : Nat} {r : Int} : (carryFraction p i f r).1 ≤ i + 1 := by
  unfold carryFraction
  dsimp only
  split_ifs
  · exact le_rfl
  all_goals exact Nat.le_succ i

/-- A part that is zero is not rounded. -/
theorem carryFraction_zero : carryFraction p i 0 0 = (i,0) := by
  have hhalf : (0 : Int) < doubleHalf := Nat.cast_pos.mpr doubleHalf_pos
  rw [carryFraction,if_neg (not_lt.mpr hhalf.le),if_neg hhalf.ne]

/-- The number above 2^53 is whole, and the one below is not carried far. -/
theorem integral_lt (hp : p ≠ 0) (hx : absUnits x < 2 ^ 63 * doubleOne) :
    (getComponents x p).integral < 2 ^ 63 := by
  have hi : absUnits x / doubleOne < 2 ^ 63 := (Nat.div_lt_iff_lt_mul doubleOne_pos).mpr hx
  rw [(components_of_ne_zero hp).1]
  by_cases hpart : absUnits x % doubleOne = 0
  · have hscaled : scaled (absUnits x) p = 0 := by
      rw [scaled,hpart,Nat.zero_mul,roundTo_binary (.of_lt (Nat.two_pow_pos 53))]
    rw [hscaled,Nat.zero_div,Nat.zero_mod,Nat.cast_zero,carryFraction_zero]
    exact hi
  · have hlt : absUnits x < 2 ^ 53 * doubleOne := binary_absUnits.lt_of_mod_ne hpart
    have hsmall : absUnits x / doubleOne < 2 ^ 53 := (Nat.div_lt_iff_lt_mul doubleOne_pos).mpr hlt
    refine carryFraction_fst_le.trans_lt ?_
    omega

/-- The components of a number are a decimal number with `p` digits behind the point, no further
away than one half of a last digit and what the product was rounded by. The fractional part runs
over exactly where the product is one half below the power of ten. All that is converted fits into
`int_fast64_t`. -/
theorem getComponents_near (hp : p ≠ 0) (hp17 : p ≤ 17) (hx : absUnits x < 2 ^ 63 * doubleOne) :
    |((getComponents x p).number p : ℚ) - 10 ^ p * doubleAbs x| ≤ 1 / 2 + 10 ^ p / 2 ^ 53 ∧
      ((getComponents x p).fractional < 10 ^ p ↔
        2 * scaled (absUnits x) p + doubleOne ≠ 2 * (10 ^ p * doubleOne)) ∧
      scaled (absUnits x) p < 2 ^ 63 * doubleOne ∧
      (getComponents x p).integral < 2 ^ 63 ∧ (getComponents x p).fractional < 2 ^ 63 := by
  obtain ⟨-,-,-,-,hfraction,hfull⟩ := number_cases (x := x) hp
  obtain ⟨hupper,hlower⟩ := number_bounds (x := x) hp
  have hpower : 10 ^ p < 2 ^ 63 := (Nat.pow_le_pow_right (by decide) hp17).trans_lt (by decide)
  refine ⟨?_,?_,?_,integral_lt hp hx,hfraction.trans_lt hpower⟩
  · have hone : (0 : ℚ) < doubleOne := Nat.cast_pos.mpr doubleOne_pos
    have hupper' : (2 : ℚ) ^ 53 * ((getComponents x p).number p * doubleOne) ≤
        2 ^ 53 * (absUnits x * 10 ^ p) + (2 ^ 52 + 10 ^ p) * doubleOne := by exact_mod_cast hupper
    have hlower' : (2 : ℚ) ^ 53 * (absUnits x * 10 ^ p) ≤
        2 ^ 53 * ((getComponents x p).number p * doubleOne) + (2 ^ 52 + 10 ^ p) * doubleOne := by
      exact_mod_cast hlower
    rw [absUnits_cast] at hupper' hlower'
    rw [abs_le]
    constructor
    · refine le_of_mul_le_mul_right ?_ hone
      linarith
    · refine le_of_mul_le_mul_right ?_ hone
      linarith
  · rw [ne_eq,← hfull]
    omega
  · exact (scaled_lt binary_absUnits).trans (Nat.mul_lt_mul_of_pos_right hpower doubleOne_pos)

theorem getComponents_near_tenth :
    |((getComponents 0x3FB999999999999A 1).number 1 : ℚ) - 10 ^ 1 * doubleAbs 0x3FB999999999999A| ≤
        1 / 2 + 10 ^ 1 / 2 ^ 53 ∧
      ((getComponents 0x3FB999999999999A 1).fractional < 10 ^ 1 ↔
        2 * scaled (absUnits 0x3FB999999999999A) 1 + doubleOne ≠ 2 * (10 ^ 1 * doubleOne)) ∧
      scaled (absUnits 0x3FB999999999999A) 1 < 2 ^ 63 * doubleOne ∧
      (getComponents 0x3FB999999999999A 1).integral < 2 ^ 63 ∧
      (getComponents 0x3FB999999999999A 1).fractional < 2 ^ 63 :=
  getComponents_near (by decide) (by decide) (by decide +kernel)

/-- A `double` that stands for a decimal number gives the digits of that number: the one next to it
is no further away than `2 ^ -53` of it. -/
theorem getComponents_decimal {k : Nat} (hp : p ≠ 0) (hk : 10 ^ p + k < 2 ^ 52)
    (hx : |10 ^ p * doubleAbs x - k| ≤ k / 2 ^ 53) :
    getComponents x p = ⟨k / 10 ^ p,k % 10 ^ p,getSign x⟩ := by
  have hone : (0 : ℚ) < doubleOne := Nat.cast_pos.mpr doubleOne_pos
  obtain ⟨hbelow,habove⟩ := abs_le.mp hx
  have habove' : 2 ^ 53 * (absUnits x * 10 ^ p) ≤ 2 ^ 53 * (k * doubleOne) + k * doubleOne := by
    have h := mul_le_mul_of_nonneg_right habove hone.le
    have hcast : (2 : ℚ) ^ 53 * (absUnits x * 10 ^ p) ≤
        2 ^ 53 * (k * doubleOne) + k * doubleOne := by
      rw [absUnits_cast]
      linarith
    exact_mod_cast hcast
  have hbelow' : 2 ^ 53 * (k * doubleOne) ≤ 2 ^ 53 * (absUnits x * 10 ^ p) + k * doubleOne := by
    have h := mul_le_mul_of_nonneg_right hbelow hone.le
    have hcast : (2 : ℚ) ^ 53 * (k * doubleOne) ≤
        2 ^ 53 * (absUnits x * 10 ^ p) + k * doubleOne := by
      rw [absUnits_cast]
      linarith
    exact_mod_cast hcast
  have hsmall : (10 ^ p + k + 1) * doubleOne ≤ 2 ^ 52 * doubleOne := Nat.mul_le_mul_right _ hk
  rw [Nat.add_mul,Nat.add_mul,Nat.one_mul] at hsmall
  have hpos := doubleOne_pos
  obtain ⟨w,hw,-,-,hle,hfull⟩ := number_cases (x := x) hp
  obtain ⟨hupper,hlower⟩ := number_bounds (x := x) hp
  obtain ⟨hwle,hwge⟩ := product_bounds w hw
  rw [Nat.add_mul] at hupper hlower
  have hnumber : (getComponents x p).number p = k := by
    rcases Nat.lt_trichotomy ((getComponents x p).number p) k with hlt | heq | hgt
    · have hmul : ((getComponents x p).number p + 1) * doubleOne ≤ k * doubleOne :=
        Nat.mul_le_mul_right _ hlt
      rw [Nat.add_mul,Nat.one_mul] at hmul
      omega
    · exact heq
    · have hmul : (k + 1) * doubleOne ≤ (getComponents x p).number p * doubleOne :=
        Nat.mul_le_mul_right _ hgt
      rw [Nat.add_mul,Nat.one_mul] at hmul
      omega
  -- a product one half below the power is not next to a whole number
  have hfraction : (getComponents x p).fractional ≠ 10 ^ p := by
    intro h
    have htie := hfull.mp h
    rcases Nat.lt_or_ge k (absUnits x / doubleOne * 10 ^ p + 10 ^ p) with hlt | hge
    · have hmul : (k + 1) * doubleOne ≤ (absUnits x / doubleOne * 10 ^ p + 10 ^ p) * doubleOne :=
        Nat.mul_le_mul_right _ hlt
      rw [Nat.add_mul,Nat.add_mul,Nat.one_mul] at hmul
      omega
    · have hmul : (absUnits x / doubleOne * 10 ^ p + 10 ^ p) * doubleOne ≤ k * doubleOne :=
        Nat.mul_le_mul_right _ hge
      rw [Nat.add_mul] at hmul
      omega
  have hlt : (getComponents x p).fractional < 10 ^ p := lt_of_le_of_ne hle hfraction
  have hsign : (getComponents x p).isNegative = getSign x := isNegative_eq
  have hparts : (getComponents x p).integral * 10 ^ p + (getComponents x p).fractional = k := hnumber
  have hpower : 0 < 10 ^ p := Nat.pow_pos (by decide)
  clear hnumber hle hfull hupper hlower
  generalize getComponents x p = c at *
  obtain ⟨integral,fractional,isNegative⟩ := c
  dsimp only at *
  have hdiv : k / 10 ^ p = integral := by
    rw [← hparts,Nat.add_comm,Nat.add_mul_div_right _ _ hpower,Nat.div_eq_of_lt hlt,Nat.zero_add]
  have hmod : k % 10 ^ p = fractional := by
    rw [← hparts,Nat.add_comm,Nat.add_mul_mod_self_right,Nat.mod_eq_of_lt hlt]
  rw [hdiv,hmod,hsign]

end Components

end Ods
