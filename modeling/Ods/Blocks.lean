import Mathlib.Order.Monotone.Basic

/-! The natural numbers cut into blocks of varying length: a number is given by its block and by
its place in the block, and in the order of the two. -/
namespace Blocks
variable {len : Nat → Nat} {fuel i j n r s : Nat}

def start (len : Nat → Nat) : Nat → Nat
  | 0 => 0
  | i + 1 => start len i + len i

/-- The block and the place of the number that stands `n` behind the start of block `i`, sought
in no more than `fuel + 1` blocks. -/
def locate (len : Nat → Nat) : Nat → Nat → Nat → Nat × Nat
  | 0, i, n => (i,n)
  | fuel + 1, i, n => if n < len i then (i,n) else locate len fuel (i + 1) (n - len i)

theorem start_mono : Monotone (start len) :=
  monotone_nat_of_le_succ fun _ => Nat.le_add_right _ _

theorem start_add_lt (hr : r < len i) (hij : i < j) : start len i + r < start len j := by
  have hle : start len (i + 1) ≤ start len j := start_mono hij
  rw [start] at hle
  omega

/-- Blocks come first, places second. -/
theorem start_add_lt_iff (hr : r < len i) (hs : s < len j) :
    start len i + r < start len j + s ↔ i < j ∨ i = j ∧ r < s := by
  rcases Nat.lt_trichotomy i j with hlt | rfl | hgt
  · have h := start_add_lt hr hlt
    omega
  · omega
  · have h := start_add_lt hs hgt
    omega

theorem locate_spec (h : start len i + n < start len (i + fuel + 1)) :
    start len (locate len fuel i n).1 + (locate len fuel i n).2 = start len i + n ∧
      (locate len fuel i n).2 < len (locate len fuel i n).1 := by
  induction fuel generalizing i n with
  | zero =>
    have hlt : n < len i := Nat.lt_of_add_lt_add_left h
    exact ⟨rfl,hlt⟩
  | succ fuel ih =>
    rw [locate]
    split
    · rename_i hlt
      exact ⟨rfl,hlt⟩
    · rename_i hge
      have hnext : start len (i + 1) + (n - len i) = start len i + n := by
        rw [start]
        omega
      have hidx : i + 1 + fuel + 1 = i + (fuel + 1) + 1 := by omega
      rw [← hnext,← hidx] at h
      rw [← hnext]
      exact ih h

/-- Every number below the start of a block is found, in a block before it. -/
theorem locate_zero (h : n < start len (fuel + 1)) :
    start len (locate len fuel 0 n).1 + (locate len fuel 0 n).2 = n ∧
      (locate len fuel 0 n).1 < fuel + 1 ∧
      (locate len fuel 0 n).2 < len (locate len fuel 0 n).1 := by
  have h₀ : start len 0 + n < start len (0 + fuel + 1) := by rwa [start,Nat.zero_add,Nat.zero_add]
  obtain ⟨heq,hplace⟩ := locate_spec h₀
  rw [start,Nat.zero_add] at heq
  refine ⟨heq,?_,hplace⟩
  by_contra hge
  have hle : start len (fuel + 1) ≤ start len (locate len fuel 0 n).1 :=
    start_mono (Nat.not_lt.mp hge)
  omega

end Blocks
