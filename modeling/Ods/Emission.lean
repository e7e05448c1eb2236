import Mathlib.Data.BitVec
import Mathlib.Logic.Function.Basic

/-! Programs that write elements to a device one by one, at an index that counts on. What they
write is a list; what the device makes of it is told here for a bounded buffer and for a stream. -/
namespace Emission
variable {α σ ι : Type*} {put : α → ι → σ → σ} {next : ι → ι} {a : α} {as bs : List α}
variable {p : σ × ι} {s : σ} {i : ι} {w : Nat}

def emit (put : α → ι → σ → σ) (next : ι → ι) (as : List α) (p : σ × ι) : σ × ι :=
  as.foldl (fun p a => (put a p.2 p.1,next p.2)) p

@[simp] theorem emit_nil : emit put next [] p = p := rfl

@[simp] theorem emit_cons :
    emit put next (a :: as) p = emit put next as (put a p.2 p.1,next p.2) := rfl

@[simp] theorem emit_emit : emit put next bs (emit put next as p) = emit put next (as ++ bs) p :=
  List.foldl_append.symm

section Index
variable {σ : Type*} {put : α → BitVec w → σ → σ} {p : σ × BitVec w}

theorem emit_snd : (emit put (· + 1) as p).2 = p.2 + BitVec.ofNat w as.length := by
  induction as generalizing p with
  | nil => simp
  | cons a as ih =>
    rw [emit_cons,ih,List.length_cons,Nat.add_comm,BitVec.ofNat_add,BitVec.add_assoc]
    rfl

end Index

section Buffer
variable {b : BitVec w → α} {room i j : BitVec w}

def store (room : BitVec w) (a : α) (i : BitVec w) (b : BitVec w → α) : BitVec w → α :=
  if i < room then Function.update b i a else b

theorem store_apply : store room a i b j = if i < room ∧ j = i then a else b j := by
  unfold store
  by_cases hi : i < room
  · simp [hi,Function.update_apply]
  · simp [hi]

/-- Every element that has room stands where its index says, and nothing else is changed. -/
theorem emit_store (h : i.toNat + as.length < 2 ^ w) :
    (emit (store room) (· + 1) as (b,i)).1 j =
      if i.toNat ≤ j.toNat ∧ j < room then as[j.toNat - i.toNat]?.getD (b j) else b j := by
  induction as generalizing b i with
  | nil => simp
  | cons a as ih =>
    rw [List.length_cons] at h
    have hone : (1#w).toNat = 1 := by rw [BitVec.toNat_ofNat,Nat.mod_eq_of_lt (by omega)]
    have hsucc : (i + 1#w).toNat = i.toNat + 1 := by
      rw [BitVec.toNat_add,hone,Nat.mod_eq_of_lt (by omega)]
    have hrest : (i + 1#w).toNat + as.length < 2 ^ w := by omega
    have hcons : (emit (store room) (· + 1) (a :: as) (b,i)).1 j =
        if (i + 1#w).toNat ≤ j.toNat ∧ j < room then
          as[j.toNat - (i + 1#w).toNat]?.getD (store room a i b j)
        else store room a i b j := ih hrest
    rw [hcons,store_apply,hsucc]
    by_cases hj : j = i
    · subst hj
      by_cases hr : j < room <;> simp [hr]
    · have hne : j.toNat ≠ i.toNat := fun he => hj (BitVec.eq_of_toNat_eq he)
      by_cases hle : i.toNat + 1 ≤ j.toNat
      · have hsub : j.toNat - i.toNat = (j.toNat - (i.toNat + 1)) + 1 := by omega
        simp [hj,hle,Nat.le_of_succ_le hle,hsub]
      · have hlt : ¬ i.toNat ≤ j.toNat := by omega
        simp [hj,hle,hlt]

end Buffer

section Stream
variable {keep : α → Bool} {f : α → σ → σ}

/-- What a stream is given that passes some elements on and drops the others. -/
theorem emit_stream :
    (emit (fun a (_ : ι) s => if keep a then f a s else s) next as p).1 =
      (as.filter keep).foldl (fun s a => f a s) p.1 := by
  induction as generalizing p with
  | nil => rfl
  | cons a as ih =>
    rw [emit_cons,ih]
    cases hk : keep a <;> simp [hk]

end Stream

end Emission
