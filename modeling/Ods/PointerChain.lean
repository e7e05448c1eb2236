import Mathlib.Data.List.Nodup
import Mathlib.Logic.Function.Basic

/-! Intrusive singly linked lists over an arbitrary node type. A heap is only a
`next` function here; nothing is assumed about nodes off the list. -/
namespace PointerChain
variable {α : Type*}

/-- Following `next` from `p` meets exactly the nodes of the list, then null. -/
def Links (next : α → Option α) : Option α → List α → Prop
  | p, [] => p = none
  | p, a :: l => p = some a ∧ Links next (next a) l

/-- Node `b` is met when `next` is followed from `p`; the walk need not end. -/
inductive Meets (next : α → Option α) : Option α → α → Prop
  | here (a : α) : Meets next (some a) a
  | there {a b : α} : Meets next (next a) b → Meets next (some a) b

variable {next next' : α → Option α} {p : Option α} {l : List α}

@[simp] theorem links_nil : Links next p [] ↔ p = none := Iff.rfl

@[simp] theorem links_cons {a : α} :
    Links next p (a :: l) ↔ p = some a ∧ Links next (next a) l := Iff.rfl

theorem Links.none_iff (h : Links next p l) : p = none ↔ l = [] := by
  cases l with
  | nil => simpa using h
  | cons a l => simp [h.1]

theorem Links.eq_nil (h : Links next none l) : l = [] := h.none_iff.mp rfl

/-- A pointer to a node spells a list that starts with it. -/
theorem Links.eq_cons {a : α} (h : Links next (some a) l) :
    ∃ r, l = a :: r ∧ Links next (next a) r := by
  cases l with
  | nil => simp at h
  | cons b r =>
    obtain ⟨hb,hr⟩ := h
    cases hb
    exact ⟨r,rfl,hr⟩

/-- A finite walk is determined by its first pointer. -/
theorem Links.unique {l' : List α} (h : Links next p l) (h' : Links next p l') : l = l' := by
  induction l generalizing p l' with
  | nil =>
    rw [links_nil] at h
    subst h
    exact h'.eq_nil.symm
  | cons a l ih =>
    obtain ⟨rfl,ht⟩ := h
    obtain ⟨r,rfl,hr⟩ := h'.eq_cons
    rw [ih ht hr]

theorem Links.suffix {u v : List α} {a : α} (h : Links next p (u ++ a :: v)) :
    Links next (some a) (a :: v) := by
  induction u generalizing p with
  | nil => exact ⟨rfl,h.2⟩
  | cons b u ih => exact ih h.2

/-- A walk that ends cannot meet a node twice. -/
theorem Links.nodup (h : Links next p l) : l.Nodup := by
  induction l generalizing p with
  | nil => exact List.nodup_nil
  | cons a l ih =>
    refine List.nodup_cons.mpr ⟨?_,ih h.2⟩
    intro ha
    obtain ⟨u,v,rfl⟩ := List.append_of_mem ha
    have hloop : u ++ a :: v = v := h.2.unique h.2.suffix.2
    have hlen := congrArg List.length hloop
    simp only [List.length_append,List.length_cons] at hlen
    omega

theorem Links.meets_iff (h : Links next p l) (b : α) : Meets next p b ↔ b ∈ l := by
  constructor
  · intro hm
    induction hm generalizing l with
    | here a =>
      obtain ⟨r,rfl,-⟩ := h.eq_cons
      exact List.mem_cons_self
    | there _ ih =>
      obtain ⟨r,rfl,hr⟩ := h.eq_cons
      exact List.mem_cons_of_mem _ (ih hr)
  · intro hb
    induction l generalizing p with
    | nil => simp at hb
    | cons a l ih =>
      obtain ⟨rfl,ht⟩ := h
      rcases List.mem_cons.mp hb with rfl | hb
      · exact .here b
      · exact .there (ih ht hb)

theorem Meets.succ {b c : α} (h : Meets next p b) (hc : next b = some c) : Meets next p c := by
  induction h with
  | here a =>
    refine .there ?_
    rw [hc]
    exact .here c
  | there _ ih => exact .there (ih hc)

/-- A walk stays in what its start lies in and no link leads out of. -/
theorem Meets.closed {S : α → Prop} {b : α} (h : Meets next p b) (hp : ∀ a, p = some a → S a)
    (hS : ∀ a, S a → ∀ c, next a = some c → S c) : S b := by
  induction h with
  | here a => exact hp a rfl
  | @there a b _ ih => exact ih fun c hc => hS a (hp a rfl) c hc

/-- Only the links of the listed nodes matter. -/
theorem Links.congr (h : Links next p l) (he : ∀ a ∈ l, next' a = next a) :
    Links next' p l := by
  induction l generalizing p with
  | nil => exact h
  | cons a l ih =>
    refine ⟨h.1,?_⟩
    rw [he a List.mem_cons_self]
    exact ih h.2 fun b hb => he b (List.mem_cons_of_mem a hb)

/-- Two lists that meet no common node stay apart when joined by `next`. -/
theorem Links.append {u v : List α} {a : α} (h : Links next p (u ++ [a]))
    (hv : Links next' (next' a) v) (he : ∀ b ∈ u, next' b = next b) :
    Links next' p (u ++ a :: v) := by
  induction u generalizing p with
  | nil => exact ⟨h.1,hv⟩
  | cons b u ih =>
    refine ⟨h.1,?_⟩
    rw [he b List.mem_cons_self]
    exact ih h.2 fun d hd => he d (List.mem_cons_of_mem b hd)

section Update
variable [DecidableEq α]

theorem Links.update_off (h : Links next p l) {a : α} (ha : a ∉ l) (q : Option α) :
    Links (Function.update next a q) p l := by
  refine h.congr fun b hb => Function.update_of_ne ?_ _ _
  intro he
  exact ha (he ▸ hb)

/-- Pushing a node that is not on the list. -/
theorem Links.push (h : Links next p l) {a : α} (ha : a ∉ l) :
    Links (Function.update next a p) (some a) (a :: l) :=
  ⟨rfl,by simpa using h.update_off ha p⟩

/-- Unlinking the successor of `b`. -/
theorem Links.unlink {u v : List α} {a b : α} (h : Links next p (u ++ b :: a :: v)) :
    Links (Function.update next b (next a)) p (u ++ b :: v) := by
  have hn := h.nodup
  have hv : Links next (next a) v := h.suffix.2.2
  have hbv : b ∉ v := by
    intro hb
    have hs := (List.nodup_append.mp hn).2.1
    exact (List.nodup_cons.mp hs).1 (List.mem_cons_of_mem a hb)
  have hbu : ∀ d ∈ u, d ≠ b := by
    intro d hd he
    exact (List.nodup_append.mp hn).2.2 d hd b List.mem_cons_self he
  have hpre : Links (Function.update next b none) p (u ++ [b]) := by
    clear hv hbv hn
    induction u generalizing p with
    | nil => exact ⟨h.1,by simp⟩
    | cons d u ih =>
      refine ⟨h.1,?_⟩
      rw [Function.update_of_ne (hbu d List.mem_cons_self)]
      exact ih h.2 fun e he => hbu e (List.mem_cons_of_mem d he)
  refine hpre.append (by simpa using hv.update_off hbv (next a)) ?_
  intro d hd
  rw [Function.update_of_ne (hbu d hd),Function.update_of_ne (hbu d hd)]

end Update

end PointerChain
