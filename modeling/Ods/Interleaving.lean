import Mathlib.Data.List.Basic

/-! Two programs on one state. Operations may fail to return (`none`). What a program sees
of the state is an equivalence on states; if each program sees only what the other one
leaves alone, every interleaving does to its view what the program does by itself. -/
namespace Interleaving
variable {σ ι : Type*}

inductive Interleaves : List ι → List ι → List ι → Prop
  | nil : Interleaves [] [] []
  | left {xs ys zs : List ι} (a : ι) : Interleaves xs ys zs → Interleaves (a :: xs) ys (a :: zs)
  | right {xs ys zs : List ι} (a : ι) : Interleaves xs ys zs → Interleaves xs (a :: ys) (a :: zs)

def execAll (exec : ι → σ → Option σ) : List ι → σ → Option σ
  | [], s => some s
  | a :: as, s => (exec a s).bind (execAll exec as)

/-- The operations of `own` read and write what `Same` compares, those of `other` write
none of it, and both keep the invariant `I`. -/
structure Isolated (exec : ι → σ → Option σ) (I : σ → Prop) (own other : ι → Prop)
    (Same : σ → σ → Prop) : Prop where
  equiv : Equivalence Same
  keeps {s t : σ} {a : ι} : I s → own a ∨ other a → exec a s = some t → I t
  reads {s s' t : σ} {a : ι} : I s → I s' → Same s s' → own a → exec a s = some t →
    ∃ t', exec a s' = some t' ∧ Same t t'
  frame {s t : σ} {a : ι} : I s → other a → exec a s = some t → Same s t

variable {exec : ι → σ → Option σ} {I : σ → Prop} {own other : ι → Prop}
variable {Same Same' : σ → σ → Prop} {xs ys zs zs' : List ι} {s s₁ s₂ t t₁ t₂ : σ}

theorem Interleaves.forall_mem {P : ι → Prop} (h : Interleaves xs ys zs) (hxs : ∀ a ∈ xs, P a)
    (hys : ∀ a ∈ ys, P a) : ∀ a ∈ zs, P a := by
  induction h with
  | nil => simp
  | left a _ ih =>
    rw [List.forall_mem_cons] at hxs ⊢
    exact ⟨hxs.1,ih hxs.2 hys⟩
  | right a _ ih =>
    rw [List.forall_mem_cons] at hys ⊢
    exact ⟨hys.1,ih hxs hys.2⟩

theorem Interleaves.symm (h : Interleaves xs ys zs) : Interleaves ys xs zs := by
  induction h with
  | nil => exact .nil
  | left a _ ih => exact .right a ih
  | right a _ ih => exact .left a ih

theorem Isolated.keeps_all (h : Isolated exec I own other Same) (hs : I s)
    (hxs : ∀ a ∈ xs, own a ∨ other a) (hrun : execAll exec xs s = some t) : I t := by
  induction xs generalizing s with
  | nil =>
    cases hrun
    exact hs
  | cons a xs ih =>
    obtain ⟨s₁,ha,hr⟩ := Option.bind_eq_some_iff.mp hrun
    rw [List.forall_mem_cons] at hxs
    exact ih (h.keeps hs hxs.1 ha) hxs.2 hr

/-- The other program alone changes nothing of the view. -/
theorem Isolated.frame_all (h : Isolated exec I own other Same) (hs : I s)
    (hys : ∀ a ∈ ys, other a) (hrun : execAll exec ys s = some t) : Same s t := by
  induction ys generalizing s with
  | nil =>
    cases hrun
    exact h.equiv.refl _
  | cons a ys ih =>
    rw [List.forall_mem_cons] at hys
    obtain ⟨u,ha,hr⟩ := Option.bind_eq_some_iff.mp hrun
    exact h.equiv.trans (h.frame hs hys.1 ha) (ih (h.keeps hs (.inr hys.1) ha) hys.2 hr)

/-- An interleaving that returns does to the view what one program alone does to it. -/
theorem Isolated.project (h : Isolated exec I own other Same) (hz : Interleaves xs ys zs)
    (hxs : ∀ a ∈ xs, own a) (hys : ∀ a ∈ ys, other a) (hs : I s) (hs₁ : I s₁)
    (hsame : Same s s₁) (hrun : execAll exec zs s = some t) :
    ∃ t₁, execAll exec xs s₁ = some t₁ ∧ Same t t₁ := by
  induction hz generalizing s s₁ with
  | nil =>
    cases hrun
    exact ⟨s₁,rfl,hsame⟩
  | left a _ ih =>
    rw [List.forall_mem_cons] at hxs
    obtain ⟨u,ha,hr⟩ := Option.bind_eq_some_iff.mp hrun
    obtain ⟨u₁,ha₁,hu⟩ := h.reads hs hs₁ hsame hxs.1 ha
    obtain ⟨t₁,hr₁,ht⟩ := ih hxs.2 hys (h.keeps hs (.inl hxs.1) ha)
      (h.keeps hs₁ (.inl hxs.1) ha₁) hu hr
    exact ⟨t₁,by rw [execAll,ha₁,Option.bind_some,hr₁],ht⟩
  | right a _ ih =>
    rw [List.forall_mem_cons] at hys
    obtain ⟨u,ha,hr⟩ := Option.bind_eq_some_iff.mp hrun
    have hu : Same u s₁ := h.equiv.trans (h.equiv.symm (h.frame hs hys.1 ha)) hsame
    exact ih hxs hys.2 (h.keeps hs (.inr hys.1) ha) hs₁ hu hr

/-- If both programs return when they run alone, every interleaving of them returns. -/
theorem Isolated.merge {I' : σ → Prop} (h : Isolated exec I own other Same)
    (h' : Isolated exec I' other own Same') (hz : Interleaves xs ys zs) (hxs : ∀ a ∈ xs, own a)
    (hys : ∀ a ∈ ys, other a) (hs : I s) (hs' : I' s) (hs₁ : I s₁) (hs₂ : I' s₂)
    (hsame : Same s s₁) (hsame' : Same' s s₂) (hx : execAll exec xs s₁ = some t₁)
    (hy : execAll exec ys s₂ = some t₂) : ∃ t, execAll exec zs s = some t := by
  induction hz generalizing s s₁ s₂ with
  | nil => exact ⟨s,rfl⟩
  | left a _ ih =>
    rw [List.forall_mem_cons] at hxs
    obtain ⟨u₁,ha₁,hr₁⟩ := Option.bind_eq_some_iff.mp hx
    obtain ⟨u,ha,hu⟩ := h.reads hs₁ hs (h.equiv.symm hsame) hxs.1 ha₁
    have hu' : Same' u s₂ := h'.equiv.trans (h'.equiv.symm (h'.frame hs' hxs.1 ha)) hsame'
    obtain ⟨t,hr⟩ := ih hxs.2 hys (h.keeps hs (.inl hxs.1) ha) (h'.keeps hs' (.inr hxs.1) ha)
      (h.keeps hs₁ (.inl hxs.1) ha₁) hs₂ (h.equiv.symm hu) hu' hr₁ hy
    exact ⟨t,by rw [execAll,ha,Option.bind_some,hr]⟩
  | right a _ ih =>
    rw [List.forall_mem_cons] at hys
    obtain ⟨u₂,ha₂,hr₂⟩ := Option.bind_eq_some_iff.mp hy
    obtain ⟨u,ha,hu⟩ := h'.reads hs₂ hs' (h'.equiv.symm hsame') hys.1 ha₂
    have hu' : Same u s₁ := h.equiv.trans (h.equiv.symm (h.frame hs hys.1 ha)) hsame
    obtain ⟨t,hr⟩ := ih hxs hys.2 (h.keeps hs (.inr hys.1) ha) (h'.keeps hs' (.inl hys.1) ha) hs₁
      (h'.keeps hs₂ (.inl hys.1) ha₂) hu' (h'.equiv.symm hu) hx hr₂
    exact ⟨t,by rw [execAll,ha,Option.bind_some,hr]⟩

/-- Two interleavings of the same programs leave the same view. -/
theorem Isolated.confluent (h : Isolated exec I own other Same) (hz : Interleaves xs ys zs)
    (hz' : Interleaves xs ys zs') (hxs : ∀ a ∈ xs, own a) (hys : ∀ a ∈ ys, other a) (hs : I s)
    (hrun : execAll exec zs s = some t₁) (hrun' : execAll exec zs' s = some t₂) : Same t₁ t₂ := by
  obtain ⟨t,ht,hsame⟩ := h.project hz hxs hys hs hs (h.equiv.refl s) hrun
  obtain ⟨t',ht',hsame'⟩ := h.project hz' hxs hys hs hs (h.equiv.refl s) hrun'
  obtain rfl : t = t' := Option.some.inj (ht.symm.trans ht')
  exact h.equiv.trans hsame (h.equiv.symm hsame')

end Interleaving
