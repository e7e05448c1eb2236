import Mathlib.Data.List.Basic

/-! Finite runs of a labelled step relation, restricted to the actions a predicate `ok`
permits in the state before them. The run keeps its list of actions. -/
namespace LabelledRun
variable {σ τ ι : Type*}

inductive Run (step : σ → ι → σ → Prop) (ok : σ → ι → Prop) : σ → List ι → σ → Prop
  | nil (s : σ) : Run step ok s [] s
  | cons {s s₁ s₂ : σ} {a : ι} {as : List ι} :
      ok s a → step s a s₁ → Run step ok s₁ as s₂ → Run step ok s (a :: as) s₂

variable {step : σ → ι → σ → Prop} {ok ok' : σ → ι → Prop} {s s₁ s₂ : σ} {a : ι} {as bs : List ι}

theorem Run.single (ha : ok s a) (h : step s a s₁) : Run step ok s [a] s₁ :=
  .cons ha h (.nil s₁)

theorem run_nil_iff : Run step ok s [] s₁ ↔ s₁ = s := by
  constructor
  · intro h
    cases h
    rfl
  · rintro rfl
    exact .nil s₁

theorem run_cons_iff :
    Run step ok s (a :: as) s₂ ↔ ok s a ∧ ∃ s₁, step s a s₁ ∧ Run step ok s₁ as s₂ := by
  constructor
  · intro h
    cases h with
    | cons ha hs ht => exact ⟨ha,_,hs,ht⟩
  · rintro ⟨ha,s₁,hs,ht⟩
    exact .cons ha hs ht

theorem Run.append (h : Run step ok s as s₁) (h' : Run step ok s₁ bs s₂) :
    Run step ok s (as ++ bs) s₂ := by
  induction h with
  | nil => exact h'
  | cons ha hs _ ih => exact .cons ha hs (ih h')

theorem run_append_iff :
    Run step ok s (as ++ bs) s₂ ↔ ∃ s₁, Run step ok s as s₁ ∧ Run step ok s₁ bs s₂ := by
  constructor
  · intro h
    induction as generalizing s with
    | nil => exact ⟨s,.nil s,h⟩
    | cons a as ih =>
      obtain ⟨ha,s',hs,ht⟩ := run_cons_iff.mp h
      obtain ⟨s₁,h₁,h₂⟩ := ih ht
      exact ⟨s₁,.cons ha hs h₁,h₂⟩
  · rintro ⟨s₁,h₁,h₂⟩
    exact h₁.append h₂

theorem Run.mono (h : Run step ok s as s₁) (hok : ∀ s a, ok s a → ok' s a) :
    Run step ok' s as s₁ := by
  induction h with
  | nil s => exact .nil s
  | cons ha hs _ ih => exact .cons (hok _ _ ha) hs ih

/-- A deterministic machine has one run along given actions. -/
theorem Run.unique (hdet : ∀ s a s₁ s₂, step s a s₁ → step s a s₂ → s₁ = s₂)
    (h : Run step ok s as s₁) (h' : Run step ok' s as s₂) : s₁ = s₂ := by
  induction h with
  | nil s => exact (run_nil_iff.mp h').symm
  | cons _ hs _ ih =>
    obtain ⟨-,s',hs',ht⟩ := run_cons_iff.mp h'
    obtain rfl := hdet _ _ _ _ hs hs'
    exact ih ht

/-- It splits where any run along a prefix of its actions ends. -/
theorem Run.split (hdet : ∀ s a s₁ s₂, step s a s₁ → step s a s₂ → s₁ = s₂)
    (h : Run step ok s (as ++ bs) s₂) (h' : Run step ok' s as s₁) :
    Run step ok s as s₁ ∧ Run step ok s₁ bs s₂ := by
  obtain ⟨s',hs',ht⟩ := run_append_iff.mp h
  obtain rfl := h'.unique hdet hs'
  exact ⟨hs',ht⟩

/-- What holds at every step of a run may be asked of the steps. -/
theorem Run.strengthen {Q : σ → ι → Prop} (h : Run step ok s as s₁)
    (hQ : ∀ us a vs s', as = us ++ a :: vs → Run step ok s us s' → Q s' a) :
    Run step (fun s a => ok s a ∧ Q s a) s as s₁ := by
  induction h with
  | nil s => exact .nil s
  | @cons s s' s₁ a as ha hs _ ih =>
    refine .cons ⟨ha,hQ [] a as s rfl (.nil s)⟩ hs (ih ?_)
    intro us b vs s₂ he hr
    exact hQ (a :: us) b vs s₂ (by rw [he,List.cons_append]) (.cons ha hs hr)

theorem Run.all {Q : ι → Prop} (h : Run step ok s as s₁) (hQ : ∀ s a, ok s a → Q a) :
    ∀ a ∈ as, Q a := by
  induction h with
  | nil => simp
  | cons ha _ _ ih => exact List.forall_mem_cons.mpr ⟨hQ _ _ ha,ih⟩

/-- Invariant rule: what every permitted step preserves, every run preserves. -/
theorem Run.invariant {I : σ → Prop} (h : Run step ok s as s₁)
    (hstep : ∀ s a s', I s → ok s a → step s a s' → I s') (hs : I s) : I s₁ := by
  induction h with
  | nil => exact hs
  | cons ha hstp _ ih => exact ih (hstep _ _ _ hs ha hstp)

/-- Forward simulation: related states stay related along the same actions. -/
theorem Run.simulate {step' : τ → ι → τ → Prop} {ok' : τ → ι → Prop} {R : σ → τ → Prop} {t : τ}
    (h : Run step ok s as s₁)
    (hstep : ∀ s t a s', R s t → ok s a → step s a s' → ∃ t', ok' t a ∧ step' t a t' ∧ R s' t')
    (hR : R s t) : ∃ t₁, Run step' ok' t as t₁ ∧ R s₁ t₁ := by
  induction h generalizing t with
  | nil => exact ⟨t,.nil t,hR⟩
  | cons ha hs _ ih =>
    obtain ⟨t',hok,ht,hR'⟩ := hstep _ _ _ _ hR ha hs
    obtain ⟨t₁,hrun,hR₁⟩ := ih hR'
    exact ⟨t₁,.cons hok ht hrun,hR₁⟩

/-- What no step of a function changes, the steps along a list do not change. -/
theorem foldl_keeps {β : Type*} (f : σ → β) {op : σ → ι → σ}
    (h : ∀ s, ∀ a ∈ as, f (op s a) = f s) : f (as.foldl op s) = f s :=
  List.foldlRecOn as op (motive := fun s' => f s' = f s) rfl fun s' hs a ha => (h s' a ha).trans hs

end LabelledRun
