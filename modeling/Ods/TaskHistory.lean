import Ods.Reachability

/-! What one step of the list-level scheduler does to one task: to its record, and to
the list it stands in. All history properties of a task are read off these cases. -/
namespace Ods
open LabelledRun

variable {a a' : ListSched} {act : Act} {c : CtxPtr} {t : TaskPtr}

inductive TaskStep (t : TaskPtr) (a : ListSched) (a' : ListSched) : Act → Prop
  | same {act : Act} : a'.data.task t = a.data.task t → TaskStep t a a' act
  | call {op : TaskOp} : op.apply a.data (a.data.task t) = some (a'.data.task t) →
      TaskStep t a a' (.call (.task t op))
  | add {c : CtxPtr} : a'.data.task t = queued c (a.data.task t) →
      TaskStep t a a' (.call (.add c t))
  | activate {c : CtxPtr} : t ∈ a.lay.pend c → a'.data.task t = activate (a.data.task t) →
      TaskStep t a a' (.tick c)
  | skip {c : CtxPtr} {rest : List TaskPtr} : a.pc = .walk c (t :: rest) → a'.pc = .walk c rest →
      odsExecFunc (odsExecWake (a.data.task t)) = none →
      a'.data.task t = odsExecCount (odsExecWake (a.data.task t)) → TaskStep t a a' .visit
  | invoke {c : CtxPtr} {rest : List TaskPtr} {f : FuncPtr} : a.pc = .walk c (t :: rest) →
      a'.pc = .body c t rest → odsExecFunc (odsExecWake (a.data.task t)) = some f →
      a'.data.task t = odsExecWake (a.data.task t) → TaskStep t a a' .visit
  | ret {c : CtxPtr} {rest : List TaskPtr} : a.pc = .body c t rest → a'.pc = .walk c rest →
      a'.data.task t = odsExecCount (a.data.task t) → TaskStep t a a' .ret

theorem ListStep.taskStep (h : ListStep a act a') (t : TaskPtr) : TaskStep t a a' act := by
  cases h with
  | @call l d d' pc op _ hop he =>
    cases op with
    | init c | add c u => exact hop.elim
    | start c tickTimeMs id =>
      cases he
      exact .same rfl
    | stop c =>
      cases he
      unfold odsStop
      split <;> exact .same rfl
    | task u op =>
      obtain ⟨x,hx,rfl⟩ := Option.map_eq_some_iff.mp he
      by_cases hu : t = u
      · subst hu
        exact .call (by simpa using hx)
      · exact .same (by simp [hu])
  | @add l d pc c u hf _ =>
    by_cases hu : t = u
    · subst hu
      exact .add (by simp)
    · exact .same (by simp [hu])
  | @tick l d c =>
    by_cases hp : t ∈ l.pend c
    · exact .activate hp (activateAll_task_of_mem (l.pend_nodup c) hp)
    · exact .same (activateAll_task_of_not_mem hp)
  | @skip l d c item rest hf =>
    by_cases hu : t = item
    · subst hu
      exact .skip rfl rfl hf (by simp)
    · exact .same (by simp [hu])
  | @invoke l d c item rest f hf =>
    by_cases hu : t = item
    · subst hu
      exact .invoke rfl rfl hf (by simp)
    · exact .same (by simp [hu])
  | @ret l d c item rest =>
    by_cases hu : t = item
    · subst hu
      exact .ret rfl rfl (by simp)
    · exact .same (by simp [hu])
  | finish => exact .same rfl

theorem not_free_of_exec {l : Layout} (h : t ∈ l.exec c) : ¬ l.Free t :=
  fun hf => hf c (List.mem_append_left _ h)

theorem not_free_of_pend {l : Layout} (h : t ∈ l.pend c) : ¬ l.Free t :=
  fun hf => hf c (List.mem_append_right _ h)

theorem Layout.Free.activate {l : Layout} (h : l.Free t) : (l.activate c).Free t := by
  intro d hd
  refine h d ?_
  by_cases hdc : d = c
  · subst hdc
    simpa [or_comm] using hd
  · simpa [hdc] using hd

theorem Layout.Free.prune {l : Layout} {keep : TaskPtr → Bool} (h : l.Free t) :
    (l.prune c keep).Free t := by
  intro d hd
  refine h d ?_
  by_cases hdc : d = c
  · subst hdc
    rw [prune_exec_self,prune_pend] at hd
    exact (List.filter_sublist.append_right _).subset hd
  · rwa [prune_exec_of_ne _ _ _ _ hdc,prune_pend] at hd

/-- A task that is in no list stays out of all lists until it is added. -/
theorem ListStep.free (h : ListStep a act a') (hadd : ∀ c, act ≠ .call (.add c t))
    (hf : a.lay.Free t) : a'.lay.Free t := by
  cases h with
  | @add l d pc c u hu _ =>
    have hut : t ≠ u := fun he => hadd c (he ▸ rfl)
    intro e he
    by_cases hec : e = c
    · subst hec
      simp only [Layout.queue_exec,Layout.queue_pend_self,List.mem_append,List.mem_cons,hut,
        false_or] at he
      exact hf e (List.mem_append.mpr he)
    · rw [Layout.queue_exec,Layout.queue_pend_of_ne _ _ _ _ _ hec] at he
      exact hf e he
  | tick => exact hf.activate
  | finish => exact hf.prune
  | _ => exact hf

/-- A task leaves an exec list only when a tick ends with its state `DEL`. -/
theorem ListStep.exec_mem (h : ListStep a act a') (ht : t ∈ a.lay.exec c) :
    t ∈ a'.lay.exec c ∨ act = .finish ∧ a.pc.ticking = some c ∧ (a.data.task t).state = .del := by
  cases h with
  | @tick l d e =>
    left
    by_cases hce : c = e
    · subst hce
      rw [Layout.activate_exec_self]
      exact List.mem_append_right _ ht
    · rwa [Layout.activate_exec_of_ne _ _ _ hce]
  | @finish l d e =>
    by_cases hce : c = e
    · subst hce
      by_cases hs : (d.task t).state = .del
      · exact .inr ⟨rfl,rfl,hs⟩
      · left
        rw [Layout.prune_exec_self,List.mem_filter]
        exact ⟨ht,by simpa using hs⟩
    · left
      rwa [Layout.prune_exec_of_ne _ _ _ _ hce]
  | _ => exact .inl ht

/-- A task leaves a pending list only for the exec list, when a tick begins. -/
theorem ListStep.pend_mem (h : ListStep a act a') (ht : t ∈ a.lay.pend c) :
    t ∈ a'.lay.pend c ∨ act = .tick c ∧ t ∈ a'.lay.exec c := by
  cases h with
  | @add l d pc e u hu _ =>
    left
    by_cases hce : c = e
    · subst hce
      rw [Layout.queue_pend_self]
      exact List.mem_cons_of_mem _ ht
    · rwa [Layout.queue_pend_of_ne _ _ _ _ _ hce]
  | @tick l d e =>
    by_cases hce : c = e
    · subst hce
      right
      rw [Layout.activate_exec_self]
      exact ⟨rfl,List.mem_append_left _ (List.mem_reverse.mpr ht)⟩
    · left
      rwa [Layout.activate_pend_of_ne _ _ _ hce]
  | _ => exact .inl ht

/-- A tick goes on until `finish`. -/
theorem ListStep.ticking (hstep : ListStep a act a') (hpc : a.pc.ticking = some c)
    (hfin : act ≠ .finish) : a'.pc.ticking = some c := by
  cases hstep with
  | tick => cases hpc
  | finish => exact (hfin rfl).elim
  | _ => exact hpc

/-- A tick that ends removes the tasks it finds in state `DEL`. -/
theorem ListStep.finish_free (h : ListStep a .finish a') (hpc : a.pc.ticking = some c)
    (ht : t ∈ a.lay.exec c) (hs : (a.data.task t).state = .del) : a'.lay.Free t := by
  cases h with
  | @finish l d e =>
    obtain rfl : e = c := Option.some.inj hpc
    intro f hf
    by_cases hfe : f = e
    · subst hfe
      rw [Layout.prune_exec_self,Layout.prune_pend,List.mem_append,List.mem_filter] at hf
      rcases hf with ⟨-,hk⟩ | hp
      · exact absurd hs (by simpa using hk)
      · exact Layout.not_pend_of_exec ht hp
    · rw [Layout.prune_exec_of_ne _ _ _ _ hfe,Layout.prune_pend] at hf
      exact hfe (l.apart f e t hf (List.mem_append_left _ ht))

section Transfer
variable {cs : List CtxPtr} {s s' : Sys} {fuel : Nat} {acts : List Act}

theorem Refines.exec_of_pc (h : Refines cs s a) (hp : s.pc = .walk c (some t)) :
    c ∈ cs ∧ t ∈ a.lay.exec c := by
  obtain ⟨rest,-,hh,hc,hsuf⟩ := (hp ▸ h.pc : PcRel cs a.lay (.walk c (some t)) a.pc).of_walk
  exact ⟨hc,hsuf.subset (List.mem_of_mem_head? hh.symm)⟩

/-- Invariant rule for the pointer program, with the invariant on the list level. -/
theorem run_invariant {I : ListSched → Prop} {ok : Sys → Act → Prop}
    (hrun : Run (Step fuel) ok s acts s') (hlegal : ∀ s act, ok s act → Legal cs s act)
    (hstep : ∀ s a act a', Refines cs s a → ok s act → ListStep a act a' → I a → I a')
    (h : Refines cs s a) (hI : I a) : ∃ a', Refines cs s' a' ∧ I a' := by
  refine hrun.invariant (I := fun s => ∃ a, Refines cs s a ∧ I a) ?_ ⟨a,h,hI⟩
  rintro s act s' ⟨a,hR,hI⟩ hok hs
  obtain ⟨a',ha,hR'⟩ := step_refines hR (hlegal s act hok) hs
  exact ⟨a',hR',hstep s a act a' hR hok ha hI⟩

theorem Refines.task (h : Refines cs s a) : a.data.task t = (s.mem.task t).data := by
  rw [h.data]
  rfl

theorem Refines.state (h : Refines cs s a) : (a.data.task t).state = (s.mem.task t).state := by
  rw [h.task]
  rfl

theorem Refines.event (h : Refines cs s a) : (a.data.task t).event = (s.mem.task t).event := by
  rw [h.task]
  rfl

theorem Refines.pc_of_walk (h : Refines cs s a) {rest : List TaskPtr} (hp : a.pc = .walk c rest) :
    c ∈ cs ∧ rest <:+ a.lay.exec c ∧ s.pc = .walk c rest.head? := by
  have hpc := h.pc
  rw [hp] at hpc
  generalize hq : s.pc = q at hpc
  cases hpc with
  | walk hc hs => exact ⟨hc,hs,rfl⟩

/-- A walk standing on a task has it in the exec list. -/
theorem Refines.exec_of_walk (h : Refines cs s a) {rest : List TaskPtr}
    (hp : a.pc = .walk c (t :: rest)) : c ∈ cs ∧ t ∈ a.lay.exec c ∧ s.pc = .walk c (some t) := by
  obtain ⟨hc,hs,hpc⟩ := h.pc_of_walk hp
  exact ⟨hc,hs.subset List.mem_cons_self,hpc⟩

theorem Refines.exec_of_body (h : Refines cs s a) {rest : List TaskPtr}
    (hp : a.pc = .body c t rest) : c ∈ cs ∧ t ∈ a.lay.exec c ∧ s.pc = .body c t := by
  have hpc := h.pc
  rw [hp] at hpc
  generalize hq : s.pc = q at hpc
  cases hpc with
  | body hc hs => exact ⟨hc,hs.subset List.mem_cons_self,rfl⟩

end Transfer

end Ods
