import Ods.TaskHistory

/-! A deletion request is a value of the state field until a tick ends. Which steps keep
it, and what follows for runs made of such steps. -/
namespace Ods
open LabelledRun

variable {cs : List CtxPtr} {m : Mem} {fuel : Nat} {s s₁ s₂ : Sys} {a a' : ListSched}
variable {c : CtxPtr} {t : TaskPtr} {act : Act} {acts acts₀ : List Act} {x x' : TaskCtx}

/-- The steps that leave a deletion request on `t` alone: no call of a function that
overwrites the state without looking at it, and no activation. -/
def DelKept (cs : List CtxPtr) (t : TaskPtr) (s : Sys) : Act → Prop
  | .call (.task u .done) => u = t → Linked cs s.mem t → (s.mem.task t).state ≠ .del
  | .call (.task u (.eventWait _ _ _)) => u = t → Linked cs s.mem t → (s.mem.task t).state ≠ .del
  | .tick c => Queued s.mem c t → (s.mem.task t).state ≠ .del
  | _ => True

theorem TaskOp.apply_state_of_del {op : TaskOp} (hx : x.state = .del)
    (h : op.apply m x = some x') :
    x'.state = .del ∨ op = .done ∧ x'.state = .done ∨
      (∃ mask type ms, op = .eventWait mask type ms) ∧ x'.state = .event := by
  cases op with
  | del | pause | resume =>
    cases h
    left
    simp [odsTaskDel,odsTaskPause,odsTaskResume,hx]
  | done =>
    cases h
    exact .inr (.inl ⟨rfl,rfl⟩)
  | sleep timeMs =>
    rcases odsTaskSleep_some h with ⟨-,rfl⟩ | ⟨hrun,-⟩
    · exact .inl hx
    · rw [hx] at hrun
      cases hrun
  | eventSet mask type => cases type <;> cases h <;> exact .inl hx
  | eventWait mask type ms =>
    obtain ⟨p,-,-,rfl⟩ := odsTaskEventWait_some h
    exact .inr (.inr ⟨⟨mask,type,ms,rfl⟩,rfl⟩)

theorem odsExecWake_of_del (hx : x.state = .del) : odsExecWake x = x :=
  odsExecWake_of_other (by simp [hx]) (by simp [hx])

theorem odsExecFunc_of_del (hx : x.state = .del) : odsExecFunc (odsExecWake x) = none := by
  rw [odsExecWake_of_del hx,odsExecFunc,if_neg (by simp [hx])]

theorem ListStep.del_kept (h : Refines cs s a) (hkept : DelKept cs t s act)
    (hadd : ∀ d, act ≠ .call (.add d t)) (hok : Legal cs s act)
    (hl : ¬ a.lay.Free t) (hs : (a.data.task t).state = .del) (hstep : ListStep a act a') :
    (a'.data.task t).state = .del := by
  have hlinked : Linked cs s.mem t := h.rep.linked_iff.mpr hl
  have hstate : (s.mem.task t).state = .del := h.state ▸ hs
  cases hstep.taskStep t with
  | same he => rw [he,hs]
  | @call op ho =>
    rcases TaskOp.apply_state_of_del hs ho with hd | ⟨rfl,-⟩ | ⟨⟨mask,type,ms,rfl⟩,-⟩
    · exact hd
    · exact (hkept rfl hlinked hstate).elim
    · exact (hkept rfl hlinked hstate).elim
  | add => exact (hadd _ rfl).elim
  | @activate d hp _ => exact (hkept ((h.rep.queued_iff hok).mpr hp) hstate).elim
  | skip _ _ _ he => rw [he,odsExecWake_of_del hs]; exact hs
  | invoke _ _ hf _ =>
    rw [odsExecFunc_of_del hs] at hf
    cases hf
  | ret _ _ he => rw [he]; exact hs

/-- Any other step does lose the request. -/
theorem ListStep.del_lost (h : Refines cs s a) (hkept : ¬ DelKept cs t s act)
    (hok : Legal cs s act) (hstep : ListStep a act a') : (a'.data.task t).state ≠ .del := by
  unfold DelKept at hkept
  split at hkept
  · push Not at hkept
    obtain ⟨rfl,-,-⟩ := hkept
    cases hstep with
    | call _ _ he =>
      cases he
      simp [odsTaskDone]
  · push Not at hkept
    obtain ⟨rfl,-,-⟩ := hkept
    cases hstep with
    | call _ _ he =>
      obtain ⟨x,hx,rfl⟩ := Option.map_eq_some_iff.mp he
      obtain ⟨p,-,-,rfl⟩ := odsTaskEventWait_some hx
      simp
  · rename_i c
    push Not at hkept
    have hp := (h.rep.queued_iff hok).mp hkept.1
    cases hstep with
    | @tick l d c =>
      dsimp only
      rw [activateAll_task_of_mem (l.pend_nodup c) hp]
      simp [activate]
  · exact (hkept trivial).elim

/-- The request on a linked task survives exactly the steps of `DelKept`. -/
theorem delKept_iff (h : Refines cs s a) (hok : Legal cs s act) (hadd : ∀ d, act ≠ .call (.add d t))
    (hl : ¬ a.lay.Free t) (hs : (a.data.task t).state = .del) (hstep : ListStep a act a') :
    DelKept cs t s act ↔ (a'.data.task t).state = .del := by
  constructor
  · exact fun hk => hstep.del_kept h hk hadd hok hl hs
  · intro hd
    by_contra hk
    exact hstep.del_lost h hk hok hd

def AfterDel (cs : List CtxPtr) (t : TaskPtr) (s : Sys) (act : Act) : Prop :=
  Legal cs s act ∧ (∀ d, act ≠ .call (.add d t)) ∧ DelKept cs t s act

def Leaving (c : CtxPtr) (t : TaskPtr) (a : ListSched) : Prop :=
  a.lay.Free t ∨ (a.data.task t).state = .del ∧ (t ∈ a.lay.exec c ∨ t ∈ a.lay.pend c)

def Removing (c : CtxPtr) (t : TaskPtr) (a : ListSched) : Prop :=
  a.lay.Free t ∨ (a.data.task t).state = .del ∧ t ∈ a.lay.exec c ∧ a.pc.ticking = some c

theorem ListStep.leaving (h : Refines cs s a) (hok : AfterDel cs t s act)
    (hstep : ListStep a act a') (hI : Leaving c t a) : Leaving c t a' := by
  obtain ⟨hlegal,hadd,hkept⟩ := hok
  rcases hI with hf | ⟨hs,he | hp⟩
  · exact .inl (hstep.free hadd hf)
  · have hs' := hstep.del_kept h hkept hadd hlegal (not_free_of_exec he) hs
    rcases hstep.exec_mem he with he' | ⟨rfl,hpc,hd⟩
    · exact .inr ⟨hs',.inl he'⟩
    · exact .inl (hstep.finish_free hpc he hd)
  · have hs' := hstep.del_kept h hkept hadd hlegal (not_free_of_pend hp) hs
    rcases hstep.pend_mem hp with hp' | ⟨-,he'⟩
    · exact .inr ⟨hs',.inr hp'⟩
    · exact .inr ⟨hs',.inl he'⟩

theorem ListStep.removing (h : Refines cs s a) (hok : AfterDel cs t s act)
    (hstep : ListStep a act a') (hI : Removing c t a) :
    Removing c t a' ∧ (act = .finish → a'.lay.Free t) := by
  obtain ⟨hlegal,hadd,hkept⟩ := hok
  rcases hI with hf | ⟨hs,he,hpc⟩
  · have hf' := hstep.free hadd hf
    exact ⟨.inl hf',fun _ => hf'⟩
  · by_cases hfin : act = .finish
    · subst hfin
      have hf' := hstep.finish_free hpc he hs
      exact ⟨.inl hf',fun _ => hf'⟩
    · have hs' := hstep.del_kept h hkept hadd hlegal (not_free_of_exec he) hs
      rcases hstep.exec_mem he with he' | ⟨hact,-,-⟩
      · exact ⟨.inr ⟨hs',he',hstep.ticking hpc hfin⟩,fun hact => (hfin hact).elim⟩
      · exact (hfin hact).elim

theorem run_free (hrun : Run (Step fuel) (AfterDel cs t) s acts s₁) (h : Refines cs s a)
    (hf : a.lay.Free t) : ¬ Linked cs s₁.mem t := by
  obtain ⟨a₁,hR,hf₁⟩ := run_invariant (I := fun a => a.lay.Free t) hrun (fun _ _ hok => hok.1)
    (fun _ _ _ _ _ hok hstep hf => hstep.free hok.2.1 hf) h hf
  exact fun hl => hR.rep.linked_iff.mp hl hf₁

/-- The end of the tick removes the task. -/
theorem run_removing (hrun : Run (Step fuel) (AfterDel cs t) s acts s₁) (h : Refines cs s a)
    (hI : Removing c t a) (hfin : .finish ∈ acts) : ¬ Linked cs s₁.mem t := by
  induction hrun generalizing a with
  | nil s => simp at hfin
  | @cons s s' s₁ act as hok hs hrest ih =>
    obtain ⟨a',hstep,hR⟩ := step_refines h hok.1 hs
    obtain ⟨hI',hfree⟩ := hstep.removing h hok hI
    rcases List.mem_cons.mp hfin with hact | hfin
    · exact run_free hrest hR (hfree hact.symm)
    · exact ih hR hI' hfin

/-- A deletion request on a task of scheduler `c` is kept in every run whose steps are those
of `DelKept`: the function of the task is not called again, and the next tick of `c` leaves
the task in no list. -/
theorem deletion_kept (hreach : Run (Step fuel) (Legal cs) (boot cs m) acts₀ s) (hc : c ∈ cs)
    (hin : InExec s.mem c t ∨ Queued s.mem c t) (hdel : Step fuel s (.call (.task t .del)) s₁)
    (hrun : Run (Step fuel) (AfterDel cs t) s₁ acts s₂) :
    ⟨t,true⟩ ∉ visits fuel s₁ acts ∧
      ∀ as bs, acts = as ++ .tick c :: bs → .finish ∈ bs → ¬ Linked cs s₂.mem t := by
  obtain ⟨a,-,hR⟩ := reachable_refines hreach
  have hok : Legal cs s (.call (.task t .del)) := trivial
  obtain ⟨a₁,hstep,hR₁⟩ := step_refines hR hok hdel
  have hmem : t ∈ a.lay.exec c ∨ t ∈ a.lay.pend c :=
    hin.imp (hR.rep.inExec_iff hc).mp (hR.rep.queued_iff hc).mp
  have hI : Leaving c t a₁ := by
    cases hstep with
    | call _ _ he =>
      cases he
      exact .inr ⟨by simp [odsTaskDel],hmem⟩
  constructor
  · intro hv
    obtain ⟨as,bs,s₃,rfl,hr,hvis⟩ := visits_mem hrun hv
    obtain ⟨a₃,hR₃,hI₃⟩ := run_invariant hr (fun _ _ hok => hok.1)
      (fun _ _ _ _ h hok hstep hI => hstep.leaving h hok hI) hR₁ hI
    obtain ⟨d,hpc,hinv⟩ := visitOf_eq_some hvis
    rcases hI₃ with hf | ⟨hs,-⟩
    · exact not_free_of_exec (hR₃.exec_of_pc hpc).2 hf
    · rw [hR₃.state] at hs
      rw [odsExecFunc_of_del hs] at hinv
      cases hinv
  · rintro as bs rfl hfin
    obtain ⟨s₃,hr,ht⟩ := run_append_iff.mp hrun
    obtain ⟨hok,s₄,hs,hrest⟩ := run_cons_iff.mp ht
    obtain ⟨a₃,hR₃,hI₃⟩ := run_invariant hr (fun _ _ hok => hok.1)
      (fun _ _ _ _ h hok hstep hI => hstep.leaving h hok hI) hR₁ hI
    obtain ⟨a₄,hstep₄,hR₄⟩ := step_refines hR₃ hok.1 hs
    refine run_removing (c := c) hrest hR₄ ?_ hfin
    rcases hI₃ with hf | ⟨hs,he | hp⟩
    · exact .inl (hstep₄.free hok.2.1 hf)
    · have hs' := hstep₄.del_kept hR₃ hok.2.2 hok.2.1 hok.1 (not_free_of_exec he) hs
      have he' := (hstep₄.exec_mem he).resolve_right (by simp)
      cases hstep₄ with
      | tick => exact .inr ⟨hs',he',rfl⟩
    · exact (hok.2.2 ((hR₃.rep.queued_iff hc).mpr hp) (hR₃.state ▸ hs)).elim

section Examples

def afterDelIn (cs : List CtxPtr) (fuel : Nat) (t : TaskPtr) (s : Sys) (act : Act) : Bool :=
  legalIn cs fuel s act &&
    match act with
    | .call (.add _ u) | .call (.task u .done) | .call (.task u (.eventWait _ _ _)) => u ≠ t
    | .tick c => absentIn fuel s.mem (s.mem.sch c).odsPreExecList t
    | _ => true

theorem afterDelIn_afterDel (h : afterDelIn cs fuel t s act = true) : AfterDel cs t s act := by
  obtain ⟨hl,hk⟩ := Bool.and_eq_true_iff.mp h
  refine ⟨legalIn_legal hl,?_,?_⟩
  · rintro d rfl
    simp at hk
  · unfold DelKept
    split
    · rintro rfl
      simp at hk
    · rintro rfl
      simp at hk
    · exact fun hq => (absentIn_not_meets hk hq).elim
    · trivial

def startTwo : List Act := [.call (.add 0 2),.call (.add 0 1),.tick 0,.visit,.ret,.visit]

def pauseAfterDel : List Act :=
  [.call (.task 2 .pause),.call (.task 2 .resume),.ret,.finish,.tick 0,.visit,.ret,.finish]

theorem deletion_kept_two : ∃ s s₁ s₂,
    Run (Step 5) (Legal [0]) (boot [0] blank) startTwo s ∧
      Step 5 s (.call (.task 2 .del)) s₁ ∧ Run (Step 5) (AfterDel [0] 2) s₁ pauseAfterDel s₂ ∧
      ⟨2,true⟩ ∉ visits 5 s₁ pauseAfterDel ∧ ¬ Linked [0] s₂.mem 2 := by
  obtain ⟨s,hreach,hP⟩ := runChecked_any (legalIn [0] 5) 5 (boot [0] blank) startTwo
    (fun s => presentIn 5 s.mem (s.mem.sch 0).odsExecList 2 &&
      (step 5 s (.call (.task 2 .del))).any fun s₁ =>
        (runChecked (afterDelIn [0] 5 2) 5 s₁ pauseAfterDel).isSome)
    (fun _ _ => legalIn_legal) (by decide +kernel)
  obtain ⟨hin,hP⟩ := Bool.and_eq_true_iff.mp hP
  obtain ⟨s₁,hdel,hP⟩ := (Option.any_eq_true _ _).mp hP
  obtain ⟨s₂,hrun⟩ := Option.isSome_iff_exists.mp hP
  have hdel := step_iff.mp hdel
  have hrun := runChecked_run (fun _ _ => afterDelIn_afterDel) hrun
  obtain ⟨hvis,hgone⟩ := deletion_kept hreach List.mem_cons_self (.inl (presentIn_meets hin)) hdel hrun
  exact ⟨s,s₁,s₂,hreach,hdel,hrun,hvis,
    hgone [.call (.task 2 .pause),.call (.task 2 .resume),.ret,.finish] _ rfl (by simp)⟩

def waitAfterDel : List Act := [.call (.task 1 (.eventWait 1 .or 0)),.tick 0,.visit,.ret,.finish]

/-- `ods_task_event_wait` overwrites the request: the function is called again, and the
task stays in the exec list. -/
theorem deletion_lost : ∃ s s₁ s₂,
    Run (Step 5) (Legal [0]) (boot [0] blank) [.call (.add 0 1),.tick 0,.visit,.ret,.finish] s ∧
      InExec s.mem 0 1 ∧ Step 5 s (.call (.task 1 .del)) s₁ ∧
      Run (Step 5) (Legal [0]) s₁ waitAfterDel s₂ ∧ (∀ d, .call (.add d 1) ∉ waitAfterDel) ∧
      ⟨1,true⟩ ∈ visits 5 s₁ waitAfterDel ∧ InExec s₂.mem 0 1 := by
  obtain ⟨s,hreach,hP⟩ := runChecked_any (legalIn [0] 5) 5 (boot [0] blank)
    [.call (.add 0 1),.tick 0,.visit,.ret,.finish]
    (fun s => presentIn 5 s.mem (s.mem.sch 0).odsExecList 1 &&
      (step 5 s (.call (.task 1 .del))).any fun s₁ =>
        ⟨1,true⟩ ∈ visits 5 s₁ waitAfterDel &&
          (runChecked (legalIn [0] 5) 5 s₁ waitAfterDel).any fun s₂ =>
            presentIn 5 s₂.mem (s₂.mem.sch 0).odsExecList 1)
    (fun _ _ => legalIn_legal) (by decide +kernel)
  obtain ⟨hin,hP⟩ := Bool.and_eq_true_iff.mp hP
  obtain ⟨s₁,hdel,hP⟩ := (Option.any_eq_true _ _).mp hP
  obtain ⟨hvis,hP⟩ := Bool.and_eq_true_iff.mp hP
  obtain ⟨s₂,hrun,hin₂⟩ := (Option.any_eq_true _ _).mp hP
  exact ⟨s,s₁,s₂,hreach,presentIn_meets hin,step_iff.mp hdel,
    runChecked_run (fun _ _ => legalIn_legal) hrun,by simp [waitAfterDel],by simpa using hvis,
    presentIn_meets hin₂⟩

end Examples

end Ods
