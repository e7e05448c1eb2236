import Ods.Events

/-! From a wait to the next call of the task's function: what the time-out flag tells it. -/
namespace Ods
open LabelledRun

variable {cs : List CtxPtr} {m : Mem} {fuel : Nat} {s s₁ s₂ s₃ : Sys} {a a' : ListSched}
variable {c : CtxPtr} {t : TaskPtr} {act : Act} {acts acts₀ : List Act} {x x' : TaskCtx}
variable {mask ms : U32} {type : EventMaskType}

/-- A step between a wait of `t` and the next call of its function: `t` is not added again and
gets no other wait, and no `ods_task_resume` of it takes effect. -/
structure WaitKept (cs : List CtxPtr) (t : TaskPtr) (s : Sys) (act : Act) : Prop where
  legal : Legal cs s act
  notCalled : visitOf s act ≠ some ⟨t,true⟩
  notAdded : ∀ d, act ≠ .call (.add d t)
  noWait : ∀ mask type ms, act ≠ .call (.task t (.eventWait mask type ms))
  noResume : act = .call (.task t .resume) →
    (s.mem.task t).state = .del ∨ (s.mem.task t).state = .add

def Waiting (mask : U32) (type : EventMaskType) (x : TaskCtx) : Prop :=
  x.func = none ∨ x.state = .pause ∨ x.state = .done ∨ x.state = .del ∨
    x.state = .event ∧ x.event.mask = mask ∧ x.event.type = type

theorem TaskOp.apply_waiting {op : TaskOp} (h : op.apply m x = some x')
    (hwait : ∀ mask type ms, op ≠ .eventWait mask type ms)
    (hresume : op = .resume → x.state = .del ∨ x.state = .add)
    (hx : Waiting mask type x) : Waiting mask type x' := by
  rcases hx with hf | hx
  · exact .inl ((func_of_frame (TaskOp.apply_frame h)).trans hf)
  · right
    cases op with
    | del =>
      cases h
      exact .inr (.inr (.inl rfl))
    | done =>
      cases h
      exact .inr (.inl rfl)
    | pause =>
      cases h
      unfold odsTaskPause
      split
      · exact .inl rfl
      · exact hx
    | resume =>
      cases h
      have hs := hresume rfl
      rw [odsTaskResume,if_neg (by tauto)]
      exact hx
    | sleep timeMs =>
      rcases odsTaskSleep_some h with ⟨-,rfl⟩ | ⟨hrun,-⟩
      · exact hx
      · simp [hrun] at hx
    | eventSet mask type => cases type <;> cases h <;> exact hx
    | eventWait mask type ms => exact (hwait mask type ms rfl).elim

theorem odsExecFunc_eq_none (h : odsExecFunc x = none) (hs : x.state = .run) : x.func = none := by
  rwa [odsExecFunc,if_pos hs] at h

/-- A visit that does not call the function leaves the task waiting. -/
theorem Waiting.wake (hx : Waiting mask type x) (h : odsExecFunc (odsExecWake x) = none) :
    Waiting mask type (odsExecWake x) := by
  have hfunc : (odsExecWake x).state = .run → Waiting mask type (odsExecWake x) :=
    fun hr => .inl (odsExecFunc_eq_none h hr)
  by_cases he : x.state = .event
  · cases hsat : x.event.satisfied with
    | true =>
      rw [odsExecWake_of_satisfied he hsat] at hfunc ⊢
      exact hfunc rfl
    | false =>
      rw [odsExecWake_of_unsatisfied he hsat] at hfunc ⊢
      by_cases hz : countDown x.event.eventTickCounter = 0#32
      · exact hfunc (by simp [hz])
      · rcases hx with hf | hs | hs | hs | ⟨-,hm,ht⟩
        · exact .inl hf
        · simp [he] at hs
        · simp [he] at hs
        · simp [he] at hs
        · exact .inr (.inr (.inr (.inr ⟨by simp [hz],hm,ht⟩)))
  · by_cases hsl : x.state = .sleep
    · rcases hx with hf | hs | hs | hs | ⟨hs,-⟩
      · exact .inl ((func_of_frame (odsExecWake_frame x)).trans hf)
      · simp [hsl] at hs
      · simp [hsl] at hs
      · simp [hsl] at hs
      · exact (he hs).elim
    · rw [odsExecWake_of_other hsl he]
      exact hx

/-- The function of a waiting task is called only by a visit that finds its events, or that
reports a time-out. -/
theorem Waiting.called (hx : Waiting mask type x) (h : (odsExecFunc (odsExecWake x)).isSome = true) :
    x.state = .event ∧ x.event.mask = mask ∧ x.event.type = type ∧
      (x.event.satisfied = true ∨ odsTaskEventTimedOut (odsExecWake x) = true) := by
  have hrun : (odsExecWake x).state = .run := by
    by_contra hr
    rw [odsExecFunc,if_neg hr] at h
    cases h
  have hother : x.state ≠ .sleep → x.state ≠ .event → x.state = .run := by
    intro hs he
    rwa [odsExecWake_of_other hs he] at hrun
  rcases hx with hf | hs | hs | hs | ⟨hs,hm,ht⟩
  · rw [odsExecFunc,if_pos hrun,func_of_frame (odsExecWake_frame x),hf] at h
    cases h
  · simp [hs] at hother
  · simp [hs] at hother
  · simp [hs] at hother
  · refine ⟨hs,hm,ht,?_⟩
    cases hsat : x.event.satisfied with
    | true => exact .inl rfl
    | false =>
      rw [odsExecWake_of_unsatisfied hs hsat] at hrun ⊢
      by_cases hz : countDown x.event.eventTickCounter = 0#32
      · exact .inr (by simp [odsTaskEventTimedOut,hz])
      · simp [hz] at hrun

def WaitsIn (mask : U32) (type : EventMaskType) (t : TaskPtr) (a : ListSched) : Prop :=
  a.lay.Free t ∨ (∃ c, t ∈ a.lay.exec c) ∧ Waiting mask type (a.data.task t)

theorem ListStep.waitsIn (h : Refines cs s a) (hok : WaitKept cs t s act)
    (hstep : ListStep a act a') (hI : WaitsIn mask type t a) : WaitsIn mask type t a' := by
  rcases hI with hf | ⟨⟨c,he⟩,hw⟩
  · exact .inl (hstep.free hok.notAdded hf)
  rcases hstep.exec_mem he with he' | ⟨rfl,hpc,hd⟩
  · refine .inr ⟨⟨c,he'⟩,?_⟩
    cases hstep.taskStep t with
    | same hs =>
      rw [hs]
      exact hw
    | @call op ho =>
      refine TaskOp.apply_waiting ho ?_ ?_ hw
      · rintro mask type ms rfl
        exact hok.noWait mask type ms rfl
      · rintro rfl
        rw [h.state]
        exact hok.noResume rfl
    | add => exact (hok.notAdded _ rfl).elim
    | activate hp => exact (Layout.not_pend_of_exec he hp).elim
    | skip _ _ hf hs =>
      rw [hs]
      exact hw.wake hf
    | invoke hpc _ hf _ =>
      rw [h.task,odsExecFunc_wake_data] at hf
      exact (hok.notCalled (by simp [visitOf,(h.exec_of_walk hpc).2.2,hf])).elim
    | ret _ _ hs =>
      rw [hs]
      exact hw
  · exact .inl (hstep.finish_free hpc he hd)

/-- If the function of a task is called for the first time after a wait and no time-out is
reported to it, the awaited events were pending at that visit, and were consumed by it,
unless a resume of the task took effect since the wait. -/
theorem event_success_genuine (hreach : Run (Step fuel) (Legal cs) (boot cs m) acts₀ s)
    (hc : c ∈ cs) (hin : InExec s.mem c t)
    (hwait : Step fuel s (.call (.task t (.eventWait mask type ms))) s₁)
    (hrun : Run (Step fuel) (WaitKept cs t) s₁ acts s₂)
    (hvisit : Step fuel s₂ .visit s₃) (hcalled : visitOf s₂ .visit = some ⟨t,true⟩)
    (hflag : odsTaskEventTimedOut (s₃.mem.task t) = false) :
    endsWait s₂ t .visit = true ∧ (s₂.mem.task t).event.mask = mask ∧
      (s₂.mem.task t).event.type = type ∧ (s₂.mem.task t).event.Awaited ∧
      odsTaskEventGet (s₃.mem.task t) &&& mask = 0#32 := by
  obtain ⟨a,-,hR⟩ := reachable_refines hreach
  have hok : Legal cs s (.call (.task t (.eventWait mask type ms))) := trivial
  obtain ⟨a₁,hstep,hR₁⟩ := step_refines hR hok hwait
  have hI : WaitsIn mask type t a₁ := by
    cases hstep with
    | call _ _ he =>
      obtain ⟨x,hx,rfl⟩ := Option.map_eq_some_iff.mp he
      obtain ⟨p,-,-,rfl⟩ := odsTaskEventWait_some hx
      exact .inr ⟨⟨c,(hR.rep.inExec_iff hc).mp hin⟩,by simp [Waiting]⟩
  obtain ⟨a₂,hR₂,hI₂⟩ := run_invariant (I := WaitsIn mask type t) hrun (fun _ _ hok => hok.legal)
    (fun _ _ _ _ h hok hstep hI => hstep.waitsIn h hok hI) hR₁ hI
  obtain ⟨d,hpc,hinv⟩ := visitOf_eq_some hcalled
  have hw : Waiting mask type (s₂.mem.task t) := by
    rcases hI₂ with hf | ⟨-,hw⟩
    · exact (hf d (List.mem_append_left _ (hR₂.exec_of_pc hpc).2)).elim
    · rw [hR₂.task] at hw
      exact hw
  obtain ⟨hs,hm,ht,hsat⟩ := hw.called hinv.symm
  have hmem : s₃.mem.task t = odsExecWake (s₂.mem.task t) := by
    cases hvisit with
    | skip hf =>
      cases hpc
      rw [hf] at hinv
      cases hinv
    | invoke =>
      cases hpc
      simp
  rw [hmem] at hflag ⊢
  have hsat : (s₂.mem.task t).event.satisfied = true := by simpa [hflag] using hsat
  refine ⟨by simp [endsWait,hpc,hs,hsat],hm,ht,Event.satisfied_iff.mp hsat,?_⟩
  rw [odsTaskEventGet,odsExecWake_events,if_pos ⟨hs,hsat⟩,← hm]
  exact Event.consumed_and_mask

section Examples

def waitKeptIn (cs : List CtxPtr) (fuel : Nat) (t : TaskPtr) (s : Sys) (act : Act) : Bool :=
  legalIn cs fuel s act && visitOf s act ≠ some ⟨t,true⟩ &&
    match act with
    | .call (.add _ u) | .call (.task u (.eventWait _ _ _)) => u ≠ t
    | .call (.task u .resume) =>
      u ≠ t || (s.mem.task t).state = .del || (s.mem.task t).state = .add
    | _ => true

theorem waitKeptIn_waitKept (h : waitKeptIn cs fuel t s act = true) : WaitKept cs t s act := by
  simp only [waitKeptIn,Bool.and_eq_true] at h
  obtain ⟨⟨hl,hv⟩,hk⟩ := h
  refine ⟨legalIn_legal hl,by simpa using hv,?_,?_,?_⟩
  · rintro d rfl
    simp at hk
  · rintro mask type ms rfl
    simp at hk
  · rintro rfl
    simpa using hk

def raiseForWaiter : List Act :=
  [.ret,.visit,.call (.task 1 (.eventSet 1 .or)),.ret,.finish,.tick 0]

theorem event_success_genuine_two : ∃ s s₁ s₂ s₃,
    Run (Step 5) (Legal [0]) (boot [0] blank) [.call (.add 0 1),.call (.add 0 2),.tick 0,.visit] s ∧
      Step 5 s (.call (.task 1 (.eventWait 1 .or 100))) s₁ ∧
      Run (Step 5) (WaitKept [0] 1) s₁ raiseForWaiter s₂ ∧ Step 5 s₂ .visit s₃ ∧
      (s₂.mem.task 1).event.Awaited ∧ odsTaskEventGet (s₃.mem.task 1) &&& 1 = 0#32 := by
  obtain ⟨s,hreach,hP⟩ := runChecked_any (legalIn [0] 5) 5 (boot [0] blank)
    [.call (.add 0 1),.call (.add 0 2),.tick 0,.visit]
    (fun s => presentIn 5 s.mem (s.mem.sch 0).odsExecList 1 &&
      (step 5 s (.call (.task 1 (.eventWait 1 .or 100)))).any fun s₁ =>
        (runChecked (waitKeptIn [0] 5 1) 5 s₁ raiseForWaiter).any fun s₂ =>
          visitOf s₂ .visit = some ⟨1,true⟩ &&
            (step 5 s₂ .visit).any fun s₃ => !odsTaskEventTimedOut (s₃.mem.task 1))
    (fun _ _ => legalIn_legal) (by decide +kernel)
  obtain ⟨hin,hP⟩ := Bool.and_eq_true_iff.mp hP
  obtain ⟨s₁,hwait,hP⟩ := (Option.any_eq_true _ _).mp hP
  obtain ⟨s₂,hrun,hP⟩ := (Option.any_eq_true _ _).mp hP
  obtain ⟨hcalled,hP⟩ := Bool.and_eq_true_iff.mp hP
  obtain ⟨s₃,hvisit,hflag⟩ := (Option.any_eq_true _ _).mp hP
  have hwait := step_iff.mp hwait
  have hvisit := step_iff.mp hvisit
  have hrun := runChecked_run (fun _ _ => waitKeptIn_waitKept) hrun
  obtain ⟨-,-,-,haw,hcons⟩ := event_success_genuine hreach List.mem_cons_self (presentIn_meets hin)
    hwait hrun hvisit (by simpa using hcalled) (by simpa using hflag)
  exact ⟨s,s₁,s₂,s₃,hreach,hwait,hrun,hvisit,haw,hcons⟩

/-- A wait that `ods_task_resume` ends is no time-out either: the function of task 1 is called
though no event was ever pending. -/
theorem resume_reads_as_success : ∃ s s₁ s₂ s₃,
    Run (Step 5) (Legal [0]) (boot [0] blank) [.call (.add 0 1),.tick 0,.visit] s ∧
      InExec s.mem 0 1 ∧ Step 5 s (.call (.task 1 (.eventWait 1 .or 100))) s₁ ∧
      Run (Step 5) (Legal [0]) s₁ [.call (.task 1 .resume),.ret,.finish,.tick 0] s₂ ∧
      Step 5 s₂ .visit s₃ ∧ visitOf s₂ .visit = some ⟨1,true⟩ ∧
      odsTaskEventTimedOut (s₃.mem.task 1) = false ∧ endsWait s₂ 1 .visit = false := by
  obtain ⟨s,hreach,hP⟩ := runChecked_any (legalIn [0] 5) 5 (boot [0] blank)
    [.call (.add 0 1),.tick 0,.visit]
    (fun s => presentIn 5 s.mem (s.mem.sch 0).odsExecList 1 &&
      (step 5 s (.call (.task 1 (.eventWait 1 .or 100)))).any fun s₁ =>
        (runChecked (legalIn [0] 5) 5 s₁ [.call (.task 1 .resume),.ret,.finish,.tick 0]).any fun s₂ =>
          visitOf s₂ .visit = some ⟨1,true⟩ && !endsWait s₂ 1 .visit &&
            (step 5 s₂ .visit).any fun s₃ => !odsTaskEventTimedOut (s₃.mem.task 1))
    (fun _ _ => legalIn_legal) (by decide +kernel)
  obtain ⟨hin,hP⟩ := Bool.and_eq_true_iff.mp hP
  obtain ⟨s₁,hwait,hP⟩ := (Option.any_eq_true _ _).mp hP
  obtain ⟨s₂,hrun,hP⟩ := (Option.any_eq_true _ _).mp hP
  simp only [Bool.and_eq_true,Bool.not_eq_true',decide_eq_true_eq] at hP
  obtain ⟨⟨hcalled,hends⟩,hP⟩ := hP
  obtain ⟨s₃,hvisit,hflag⟩ := (Option.any_eq_true _ _).mp hP
  exact ⟨s,s₁,s₂,s₃,hreach,presentIn_meets hin,step_iff.mp hwait,
    runChecked_run (fun _ _ => legalIn_legal) hrun,step_iff.mp hvisit,hcalled,
    by simpa using hflag,hends⟩

end Examples

end Ods
