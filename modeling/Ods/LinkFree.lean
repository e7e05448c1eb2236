import Ods.WakeUp

/-! Memory with its links forgotten: `data` erases the `next` pointers, the list heads
and `ods_num_tasks`, which a list-level view of the scheduler keeps as lists. What the
code does to the rest does not depend on them. -/
namespace Ods

def TaskCtx.data (x : TaskCtx) : TaskCtx := { x with next := none }

def TaskCtx.relink (n : Option TaskPtr) (k : Option CtxPtr) (x : TaskCtx) : TaskCtx :=
  { x with next := n, ctx := k }

def OdsCtx.data (x : OdsCtx) : OdsCtx :=
  { x with odsExecList := none, odsPreExecList := none, odsNumTasks := 0 }

def Mem.data (m : Mem) : Mem := ⟨fun t => (m.task t).data,fun c => (m.sch c).data,m.timers⟩

section Fields
variable (x : TaskCtx) (y : OdsCtx) (m : Mem)

@[simp] theorem TaskCtx.data_state : x.data.state = x.state := rfl
@[simp] theorem TaskCtx.data_execTickCounter : x.data.execTickCounter = x.execTickCounter := rfl
@[simp] theorem OdsCtx.data_odsTickTimeMs : y.data.odsTickTimeMs = y.odsTickTimeMs := rfl
@[simp] theorem OdsCtx.data_odsTimer : y.data.odsTimer = y.odsTimer := rfl
@[simp] theorem Mem.data_task (t : TaskPtr) : m.data.task t = (m.task t).data := rfl
@[simp] theorem Mem.data_sch (c : CtxPtr) : m.data.sch c = (m.sch c).data := rfl
@[simp] theorem Mem.data_timers : m.data.timers = m.timers := rfl

end Fields

variable {n : Option TaskPtr} {k : Option CtxPtr}

theorem TaskCtx.data_eq (x : TaskCtx) : x.data = x.relink none x.ctx := rfl

theorem Mem.ext' {m m' : Mem} (ht : ∀ t, m.task t = m'.task t) (hs : ∀ c, m.sch c = m'.sch c)
    (hm : m.timers = m'.timers) : m = m' := by
  cases m
  cases m'
  simp only [Mem.mk.injEq]
  exact ⟨funext ht,funext hs,hm⟩

theorem Mem.data_modTask {m : Mem} {t : TaskPtr} {f g : TaskCtx → TaskCtx}
    (h : (f (m.task t)).data = g (m.task t).data) :
    (m.modTask t f).data = m.data.modTask t g := by
  refine Mem.ext' (fun u => ?_) (fun _ => rfl) rfl
  by_cases hu : u = t
  · subst hu
    simpa using h
  · simp [hu]

/-- An update of links alone. -/
theorem Mem.data_modSch_self {m : Mem} {c : CtxPtr} {f : OdsCtx → OdsCtx}
    (h : (f (m.sch c)).data = (m.sch c).data) : (m.modSch c f).data = m.data := by
  refine Mem.ext' (fun _ => rfl) (fun d => ?_) rfl
  by_cases hd : d = c
  · subst hd
    simpa using h
  · simp [hd]

@[simp] theorem Mem.data_setNext (m : Mem) (t : TaskPtr) (p : Option TaskPtr) :
    (m.setNext t p).data = m.data := by
  refine Mem.ext' (fun u => ?_) (fun _ => rfl) rfl
  by_cases hu : u = t
  · subst hu
    simp [Mem.setNext,TaskCtx.data]
  · simp [Mem.setNext,hu]

@[simp] theorem Mem.data_setHead (m : Mem) (r : ListRef) (p : Option TaskPtr) :
    (m.setHead r p).data = m.data := by
  cases r with
  | execList c => exact data_modSch_self (f := fun x => { x with odsExecList := p }) rfl
  | preExecList c => exact data_modSch_self (f := fun x => { x with odsPreExecList := p }) rfl

/-- The wake-up step does not look at where the task is linked. -/
theorem odsExecWake_relink (x : TaskCtx) : odsExecWake (x.relink n k) = (odsExecWake x).relink n k := by
  by_cases hs : x.state = .sleep
  · have hs' : (x.relink n k).state = .sleep := hs
    rw [odsExecWake_of_sleep hs,odsExecWake_of_sleep hs']
    rfl
  · have hs' : (x.relink n k).state ≠ .sleep := hs
    by_cases he : x.state = .event
    · have he' : (x.relink n k).state = .event := he
      cases hsat : x.event.satisfied with
      | true =>
        have hsat' : (x.relink n k).event.satisfied = true := hsat
        rw [odsExecWake_of_satisfied he hsat,odsExecWake_of_satisfied he' hsat']
        rfl
      | false =>
        have hsat' : (x.relink n k).event.satisfied = false := hsat
        rw [odsExecWake_of_unsatisfied he hsat,odsExecWake_of_unsatisfied he' hsat']
        rfl
    · have he' : (x.relink n k).state ≠ .event := he
      rw [odsExecWake_of_other hs he,odsExecWake_of_other hs' he']

theorem odsExecWake_data (x : TaskCtx) : (odsExecWake x).data = odsExecWake x.data := by
  have hctx : (odsExecWake x).ctx = x.ctx := ctx_of_frame (odsExecWake_frame x)
  rw [TaskCtx.data_eq,TaskCtx.data_eq,hctx,odsExecWake_relink]

@[simp] theorem odsExecFunc_data (x : TaskCtx) : odsExecFunc x.data = odsExecFunc x := rfl

theorem odsExecFunc_wake_data (x : TaskCtx) :
    odsExecFunc (odsExecWake x.data) = odsExecFunc (odsExecWake x) := by
  rw [← odsExecWake_data,odsExecFunc_data]

section Calls
variable {m m' : Mem} {x : TaskCtx}

theorem odsTaskSleep_relink (hp : tickTimeOf m' (x.relink n k) = tickTimeOf m x) (timeMs : U32) :
    odsTaskSleep m' (x.relink n k) timeMs = (odsTaskSleep m x timeMs).map (TaskCtx.relink n k) := by
  have hp' : tickTimeOf m' { x.relink n k with state := .sleep } =
      tickTimeOf m { x with state := .sleep } := hp
  by_cases hs : x.state = .run
  · have hs' : (x.relink n k).state = .run := hs
    simp only [odsTaskSleep,if_pos hs,if_pos hs',hp']
    cases tickTimeOf m { x with state := .sleep } with
    | none => rfl
    | some p =>
      simp only [Option.bind_eq_bind,Option.bind_some]
      cases cDiv timeMs p <;> rfl
  · have hs' : (x.relink n k).state ≠ .run := hs
    simp only [odsTaskSleep,if_neg hs,if_neg hs',Option.map_some]

theorem odsTaskEventWait_relink (hp : tickTimeOf m' (x.relink n k) = tickTimeOf m x)
    (eventMask : U32) (type : EventMaskType) (tmroutMs : U32) :
    odsTaskEventWait m' (x.relink n k) eventMask type tmroutMs =
      (odsTaskEventWait m x eventMask type tmroutMs).map (TaskCtx.relink n k) := by
  have hp' : tickTimeOf m' { x.relink n k with
        event.mask := eventMask, event.type := type, event.timeout := false } =
      tickTimeOf m { x with
        event.mask := eventMask, event.type := type, event.timeout := false } := hp
  simp only [odsTaskEventWait,hp']
  cases tickTimeOf m { x with
      event.mask := eventMask, event.type := type, event.timeout := false } with
  | none => rfl
  | some p =>
    simp only [Option.bind_eq_bind,Option.bind_some]
    cases cDiv tmroutMs p <;> rfl

/-- A call on a task looks at no link; of the scheduler it needs the period only. -/
theorem TaskOp.apply_relink (hp : tickTimeOf m' (x.relink n k) = tickTimeOf m x) (op : TaskOp) :
    op.apply m' (x.relink n k) = (op.apply m x).map (TaskCtx.relink n k) := by
  cases op with
  | del | done => rfl
  | pause | resume =>
    simp only [apply,odsTaskPause,odsTaskResume,Option.map_some,apply_ite (TaskCtx.relink n k)]
    rfl
  | eventSet mask type => cases type <;> rfl
  | sleep timeMs => exact odsTaskSleep_relink hp timeMs
  | eventWait eventMask type tmroutMs => exact odsTaskEventWait_relink hp eventMask type tmroutMs

theorem TaskOp.apply_data (m : Mem) (x : TaskCtx) (op : TaskOp) :
    op.apply m.data x.data = (op.apply m x).map TaskCtx.data := by
  have hp : tickTimeOf m.data (x.relink none x.ctx) = tickTimeOf m x := rfl
  rw [TaskCtx.data_eq,TaskOp.apply_relink hp]
  refine Option.map_congr fun y hy => ?_
  rw [TaskCtx.data_eq y,ctx_of_frame (TaskOp.apply_frame hy)]

end Calls

end Ods
