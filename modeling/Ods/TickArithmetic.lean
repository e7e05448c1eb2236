import Ods.Events

/-! Counters and periods: no division by zero and no countdown below zero, in any run of any
public calls, `ods_init` included. -/
namespace Ods
open LabelledRun

variable {cs : List CtxPtr} {m m' : Mem} {fuel bound : Nat} {s s' : Sys} {c : CtxPtr} {t : TaskPtr}
variable {act : Act} {acts : List Act} {x x' : TaskCtx} {p : Option TaskPtr} {f : TaskCtx → TaskCtx}
variable {ms : U32} {A₀ : Prop} {A : TaskPtr → Prop}

def TaskCtx.zero (func : Option FuncPtr) : TaskCtx := ⟨.run,0,0,Event.zero,func,none,none⟩

/-- A task that counts down has something left to count; an added one has a scheduler. -/
structure TaskOk (cs : List CtxPtr) (added : Prop) (x : TaskCtx) : Prop where
  owner : added → ∃ c ∈ cs, x.ctx = some c
  sleep : x.state = .sleep → 0#32 < x.sleepTickCounter
  event : x.state = .event → 0#32 < x.event.eventTickCounter

/-- Every initialised scheduler has a period. `A` are tasks that have been added. -/
structure ArithInv (cs : List CtxPtr) (A : TaskPtr → Prop) (m : Mem) : Prop where
  period : ∀ c ∈ cs, odsTickTimeMsMin ≤ (m.sch c).odsTickTimeMs
  task : ∀ t, TaskOk cs (A t) (m.task t)

theorem TaskOk.of_state (hx : TaskOk cs A₀ x) (hc : x'.ctx = x.ctx) (hs : x'.state ≠ .sleep)
    (he : x'.state ≠ .event) : TaskOk cs A₀ x' :=
  ⟨fun h => hc ▸ hx.owner h,fun h => (hs h).elim,fun h => (he h).elim⟩

/-- What `ods_task_sleep` and `ods_task_event_wait` store as the number of ticks. -/
theorem atLeastOne_pos (v : U32) : 0#32 < if v = 0 then 1 else v := by
  split
  · decide
  · rename_i h
    exact pos_iff_ne_zero.mpr h

theorem countDown_toNat {v : U32} (h : 0#32 < v) : (countDown v).toNat + 1 = v.toNat := by
  rw [countDown,if_pos (show 0 < v from h)]
  bv_omega

theorem TaskOp.apply_ok {op : TaskOp} (hx : TaskOk cs A₀ x) (h : op.apply m x = some x') :
    TaskOk cs A₀ x' := by
  have hctx : x'.ctx = x.ctx := ctx_of_frame (TaskOp.apply_frame h)
  cases op with
  | del =>
    cases h
    exact hx.of_state rfl (by simp [odsTaskDel]) (by simp [odsTaskDel])
  | done =>
    cases h
    exact hx.of_state rfl (by simp [odsTaskDone]) (by simp [odsTaskDone])
  | pause =>
    cases h
    unfold odsTaskPause
    split
    · exact hx.of_state rfl (by simp) (by simp)
    · exact hx
  | resume =>
    cases h
    unfold odsTaskResume
    split
    · exact hx.of_state rfl (by simp) (by simp)
    · exact hx
  | eventSet mask type => cases type <;> cases h <;> exact ⟨hx.owner,hx.sleep,hx.event⟩
  | sleep ms =>
    rcases odsTaskSleep_some h with ⟨-,rfl⟩ | ⟨-,p,-,-,rfl⟩
    · exact hx
    · exact ⟨hx.owner,fun _ => atLeastOne_pos (ms / p),by simp⟩
  | eventWait mask type ms =>
    obtain ⟨p,-,-,rfl⟩ := odsTaskEventWait_some h
    exact ⟨hx.owner,by simp,fun _ => atLeastOne_pos (ms / p)⟩

theorem TaskOk.wake (hx : TaskOk cs A₀ x) : TaskOk cs A₀ (odsExecWake x) := by
  have hctx : (odsExecWake x).ctx = x.ctx := ctx_of_frame (odsExecWake_frame x)
  by_cases hs : x.state = .sleep
  · rw [odsExecWake_of_sleep hs]
    by_cases hz : countDown x.sleepTickCounter = 0#32
    · exact hx.of_state rfl (by simp [hz]) (by simp [hz])
    · exact ⟨hx.owner,fun _ => pos_iff_ne_zero.mpr hz,by simp [hz]⟩
  · by_cases he : x.state = .event
    · cases hsat : x.event.satisfied with
      | true =>
        rw [odsExecWake_of_satisfied he hsat]
        exact hx.of_state rfl (by simp) (by simp)
      | false =>
        rw [odsExecWake_of_unsatisfied he hsat]
        by_cases hz : countDown x.event.eventTickCounter = 0#32
        · exact hx.of_state rfl (by simp [hz]) (by simp [hz])
        · exact ⟨hx.owner,by simp [hz],fun _ => pos_iff_ne_zero.mpr hz⟩
    · rw [odsExecWake_of_other hs he]
      exact hx

theorem ArithInv.modTask (h : ArithInv cs A m) (hf : TaskOk cs (A t) (f (m.task t))) :
    ArithInv cs A (m.modTask t f) := by
  refine ⟨h.period,fun u => ?_⟩
  by_cases hu : u = t
  · subst hu
    rwa [Mem.modTask_task_self]
  · rw [Mem.modTask_task_of_ne _ _ _ _ hu]
    exact h.task u

theorem ArithInv.modSch {g : OdsCtx → OdsCtx} (h : ArithInv cs A m)
    (hg : odsTickTimeMsMin ≤ (m.sch c).odsTickTimeMs → odsTickTimeMsMin ≤ (g (m.sch c)).odsTickTimeMs) :
    ArithInv cs A (m.modSch c g) := by
  refine ⟨fun d hd => ?_,h.task⟩
  by_cases hdc : d = c
  · subst hdc
    rw [Mem.modSch_sch_self]
    exact hg (h.period d hd)
  · rw [Mem.modSch_sch_of_ne _ _ _ _ hdc]
    exact h.period d hd

theorem ArithInv.setNext (h : ArithInv cs A m) : ArithInv cs A (m.setNext t p) :=
  h.modTask ⟨(h.task t).owner,(h.task t).sleep,(h.task t).event⟩

theorem ArithInv.setHead {r : ListRef} (h : ArithInv cs A m) : ArithInv cs A (m.setHead r p) := by
  cases r with
  | execList c => exact h.modSch (g := fun x => { x with odsExecList := p }) fun hp => hp
  | preExecList c => exact h.modSch (g := fun x => { x with odsPreExecList := p }) fun hp => hp

theorem ArithInv.listAdd {r : ListRef} (h : ArithInv cs A m) : ArithInv cs A (odsListAdd m r t).2 :=
  ArithInv.setHead (ArithInv.setNext h)

theorem ArithInv.create {id : TmrId} {ms : BitVec 64} {cyclic : Bool} (h : ArithInv cs A m) :
    ArithInv cs A (halTmrCreate m id ms cyclic c) :=
  ⟨h.period,h.task⟩

theorem ArithInv.delete {id : TmrId} (h : ArithInv cs A m) : ArithInv cs A (halTmrDelete m id) :=
  ⟨h.period,h.task⟩

theorem odsPreExecLoop_ok {changed : Bool} {r : Mem × Bool} (h : ArithInv cs A m)
    (hr : odsPreExecLoop c fuel m p changed = some r) : ArithInv cs A r.1 := by
  induction fuel generalizing m p changed with
  | zero => cases hr
  | succ fuel ih =>
    cases p with
    | none =>
      cases hr
      exact h
    | some item =>
      refine ih ?_ hr
      have hadd : ArithInv cs A (odsListAdd m (.execList c) item).2 := h.listAdd
      refine (hadd.modTask ?_).modSch fun hp => hp
      exact (hadd.task item).of_state rfl (by simp [activate]) (by simp [activate])

theorem odsPreExec_ok (h : ArithInv cs A m) (hr : odsPreExec fuel m c = some m') :
    ArithInv cs A m' := by
  simp only [odsPreExec,Option.bind_eq_bind,Option.bind_eq_some_iff] at hr
  obtain ⟨⟨m₁,changed⟩,hl,hr⟩ := hr
  have h₁ : ArithInv cs A (m₁.modSch c fun x => { x with odsPreExecList := none }) :=
    (odsPreExecLoop_ok h hl).modSch fun hp => hp
  split at hr
  · obtain ⟨_,-,hr⟩ := Option.bind_eq_some_iff.mp hr
    cases hr
    exact h₁
  · cases hr
    exact h₁

theorem odsListDel_ok {r : ListRef} {res : Bool × Mem} (h : ArithInv cs A m)
    (hr : odsListDel fuel m r t = some res) : ArithInv cs A res.2 := by
  unfold odsListDel at hr
  split at hr
  · cases hr
    exact h
  · split at hr
    · cases hr
      exact h.setHead
    · obtain ⟨current,-,hr⟩ := Option.bind_eq_some_iff.mp hr
      split at hr
      · cases hr
        exact h
      · cases hr
        exact h.setNext

theorem odsPostExecBody_ok (h : ArithInv cs A m) (hr : odsPostExecBody bound c m t = some m') :
    ArithInv cs A m' := by
  unfold odsPostExecBody at hr
  split at hr
  · obtain ⟨⟨deleted,m₁⟩,hd,hr⟩ := Option.bind_eq_some_iff.mp hr
    have h₁ : ArithInv cs A m₁ := odsListDel_ok h hd
    dsimp only at hr
    split at hr
    · obtain ⟨_,-,hr⟩ := Option.bind_eq_some_iff.mp hr
      cases hr
      exact h₁.modSch fun hp => hp
    · cases hr
      exact h₁
  · cases hr
    exact h

theorem odsPostExecLoop_ok (h : ArithInv cs A m) (hr : odsPostExecLoop bound c fuel m p = some m') :
    ArithInv cs A m' := by
  induction fuel generalizing m p with
  | zero => cases hr
  | succ fuel ih =>
    cases p with
    | none =>
      cases hr
      exact h
    | some item =>
      obtain ⟨m₁,hb,hr⟩ := Option.bind_eq_some_iff.mp hr
      exact ih (odsPostExecBody_ok h hb) hr

def Named (cs : List CtxPtr) (_ : Sys) : Act → Prop
  | .call (.init c) | .call (.start c _ _) | .call (.stop c) | .call (.add c _) | .tick c => c ∈ cs
  | _ => True

theorem Call.exec_ok {op : Call} (hok : Named cs s (.call op)) (h : ArithInv cs A m)
    (he : op.exec m = some m') : ArithInv cs A m' := by
  cases op with
  | init c =>
    cases he
    exact h.modSch fun _ => BitVec.le_refl _
  | start c tickTimeMs id =>
    cases he
    have hmin : odsTickTimeMsMin ≤
        if tickTimeMs < odsTickTimeMsMin then odsTickTimeMsMin else tickTimeMs := by
      split
      · exact BitVec.le_refl _
      · rename_i hlt
        exact BitVec.not_lt.mp hlt
    have h₁ := h.modSch (g := fun x => { x with odsTickTimeMs :=
      if tickTimeMs < odsTickTimeMsMin then odsTickTimeMsMin else tickTimeMs }) (c := c) fun _ => hmin
    exact ArithInv.modSch (g := fun x => { x with odsTimer := id }) h₁.create fun hp => hp
  | stop c =>
    cases he
    unfold odsStop
    split
    · exact h.delete.modSch fun hp => hp
    · exact h
  | add c t =>
    cases he
    refine ArithInv.modTask (f := fun x => { x with state := .add, ctx := some c })
      (h.listAdd (r := .preExecList c) (t := t))
      ⟨fun _ => ⟨c,hok,rfl⟩,?_,?_⟩
    · simp
    · simp
  | task t op =>
    obtain ⟨x,hx,rfl⟩ := Option.map_eq_some_iff.mp he
    exact h.modTask (TaskOp.apply_ok (h.task t) hx)

theorem Step.arithInv (hok : Named cs s act) (hs : Step fuel s act s') (h : ArithInv cs A s.mem) :
    ArithInv cs A s'.mem := by
  have hcount : ∀ {m : Mem} {item : TaskPtr}, ArithInv cs A m →
      ArithInv cs A (m.modTask item odsExecCount) := by
    intro m item h
    exact h.modTask ⟨(h.task item).owner,(h.task item).sleep,(h.task item).event⟩
  cases hs with
  | call _ he => exact Call.exec_ok hok h he
  | tick hm => exact odsPreExec_ok h hm
  | skip => exact hcount (h.modTask (h.task _).wake)
  | invoke => exact h.modTask (h.task _).wake
  | ret => exact hcount h
  | finish hm => exact odsPostExecLoop_ok h hm

theorem run_arithInv (hrun : Run (Step fuel) (Named cs) s acts s') (h : ArithInv cs A s.mem) :
    ArithInv cs A s'.mem :=
  hrun.invariant (fun _ _ _ hI hok hs => hs.arithInv hok hI) h

theorem boot_arithInv (hz : ∀ t, ∃ func, m.task t = TaskCtx.zero func) :
    ArithInv cs (fun _ => False) (boot cs m).mem := by
  constructor
  · intro c hc
    obtain ⟨x,hx⟩ := boot_sch m hc
    rw [hx]
    exact BitVec.le_refl _
  · intro t
    obtain ⟨func,hf⟩ := hz t
    rw [show (boot cs m).mem.task t = m.task t by rw [boot,foldl_odsInit_task],hf]
    exact ⟨False.elim,by simp [TaskCtx.zero],by simp [TaskCtx.zero]⟩

/-- A task that was added has a scheduler, with a period. -/
theorem run_added (hrun : Run (Step fuel) (Named cs) s acts s') (h : ArithInv cs (fun _ => False) s.mem)
    (hadd : .call (.add c t) ∈ acts) : ∃ p, tickTimeOf s'.mem (s'.mem.task t) = some p ∧ p ≠ 0#32 := by
  obtain ⟨as,bs,rfl⟩ := List.append_of_mem hadd
  obtain ⟨s₁,hr₁,hl⟩ := run_append_iff.mp hrun
  obtain ⟨hok,s₂,hs,hr₂⟩ := run_cons_iff.mp hl
  have h₂ := hs.arithInv hok (run_arithInv hr₁ h)
  have howner : (s₂.mem.task t).ctx = some c := by
    cases hs with
    | call _ he =>
      cases he
      simp [odsTaskAdd,odsListAdd]
  have h₂' : ArithInv cs (fun u => u = t) s₂.mem := by
    refine ⟨h₂.period,fun u => ⟨?_,(h₂.task u).sleep,(h₂.task u).event⟩⟩
    rintro rfl
    exact ⟨c,hok,howner⟩
  have h' := run_arithInv hr₂ h₂'
  obtain ⟨d,hd,hx⟩ := (h'.task t).owner rfl
  exact ⟨_,by rw [tickTimeOf,hx]; rfl,ne_zero_of_min_le (h'.period d hd)⟩

/-- In every state reached from `ods_init` and zero-initialised tasks each period is at least
`ODS_TICK_TIME_MS_MIN` and each task that counts down has at least one tick left; so no timed
call on a task that has been added divides by zero, and a wake-up step counts down by one. -/
theorem tick_arithmetic_safe (hz : ∀ t, ∃ func, m.task t = TaskCtx.zero func)
    (hrun : Run (Step fuel) (Named cs) (boot cs m) acts s) :
    (∀ c ∈ cs, odsTickTimeMsMin ≤ (s.mem.sch c).odsTickTimeMs) ∧
      (∀ t, (s.mem.task t).state = .sleep → 0 < (s.mem.task t).sleepTickCounter ∧
        (odsExecWake (s.mem.task t)).sleepTickCounter.toNat + 1 =
          (s.mem.task t).sleepTickCounter.toNat) ∧
      (∀ t, (s.mem.task t).state = .event → 0 < (s.mem.task t).event.eventTickCounter ∧
        ((s.mem.task t).event.satisfied = false →
          (odsExecWake (s.mem.task t)).event.eventTickCounter.toNat + 1 =
            (s.mem.task t).event.eventTickCounter.toNat)) ∧
      ∀ c t, .call (.add c t) ∈ acts → ∀ mask type ms,
        (∃ x, odsTaskSleep s.mem (s.mem.task t) ms = some x) ∧
          ∃ x, odsTaskEventWait s.mem (s.mem.task t) mask type ms = some x := by
  have h := run_arithInv hrun (boot_arithInv hz)
  refine ⟨h.period,?_,?_,?_⟩
  · intro t hs
    have hpos := (h.task t).sleep hs
    refine ⟨hpos,?_⟩
    rw [odsExecWake_of_sleep hs]
    exact countDown_toNat hpos
  · intro t he
    have hpos := (h.task t).event he
    refine ⟨hpos,fun hsat => ?_⟩
    rw [odsExecWake_of_unsatisfied he hsat]
    exact countDown_toNat hpos
  · intro c t hadd mask type ms
    obtain ⟨p,hp,hne⟩ := run_added hrun (boot_arithInv hz) hadd
    exact ⟨odsTaskSleep_total ms hp hne,odsTaskEventWait_total mask type ms hp hne⟩

theorem Legal.named (h : Legal cs s act) : Named cs s act := by
  cases act with
  | call op =>
    cases op with
    | init c => exact h.elim
    | start c tickTimeMs id | stop c => exact h
    | add c t => exact h.1
    | task t op => trivial
  | tick c => exact h
  | _ => trivial

def sleepThenStart : List Act :=
  [.call (.add 0 1),.tick 0,.visit,.call (.task 1 (.sleep 55)),.call (.start 0 100 7),.ret,.finish]

theorem tick_arithmetic_safe_sleep : ∃ s,
    Run (Step 5) (Named [0]) (boot [0] blank) sleepThenStart s ∧
      (s.mem.task 1).state = .sleep ∧ 0 < (s.mem.task 1).sleepTickCounter ∧
      (odsExecWake (s.mem.task 1)).sleepTickCounter.toNat + 1 =
        (s.mem.task 1).sleepTickCounter.toNat := by
  obtain ⟨s,hr,hs⟩ := runChecked_any (legalIn [0] 5) 5 (boot [0] blank) sleepThenStart
    (fun s => (s.mem.task 1).state = .sleep) (fun _ _ => legalIn_legal) (by decide +kernel)
  have hn := hr.mono fun _ _ => Legal.named
  have hs : (s.mem.task 1).state = .sleep := by simpa using hs
  obtain ⟨hpos,hdown⟩ := (tick_arithmetic_safe (fun _ => ⟨some 0,rfl⟩) hn).2.1 1 hs
  exact ⟨s,hn,hs,hpos,hdown⟩

end Ods
