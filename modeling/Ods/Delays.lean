import Ods.Countdown

/-! How long `ods_task_sleep` and `ods_task_event_wait` keep a task from running: to the visit. -/
namespace Ods
open LabelledRun

variable {cs : List CtxPtr} {m : Mem} {fuel : Nat} {s s' s₁ s₂ s₃ : Sys} {a a' : ListSched}
variable {c : CtxPtr} {t : TaskPtr} {act : Act} {acts acts₀ : List Act} {x x' : TaskCtx} {k : Nat}
variable {mask timeMs : U32} {type : EventMaskType} {called : Bool}

/-- What the machine's visit of `t` does to the record of `t`. -/
theorem Step.visit_self (hs : Step fuel s .visit s') (hv : visitOf s .visit = some ⟨t,called⟩) :
    called = (odsExecFunc (odsExecWake (s.mem.task t))).isSome ∧
      s'.mem.task t = if called then odsExecWake (s.mem.task t)
        else odsExecCount (odsExecWake (s.mem.task t)) := by
  obtain ⟨d,hpc,hc⟩ := visitOf_eq_some hv
  dsimp only at hpc hc
  refine ⟨hc,?_⟩
  cases hs with
  | skip hf =>
    cases hpc
    rw [hf] at hc
    simp [hc,endVisit]
  | invoke hf =>
    cases hpc
    rw [hf] at hc
    simp [hc]

theorem called_of_run (hs : Step fuel s .visit s') (hv : visitOf s .visit = some ⟨t,called⟩)
    (hf : (s.mem.task t).func ≠ none) (hrun : (odsExecWake (s.mem.task t)).state = .run) :
    called = true ∧ s'.mem.task t = odsExecWake (s.mem.task t) := by
  obtain ⟨hc,hmem⟩ := hs.visit_self hv
  have hcalled : called = true := by
    rw [hc,odsExecFunc,if_pos hrun,func_of_frame (odsExecWake_frame _),Option.isSome_iff_ne_none]
    exact hf
  rw [hcalled,if_pos rfl] at hmem
  exact ⟨hcalled,hmem⟩

theorem not_called_of_ne_run (hs : Step fuel s .visit s') (hv : visitOf s .visit = some ⟨t,called⟩)
    (hrun : (odsExecWake (s.mem.task t)).state ≠ .run) :
    called = false ∧ s'.mem.task t = odsExecCount (odsExecWake (s.mem.task t)) := by
  obtain ⟨hc,hmem⟩ := hs.visit_self hv
  have hcalled : called = false := by
    rw [hc,odsExecFunc_of_ne_run hrun]
    rfl
  rw [hcalled,if_neg Bool.false_ne_true] at hmem
  exact ⟨hcalled,hmem⟩

/-- A call on a task in an exec list, and what it leaves. -/
theorem call_step (fuel : Nat) (op : TaskOp) (h : Refines cs s a) (hpc : s.pc.Client)
    (he : t ∈ a.lay.exec c) (ho : op.apply s.mem (s.mem.task t) = some x) :
    ∃ s₁ a₁, Step fuel s (.call (.task t op)) s₁ ∧ s₁.pc = s.pc ∧ s₁.mem.task t = x ∧
      Refines cs s₁ a₁ ∧ t ∈ a₁.lay.exec c := by
  have hs : Step fuel s (.call (.task t op)) ⟨s.mem.modTask t fun _ => x,s.pc⟩ :=
    .call hpc (Option.map_eq_some_iff.mpr ⟨x,ho,rfl⟩)
  have hok : Legal cs s (.call (.task t op)) := trivial
  obtain ⟨a₁,hstep,h₁⟩ := step_refines h hok hs
  exact ⟨_,a₁,hs,rfl,by simp,h₁,(hstep.exec_mem he).resolve_right (by simp)⟩

/-- Where a task with visits left to count stands when the next of them comes. -/
theorem Countdown.reached {left : Nat → TaskCtx → Prop} {ended : Event → Prop}
    (hcd : Countdown left ended) (hrun : Run (Step fuel) (LeftAlone cs t) s acts s')
    (h : Refines cs s a) (hc : c ∈ cs) (he : t ∈ a.lay.exec c) (hl : left k (a.data.task t))
    (hf : (s.mem.task t).func ≠ none) (hn : (visitRecords fuel t s acts).length < k)
    (hopen : ∀ x ∈ visitRecords fuel t s acts, ¬ ended x.event) :
    InExec s'.mem c t ∧ ⟨t,true⟩ ∉ visits fuel s acts ∧ (s'.mem.task t).func ≠ none ∧
      ∃ j, left (j + 1) (s'.mem.task t).data ∧ (visitRecords fuel t s acts).length + 1 + j = k := by
  obtain ⟨a',h',he',hl',hvs⟩ := hcd.run hrun h he hl hn hopen
  rw [h'.task] at hl'
  have hfunc := run_func (t := t) (hrun.mono fun _ _ hok => hok.legal) h
  obtain ⟨j,hj⟩ := Nat.exists_eq_add_of_lt hn
  refine ⟨(h'.rep.inExec_iff hc).mpr he',hvs,by rwa [hfunc],j,?_,by omega⟩
  rwa [show k - (visitRecords fuel t s acts).length = j + 1 by omega] at hl'

def leftAloneIn (cs : List CtxPtr) (fuel : Nat) (t : TaskPtr) (s : Sys) (act : Act) : Bool :=
  legalIn cs fuel s act &&
    match act with
    | .call (.task _ (.sleep _)) | .call (.task _ (.eventSet _ _)) => true
    | .call (.task u _) => u ≠ t
    | _ => true

theorem leftAloneIn_leftAlone (h : leftAloneIn cs fuel t s act = true) : LeftAlone cs t s act := by
  obtain ⟨hl,hg⟩ := Bool.and_eq_true_iff.mp h
  refine ⟨legalIn_legal hl,?_⟩
  rintro op rfl
  cases op with
  | sleep | eventSet => trivial
  | _ => simp at hg

/-- Tasks 1 and 2 run on scheduler 0; task 2, visited after task 1, is in its function. -/
def secondRuns : List Act := [.call (.add 0 1),.call (.add 0 2),.tick 0,.visit,.ret,.visit]

section Sets

def Event.set (e : Event) (v : U32 × EventMaskType) : Event :=
  match v.2 with
  | .or => { e with events := e.events ||| v.1 }
  | .and => { e with events := e.events &&& v.1 }

theorem Event.set_events {e e' : Event} (h : e.events = e'.events) (v : U32 × EventMaskType) :
    (e.set v).events = (e'.set v).events := by
  obtain ⟨mask,type⟩ := v
  cases type <;> simp [Event.set,h]

theorem odsTaskEventSet_event : (odsTaskEventSet x mask type).event = x.event.set (mask,type) := by
  cases type <;> rfl

def eventSetOn (t : TaskPtr) : Act → Option (U32 × EventMaskType)
  | .call (.task u (.eventSet mask type)) => if u = t then some (mask,type) else none
  | _ => none

theorem eventSetOn_eq_some {v : U32 × EventMaskType} (h : eventSetOn t act = some v) :
    act = .call (.task t (.eventSet v.1 v.2)) := by
  unfold eventSetOn at h
  split at h
  · split at h
    · rename_i hu
      cases h
      rw [hu]
    · cases h
  · cases h

variable {left : Nat → TaskCtx → Prop} {ended : Event → Prop} {α : Type} {g : Event → α}

theorem foldl_set {e e' : Event} {vs : List (U32 × EventMaskType)}
    (hset : ∀ {e e' : Event}, g e = g e' → ∀ v, g (e.set v) = g (e'.set v)) (h : g e = g e') :
    g (vs.foldl Event.set e) = g (vs.foldl Event.set e') :=
  List.foldl_rel (r := fun e e' => g e = g e') h fun v _ _ _ hg => hset hg v

/-- What the visits that count leave of the event record changes by `ods_task_event_set` only. -/
theorem ListStep.event_fold
    (hwake : ∀ {k x}, left (k + 1) x → ¬ ended x.event → g (odsExecWake x).event = g x.event)
    (h : Refines cs s a) (hok : LeftAlone cs t s act) (hstep : ListStep a act a')
    (he : t ∈ a.lay.exec c) (hl : left k (a.data.task t))
    (hn : (visitedAs t s act).toList.length < k) (hopen : ∀ x ∈ visitedAs t s act, ¬ ended x.event) :
    g (a'.data.task t).event = g ((eventSetOn t act).toList.foldl Event.set (a.data.task t).event) := by
  cases hv : eventSetOn t act with
  | some v =>
    obtain rfl := eventSetOn_eq_some hv
    cases hstep with
    | call _ _ hx =>
      cases hx
      simp [odsTaskEventSet_event]
  | none =>
    have hvisit : ∀ {rest : List TaskPtr} {d : CtxPtr}, a.pc = .walk d (t :: rest) → act = .visit →
        g (odsExecWake (a.data.task t)).event = g (a.data.task t).event := by
      rintro rest d hpc rfl
      rw [visitedAs_of_walk (h.exec_of_walk hpc).2.2] at hn hopen
      obtain ⟨k,rfl⟩ : ∃ j, k = j + 1 := ⟨k - 1,by omega⟩
      refine hwake hl ?_
      rw [h.event]
      exact hopen _ rfl
    cases hstep.taskStep t with
    | same hx => rw [hx]; rfl
    | @call op ho =>
      rcases TaskOp.apply_event ho with hx | ⟨mask,type,rfl,-⟩ | ⟨mask,type,ms,rfl,-⟩
      · rw [hx]; rfl
      · simp [eventSetOn] at hv
      · exact (hok.gentle _ rfl).elim
    | add => exact (hok.legal.2 (h.rep.linked_iff.mpr (not_free_of_exec he))).elim
    | activate hp => exact (Layout.not_pend_of_exec he hp).elim
    | skip hpc _ _ hx =>
      rw [hx]
      exact hvisit hpc rfl
    | invoke hpc _ _ hx =>
      rw [hx]
      exact hvisit hpc rfl
    | ret _ _ hx => rw [hx]; rfl

theorem Countdown.run_event (hcd : Countdown left ended)
    (hset : ∀ {e e' : Event}, g e = g e' → ∀ v, g (e.set v) = g (e'.set v))
    (hwake : ∀ {k x}, left (k + 1) x → ¬ ended x.event → g (odsExecWake x).event = g x.event)
    (hrun : Run (Step fuel) (LeftAlone cs t) s acts s') (h : Refines cs s a)
    (he : t ∈ a.lay.exec c) (hl : left k (a.data.task t))
    (hn : (visitRecords fuel t s acts).length < k)
    (hopen : ∀ x ∈ visitRecords fuel t s acts, ¬ ended x.event) :
    g (s'.mem.task t).event =
      g ((acts.filterMap (eventSetOn t)).foldl Event.set (s.mem.task t).event) := by
  induction hrun generalizing a k with
  | nil s => rfl
  | @cons s s₁ s₂ act acts hok hs _ ih =>
    simp only [visitRecords,step_iff.mpr hs,Option.map_some,Option.getD_some,List.length_append,
      List.forall_mem_append,Option.mem_toList] at hn hopen
    obtain ⟨a₁,hstep,h₁⟩ := step_refines h hok.legal hs
    obtain ⟨he₁,hl₁,-⟩ := hcd.step h hok hstep he hl (by omega) hopen.1
    have hev := hstep.event_fold hwake h hok he hl (by omega) hopen.1
    rw [h.event,h₁.event] at hev
    rw [ih h₁ he₁ hl₁ (by omega) hopen.2,foldl_set hset hev]
    cases hv : eventSetOn t act <;> simp [hv]

end Sets

section Sleep

def SleepLeft (k : Nat) (x : TaskCtx) : Prop := x.state = .sleep ∧ x.sleepTickCounter.toNat = k

/-- The visit that counts the last tick wakes the task. -/
theorem SleepLeft.last (hx : SleepLeft 1 x) :
    odsExecWake x = { x with sleepTickCounter := 0, state := .run } := by
  have hz : countDown x.sleepTickCounter = 0#32 := (countDown_eq_zero_iff hx.2).mpr rfl
  rw [odsExecWake_of_sleep hx.1,hz]
  rfl

theorem SleepLeft.gentle {op : TaskOp} (hx : SleepLeft k x) (hg : op.Gentle)
    (ho : op.apply m x = some x') : SleepLeft k x' := by
  cases op with
  | sleep timeMs =>
    rcases odsTaskSleep_some ho with ⟨-,rfl⟩ | ⟨hrun,-⟩
    · exact hx
    · rw [hx.1] at hrun
      cases hrun
  | eventSet mask type => cases type <;> cases ho <;> exact hx
  | _ => exact hg.elim

theorem SleepLeft.wake (hx : SleepLeft (k + 1) x) (hk : 0 < k) : SleepLeft k (odsExecWake x) := by
  have hz : countDown x.sleepTickCounter ≠ 0#32 := (countDown_eq_zero_iff hx.2).not.mpr hk.ne'
  rw [odsExecWake_of_sleep hx.1]
  exact ⟨if_neg hz,countDown_of_succ hx.2⟩

theorem SleepLeft.wake_event (hx : SleepLeft k x) : (odsExecWake x).event = x.event := by
  rw [odsExecWake_of_sleep hx.1]

theorem sleepCountdown : Countdown SleepLeft fun _ => False where
  waits hx := by simp [hx.1]
  call hx hg ho := hx.gentle hg ho
  count hx := hx
  visit hx hk _ := hx.wake hk
  last hx _ := by rw [hx.last]

theorem odsTaskSleep_left {p : U32} (hrun : x.state = .run) (hp : tickTimeOf m x = some p)
    (h : odsTaskSleep m x timeMs = some x') :
    SleepLeft (delayTicks p timeMs) x' ∧ x'.event = x.event := by
  rcases odsTaskSleep_some h with ⟨hn,-⟩ | ⟨-,q,hq,-,rfl⟩
  · exact (hn hrun).elim
  · obtain rfl := Option.some.inj (hp.symm.trans hq)
    exact ⟨⟨rfl,delayTicks_eq _ _⟩,rfl⟩

/-- What a sleep of a running task begins. -/
theorem sleep_begun (hreach : Run (Step fuel) (Legal cs) (boot cs m) acts₀ s) (hc : c ∈ cs)
    (hpc : s.pc.Client) (h : Refines cs s a) (he : t ∈ a.lay.exec c)
    (hrunning : (s.mem.task t).state = .run) (timeMs : U32) : ∃ s₁ a₁,
    Step fuel s (.call (.task t (.sleep timeMs))) s₁ ∧ s₁.pc = s.pc ∧ Refines cs s₁ a₁ ∧
      t ∈ a₁.lay.exec c ∧ (s₁.mem.task t).func = (s.mem.task t).func ∧
      (s₁.mem.task t).event = (s.mem.task t).event ∧
      SleepLeft (delayTicks (s.mem.sch c).odsTickTimeMs timeMs) (a₁.data.task t) := by
  have htime := h.tickTime hc he
  obtain ⟨x,hx⟩ := odsTaskSleep_total timeMs htime (ne_zero_of_min_le (run_period hreach hc))
  obtain ⟨s₁,a₁,hs,hpc₁,hmem,h₁,he₁⟩ := call_step fuel (.sleep timeMs) h hpc he hx
  obtain ⟨hleft,hevent⟩ := odsTaskSleep_left hrunning htime hx
  refine ⟨s₁,a₁,hs,hpc₁,h₁,he₁,?_,?_,?_⟩
  · rw [hmem,func_of_frame (odsTaskSleep_frame hx)]
  · rw [hmem,hevent]
  · rw [h₁.task,hmem]
    exact hleft

/-- A visit of `t` from `s` to `s'`, the `n`-th after a call that sends it to sleep for `ticks`
visits, and whether it calls the function. -/
structure SleepVisit (t : TaskPtr) (ticks n : Nat) (s s' : Sys) (called : Bool) : Prop where
  called : called = true ↔ n = ticks
  counter : (s'.mem.task t).sleepTickCounter.toNat + n = ticks
  woken : n = ticks → (s'.mem.task t).state = .run
  event : (s'.mem.task t).event = (s.mem.task t).event

theorem SleepLeft.visited {ticks n : Nat} (hx : SleepLeft (k + 1) (s.mem.task t))
    (hn : n + k = ticks) (hf : (s.mem.task t).func ≠ none) (hs : Step fuel s .visit s')
    (hv : visitOf s .visit = some ⟨t,called⟩) : SleepVisit t ticks n s s' called := by
  cases k with
  | zero =>
    have hlast := hx.last
    obtain ⟨hcalled,hmem⟩ := called_of_run hs hv hf (by rw [hlast])
    rw [hlast] at hmem
    refine ⟨by simp [hcalled,← hn],?_,fun _ => ?_,?_⟩
    · rw [hmem]
      exact (Nat.zero_add n).trans hn
    · rw [hmem]
    · rw [hmem]
  | succ k =>
    have hw := hx.wake (Nat.succ_pos k)
    obtain ⟨hcalled,hmem⟩ := not_called_of_ne_run hs hv (sleepCountdown.waits hw).1
    refine ⟨?_,?_,fun he => by omega,?_⟩
    · simp only [hcalled,Bool.false_eq_true,false_iff]
      omega
    · have hcount := hw.2
      rw [hmem]
      change (odsExecWake (s.mem.task t)).sleepTickCounter.toNat + n = ticks
      omega
    · rw [hmem,odsExecWake_of_sleep hx.1]
      rfl

/-- `ods_task_sleep` of a running task keeps its function from being called for exactly the
computed number of visits less one. Whatever is done to other tasks, and further sleeps and
event sets on this one, change nothing about it. -/
theorem sleep_ends_on_time (hreach : Run (Step fuel) (Legal cs) (boot cs m) acts₀ s) (hc : c ∈ cs)
    (hpc : s.pc.Client) (hin : InExec s.mem c t) (hfunc : (s.mem.task t).func ≠ none)
    (hrunning : (s.mem.task t).state = .run) (timeMs : U32) :
    ∃ s₁, Step fuel s (.call (.task t (.sleep timeMs))) s₁ ∧
      ∀ acts s₂, Run (Step fuel) (LeftAlone cs t) s₁ acts s₂ →
        (visitRecords fuel t s₁ acts).length < delayTicks (s.mem.sch c).odsTickTimeMs timeMs →
        InExec s₂.mem c t ∧ ⟨t,true⟩ ∉ visits fuel s₁ acts ∧
          (s₂.mem.task t).state = .sleep ∧
          (s₂.mem.task t).event =
            (acts.filterMap (eventSetOn t)).foldl Event.set (s.mem.task t).event ∧
          ∀ called s₃, visitOf s₂ .visit = some ⟨t,called⟩ → Step fuel s₂ .visit s₃ →
            SleepVisit t (delayTicks (s.mem.sch c).odsTickTimeMs timeMs)
              ((visitRecords fuel t s₁ acts).length + 1) s₂ s₃ called := by
  obtain ⟨a,-,h⟩ := reachable_refines hreach
  obtain ⟨s₁,a₁,hs,-,h₁,he₁,hfunc₁,hsame,hl₁⟩ :=
    sleep_begun hreach hc hpc h ((h.rep.inExec_iff hc).mp hin) hrunning timeMs
  refine ⟨s₁,hs,fun acts s₂ hrun hlt => ?_⟩
  rw [← hfunc₁] at hfunc
  have hevent := sleepCountdown.run_event (g := id) (fun hg v => congrArg (Event.set · v) hg)
    (fun hx _ => hx.wake_event) hrun h₁ he₁ hl₁ hlt (by simp)
  rw [hsame] at hevent
  obtain ⟨hin₂,hvs,hfunc₂,k,hleft,hk⟩ :=
    sleepCountdown.reached hrun h₁ hc he₁ hl₁ hfunc hlt (by simp)
  exact ⟨hin₂,hvs,hleft.1,hevent,fun called s₃ hv hs₃ => SleepLeft.visited hleft hk hfunc₂ hs₃ hv⟩

/-- While task 1 sleeps for two visits it is told to sleep longer and an event is raised on it. -/
def disturbSleep : List Act :=
  [.call (.task 1 (.sleep 500)),.ret,.finish,.tick 0,.visit,.visit,.call (.task 1 (.eventSet 1 .or)),
    .ret,.finish,.tick 0]

theorem sleep_ends_on_time_two : ∃ s s₁ s₂ s₃,
    Run (Step 5) (Legal [0]) (boot [0] blank) secondRuns s ∧
      Step 5 s (.call (.task 1 (.sleep 25))) s₁ ∧
      Run (Step 5) (LeftAlone [0] 1) s₁ disturbSleep s₂ ∧ Step 5 s₂ .visit s₃ ∧
      visitOf s₂ .visit = some ⟨1,true⟩ ∧ ⟨1,true⟩ ∉ visits 5 s₁ disturbSleep ∧
      SleepVisit 1 2 2 s₂ s₃ true := by
  obtain ⟨s,hreach,hP⟩ := runChecked_any (legalIn [0] 5) 5 (boot [0] blank) secondRuns
    (fun s => presentIn 5 s.mem (s.mem.sch 0).odsExecList 1 && s.pc = .body 0 2 &&
      (s.mem.task 1).func = some 0 && (s.mem.task 1).state = .run &&
      (s.mem.sch 0).odsTickTimeMs = 10 &&
      (step 5 s (.call (.task 1 (.sleep 25)))).any fun s₁ =>
        (visitRecords 5 1 s₁ disturbSleep).length = 1 &&
          (runChecked (leftAloneIn [0] 5 1) 5 s₁ disturbSleep).any fun s₂ =>
            visitOf s₂ .visit = some ⟨1,true⟩ && (step 5 s₂ .visit).isSome)
    (fun _ _ => legalIn_legal) (by decide +kernel)
  simp only [Bool.and_eq_true,decide_eq_true_eq] at hP
  obtain ⟨⟨⟨⟨⟨hin,hpc⟩,hfunc⟩,hrunning⟩,hperiod⟩,hP⟩ := hP
  obtain ⟨s₁,hsleep,hP⟩ := (Option.any_eq_true _ _).mp hP
  simp only [Bool.and_eq_true,decide_eq_true_eq] at hP
  obtain ⟨hn,hP⟩ := hP
  obtain ⟨s₂,hrun,hP⟩ := (Option.any_eq_true _ _).mp hP
  simp only [Bool.and_eq_true,decide_eq_true_eq] at hP
  obtain ⟨hv,hP⟩ := hP
  obtain ⟨s₃,hvisit⟩ := Option.isSome_iff_exists.mp hP
  have hrun := runChecked_run (fun _ _ => leftAloneIn_leftAlone) hrun
  obtain ⟨s₁',hs,hall⟩ := sleep_ends_on_time hreach List.mem_cons_self (by simp [hpc,Pc.Client])
    (presentIn_meets hin) (by simp [hfunc]) hrunning 25
  obtain rfl := step_unique (step_iff.mp hsleep) hs
  have hticks : delayTicks (s.mem.sch 0).odsTickTimeMs 25 = 2 := by
    rw [hperiod]
    rfl
  obtain ⟨-,hvs,-,-,hend⟩ := hall _ _ hrun (by rw [hn,hticks]; decide)
  have hsv := hend _ _ hv (step_iff.mp hvisit)
  rw [hn,hticks] at hsv
  exact ⟨s,s₁,s₂,s₃,hreach,hs,hrun,step_iff.mp hvisit,hv,hvs,hsv⟩

end Sleep

section Wait

def Wanted (mask : U32) (type : EventMaskType) (events : U32) : Prop :=
  match type with
  | .or => ∃ b, events.getLsbD b = true ∧ mask.getLsbD b = true
  | .and => ∀ b, mask.getLsbD b = true → events.getLsbD b = true

structure WaitLeft (mask : U32) (type : EventMaskType) (k : Nat) (x : TaskCtx) : Prop where
  state : x.state = .event
  mask : x.event.mask = mask
  type : x.event.type = type
  counter : x.event.eventTickCounter.toNat = k

theorem WaitLeft.satisfied_iff (hx : WaitLeft mask type k x) :
    x.event.satisfied = true ↔ Wanted mask type x.event.events := by
  rw [Event.satisfied_iff,← hx.mask,← hx.type]
  exact Iff.rfl

theorem WaitLeft.unsatisfied (hx : WaitLeft mask type k x)
    (hw : ¬ Wanted mask type x.event.events) : x.event.satisfied = false := by
  rw [← Bool.not_eq_true,hx.satisfied_iff]
  exact hw

theorem WaitLeft.gentle {op : TaskOp} (hx : WaitLeft mask type k x) (hg : op.Gentle)
    (ho : op.apply m x = some x') : WaitLeft mask type k x' := by
  cases op with
  | sleep timeMs =>
    rcases odsTaskSleep_some ho with ⟨-,rfl⟩ | ⟨hrun,-⟩
    · exact hx
    · rw [hx.state] at hrun
      cases hrun
  | eventSet v vtype =>
    cases vtype <;> cases ho <;> exact ⟨hx.state,hx.mask,hx.type,hx.counter⟩
  | _ => exact hg.elim

theorem WaitLeft.wake (hx : WaitLeft mask type (k + 1) x) (hk : 0 < k)
    (hw : ¬ Wanted mask type x.event.events) : WaitLeft mask type k (odsExecWake x) := by
  have hz : countDown x.event.eventTickCounter ≠ 0#32 :=
    (countDown_eq_zero_iff hx.counter).not.mpr hk.ne'
  rw [odsExecWake_of_unsatisfied hx.state (hx.unsatisfied hw)]
  exact ⟨if_neg hz,hx.mask,hx.type,countDown_of_succ hx.counter⟩

/-- The visit that finds the events ends the wait, however many visits are left. -/
theorem WaitLeft.found (hx : WaitLeft mask type k x) (hw : Wanted mask type x.event.events) :
    (odsExecWake x).state = .run ∧ odsTaskEventTimedOut (odsExecWake x) = false := by
  rw [odsExecWake_of_satisfied hx.state (hx.satisfied_iff.mpr hw)]
  exact ⟨rfl,rfl⟩

/-- The last visit that counts ends the wait with a time-out. -/
theorem WaitLeft.last (hx : WaitLeft mask type 1 x) (hw : ¬ Wanted mask type x.event.events) :
    (odsExecWake x).state = .run ∧ odsTaskEventTimedOut (odsExecWake x) = true ∧
      odsTaskEventGet (odsExecWake x) = odsTaskEventGet x := by
  have hz : countDown x.event.eventTickCounter = 0#32 := (countDown_eq_zero_iff hx.counter).mpr rfl
  rw [odsExecWake_of_unsatisfied hx.state (hx.unsatisfied hw),hz]
  exact ⟨rfl,rfl,rfl⟩

theorem WaitLeft.wake_events (hx : WaitLeft mask type k x)
    (hw : ¬ Wanted mask type x.event.events) :
    (odsExecWake x).event.events = x.event.events := by
  rw [odsExecWake_of_unsatisfied hx.state (hx.unsatisfied hw)]

theorem waitCountdown : Countdown (WaitLeft mask type) fun e => Wanted mask type e.events where
  waits hx := by simp [hx.state]
  call hx hg ho := hx.gentle hg ho
  count hx := ⟨hx.state,hx.mask,hx.type,hx.counter⟩
  visit hx hk hw := hx.wake hk hw
  last hx hw := (hx.last hw).1

theorem odsTaskEventWait_left {p tmroutMs : U32} (hp : tickTimeOf m x = some p)
    (h : odsTaskEventWait m x mask type tmroutMs = some x') :
    WaitLeft mask type (delayTicks p tmroutMs) x'.data := by
  obtain ⟨q,hq,-,rfl⟩ := odsTaskEventWait_some h
  obtain rfl := Option.some.inj (hp.symm.trans hq)
  exact ⟨rfl,rfl,rfl,delayTicks_eq _ _⟩

theorem odsTaskEventWait_events {tmroutMs : U32}
    (h : odsTaskEventWait m x mask type tmroutMs = some x') : x'.event.events = x.event.events := by
  obtain ⟨p,-,-,rfl⟩ := odsTaskEventWait_some h
  rfl

/-- What a wait begins, whatever the task does. -/
theorem wait_begun (hreach : Run (Step fuel) (Legal cs) (boot cs m) acts₀ s) (hc : c ∈ cs)
    (hpc : s.pc.Client) (h : Refines cs s a) (he : t ∈ a.lay.exec c) (mask : U32)
    (type : EventMaskType) (tmroutMs : U32) : ∃ s₁ a₁,
    Step fuel s (.call (.task t (.eventWait mask type tmroutMs))) s₁ ∧ s₁.pc = s.pc ∧
      Refines cs s₁ a₁ ∧ t ∈ a₁.lay.exec c ∧ (s₁.mem.task t).func = (s.mem.task t).func ∧
      (s₁.mem.task t).event.events = (s.mem.task t).event.events ∧
      WaitLeft mask type (delayTicks (s.mem.sch c).odsTickTimeMs tmroutMs) (a₁.data.task t) := by
  have htime := h.tickTime hc he
  obtain ⟨x,hx⟩ := odsTaskEventWait_total mask type tmroutMs htime
    (ne_zero_of_min_le (run_period hreach hc))
  obtain ⟨s₁,a₁,hs,hpc₁,hmem,h₁,he₁⟩ := call_step fuel (.eventWait mask type tmroutMs) h hpc he hx
  refine ⟨s₁,a₁,hs,hpc₁,h₁,he₁,?_,?_,?_⟩
  · rw [hmem,func_of_frame (odsTaskEventWait_frame hx)]
  · rw [hmem,odsTaskEventWait_events hx]
  · rw [h₁.task,hmem]
    exact odsTaskEventWait_left htime hx

/-- A visit of `t` from `s` to `s'`, the `n`-th after a call that makes it wait for the events
of `mask`, for `ticks` visits at most, and whether it calls the function. -/
structure WaitVisit (mask : U32) (type : EventMaskType) (t : TaskPtr) (ticks n : Nat) (s s' : Sys)
    (called : Bool) : Prop where
  found : Wanted mask type (odsTaskEventGet (s.mem.task t)) → called = true ∧
    (s'.mem.task t).state = .run ∧ odsTaskEventTimedOut (s'.mem.task t) = false
  timedOut : ¬ Wanted mask type (odsTaskEventGet (s.mem.task t)) → n = ticks → called = true ∧
    (s'.mem.task t).state = .run ∧ odsTaskEventTimedOut (s'.mem.task t) = true ∧
    odsTaskEventGet (s'.mem.task t) = odsTaskEventGet (s.mem.task t)
  waiting : ¬ Wanted mask type (odsTaskEventGet (s.mem.task t)) → n < ticks → called = false ∧
    (s'.mem.task t).state = .event

theorem WaitLeft.visited {ticks n : Nat} (hx : WaitLeft mask type (k + 1) (s.mem.task t))
    (hn : n + k = ticks) (hf : (s.mem.task t).func ≠ none) (hs : Step fuel s .visit s')
    (hv : visitOf s .visit = some ⟨t,called⟩) : WaitVisit mask type t ticks n s s' called := by
  refine ⟨fun hw => ?_,fun hw he => ?_,fun hw hlt => ?_⟩
  · obtain ⟨hrun,hflag⟩ := hx.found hw
    obtain ⟨hcalled,hmem⟩ := called_of_run hs hv hf hrun
    rw [hmem]
    exact ⟨hcalled,hrun,hflag⟩
  · obtain rfl : k = 0 := by omega
    obtain ⟨hrun,hflag,hsame⟩ := hx.last hw
    obtain ⟨hcalled,hmem⟩ := called_of_run hs hv hf hrun
    rw [hmem]
    exact ⟨hcalled,hrun,hflag,hsame⟩
  · have hwait := hx.wake (by omega) hw
    obtain ⟨hcalled,hmem⟩ := not_called_of_ne_run hs hv (by simp [hwait.state])
    rw [hmem]
    exact ⟨hcalled,hwait.state⟩

/-- `ods_task_event_wait` keeps the function of a task from being called up to the first visit
that finds the events, or up to the visit number `delayTicks`; that visit calls it and tells
which of the two it was. Events pending at the call still pend. -/
theorem event_wait_ends_on_time (hreach : Run (Step fuel) (Legal cs) (boot cs m) acts₀ s)
    (hc : c ∈ cs) (hpc : s.pc.Client) (hin : InExec s.mem c t)
    (hfunc : (s.mem.task t).func ≠ none) (mask : U32) (type : EventMaskType) (tmroutMs : U32) :
    ∃ s₁, Step fuel s (.call (.task t (.eventWait mask type tmroutMs))) s₁ ∧
      ∀ acts s₂, Run (Step fuel) (LeftAlone cs t) s₁ acts s₂ →
        (visitRecords fuel t s₁ acts).length < delayTicks (s.mem.sch c).odsTickTimeMs tmroutMs →
        (∀ x ∈ visitRecords fuel t s₁ acts, ¬ Wanted mask type (odsTaskEventGet x)) →
        InExec s₂.mem c t ∧ ⟨t,true⟩ ∉ visits fuel s₁ acts ∧
          odsTaskEventGet (s₂.mem.task t) =
            ((acts.filterMap (eventSetOn t)).foldl Event.set (s.mem.task t).event).events ∧
          ∀ called s₃, visitOf s₂ .visit = some ⟨t,called⟩ → Step fuel s₂ .visit s₃ →
            WaitVisit mask type t (delayTicks (s.mem.sch c).odsTickTimeMs tmroutMs)
              ((visitRecords fuel t s₁ acts).length + 1) s₂ s₃ called := by
  obtain ⟨a,-,h⟩ := reachable_refines hreach
  obtain ⟨s₁,a₁,hs,-,h₁,he₁,hfunc₁,hsame,hl₁⟩ :=
    wait_begun hreach hc hpc h ((h.rep.inExec_iff hc).mp hin) mask type tmroutMs
  refine ⟨s₁,hs,fun acts s₂ hrun hlt hopen => ?_⟩
  rw [← hfunc₁] at hfunc
  have hevents := waitCountdown.run_event Event.set_events (fun hx hw => hx.wake_events hw) hrun h₁
    he₁ hl₁ hlt hopen
  rw [foldl_set Event.set_events hsame] at hevents
  obtain ⟨hin₂,hvs,hfunc₂,k,hleft,hk⟩ :=
    waitCountdown.reached hrun h₁ hc he₁ hl₁ hfunc hlt hopen
  have hleft₂ : WaitLeft mask type (k + 1) (s₂.mem.task t) :=
    ⟨hleft.state,hleft.mask,hleft.type,hleft.counter⟩
  exact ⟨hin₂,hvs,hevents,fun called s₃ hv hs₃ => hleft₂.visited hk hfunc₂ hs₃ hv⟩

/-- The event task 1 waits for comes before the second and last visit of its wait. -/
def raiseLate : List Act :=
  [.ret,.finish,.tick 0,.visit,.visit,.call (.task 1 (.eventSet 1 .or)),.ret,.finish,.tick 0]

theorem event_wait_ends_on_time_two : ∃ s s₁ s₂ s₃,
    Run (Step 5) (Legal [0]) (boot [0] blank) secondRuns s ∧
      Step 5 s (.call (.task 1 (.eventWait 1 .or 25))) s₁ ∧
      Run (Step 5) (LeftAlone [0] 1) s₁ raiseLate s₂ ∧ Step 5 s₂ .visit s₃ ∧
      visitOf s₂ .visit = some ⟨1,true⟩ ∧ ⟨1,true⟩ ∉ visits 5 s₁ raiseLate ∧
      WaitVisit 1 .or 1 2 2 s₂ s₃ true ∧ Wanted 1 .or (odsTaskEventGet (s₂.mem.task 1)) ∧
      odsTaskEventTimedOut (s₃.mem.task 1) = false := by
  obtain ⟨s,hreach,hP⟩ := runChecked_any (legalIn [0] 5) 5 (boot [0] blank) secondRuns
    (fun s => presentIn 5 s.mem (s.mem.sch 0).odsExecList 1 && s.pc = .body 0 2 &&
      (s.mem.task 1).func = some 0 && (s.mem.sch 0).odsTickTimeMs = 10 &&
      (step 5 s (.call (.task 1 (.eventWait 1 .or 25)))).any fun s₁ =>
        (visitRecords 5 1 s₁ raiseLate).length = 1 &&
          (visitRecords 5 1 s₁ raiseLate).all (fun x => odsTaskEventGet x = 0) &&
          (runChecked (leftAloneIn [0] 5 1) 5 s₁ raiseLate).any fun s₂ =>
            visitOf s₂ .visit = some ⟨1,true⟩ && (step 5 s₂ .visit).isSome)
    (fun _ _ => legalIn_legal) (by decide +kernel)
  simp only [Bool.and_eq_true,decide_eq_true_eq] at hP
  obtain ⟨⟨⟨⟨hin,hpc⟩,hfunc⟩,hperiod⟩,hP⟩ := hP
  obtain ⟨s₁,hwait,hP⟩ := (Option.any_eq_true _ _).mp hP
  simp only [Bool.and_eq_true,decide_eq_true_eq,List.all_eq_true] at hP
  obtain ⟨⟨hn,hzero⟩,hP⟩ := hP
  obtain ⟨s₂,hrun,hP⟩ := (Option.any_eq_true _ _).mp hP
  simp only [Bool.and_eq_true,decide_eq_true_eq] at hP
  obtain ⟨hv,hP⟩ := hP
  obtain ⟨s₃,hvisit⟩ := Option.isSome_iff_exists.mp hP
  have hrun := runChecked_run (fun _ _ => leftAloneIn_leftAlone) hrun
  obtain ⟨s₁',hs,hall⟩ := event_wait_ends_on_time hreach List.mem_cons_self
    (by simp [hpc,Pc.Client]) (presentIn_meets hin) (by simp [hfunc]) 1 .or 25
  obtain rfl := step_unique (step_iff.mp hwait) hs
  have hticks : delayTicks (s.mem.sch 0).odsTickTimeMs 25 = 2 := by
    rw [hperiod]
    rfl
  have hopen : ∀ x ∈ visitRecords 5 1 s₁ raiseLate, ¬ Wanted 1 .or (odsTaskEventGet x) := by
    intro x hx
    rw [hzero x hx]
    simp [Wanted]
  obtain ⟨-,hvs,hevents,hend⟩ := hall _ _ hrun (by rw [hn,hticks]; decide) hopen
  have hsets : raiseLate.filterMap (eventSetOn 1) = [(1,.or)] := rfl
  have hwanted : Wanted 1 .or (odsTaskEventGet (s₂.mem.task 1)) := by
    rw [hevents,hsets]
    exact ⟨0,by simp [Event.set],rfl⟩
  have hwv := hend _ _ hv (step_iff.mp hvisit)
  rw [hn,hticks] at hwv
  obtain ⟨-,-,hflag⟩ := hwv.found hwanted
  exact ⟨s,s₁,s₂,s₃,hreach,hs,hrun,step_iff.mp hvisit,hv,hvs,hwv,hwanted,hflag⟩

end Wait

end Ods
