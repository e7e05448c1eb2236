import Ods.TaskCode

/-! The task of `src/examples/sleep.c`: its function asks for the same sleep each time. It is
called at every tick whose number is a multiple of the sleep in ticks, and at no other. -/
namespace Ods
open LabelledRun

def tskExec : TaskCode U32 := fun t _ sleepMs => ([.task t (.sleep sleepMs)],sleepMs)

variable {cs : List CtxPtr} {fuel : Nat} {s : Sys} {c : CtxPtr} {t : TaskPtr} {m : Mem}
variable {acts acts₀ : List Act} {r : Coded U32} {o o' : Own U32} {p sleepMs : U32} {n : Nat}
variable {v : Option TaskCtx} {ls : List (Option TaskCtx)}

/-- Where the task stands after `n` visits. Its next call is at a visit whose number the sleep
divides, counted from 0. -/
inductive SleepPhase (t : TaskPtr) (p : U32) : Nat → Own U32 → Prop
  | queued {x : TaskCtx} {q : U32} : x.func ≠ none → SleepPhase t p 0 ⟨.queued,x,q,[]⟩
  | ready {x : TaskCtx} {q : U32} {n : Nat} : x.func ≠ none → x.state = .run →
      delayTicks p q ∣ n → SleepPhase t p n ⟨.listed,x,q,[]⟩
  | asleep {x : TaskCtx} {q : U32} {n k : Nat} : x.func ≠ none → SleepLeft (k + 1) x →
      k < delayTicks p q → delayTicks p q ∣ n + k → SleepPhase t p n ⟨.listed,x,q,[]⟩
  | running {x : TaskCtx} {q : U32} {n : Nat} : x.func ≠ none → x.state = .run →
      delayTicks p q ∣ n → SleepPhase t p (n + 1) ⟨.inside,x,q,[.task t (.sleep q)]⟩
  | slept {x : TaskCtx} {q : U32} {n : Nat} : x.func ≠ none → SleepLeft (delayTicks p q) x →
      delayTicks p q ∣ n → SleepPhase t p (n + 1) ⟨.inside,x,q,[]⟩

/-- Others may set events on the task. -/
theorem SleepPhase.event {l : Place} {x : TaskCtx} {q : U32} {ops : List Call}
    (h : SleepPhase t p n ⟨l,x,q,ops⟩) (mask : U32) (type : EventMaskType) :
    SleepPhase t p n ⟨l,odsTaskEventSet x mask type,q,ops⟩ := by
  have hfunc : (odsTaskEventSet x mask type).func = x.func := by cases type <;> rfl
  have hstate : (odsTaskEventSet x mask type).state = x.state := by cases type <;> rfl
  have hsleep : ∀ k, SleepLeft k x → SleepLeft k (odsTaskEventSet x mask type) := fun k hx =>
    by
    have hg : (TaskOp.eventSet mask type).Gentle := trivial
    exact hx.gentle (m := blank) hg rfl
  cases h with
  | queued hf => exact .queued (hfunc ▸ hf)
  | ready hf hs hn => exact .ready (hfunc ▸ hf) (hstate ▸ hs) hn
  | asleep hf hx hk hn => exact .asleep (hfunc ▸ hf) (hsleep _ hx) hk hn
  | running hf hs hn => exact .running (hfunc ▸ hf) (hstate ▸ hs) hn
  | slept hf hx hn => exact .slept (hfunc ▸ hf) (hsleep _ hx) hn

/-- The sleep divides the number of no visit before the one it ends at. -/
theorem not_dvd_of_asleep {T k : Nat} (hk : k + 1 < T) (hd : T ∣ n + (k + 1)) : ¬ T ∣ n := by
  intro hn
  have hle := Nat.le_of_dvd (Nat.succ_pos k) ((Nat.dvd_add_right hn).mp hd)
  omega

theorem SleepPhase.skip {x : TaskCtx} {q : U32} {ops : List Call}
    (h : SleepPhase t p n ⟨.listed,x,q,ops⟩) (hn : odsExecFunc (odsExecWake x) = none) :
    ¬ delayTicks p q ∣ n ∧ SleepPhase t p (n + 1) ⟨.listed,odsExecCount (odsExecWake x),q,ops⟩ := by
  cases h with
  | ready hf hs =>
    rw [odsExecWake_of_other (by simp [hs]) (by simp [hs])] at hn
    exact (odsExecFunc_of_run hf hs hn).elim
  | @asleep _ _ _ k hf hx hk hd =>
    have hf' : (odsExecWake x).func ≠ none := by rwa [func_wake]
    cases k with
    | zero => exact (odsExecFunc_of_run hf' (by rw [hx.last]) hn).elim
    | succ k =>
      have hw : SleepLeft (k + 1) (odsExecCount (odsExecWake x)) := hx.wake (Nat.succ_pos k)
      refine ⟨not_dvd_of_asleep hk hd,.asleep hf' hw (Nat.lt_of_succ_lt hk) ?_⟩
      rwa [Nat.add_right_comm,Nat.add_assoc]

theorem SleepPhase.enter {x : TaskCtx} {q : U32} {ops : List Call} {f : FuncPtr}
    (h : SleepPhase t p n ⟨.listed,x,q,ops⟩) (hn : odsExecFunc (odsExecWake x) = some f) :
    delayTicks p q ∣ n ∧ SleepPhase t p (n + 1) ⟨.inside,odsExecWake x,q,[.task t (.sleep q)]⟩ := by
  cases h with
  | ready hf hs hd =>
    rw [odsExecWake_of_other (by simp [hs]) (by simp [hs])]
    exact ⟨hd,.running hf hs hd⟩
  | @asleep _ _ _ k hf hx hk hd =>
    cases k with
    | zero => exact ⟨hd,.running (by rwa [func_wake]) (by rw [hx.last]) hd⟩
    | succ k =>
      have hw := hx.wake (Nat.succ_pos k)
      rw [odsExecFunc_of_ne_run (by simp [hw.1])] at hn
      cases hn

/-- A step of the task: a visit calls the function if the sleep divides the visit's number. -/
theorem SleepPhase.step (h : SleepPhase t p n o) (hs : OwnStep tskExec t p o v o') :
    (∀ x, v = some x → (called x = true ↔ delayTicks p o.priv ∣ n)) ∧ o'.priv = o.priv ∧
      SleepPhase t p (n + v.toList.length) o' := by
  cases hs with
  | still => exact ⟨by simp,rfl,h⟩
  | event mask type => exact ⟨by simp,rfl,h.event mask type⟩
  | activate =>
    cases h with
    | queued hf => exact ⟨by simp,rfl,.ready hf rfl (Nat.dvd_zero _)⟩
  | skip hn =>
    obtain ⟨hd,hnext⟩ := h.skip hn
    exact ⟨by simp [called,hn,hd],rfl,hnext⟩
  | enter hn =>
    obtain ⟨hd,hnext⟩ := h.enter hn
    exact ⟨by simp [called,hn,hd],rfl,hnext⟩
  | @call m x x' q op ops hp hx =>
    cases h with
    | running hf hs hd =>
      have hfunc : x'.func = x.func := func_of_frame (TaskOp.apply_frame hx)
      exact ⟨by simp,rfl,.slept (hfunc ▸ hf) (odsTaskSleep_left hs hp hx).1 hd⟩
  | elsewhere ho =>
    cases h with
    | running => exact (ho _ rfl).elim
  | @leave x q =>
    cases h with
    | @slept _ _ n hf hx hd =>
      obtain ⟨k,hk⟩ := Nat.exists_eq_add_of_lt (delayTicks_pos p q)
      rw [Nat.zero_add] at hk
      have hx' : SleepLeft (k + 1) (odsExecCount x) := hk ▸ hx
      have hsum : n + 1 + (none : Option TaskCtx).toList.length + k = n + delayTicks p q := by
        rw [hk,Option.toList_none,List.length_nil]
        omega
      refine ⟨by simp,rfl,.asleep hf hx' (by omega) ?_⟩
      rw [hsum]
      exact Nat.dvd_add_self_right.mpr hd
  | remove hd =>
    cases h with
    | ready _ hs => simp [hs] at hd
    | asleep _ hx => simp [hx.1] at hd

/-- A run of the task: the visits that call the function are those the sleep divides. -/
theorem SleepPhase.run (h : SleepPhase t p n o)
    (hrun : Run (OwnStep tskExec t p) (fun _ _ => True) o ls o') :
    (ls.filterMap id).map called = (List.range' n (ls.filterMap id).length).map (fun i =>
      decide (delayTicks p o.priv ∣ i)) ∧ o'.place ≠ .gone := by
  induction hrun generalizing n with
  | nil o =>
    refine ⟨rfl,?_⟩
    cases h <;> simp
  | @cons o o₁ o₂ v ls _ hs _ ih =>
    obtain ⟨hv,hpriv,h₁⟩ := h.step hs
    obtain ⟨hrest,hplace⟩ := ih h₁
    refine ⟨?_,hplace⟩
    rw [hpriv] at hrest
    cases v with
    | none => exact hrest
    | some x =>
      have hx : called x = decide (delayTicks p o.priv ∣ n) := by
        rw [Bool.eq_iff_iff,hv x rfl,decide_eq_true_iff]
      simp only [List.filterMap_cons,id,List.length_cons,List.range'_succ,List.map_cons,hx]
      congr 1

/-- The task of `sleep.c`, from the moment it is queued, whatever else the clients do, as long
as they set no more than events on it and do not start its scheduler again: its visits are
numbered by the ticks, and the function is called at those whose number is a multiple of the
sleep in ticks. -/
theorem sleeper_called_periodically
    (hreach : Run (Step fuel) (Legal cs) (boot cs m) acts₀ s) (hc : c ∈ cs)
    (hq : Queued s.mem c t) (hfunc : (s.mem.task t).func ≠ none)
    (hrun : Run (CodedStep tskExec (fun _ => False) fuel t) (fun r act => Timed cs c r.sys act)
      ⟨s,sleepMs,[]⟩ acts r) :
    ∃ n, flags fuel t s acts = (List.range n).map
        (fun i => decide (delayTicks (s.mem.sch c).odsTickTimeMs sleepMs ∣ i)) ∧
      (r.sys.pc = .idle → n = acts.count (.tick c)) := by
  obtain ⟨a,hdue,hshows⟩ := shows_queued (q := sleepMs) hreach hc hq
  obtain ⟨a',o',ls,hown,hshows',hrecords,hticks⟩ := run_own hrun hshows
  have hphase : SleepPhase t (s.mem.sch c).odsTickTimeMs 0
      ⟨.queued,(s.mem.task t).data,sleepMs,[]⟩ := .queued hfunc
  obtain ⟨htrace,hplace⟩ := hphase.run hown
  have hflags := flags_eq (t := t) (coded_run hrun)
  rw [hrecords,← hflags,List.length_map,← List.range_eq_range'] at htrace
  refine ⟨_,htrace,fun hidle => ?_⟩
  have hcount := hticks hplace
  rw [hdue,hshows'.due_idle hidle] at hcount
  exact hcount

def threeTicks : List Act :=
  [.tick 0,.visit,.call (.task 1 (.sleep 25)),.ret,.visit,.call (.task 2 .pause),.ret,.finish,
    .call (.task 1 (.eventSet 3 .or)),.tick 0,.visit,.visit,.finish,
    .tick 0,.visit,.call (.task 1 (.sleep 25)),.ret,.visit,.finish]

theorem sleeper_called_periodically_three : ∃ s r,
    Run (Step 5) (Legal [0]) (boot [0] blank) [.call (.add 0 1),.call (.add 0 2)] s ∧
      Queued s.mem 0 1 ∧
      Run (CodedStep tskExec (fun _ => False) 5 1) (fun r act => Timed [0] 0 r.sys act)
        ⟨s,25,[]⟩ threeTicks r ∧
      flags 5 1 s threeTicks = [true,false,true] := by
  obtain ⟨s,hreach,hP⟩ := runChecked_any (legalIn [0] 5) 5 (boot [0] blank)
    [.call (.add 0 1),.call (.add 0 2)]
    (fun s => presentIn 5 s.mem (s.mem.sch 0).odsPreExecList 1 && (s.mem.task 1).func = some 0 &&
      (s.mem.sch 0).odsTickTimeMs = 10 &&
      (runCoded tskExec (fun _ => False) [0] 5 0 1 ⟨s,25,[]⟩ threeTicks).any fun r => r.sys.pc = .idle)
    (fun _ _ => legalIn_legal) (by decide +kernel)
  simp only [Bool.and_eq_true,decide_eq_true_eq] at hP
  obtain ⟨⟨⟨hqueued,hfunc⟩,hperiod⟩,hP⟩ := hP
  obtain ⟨r,hr,hidle⟩ := (Option.any_eq_true _ _).mp hP
  have hq : Queued s.mem 0 1 := presentIn_meets hqueued
  have hrun := runCoded_run hr
  obtain ⟨n,htrace,hn⟩ := sleeper_called_periodically hreach List.mem_cons_self hq (by simp [hfunc]) hrun
  refine ⟨s,r,hreach,hq,hrun,?_⟩
  rw [htrace,hn (by simpa using hidle),hperiod]
  decide

end Ods
