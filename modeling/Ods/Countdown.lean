import Ods.TickArithmetic

/-! The visits of one task along a run, and tasks that count their visits down: what a
timed call promises is settled at the visit its count reaches. -/
namespace Ods
open LabelledRun

variable {cs : List CtxPtr} {m : Mem} {fuel : Nat} {s s' : Sys} {a a' : ListSched}
variable {c : CtxPtr} {t : TaskPtr} {act : Act} {acts : List Act} {x x' : TaskCtx} {k : Nat}

section Period

def startedWith (tickTimeMs : U32) : U32 :=
  if tickTimeMs < odsTickTimeMsMin then odsTickTimeMsMin else tickTimeMs

theorem min_le_startedWith (tickTimeMs : U32) : odsTickTimeMsMin ≤ startedWith tickTimeMs := by
  unfold startedWith
  split
  · exact BitVec.le_refl _
  · rename_i h
    exact BitVec.not_lt.mp h

def periodAfter (c : CtxPtr) (p : U32) : Act → U32
  | .call (.start d tickTimeMs _) => if d = c then startedWith tickTimeMs else p
  | _ => p

theorem min_le_periodAfter {p : U32} (hp : odsTickTimeMsMin ≤ p) :
    odsTickTimeMsMin ≤ periodAfter c p act := by
  unfold periodAfter
  split
  · split
    · exact min_le_startedWith _
    · exact hp
  · exact hp

/-- Only `ods_start` of a scheduler changes its tick time. -/
theorem ListStep.period (hstep : ListStep a act a') (c : CtxPtr) :
    (a'.data.sch c).odsTickTimeMs = periodAfter c (a.data.sch c).odsTickTimeMs act := by
  cases hstep with
  | @call l d d' pc op _ hop he =>
    cases op with
    | init e | add e u => exact hop.elim
    | start e tickTimeMs id =>
      cases he
      by_cases hc : e = c
      · subst hc
        simp [odsStart,halTmrCreate,startedWith,periodAfter]
      · simp [odsStart,halTmrCreate,hc,Ne.symm hc,periodAfter]
    | stop e =>
      cases he
      unfold odsStop
      split
      · by_cases hc : c = e
        · subst hc
          simp [halTmrDelete,periodAfter]
        · simp [halTmrDelete,hc,periodAfter]
      · rfl
    | task u op =>
      obtain ⟨x,-,rfl⟩ := Option.map_eq_some_iff.mp he
      rfl
  | tick => exact congrArg (fun sch => (sch c).odsTickTimeMs) activateAll_sch
  | _ => rfl

theorem Refines.period (h : Refines cs s a) :
    (a.data.sch c).odsTickTimeMs = (s.mem.sch c).odsTickTimeMs := by
  rw [h.data]
  rfl

theorem run_period (hreach : Run (Step fuel) (Legal cs) (boot cs m) acts s) (hc : c ∈ cs) :
    odsTickTimeMsMin ≤ (s.mem.sch c).odsTickTimeMs := by
  have hboot : odsTickTimeMsMin ≤ ((boot cs m).mem.data.sch c).odsTickTimeMs := by
    obtain ⟨x,hx⟩ := boot_sch m hc
    rw [Mem.data_sch,hx]
    exact BitVec.le_refl _
  obtain ⟨a,hR,hp⟩ := run_invariant (I := fun a => odsTickTimeMsMin ≤ (a.data.sch c).odsTickTimeMs)
    hreach (fun _ _ hok => hok) (fun _ _ _ _ _ _ hstep hI => by
      rw [hstep.period c]
      exact min_le_periodAfter hI) (boot_refines m) hboot
  rwa [hR.period] at hp

/-- A task in the exec list of `c` is timed by `c`. -/
theorem Refines.tickTime (h : Refines cs s a) (hc : c ∈ cs) (ht : t ∈ a.lay.exec c) :
    tickTimeOf s.mem (s.mem.task t) = some (s.mem.sch c).odsTickTimeMs := by
  rw [tickTimeOf,h.rep.owner c hc t (List.mem_append_left _ ht)]
  rfl

/-- A counter of the C code, counted down as a number. -/
theorem countDown_of_succ {v : U32} (hv : v.toNat = k + 1) : (countDown v).toNat = k := by
  have hpos : 0#32 < v := by
    rw [BitVec.lt_def,hv]
    exact Nat.succ_pos k
  have hdown := countDown_toNat hpos
  omega

theorem countDown_eq_zero_iff {v : U32} (hv : v.toNat = k + 1) : countDown v = 0#32 ↔ k = 0 := by
  rw [← BitVec.toNat_inj,countDown_of_succ hv]
  rfl

def delayTicks (p timeMs : U32) : Nat := max 1 (timeMs.toNat / p.toNat)

theorem delayTicks_eq (p timeMs : U32) :
    (if timeMs / p = 0 then 1 else timeMs / p).toNat = delayTicks p timeMs := by
  have hdiv : (timeMs / p).toNat = timeMs.toNat / p.toNat := BitVec.toNat_udiv
  unfold delayTicks
  split
  · rename_i hz
    rw [hz] at hdiv
    rw [← hdiv]
    rfl
  · rename_i hz
    have hne : (timeMs / p).toNat ≠ 0 := fun h => hz (BitVec.eq_of_toNat_eq h)
    rw [hdiv] at hne ⊢
    omega

end Period

section Visits

def visitedAs (t : TaskPtr) (s : Sys) (act : Act) : Option TaskCtx :=
  (visitOf s act).bind fun v => if v.item = t then some (s.mem.task t) else none

def visitRecords (fuel : Nat) (t : TaskPtr) (s : Sys) : List Act → List TaskCtx
  | [] => []
  | act :: acts => (visitedAs t s act).toList ++
      ((step fuel s act).map fun s => visitRecords fuel t s acts).getD []

theorem visitedAs_eq_some (h : visitedAs t s act = some x) :
    act = .visit ∧ x = s.mem.task t ∧ ∃ c, s.pc = .walk c (some t) := by
  obtain ⟨v,hv,hx⟩ := Option.bind_eq_some_iff.mp h
  split at hx
  · rename_i hitem
    subst hitem
    cases act with
    | visit =>
      obtain ⟨c,hpc,-⟩ := visitOf_eq_some hv
      exact ⟨rfl,(Option.some.inj hx).symm,c,hpc⟩
    | _ => cases hv
  · cases hx

theorem visitedAs_of_walk (h : s.pc = .walk c (some t)) :
    visitedAs t s .visit = some (s.mem.task t) := by
  simp [visitedAs,visitOf,h]

theorem Refines.walk_of_pc (h : Refines cs s a) (hpc : s.pc = .walk c (some t)) :
    ∃ rest, a.pc = .walk c (t :: rest) := by
  obtain ⟨rest,hp,hh,-,-⟩ := (hpc ▸ h.pc : PcRel cs a.lay (.walk c (some t)) a.pc).of_walk
  obtain ⟨rest,rfl⟩ := List.head?_eq_some_iff.mp hh.symm
  exact ⟨rest,hp⟩

/-- What a visit does to its task, until the function returns. -/
theorem ListStep.visit_self {rest : List TaskPtr} (hstep : ListStep a .visit a')
    (hpc : a.pc = .walk c (t :: rest)) :
    odsExecFunc (odsExecWake (a.data.task t)) = none ∧
        a'.data.task t = odsExecCount (odsExecWake (a.data.task t)) ∨
      (∃ f, odsExecFunc (odsExecWake (a.data.task t)) = some f) ∧
        a'.data.task t = odsExecWake (a.data.task t) := by
  cases hstep with
  | skip hf =>
    cases hpc
    exact .inl ⟨hf,by simp⟩
  | invoke hf =>
    cases hpc
    exact .inr ⟨⟨_,hf⟩,by simp⟩

theorem visitRecords_append {acts' : List Act} {ok : Sys → Act → Prop}
    (h : Run (Step fuel) ok s acts s') :
    visitRecords fuel t s (acts ++ acts') = visitRecords fuel t s acts ++ visitRecords fuel t s' acts' := by
  induction h with
  | nil => rfl
  | cons _ hs _ ih =>
    simp only [List.cons_append,visitRecords,step_iff.mpr hs,Option.map_some,Option.getD_some,ih,
      List.append_assoc]

end Visits

section Func

/-- No step gives a task another function. -/
theorem ListStep.func (hstep : ListStep a act a') :
    (a'.data.task t).func = (a.data.task t).func := by
  cases hstep.taskStep t with
  | same hs => rw [hs]
  | call ho => exact func_of_frame (TaskOp.apply_frame ho)
  | add hs => rw [hs]; rfl
  | activate _ hs => rw [hs]; rfl
  | skip _ _ _ hs =>
    have hw : (odsExecCount (odsExecWake (a.data.task t))).func = (odsExecWake (a.data.task t)).func := rfl
    rw [hs,hw]
    exact func_of_frame (odsExecWake_frame _)
  | invoke _ _ _ hs =>
    rw [hs]
    exact func_of_frame (odsExecWake_frame _)
  | ret _ _ hs => rw [hs]; rfl

theorem run_func (hrun : Run (Step fuel) (Legal cs) s acts s') (h : Refines cs s a) :
    (s'.mem.task t).func = (s.mem.task t).func := by
  obtain ⟨a',h',hf⟩ := run_invariant (I := fun a => (a.data.task t).func = (s.mem.task t).func) hrun
    (fun _ _ hok => hok) (fun _ _ _ _ _ _ hstep hI => hstep.func.trans hI) h (by rw [h.task]; rfl)
  rw [h'.task] at hf
  exact hf

end Func

section Countdown

def TaskOp.Gentle : TaskOp → Prop
  | .sleep _ | .eventSet _ _ => True
  | _ => False

/-- A step at which nobody adds, deletes, pauses, resumes or finishes `t`, or makes it wait.
A task that is in a list cannot be added legally. -/
structure LeftAlone (cs : List CtxPtr) (t : TaskPtr) (s : Sys) (act : Act) : Prop where
  legal : Legal cs s act
  gentle : ∀ op, act = .call (.task t op) → op.Gentle

/-- `left k x`: the task has `k` visits left to count, unless its events have it `ended` before. -/
structure Countdown (left : Nat → TaskCtx → Prop) (ended : Event → Prop) : Prop where
  waits : ∀ {k x}, left k x → x.state ≠ .run ∧ x.state ≠ .del
  call : ∀ {k m x x'} {op : TaskOp}, left k x → op.Gentle → op.apply m x = some x' → left k x'
  count : ∀ {k x}, left k x → left k (odsExecCount x)
  visit : ∀ {k x}, left (k + 1) x → 0 < k → ¬ ended x.event → left k (odsExecWake x)
  last : ∀ {x}, left 1 x → ¬ ended x.event → (odsExecWake x).state = .run

variable {left : Nat → TaskCtx → Prop} {ended : Event → Prop}

theorem odsExecFunc_of_ne_run (h : x.state ≠ .run) : odsExecFunc x = none := if_neg h

/-- A step that does not visit the task leaves it where it stands. -/
theorem Countdown.unvisited (hcd : Countdown left ended) (h : Refines cs s a)
    (hok : LeftAlone cs t s act) (hstep : ListStep a act a') (he : t ∈ a.lay.exec c)
    (hl : left k (a.data.task t)) (hv : visitedAs t s act = none) : left k (a'.data.task t) := by
  have hwalk : ∀ {rest : List TaskPtr} {d : CtxPtr}, act = .visit → a.pc ≠ .walk d (t :: rest) := by
    rintro rest d rfl hpc
    rw [visitedAs_of_walk (h.exec_of_walk hpc).2.2] at hv
    cases hv
  cases hstep.taskStep t with
  | same hs =>
    rw [hs]
    exact hl
  | call ho => exact hcd.call hl (hok.gentle _ rfl) ho
  | @add d =>
    obtain ⟨-,hfree⟩ := hok.legal
    exact (hfree (h.rep.linked_iff.mpr (not_free_of_exec he))).elim
  | activate hp => exact (Layout.not_pend_of_exec he hp).elim
  | skip hpc => exact (hwalk rfl hpc).elim
  | invoke hpc => exact (hwalk rfl hpc).elim
  | ret _ _ hs =>
    rw [hs]
    exact hcd.count hl

/-- A visit that does not end the countdown counts, and does not call the function. -/
theorem Countdown.visited {d : CtxPtr} (hcd : Countdown left ended) (h : Refines cs s a)
    (hstep : ListStep a .visit a') (hpc : s.pc = .walk d (some t))
    (hl : left (k + 1) (a.data.task t)) (hk : 0 < k) (hopen : ¬ ended (s.mem.task t).event) :
    left k (a'.data.task t) ∧ visitOf s .visit ≠ some ⟨t,true⟩ := by
  rw [← h.event] at hopen
  have hwake := hcd.visit hl hk hopen
  have hfunc := odsExecFunc_of_ne_run (hcd.waits hwake).1
  refine ⟨?_,?_⟩
  · obtain ⟨rest,hwalk⟩ := h.walk_of_pc hpc
    rcases hstep.visit_self hwalk with ⟨-,hs⟩ | ⟨⟨f,hf⟩,-⟩
    · rw [hs]
      exact hcd.count hwake
    · rw [hfunc] at hf
      cases hf
  · rw [h.task,odsExecFunc_wake_data] at hfunc
    simp [visitOf,hpc,hfunc]

theorem Countdown.step (hcd : Countdown left ended) (h : Refines cs s a)
    (hok : LeftAlone cs t s act) (hstep : ListStep a act a') (he : t ∈ a.lay.exec c)
    (hl : left k (a.data.task t)) (hn : (visitedAs t s act).toList.length < k)
    (hopen : ∀ x ∈ visitedAs t s act, ¬ ended x.event) :
    t ∈ a'.lay.exec c ∧ left (k - (visitedAs t s act).toList.length) (a'.data.task t) ∧
      visitOf s act ≠ some ⟨t,true⟩ := by
  have hexec : t ∈ a'.lay.exec c :=
    (hstep.exec_mem he).resolve_right fun hd => (hcd.waits hl).2 hd.2.2
  refine ⟨hexec,?_⟩
  cases hv : visitedAs t s act with
  | none =>
    refine ⟨hcd.unvisited h hok hstep he hl hv,fun hvis => ?_⟩
    simp [visitedAs,hvis] at hv
  | some y =>
    obtain ⟨rfl,rfl,d,hpc⟩ := visitedAs_eq_some hv
    rw [hv] at hn hopen
    have hk : 1 < k := hn
    obtain ⟨k,rfl⟩ : ∃ j, k = j + 1 := ⟨k - 1,by omega⟩
    exact hcd.visited h hstep hpc hl (by omega) (hopen _ rfl)

/-- As long as a task has visits left to count its function is not called. -/
theorem Countdown.run (hcd : Countdown left ended)
    (hrun : Run (Step fuel) (LeftAlone cs t) s acts s') (h : Refines cs s a)
    (he : t ∈ a.lay.exec c) (hl : left k (a.data.task t))
    (hn : (visitRecords fuel t s acts).length < k)
    (hopen : ∀ x ∈ visitRecords fuel t s acts, ¬ ended x.event) :
    ∃ a', Refines cs s' a' ∧ t ∈ a'.lay.exec c ∧
      left (k - (visitRecords fuel t s acts).length) (a'.data.task t) ∧
      ⟨t,true⟩ ∉ visits fuel s acts := by
  induction hrun generalizing a k with
  | nil s => exact ⟨a,h,he,hl,by simp [visits]⟩
  | @cons s s₁ s₂ act acts hok hs _ ih =>
    simp only [visitRecords,step_iff.mpr hs,Option.map_some,Option.getD_some,List.length_append,
      List.forall_mem_append,Option.mem_toList] at hn hopen ⊢
    obtain ⟨a₁,hstep,h₁⟩ := step_refines h hok.legal hs
    obtain ⟨he₁,hl₁,hv⟩ := hcd.step h hok hstep he hl (by omega) hopen.1
    obtain ⟨a₂,h₂,he₂,hl₂,hvs⟩ := ih h₁ he₁ hl₁ (by omega) hopen.2
    rw [Nat.sub_sub] at hl₂
    refine ⟨a₂,h₂,he₂,hl₂,?_⟩
    simp only [visits,step_iff.mpr hs,Option.map_some,Option.getD_some,List.mem_append,
      Option.mem_toList,not_or]
    exact ⟨hv,hvs⟩

/-- A task that was not called has visits left to count. -/
theorem Countdown.uncalled (hcd : Countdown left ended)
    (hrun : Run (Step fuel) (LeftAlone cs t) s acts s') (h : Refines cs s a)
    (he : t ∈ a.lay.exec c) (hl : left k (a.data.task t)) (hk : 0 < k)
    (hf : (a.data.task t).func ≠ none)
    (hopen : ∀ x ∈ visitRecords fuel t s acts, ¬ ended x.event)
    (hnot : ⟨t,true⟩ ∉ visits fuel s acts) : (visitRecords fuel t s acts).length < k := by
  induction hrun generalizing a k with
  | nil s => exact hk
  | @cons s s₁ s₂ act acts hok hs _ ih =>
    simp only [visitRecords,step_iff.mpr hs,Option.map_some,Option.getD_some,List.length_append,
      List.forall_mem_append,Option.mem_toList] at hopen ⊢
    simp only [visits,step_iff.mpr hs,Option.map_some,Option.getD_some,List.mem_append,
      Option.mem_toList,not_or] at hnot
    have hlt : (visitedAs t s act).toList.length < k := by
      cases hv : visitedAs t s act with
      | none => exact hk
      | some y =>
        rw [hv] at hopen
        obtain ⟨rfl,rfl,d,hpc⟩ := visitedAs_eq_some hv
        by_contra hge
        obtain rfl : k = 1 := by
          simp only [Option.toList_some,List.length_singleton] at hge
          omega
        have hover : ¬ ended (a.data.task t).event := by
          rw [h.event]
          exact hopen.1 _ rfl
        have hrun := hcd.last hl hover
        have hfunc : (odsExecFunc (odsExecWake (a.data.task t))).isSome = true := by
          rw [odsExecFunc,if_pos hrun,func_of_frame (odsExecWake_frame _),Option.isSome_iff_ne_none]
          exact hf
        rw [h.task,odsExecFunc_wake_data] at hfunc
        exact hnot.1 (by simp [visitOf,hpc,hfunc])
    obtain ⟨a₁,hstep,h₁⟩ := step_refines h hok.legal hs
    obtain ⟨he₁,hl₁,-⟩ := hcd.step h hok hstep he hl hlt hopen.1
    have hf₁ : (a₁.data.task t).func ≠ none := by rwa [hstep.func]
    have hn := ih h₁ he₁ hl₁ (Nat.sub_pos_of_lt hlt) hf₁ hopen.2 hnot.2
    omega

end Countdown

end Ods
