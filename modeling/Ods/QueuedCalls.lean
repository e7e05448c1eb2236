import Ods.Reachability

/-! Calls that reach a task while it is queued: `ods_pre_exec` starts the task afresh, and what
they wrote is gone. -/
namespace Ods
open PointerChain

variable {cs : List CtxPtr} {m m' : Mem} {l : Layout} {c : CtxPtr} {fuel : Nat}
variable {t u : TaskPtr} {ts : List TaskPtr} {x : TaskCtx} {f : TaskCtx → TaskCtx}

inductive Signal where
  | done
  | eventSet (eventMask : U32) (type : EventMaskType)
  deriving DecidableEq, Repr

namespace Signal

def op : Signal → TaskOp
  | .done => .done
  | .eventSet eventMask type => .eventSet eventMask type

def write (x : TaskCtx) : Signal → TaskCtx
  | .done => odsTaskDone x
  | .eventSet eventMask type => odsTaskEventSet x eventMask type

def raise (events : U32) : Signal → U32
  | .done => events
  | .eventSet eventMask .or => events ||| eventMask
  | .eventSet eventMask .and => events &&& eventMask

variable (g : Signal) (gs : List Signal)

theorem apply_op : g.op.apply m x = some (g.write x) := by
  cases g <;> rfl

theorem activate_write : activate (g.write x) = activate x := by
  cases g with
  | done => rfl
  | eventSet eventMask type => cases type <;> rfl

theorem activate_writes : activate (gs.foldl write x) = activate x := by
  induction gs generalizing x with
  | nil => rfl
  | cons g gs ih => exact ih.trans (activate_write g)

theorem writes_events : (gs.foldl write x).event.events = gs.foldl raise x.event.events := by
  induction gs generalizing x with
  | nil => rfl
  | cons g gs ih =>
    rw [List.foldl_cons,ih,List.foldl_cons]
    congr 1
    cases g with
    | done => rfl
    | eventSet eventMask type => cases type <;> rfl

theorem writes_state : (gs.foldl write x).state = if .done ∈ gs then .done else x.state := by
  induction gs generalizing x with
  | nil => rfl
  | cons g gs ih =>
    rw [List.foldl_cons,ih]
    cases g with
    | done => simp [write,odsTaskDone]
    | eventSet eventMask type => cases type <;> simp [write,odsTaskEventSet]

/-- A sequence of calls on `t` writes the record of `t` and nothing else. -/
theorem execCalls_writes : execCalls (gs.map fun g => .task t g.op) m =
    some (m.modTask t fun x => gs.foldl write x) := by
  induction gs generalizing m with
  | nil => exact congrArg some (Mem.modTask_id m t).symm
  | cons g gs ih =>
    simp only [List.map_cons,execCalls,Call.exec,apply_op,Option.map_some,Option.bind_some,ih,
      Mem.modTask_modTask]
    rfl

end Signal

/-- The memories differ at most in what the activation of `ts` overwrites. -/
structure AgreeOnceActive (ts : List TaskPtr) (m m' : Mem) : Prop where
  fresh : ∀ t, activate (m.task t) = activate (m'.task t)
  rest : ∀ t, t ∉ ts → m.task t = m'.task t
  sch : m.sch = m'.sch
  timers : m.timers = m'.timers

theorem AgreeOnceActive.eq (h : AgreeOnceActive [] m m') : m = m' :=
  Mem.ext' (fun t => h.rest t List.not_mem_nil) (fun c => congrFun h.sch c) h.timers

theorem AgreeOnceActive.modTask (ht : t ∈ ts) (hf : activate (f (m.task t)) = activate (m.task t)) :
    AgreeOnceActive ts (m.modTask t f) m where
  fresh _ := m.modTask_keeps t _ f activate hf
  rest _ hu := Mem.modTask_task_of_ne _ _ _ _ fun he => hu (he ▸ ht)
  sch := rfl
  timers := rfl

theorem moveToExec_task_self :
    (moveToExec c m t).task t = { activate (m.task t) with next := (m.sch c).odsExecList } := by
  simp [moveToExec,odsPreExecBody,odsListAdd,Mem.setNext,Mem.head,activate]

theorem moveToExec_timers : (moveToExec c m t).timers = m.timers := by
  simp [moveToExec,odsPreExecBody,odsListAdd,Mem.setNext,Mem.setHead]

/-- Moving the first of the tasks takes its differences away. -/
theorem AgreeOnceActive.move (h : AgreeOnceActive (t :: ts) m m') :
    AgreeOnceActive ts (moveToExec c m t) (moveToExec c m' t) := by
  have hself : (moveToExec c m t).task t = (moveToExec c m' t).task t := by
    rw [moveToExec_task_self,moveToExec_task_self,h.fresh,h.sch]
  constructor
  · intro u
    by_cases hu : u = t
    · rw [hu,hself]
    · rw [moveToExec_task_of_ne hu,moveToExec_task_of_ne hu,h.fresh]
  · intro u hts
    by_cases hu : u = t
    · rw [hu,hself]
    · rw [moveToExec_task_of_ne hu,moveToExec_task_of_ne hu]
      exact h.rest u (by simp [hu,hts])
  · funext d
    by_cases hd : d = c
    · rw [hd,moveToExec_sch_self,moveToExec_sch_self,h.sch]
    · rw [moveToExec_sch_of_ne hd,moveToExec_sch_of_ne hd,h.sch]
  · rw [moveToExec_timers,moveToExec_timers,h.timers]

theorem AgreeOnceActive.moveAll (h : AgreeOnceActive ts m m') :
    ts.foldl (moveToExec c) m = ts.foldl (moveToExec c) m' := by
  induction ts generalizing m m' with
  | nil => exact h.eq
  | cons t ts ih => exact ih h.move

theorem preExecMem_fresh (hn : ts.Nodup) (ht : t ∈ ts) :
    ((preExecMem m c ts).task t).state = .run ∧
      ((preExecMem m c ts).task t).event = Event.zero := by
  have hdata : ((preExecMem m c ts).task t).data = activate (m.task t).data := by
    rw [← Mem.data_task,preExecMem_data,activateAll_task_of_mem hn ht,Mem.data_task]
  exact ⟨congrArg TaskCtx.state hdata,congrArg TaskCtx.event hdata⟩

/-- What is written into a queued task, and would be overwritten at once, leaves no trace. -/
theorem odsPreExec_modTask (hR : Rep cs m l) (hc : c ∈ cs) (ht : t ∈ l.pend c)
    (hw : activate (f (m.task t)) = activate (m.task t))
    (hf : (l.exec c).length + (l.pend c).length < fuel) :
    odsPreExec fuel (m.modTask t f) c = some (preExecMem m c (l.pend c)) := by
  have hnext := congrArg TaskCtx.next hw
  have hctx := congrArg TaskCtx.ctx hw
  rw [odsPreExec_of_rep (hR.modTask hnext hctx) hc hf,preExecMem,preExecMem,
    (AgreeOnceActive.modTask ht hw).moveAll]

/-- The activation of a queued task discards the event sets and the done it was sent: it
leaves the memory it leaves without them, the task ready to run with no event pending. Hence
the calls take effect as if they came after it, if and only if none of them is
`ods_task_done` and they leave no event pending on a task that has none. -/
theorem activation_discards_signals (hR : Rep cs m l) (hc : c ∈ cs) (ht : Queued m c t)
    (hf : (l.exec c).length + (l.pend c).length < fuel) (gs : List Signal) :
    ∃ m₁ m₂ m₃, execCalls (gs.map fun g => .task t g.op) m = some m₁ ∧
      odsPreExec fuel m₁ c = some m₂ ∧ odsPreExec fuel m c = some m₂ ∧
      execCalls (gs.map fun g => .task t g.op) m₂ = some m₃ ∧
      odsTaskStateGet (m₂.task t) = .run ∧ odsTaskEventGet (m₂.task t) = 0 ∧
      ((odsTaskStateGet (m₂.task t) = odsTaskStateGet (m₃.task t) ∧
          odsTaskEventGet (m₂.task t) = odsTaskEventGet (m₃.task t)) ↔
        .done ∉ gs ∧ gs.foldl Signal.raise 0 = 0) := by
  have hp := (hR.queued_iff hc).mp ht
  obtain ⟨hstate,hevent⟩ := preExecMem_fresh (m := m) (c := c) (l.pend_nodup c) hp
  have hzero : ((preExecMem m c (l.pend c)).task t).event.events = 0 := by rw [hevent]; rfl
  refine ⟨_,preExecMem m c (l.pend c),_,Signal.execCalls_writes gs,
    odsPreExec_modTask hR hc hp (Signal.activate_writes gs) hf,odsPreExec_of_rep hR hc hf,
    Signal.execCalls_writes gs,hstate,hzero,?_⟩
  simp only [odsTaskStateGet,odsTaskEventGet,Mem.modTask_task_self,Signal.writes_state,
    Signal.writes_events,hstate,hzero]
  refine and_congr ?_ eq_comm
  by_cases hd : .done ∈ gs <;> simp [hd]

section Examples

def oneQueued : Mem := (odsTaskAdd (boot [0] blank).mem 0 1).2

theorem oneQueued_rep : ∃ l, Rep [0] oneQueued l ∧ Queued oneQueued 0 1 ∧
    (l.exec 0).length + (l.pend 0).length < 2 := by
  have hc : (0 : CtxPtr) ∈ [0] := List.mem_cons_self
  have hfree : Layout.empty.Free 1 := by simp [Layout.Free,Layout.empty]
  have hR₀ : Rep [0] (boot [0] blank).mem Layout.empty := (boot_refines blank).rep
  have hR := odsTaskAdd_rep hR₀ hc hfree
  exact ⟨_,hR,(hR.queued_iff hc).mpr (by simp),by simp [Layout.empty]⟩

/-- An event that is raised and cleared again is not missed. -/
theorem activation_discards_cleared : ∃ m₁ m₂ m₃,
    execCalls [.task 1 (.eventSet 3 .or),.task 1 (.eventSet 4 .and)] oneQueued = some m₁ ∧
      odsPreExec 2 m₁ 0 = some m₂ ∧ odsPreExec 2 oneQueued 0 = some m₂ ∧
      execCalls [.task 1 (.eventSet 3 .or),.task 1 (.eventSet 4 .and)] m₂ = some m₃ ∧
      odsTaskStateGet (m₂.task 1) = odsTaskStateGet (m₃.task 1) ∧
      odsTaskEventGet (m₂.task 1) = odsTaskEventGet (m₃.task 1) := by
  obtain ⟨l,hR,ht,hf⟩ := oneQueued_rep
  obtain ⟨m₁,m₂,m₃,h₁,h₂,h₂',h₃,-,-,hiff⟩ := activation_discards_signals hR List.mem_cons_self ht hf
    [.eventSet 3 .or,.eventSet 4 .and]
  have hsame := hiff.mpr ⟨by decide,by decide⟩
  exact ⟨m₁,m₂,m₃,h₁,h₂,h₂',h₃,hsame.1,hsame.2⟩

/-- An event and a done that reach a queued task are lost; after the activation they are not. -/
theorem queued_calls_lost : ∃ l m₁ m₂ m₃ m₄, Rep [0] oneQueued l ∧ Queued oneQueued 0 1 ∧
    execCalls [.task 1 (.eventSet 1 .or),.task 1 .done] oneQueued = some m₁ ∧
      odsPreExec 2 m₁ 0 = some m₂ ∧ odsPreExec 2 oneQueued 0 = some m₃ ∧
      execCalls [.task 1 (.eventSet 1 .or),.task 1 .done] m₃ = some m₄ ∧
      odsTaskStateGet (m₂.task 1) = .run ∧ odsTaskStateGet (m₄.task 1) = .done ∧
      odsTaskEventGet (m₂.task 1) = 0 ∧ odsTaskEventGet (m₄.task 1) = 1 := by
  obtain ⟨l,hR,ht,-⟩ := oneQueued_rep
  have hbefore : (execCalls [.task 1 (.eventSet 1 .or),.task 1 .done] oneQueued).any
      fun m₁ => (odsPreExec 2 m₁ 0).any fun m₂ =>
        odsTaskStateGet (m₂.task 1) = .run && odsTaskEventGet (m₂.task 1) = 0 := by
    decide +kernel
  have hafter : (odsPreExec 2 oneQueued 0).any
      fun m₃ => (execCalls [.task 1 (.eventSet 1 .or),.task 1 .done] m₃).any fun m₄ =>
        odsTaskStateGet (m₄.task 1) = .done && odsTaskEventGet (m₄.task 1) = 1 := by
    decide +kernel
  obtain ⟨m₁,h₁,hbefore⟩ := (Option.any_eq_true _ _).mp hbefore
  obtain ⟨m₂,h₂,hbefore⟩ := (Option.any_eq_true _ _).mp hbefore
  obtain ⟨m₃,h₃,hafter⟩ := (Option.any_eq_true _ _).mp hafter
  obtain ⟨m₄,h₄,hafter⟩ := (Option.any_eq_true _ _).mp hafter
  simp only [Bool.and_eq_true,decide_eq_true_eq] at hbefore hafter
  exact ⟨l,m₁,m₂,m₃,m₄,hR,ht,h₁,h₂,h₃,h₄,hbefore.1,hafter.1,hbefore.2,hafter.2⟩

end Examples

end Ods
