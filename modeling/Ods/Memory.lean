import Mathlib.Logic.Function.Basic
import Mathlib.Data.BitVec
import Ods.PointerChain

/-! The data of `ods.h` and the memory it lives in. A pointer that may be `NULL` is
an `Option`; the fields no scheduler function reads (`arg`) are left out. -/
namespace Ods
open PointerChain

abbrev U32 := BitVec 32
abbrev TaskPtr := Nat
abbrev CtxPtr := Nat
abbrev FuncPtr := Nat
/-- `hal_tmr_id_t` is a `void *`; the value 0 is `NULL`. -/
abbrev TmrId := Nat

def odsTickTimeMsMin : U32 := 10

inductive EventMaskType where
  | or | and
  deriving DecidableEq, Repr

inductive TaskState where
  | run | pause | sleep | add | del | event | done
  deriving DecidableEq, Repr

structure Event where
  events : U32
  mask : U32
  type : EventMaskType
  eventTickCounter : U32
  timeout : Bool
  deriving DecidableEq, Repr

def Event.zero : Event := ⟨0,0,.or,0,false⟩

structure TaskCtx where
  state : TaskState
  execTickCounter : U32
  sleepTickCounter : U32
  event : Event
  func : Option FuncPtr
  ctx : Option CtxPtr
  next : Option TaskPtr
  deriving DecidableEq, Repr

inductive TmrCbk where
  | odsProcess
  deriving DecidableEq, Repr

structure TmrArgs where
  cbk : Option TmrCbk
  arg : Option CtxPtr
  deriving DecidableEq, Repr

structure OdsCtx where
  odsExecList : Option TaskPtr
  odsPreExecList : Option TaskPtr
  odsNumTasks : U32
  odsTickTimeMs : U32
  odsTmrArgs : TmrArgs
  odsTimer : TmrId
  deriving DecidableEq, Repr

/-- A timer the driver has armed; `args` names the scheduler whose `ods_tmr_args`
field the driver was given the address of. -/
structure Timer where
  id : TmrId
  expirationMs : BitVec 64
  cyclic : Bool
  args : CtxPtr
  deriving DecidableEq, Repr

structure Mem where
  task : TaskPtr → TaskCtx
  sch : CtxPtr → OdsCtx
  timers : List Timer

/-- The two list heads `ods_list_add` and `ods_list_del` are given the address of. -/
inductive ListRef where
  | execList (c : CtxPtr)
  | preExecList (c : CtxPtr)

namespace Mem

def next (m : Mem) (t : TaskPtr) : Option TaskPtr := (m.task t).next

def modTask (m : Mem) (t : TaskPtr) (f : TaskCtx → TaskCtx) : Mem :=
  { m with task := Function.update m.task t (f (m.task t)) }

def modSch (m : Mem) (c : CtxPtr) (f : OdsCtx → OdsCtx) : Mem :=
  { m with sch := Function.update m.sch c (f (m.sch c)) }

def setNext (m : Mem) (t : TaskPtr) (p : Option TaskPtr) : Mem :=
  m.modTask t fun x => { x with next := p }

def head (m : Mem) : ListRef → Option TaskPtr
  | .execList c => (m.sch c).odsExecList
  | .preExecList c => (m.sch c).odsPreExecList

def setHead (m : Mem) (r : ListRef) (p : Option TaskPtr) : Mem :=
  match r with
  | .execList c => m.modSch c fun x => { x with odsExecList := p }
  | .preExecList c => m.modSch c fun x => { x with odsPreExecList := p }

variable (m : Mem) (t u : TaskPtr) (c d : CtxPtr) (f : TaskCtx → TaskCtx) (g : OdsCtx → OdsCtx)

theorem modTask_task : (m.modTask t f).task u = if u = t then f (m.task t) else m.task u := by
  simp [modTask,Function.update_apply]

@[simp] theorem modTask_task_self : (m.modTask t f).task t = f (m.task t) := by
  simp [modTask_task]

@[simp] theorem modTask_task_of_ne (h : u ≠ t) : (m.modTask t f).task u = m.task u := by
  simp [modTask_task,h]

/-- What the update keeps of the record of `t` it keeps of every record. -/
theorem modTask_keeps {β : Type*} (k : TaskCtx → β) (h : k (f (m.task t)) = k (m.task t)) :
    k ((m.modTask t f).task u) = k (m.task u) := by
  by_cases hu : u = t
  · rw [hu,modTask_task_self,h]
  · rw [modTask_task_of_ne _ _ _ _ hu]

@[simp] theorem modTask_sch : (m.modTask t f).sch = m.sch := rfl
@[simp] theorem modTask_timers : (m.modTask t f).timers = m.timers := rfl

theorem modSch_sch : (m.modSch c g).sch d = if d = c then g (m.sch c) else m.sch d := by
  simp [modSch,Function.update_apply]

@[simp] theorem modSch_sch_self : (m.modSch c g).sch c = g (m.sch c) := by
  simp [modSch_sch]

@[simp] theorem modSch_sch_of_ne (h : d ≠ c) : (m.modSch c g).sch d = m.sch d := by
  simp [modSch_sch,h]

@[simp] theorem modSch_task : (m.modSch c g).task = m.task := rfl
@[simp] theorem modSch_timers : (m.modSch c g).timers = m.timers := rfl
@[simp] theorem modSch_next : (m.modSch c g).next = m.next := rfl

theorem modTask_id : m.modTask t (fun x => x) = m := by
  simp [modTask]

theorem modTask_modTask (g : TaskCtx → TaskCtx) :
    (m.modTask t f).modTask t g = m.modTask t fun x => g (f x) := by
  simp [modTask]

theorem modTask_next : (m.modTask t f).next = Function.update m.next t (f (m.task t)).next := by
  funext u
  simp only [next,modTask_task,Function.update_apply]
  split <;> rfl

/-- An update that keeps the link keeps every list. -/
theorem modTask_next_of_eq (h : (f (m.task t)).next = (m.task t).next) :
    (m.modTask t f).next = m.next := by
  rw [modTask_next,h]
  exact Function.update_eq_self t m.next

@[simp] theorem setNext_next (p : Option TaskPtr) :
    (m.setNext t p).next = Function.update m.next t p := modTask_next m t _

@[simp] theorem setNext_sch (p : Option TaskPtr) : (m.setNext t p).sch = m.sch := rfl

@[simp] theorem setHead_task (r : ListRef) (p : Option TaskPtr) : (m.setHead r p).task = m.task := by
  cases r <;> rfl

@[simp] theorem setHead_next (r : ListRef) (p : Option TaskPtr) : (m.setHead r p).next = m.next := by
  cases r <;> rfl

@[simp] theorem head_setHead (r : ListRef) (p : Option TaskPtr) : (m.setHead r p).head r = p := by
  cases r <;> simp [head,setHead]

end Mem

end Ods
