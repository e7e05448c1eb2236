import Ods.Memory

/-! The public functions of `ods.c`. A function that only touches the record its
`task_ctx` points to is a function on that record; `none` is undefined behaviour
(a `NULL` context or a division by zero). The answer of the platform's timer driver
to `hal_tmr_create` is an argument. -/
namespace Ods
open PointerChain

def odsListAdd (m : Mem) (head : ListRef) (item : TaskPtr) : Bool × Mem :=
  (true, (m.setNext item (m.head head)).setHead head (some item))

def odsInit (m : Mem) (c : CtxPtr) : Mem :=
  m.modSch c fun x => { x with
    odsTickTimeMs := odsTickTimeMsMin
    odsExecList := none
    odsPreExecList := none
    odsNumTasks := 0
    odsTimer := 0
    odsTmrArgs := ⟨some .odsProcess,some c⟩ }

def odsTaskAdd (m : Mem) (c : CtxPtr) (t : TaskPtr) : Bool × Mem :=
  match odsListAdd m (.preExecList c) t with
  | (true, m) => (true, m.modTask t fun x => { x with state := .add, ctx := some c })
  | (false, m) => (false, m)

def odsTaskDel (x : TaskCtx) : TaskCtx := { x with state := .del }

def halTmrCreate (m : Mem) (id : TmrId) (expirationMs : BitVec 64) (cyclic : Bool)
    (args : CtxPtr) : Mem :=
  { m with timers := ⟨id,expirationMs,cyclic,args⟩ :: m.timers }

def halTmrDelete (m : Mem) (id : TmrId) : Mem :=
  { m with timers := m.timers.filter fun tm => tm.id ≠ id }

def odsStart (m : Mem) (c : CtxPtr) (tickTimeMs : U32) (id : TmrId) : Mem :=
  let m := m.modSch c fun x =>
    { x with odsTickTimeMs := if tickTimeMs < odsTickTimeMsMin then odsTickTimeMsMin else tickTimeMs }
  let m := halTmrCreate m id ((m.sch c).odsTickTimeMs.setWidth 64) true c
  m.modSch c fun x => { x with odsTimer := id }

def odsStop (m : Mem) (c : CtxPtr) : Mem :=
  if (m.sch c).odsTimer ≠ 0 then
    (halTmrDelete m (m.sch c).odsTimer).modSch c fun x => { x with odsTimer := 0 }
  else m

def tickTimeOf (m : Mem) (x : TaskCtx) : Option U32 :=
  x.ctx.map fun c => (m.sch c).odsTickTimeMs

def cDiv (a b : U32) : Option U32 := if b = 0 then none else some (a / b)

def odsTaskRuntimeGetMs (m : Mem) (x : TaskCtx) : Option U32 :=
  (tickTimeOf m x).map fun p => x.execTickCounter * p

def odsTaskSleep (m : Mem) (x : TaskCtx) (timeMs : U32) : Option TaskCtx :=
  if x.state = .run then do
    let x := { x with state := .sleep }
    let ticks ← cDiv timeMs (← tickTimeOf m x)
    let ticks := if ticks = 0 then 1 else ticks
    some { x with sleepTickCounter := ticks }
  else some x

def odsTaskPause (x : TaskCtx) : TaskCtx :=
  if x.state ≠ .del ∧ x.state ≠ .add then { x with state := .pause } else x

def odsTaskResume (x : TaskCtx) : TaskCtx :=
  if x.state ≠ .del ∧ x.state ≠ .add then { x with state := .run } else x

def odsTaskDone (x : TaskCtx) : TaskCtx := { x with state := .done }

def odsTaskStateGet (x : TaskCtx) : TaskState := x.state

def odsTaskEventSet (x : TaskCtx) (eventMask : U32) (type : EventMaskType) : TaskCtx :=
  match type with
  | .or => { x with event.events := x.event.events ||| eventMask }
  | .and => { x with event.events := x.event.events &&& eventMask }

def odsTaskEventWait (m : Mem) (x : TaskCtx) (eventMask : U32) (type : EventMaskType)
    (tmroutMs : U32) : Option TaskCtx := do
  let x := { x with event.mask := eventMask, event.type := type, event.timeout := false }
  let ticks ← cDiv tmroutMs (← tickTimeOf m x)
  let x := { x with event.eventTickCounter := ticks }
  let x := { x with event.eventTickCounter :=
    if x.event.eventTickCounter = 0 then 1 else x.event.eventTickCounter }
  some { x with state := .event }

def Event.satisfied (e : Event) : Bool :=
  match e.type with
  | .or => 0 < e.events &&& e.mask
  | .and => e.events &&& e.mask = e.mask

def odsTaskEventCheck (x : TaskCtx) : Bool × TaskCtx :=
  let eventSet := x.event.satisfied
  if eventSet then
    match x.event.type with
    | .or => (eventSet, { x with event.events := x.event.events &&& ~~~(x.event.events &&& x.event.mask) })
    | .and => (eventSet, { x with event.events := 0 })
  else (eventSet, x)

def odsTaskEventGet (x : TaskCtx) : U32 := x.event.events

def odsTaskEventTimedOut (x : TaskCtx) : Bool := x.event.timeout

inductive TaskOp where
  | del | pause | resume | done
  | sleep (timeMs : U32)
  | eventSet (eventMask : U32) (type : EventMaskType)
  | eventWait (eventMask : U32) (type : EventMaskType) (tmroutMs : U32)
  deriving DecidableEq, Repr

def TaskOp.apply (m : Mem) (x : TaskCtx) : TaskOp → Option TaskCtx
  | .del => some (odsTaskDel x)
  | .pause => some (odsTaskPause x)
  | .resume => some (odsTaskResume x)
  | .done => some (odsTaskDone x)
  | .sleep timeMs => odsTaskSleep m x timeMs
  | .eventSet eventMask type => some (odsTaskEventSet x eventMask type)
  | .eventWait eventMask type tmroutMs => odsTaskEventWait m x eventMask type tmroutMs

inductive Call where
  | init (c : CtxPtr)
  | start (c : CtxPtr) (tickTimeMs : U32) (id : TmrId)
  | stop (c : CtxPtr)
  | add (c : CtxPtr) (t : TaskPtr)
  | task (t : TaskPtr) (op : TaskOp)
  deriving DecidableEq, Repr

def Call.exec (m : Mem) : Call → Option Mem
  | .init c => some (odsInit m c)
  | .start c tickTimeMs id => some (odsStart m c tickTimeMs id)
  | .stop c => some (odsStop m c)
  | .add c t => some (odsTaskAdd m c t).2
  | .task t op => (op.apply m (m.task t)).map fun x => m.modTask t fun _ => x

end Ods
