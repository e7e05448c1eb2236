import Ods.PublicCalls

/-! One tick of a scheduler: `ods_process` and the static functions under it. Every C
loop gets a bound on its iterations; `none` means that the bound was reached, or that
a task function made a call with undefined behaviour. -/
namespace Ods
open PointerChain

def odsListPrint (m : Mem) : Nat → Option TaskPtr → Option (List TaskPtr)
  | 0, _ => none
  | _ + 1, none => some []
  | fuel + 1, some current => (odsListPrint m fuel (m.task current).next).map (current :: ·)

def odsListDelSeek (m : Mem) (item : TaskPtr) : Nat → TaskPtr → Option TaskPtr
  | 0, _ => none
  | fuel + 1, current =>
    match (m.task current).next with
    | none => some current
    | some nxt => if nxt = item then some current else odsListDelSeek m item fuel nxt

def odsListDel (fuel : Nat) (m : Mem) (head : ListRef) (item : TaskPtr) : Option (Bool × Mem) :=
  match m.head head with
  | none => some (false,m)
  | some current =>
    if current = item then some (true,m.setHead head (m.task item).next)
    else do
      let current ← odsListDelSeek m item fuel current
      match (m.task current).next with
      | none => some (false,m)
      | some nxt => some (true,m.setNext current (m.task nxt).next)

def activate (x : TaskCtx) : TaskCtx :=
  { x with execTickCounter := 0, sleepTickCounter := 0, event := Event.zero, state := .run }

def odsPreExecBody (c : CtxPtr) (m : Mem) (item : TaskPtr) (changed : Bool) : Mem × Bool :=
  match odsListAdd m (.execList c) item with
  | (true,m) =>
    ((m.modTask item activate).modSch c fun x => { x with odsNumTasks := x.odsNumTasks + 1 },true)
  | (false,m) => (m,changed)

def odsPreExecLoop (c : CtxPtr) : Nat → Mem → Option TaskPtr → Bool → Option (Mem × Bool)
  | 0, _, _, _ => none
  | _ + 1, m, none, changed => some (m,changed)
  | fuel + 1, m, some item, changed =>
    let savedItem := (m.task item).next
    let (m,changed) := odsPreExecBody c m item changed
    odsPreExecLoop c fuel m savedItem changed

def odsPreExec (fuel : Nat) (m : Mem) (c : CtxPtr) : Option Mem := do
  let (m,changed) ← odsPreExecLoop c fuel m (m.sch c).odsPreExecList false
  if changed then
    let _ ← odsListPrint m fuel (m.sch c).odsExecList
  some (m.modSch c fun x => { x with odsPreExecList := none })

def odsPostExecBody (fuel : Nat) (c : CtxPtr) (m : Mem) (item : TaskPtr) : Option Mem :=
  if (m.task item).state = .del then do
    let (deleted,m) ← odsListDel fuel m (.execList c) item
    if deleted then
      let m := m.modSch c fun x => { x with odsNumTasks := x.odsNumTasks - 1 }
      let _ ← odsListPrint m fuel (m.sch c).odsExecList
      some m
    else some m
  else some m

/-- `bound` is the bound of the loops inside the body. -/
def odsPostExecLoop (bound : Nat) (c : CtxPtr) : Nat → Mem → Option TaskPtr → Option Mem
  | 0, _, _ => none
  | _ + 1, m, none => some m
  | fuel + 1, m, some item => do
    let m ← odsPostExecBody bound c m item
    odsPostExecLoop bound c fuel m (m.task item).next

def odsPostExec (fuel : Nat) (m : Mem) (c : CtxPtr) : Option Mem :=
  odsPostExecLoop fuel c fuel m (m.sch c).odsExecList

def countDown (counter : U32) : U32 := if 0 < counter then counter - 1 else counter

def odsExecSleep (x : TaskCtx) : TaskCtx :=
  if x.state = .sleep then
    let x := { x with sleepTickCounter := countDown x.sleepTickCounter }
    if x.sleepTickCounter = 0 then { x with state := .run } else x
  else x

def odsExecEvent (x : TaskCtx) : TaskCtx :=
  if x.state = .event then
    match odsTaskEventCheck x with
    | (true,x) => { x with event.timeout := false, state := .run }
    | (false,x) =>
      let x := { x with event.eventTickCounter := countDown x.event.eventTickCounter }
      if x.event.eventTickCounter = 0 then { x with event.timeout := true, state := .run } else x
  else x

def odsExecWake (x : TaskCtx) : TaskCtx := odsExecEvent (odsExecSleep x)

def odsExecFunc (x : TaskCtx) : Option FuncPtr := if x.state = .run then x.func else none

def odsExecCount (x : TaskCtx) : TaskCtx := { x with execTickCounter := x.execTickCounter + 1 }

/-- What a task function does: the calls it makes, from the memory and from the state
the client keeps outside the scheduler, and that state afterwards. -/
abbrev Client (γ : Type) := FuncPtr → TaskPtr → Mem → γ → List Call × γ

structure World (γ : Type) where
  mem : Mem
  priv : γ

variable {γ : Type}

def execCalls : List Call → Mem → Option Mem
  | [], m => some m
  | op :: ops, m => (op.exec m).bind (execCalls ops)

structure Visit where
  item : TaskPtr
  invoked : Bool
  deriving DecidableEq, Repr

def odsExecBody (client : Client γ) (w : World γ) (item : TaskPtr) : Option (World γ × Visit) :=
  let m := w.mem.modTask item odsExecWake
  match odsExecFunc (m.task item) with
  | none => some (⟨m.modTask item odsExecCount,w.priv⟩,⟨item,false⟩)
  | some f =>
    let (calls,priv) := client f item m w.priv
    (execCalls calls m).map fun m => (⟨m.modTask item odsExecCount,priv⟩,⟨item,true⟩)

def odsExecLoop (client : Client γ) : Nat → World γ → Option TaskPtr → Option (World γ × List Visit)
  | 0, _, _ => none
  | _ + 1, w, none => some (w,[])
  | fuel + 1, w, some item => do
    let (w,visit) ← odsExecBody client w item
    let (w,visits) ← odsExecLoop client fuel w (w.mem.task item).next
    some (w,visit :: visits)

def odsExec (client : Client γ) (fuel : Nat) (w : World γ) (c : CtxPtr) :
    Option (World γ × List Visit) :=
  odsExecLoop client fuel w (w.mem.sch c).odsExecList

def odsProcess (client : Client γ) (fuel : Nat) (w : World γ) (c : CtxPtr) :
    Option (World γ × List Visit) := do
  let m ← odsPreExec fuel w.mem c
  let (w,visits) ← odsExec client fuel ⟨m,w.priv⟩ c
  let m ← odsPostExec fuel w.mem c
  some (⟨m,w.priv⟩,visits)

end Ods
