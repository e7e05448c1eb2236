import Ods.LabelledRun
import Ods.Tick

/-! The whole program as a state machine. Between ticks and inside a task function any
public call may come; a tick is entered by `tick`, goes from task to task by `visit` and
`ret`, and ends with `finish`. What a task function does is left open: it may make any
finite sequence of calls. -/
namespace Ods
open PointerChain LabelledRun

inductive Pc where
  | idle
  /-- `ods_exec` of scheduler `c` is about to look at `item`. -/
  | walk (c : CtxPtr) (item : Option TaskPtr)
  /-- `ods_exec` of scheduler `c` is inside the function of `item`. -/
  | body (c : CtxPtr) (item : TaskPtr)
  deriving DecidableEq, Repr

def Pc.Client : Pc → Prop
  | .walk _ _ => False
  | _ => True

structure Sys where
  mem : Mem
  pc : Pc

inductive Act where
  | call (op : Call)
  | tick (c : CtxPtr)
  | visit
  | ret
  | finish
  deriving DecidableEq, Repr

def endVisit (m : Mem) (c : CtxPtr) (item : TaskPtr) : Sys :=
  let m := m.modTask item odsExecCount
  ⟨m,.walk c (m.task item).next⟩

def step (fuel : Nat) (s : Sys) (a : Act) : Option Sys :=
  match a, s.pc with
  | .call _, .walk _ _ => none
  | .call op, pc => (op.exec s.mem).map (⟨·,pc⟩)
  | .tick c, .idle => (odsPreExec fuel s.mem c).map fun m => ⟨m,.walk c (m.sch c).odsExecList⟩
  | .visit, .walk c (some item) =>
    let m := s.mem.modTask item odsExecWake
    match odsExecFunc (m.task item) with
    | none => some (endVisit m c item)
    | some _ => some ⟨m,.body c item⟩
  | .ret, .body c item => some (endVisit s.mem c item)
  | .finish, .walk c none => (odsPostExec fuel s.mem c).map (⟨·,.idle⟩)
  | _, _ => none

def InExec (m : Mem) (c : CtxPtr) (t : TaskPtr) : Prop := Meets m.next (m.sch c).odsExecList t

def Queued (m : Mem) (c : CtxPtr) (t : TaskPtr) : Prop := Meets m.next (m.sch c).odsPreExecList t

def Linked (cs : List CtxPtr) (m : Mem) (t : TaskPtr) : Prop :=
  ∃ c ∈ cs, InExec m c t ∨ Queued m c t

/-- The client's side of the contract: only schedulers of `cs` are used, they are not
initialised again, and `ods_task_add` is given unlinked tasks only. -/
def Legal (cs : List CtxPtr) (s : Sys) : Act → Prop
  | .call (.init _) => False
  | .call (.start c _ _) => c ∈ cs
  | .call (.stop c) => c ∈ cs
  | .call (.add c t) => c ∈ cs ∧ ¬ Linked cs s.mem t
  | .call (.task _ _) => True
  | .tick c => c ∈ cs
  | .visit | .ret | .finish => True

/-- `ods_init` of every scheduler of `cs`, on memory with any content. -/
def boot (cs : List CtxPtr) (m : Mem) : Sys := ⟨cs.foldl odsInit m,.idle⟩

def visitOf (s : Sys) : Act → Option Visit
  | .visit =>
    match s.pc with
    | .walk _ (some item) => some ⟨item,(odsExecFunc (odsExecWake (s.mem.task item))).isSome⟩
    | _ => none
  | _ => none

def visits (fuel : Nat) (s : Sys) : List Act → List Visit
  | [] => []
  | a :: as => (visitOf s a).toList ++ ((step fuel s a).map fun s => visits fuel s as).getD []

variable {γ : Type} {fuel : Nat} {s s' : Sys} {m : Mem} {c : CtxPtr} {item : TaskPtr}

inductive Step (fuel : Nat) : Sys → Act → Sys → Prop
  | call {m m' : Mem} {pc : Pc} {op : Call} :
      pc.Client → op.exec m = some m' → Step fuel ⟨m,pc⟩ (.call op) ⟨m',pc⟩
  | tick {m m' : Mem} {c : CtxPtr} :
      odsPreExec fuel m c = some m' →
      Step fuel ⟨m,.idle⟩ (.tick c) ⟨m',.walk c (m'.sch c).odsExecList⟩
  | skip {m : Mem} {c : CtxPtr} {item : TaskPtr} :
      odsExecFunc (odsExecWake (m.task item)) = none →
      Step fuel ⟨m,.walk c (some item)⟩ .visit (endVisit (m.modTask item odsExecWake) c item)
  | invoke {m : Mem} {c : CtxPtr} {item : TaskPtr} {f : FuncPtr} :
      odsExecFunc (odsExecWake (m.task item)) = some f →
      Step fuel ⟨m,.walk c (some item)⟩ .visit ⟨m.modTask item odsExecWake,.body c item⟩
  | ret {m : Mem} {c : CtxPtr} {item : TaskPtr} :
      Step fuel ⟨m,.body c item⟩ .ret (endVisit m c item)
  | finish {m m' : Mem} {c : CtxPtr} :
      odsPostExec fuel m c = some m' → Step fuel ⟨m,.walk c none⟩ .finish ⟨m',.idle⟩

theorem step_iff {a : Act} : step fuel s a = some s' ↔ Step fuel s a s' := by
  constructor
  · intro h
    obtain ⟨m,pc⟩ := s
    cases a with
    | call op =>
      cases pc with
      | idle | body c item =>
        obtain ⟨m',hm,rfl⟩ := Option.map_eq_some_iff.mp h
        exact .call trivial hm
      | walk c p => cases h
    | tick c =>
      cases pc with
      | idle =>
        obtain ⟨m',hm,rfl⟩ := Option.map_eq_some_iff.mp h
        exact .tick hm
      | _ => cases h
    | visit =>
      cases pc with
      | walk c p =>
        cases p with
        | none => cases h
        | some item =>
          simp only [step,Mem.modTask_task_self] at h
          cases hf : odsExecFunc (odsExecWake (m.task item)) with
          | none =>
            rw [hf] at h
            cases h
            exact .skip hf
          | some f =>
            rw [hf] at h
            cases h
            exact .invoke hf
      | _ => cases h
    | ret =>
      cases pc with
      | body c item =>
        cases h
        exact .ret
      | _ => cases h
    | finish =>
      cases pc with
      | walk c p =>
        cases p with
        | none =>
          obtain ⟨m',hm,rfl⟩ := Option.map_eq_some_iff.mp h
          exact .finish hm
        | some item => cases h
      | _ => cases h
  · intro h
    cases h with
    | @call _ _ pc _ hpc hm =>
      cases pc with
      | walk c p => exact hpc.elim
      | _ => simp [step,hm]
    | tick hm | finish hm => simp [step,hm]
    | skip hf | invoke hf => simp [step,hf]
    | ret => rfl

theorem step_unique {a : Act} {s₁ s₂ : Sys} (h : Step fuel s a s₁) (h' : Step fuel s a s₂) :
    s₁ = s₂ :=
  Option.some.inj ((step_iff.mpr h).symm.trans (step_iff.mpr h'))

theorem step_deterministic (s : Sys) (a : Act) (s₁ s₂ : Sys) (h : Step fuel s a s₁)
    (h' : Step fuel s a s₂) : s₁ = s₂ :=
  step_unique h h'

theorem run_split {ok ok' : Sys → Act → Prop} {as bs : List Act} {s₁ s₂ : Sys}
    (h : Run (Step fuel) ok s (as ++ bs) s₂) (h' : Run (Step fuel) ok' s as s₁) :
    Run (Step fuel) ok s as s₁ ∧ Run (Step fuel) ok s₁ bs s₂ :=
  h.split step_deterministic h'

/-- What is asked of every step holds at each. -/
theorem run_ok_at {ok ok' : Sys → Act → Prop} {as bs : List Act} {a : Act} {s₁ s₂ : Sys}
    (h : Run (Step fuel) ok s (as ++ a :: bs) s₂) (h' : Run (Step fuel) ok' s as s₁) : ok s₁ a :=
  (run_cons_iff.mp (run_split h h').2).1

section Adequacy
variable {client : Client γ} {w w' : World γ}

abbrev FreeRun (fuel : Nat) : Sys → List Act → Sys → Prop := Run (Step fuel) fun _ _ => True

theorem execCalls_run {ops : List Call} {m' : Mem} (h : execCalls ops m = some m') :
    FreeRun fuel ⟨m,.body c item⟩ (ops.map .call) ⟨m',.body c item⟩ := by
  induction ops generalizing m with
  | nil =>
    cases h
    exact .nil _
  | cons op ops ih =>
    obtain ⟨m₁,h₁,h₂⟩ := Option.bind_eq_some_iff.mp h
    exact .cons trivial (.call trivial h₁) (ih h₂)

theorem visits_of_no_visit {acts : List Act} (h : .visit ∉ acts) : visits fuel s acts = [] := by
  induction acts generalizing s with
  | nil => rfl
  | cons a as ih =>
    have ha : visitOf s a = none := by
      cases a with
      | visit => simp at h
      | _ => rfl
    simp only [visits,ha,Option.toList_none,List.nil_append]
    cases step fuel s a with
    | none => rfl
    | some s₁ => exact ih fun hv => h (List.mem_cons_of_mem a hv)

theorem visits_append {acts acts' : List Act} {ok : Sys → Act → Prop}
    (h : Run (Step fuel) ok s acts s') :
    visits fuel s (acts ++ acts') = visits fuel s acts ++ visits fuel s' acts' := by
  induction h with
  | nil => rfl
  | cons _ hs _ ih =>
    simp only [List.cons_append,visits,step_iff.mpr hs,Option.map_some,Option.getD_some,ih,
      List.append_assoc]

theorem visitOf_eq_some {v : Visit} (h : visitOf s .visit = some v) :
    ∃ c, s.pc = .walk c (some v.item) ∧
      v.invoked = (odsExecFunc (odsExecWake (s.mem.task v.item))).isSome := by
  obtain ⟨m,pc⟩ := s
  cases pc with
  | walk c p =>
    cases p with
    | none => cases h
    | some item =>
      cases h
      exact ⟨c,rfl,rfl⟩
  | _ => cases h

/-- A visit made along a run is made by a step of it. -/
theorem visits_mem {acts : List Act} {ok : Sys → Act → Prop} {v : Visit}
    (h : Run (Step fuel) ok s acts s') (hv : v ∈ visits fuel s acts) :
    ∃ as bs s₁, acts = as ++ .visit :: bs ∧ Run (Step fuel) ok s as s₁ ∧
      visitOf s₁ .visit = some v := by
  induction h with
  | nil => simp [visits] at hv
  | @cons s s₁ s₂ a as ha hs _ ih =>
    simp only [visits,step_iff.mpr hs,Option.map_some,Option.getD_some,List.mem_append,
      Option.mem_toList] at hv
    rcases hv with hv | hv
    · cases a with
      | visit => exact ⟨[],as,s,rfl,.nil s,hv⟩
      | _ => cases hv
    · obtain ⟨us,vs,s₃,rfl,hr,hl⟩ := ih hv
      exact ⟨a :: us,vs,s₃,rfl,.cons ha hs hr,hl⟩

/-- One pass through the loop body of `ods_exec` is one visit of the machine. -/
theorem odsExecBody_run (fuel : Nat) (c : CtxPtr) {visit : Visit}
    (h : odsExecBody client w item = some (w',visit)) :
    ∃ acts, .finish ∉ acts ∧
      FreeRun fuel ⟨w.mem,.walk c (some item)⟩ acts ⟨w'.mem,.walk c (w'.mem.task item).next⟩ ∧
      visits fuel ⟨w.mem,.walk c (some item)⟩ acts = [visit] := by
  simp only [odsExecBody,Mem.modTask_task_self] at h
  cases hf : odsExecFunc (odsExecWake (w.mem.task item)) with
  | none =>
    rw [hf] at h
    cases h
    have hs : Step fuel ⟨w.mem,.walk c (some item)⟩ .visit _ := .skip hf
    exact ⟨[.visit],by simp,.single trivial hs,by simp [visits,step_iff.mpr hs,visitOf,hf]⟩
  | some f =>
    rw [hf] at h
    obtain ⟨m',hm,he⟩ := Option.map_eq_some_iff.mp h
    cases he
    let ops := (client f item (w.mem.modTask item odsExecWake) w.priv).1
    have hs : Step fuel ⟨w.mem,.walk c (some item)⟩ .visit _ := .invoke hf
    have hcalls : .visit ∉ ops.map Act.call ++ [.ret] := by simp
    refine ⟨.visit :: (ops.map .call ++ [.ret]),by simp,?_,?_⟩
    · exact .cons trivial hs ((execCalls_run hm).append (.single trivial .ret))
    · simp [visits,step_iff.mpr hs,visits_of_no_visit hcalls,visitOf,hf]

theorem odsExecLoop_run (fuel : Nat) (c : CtxPtr) {n : Nat} {p : Option TaskPtr} {vs : List Visit}
    (h : odsExecLoop client n w p = some (w',vs)) :
    ∃ acts, .finish ∉ acts ∧ FreeRun fuel ⟨w.mem,.walk c p⟩ acts ⟨w'.mem,.walk c none⟩ ∧
      visits fuel ⟨w.mem,.walk c p⟩ acts = vs := by
  induction n generalizing w p vs with
  | zero => simp [odsExecLoop] at h
  | succ n ih =>
    cases p with
    | none =>
      simp only [odsExecLoop,Option.some.injEq,Prod.mk.injEq] at h
      obtain ⟨rfl,rfl⟩ := h
      exact ⟨[],by simp,.nil _,rfl⟩
    | some item =>
      simp only [odsExecLoop,Option.bind_eq_bind,Option.bind_eq_some_iff,Prod.exists,
        Option.some.injEq,Prod.mk.injEq] at h
      obtain ⟨w₁,v,hb,w₂,vs',hl,rfl,rfl⟩ := h
      obtain ⟨acts₁,hf₁,hr₁,hv₁⟩ := odsExecBody_run fuel c hb
      obtain ⟨acts₂,hf₂,hr₂,hv₂⟩ := ih hl
      refine ⟨acts₁ ++ acts₂,by simp [hf₁,hf₂],hr₁.append hr₂,?_⟩
      rw [visits_append hr₁,hv₁,hv₂]
      rfl

/-- Every tick of the code, with whatever task functions, is a tick of the machine. -/
theorem odsProcess_run {vs : List Visit} (h : odsProcess client fuel w c = some (w',vs)) :
    ∃ s₁ acts s₂, Step fuel ⟨w.mem,.idle⟩ (.tick c) s₁ ∧ .finish ∉ acts ∧
      FreeRun fuel s₁ acts s₂ ∧ Step fuel s₂ .finish ⟨w'.mem,.idle⟩ ∧
      visits fuel s₁ acts = vs := by
  simp only [odsProcess,Option.bind_eq_bind,Option.bind_eq_some_iff,Prod.exists,
    Option.some.injEq,Prod.mk.injEq] at h
  obtain ⟨m₁,hpre,w₂,vs',hex,m₃,hpost,rfl,rfl⟩ := h
  obtain ⟨acts,hfin,hrun,hvs⟩ := odsExecLoop_run fuel c hex
  exact ⟨_,acts,_,.tick hpre,hfin,hrun,.finish hpost,hvs⟩

end Adequacy

end Ods
