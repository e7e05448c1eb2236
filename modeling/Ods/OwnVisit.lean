import Ods.Footprint
import Ods.LinkFree

/-! Task functions that call the public functions on their own task only and keep private
state of their own: what a visit makes of a task is then up to the task. -/
namespace Ods
open PointerChain

/-- The record as the task's own function sees it: where it is linked is not its business. -/
def TaskCtx.own (x : TaskCtx) : TaskCtx := { x with next := none, ctx := none }

/-- What the functions of the tasks do: the calls each makes on its task, from the task's
record, the tick time and the private state of the task. -/
abbrev Behaviour (ψ : Type) := FuncPtr → TaskPtr → TaskCtx → Option U32 → ψ → List TaskOp × ψ

def selfClient {ψ : Type} (beh : Behaviour ψ) : Client (TaskPtr → ψ) := fun f t m p =>
  let (ops,q) := beh f t (m.task t).own (tickTimeOf m (m.task t)) (p t)
  (ops.map (.task t),Function.update p t q)

section Own
variable {x x' : TaskCtx} {m m' : Mem} {t u : TaskPtr} {ops : List TaskOp}

@[simp] theorem TaskCtx.own_data : x.data.own = x.own := rfl

theorem TaskCtx.own_eq (x : TaskCtx) : x.own = x.relink none none := rfl

theorem odsExecWake_own (x : TaskCtx) : (odsExecWake x).own = odsExecWake x.own := by
  rw [TaskCtx.own_eq,TaskCtx.own_eq,odsExecWake_relink]

structure Alike (t : TaskPtr) (m m' : Mem) : Prop where
  own : (m.task t).own = (m'.task t).own
  period : tickTimeOf m (m.task t) = tickTimeOf m' (m'.task t)

theorem Alike.modTask {f : TaskCtx → TaskCtx} (h : Alike t m m')
    (hown : ∀ x, (f x).own = f x.own) (hctx : ∀ x, (f x).ctx = x.ctx) :
    Alike t (m.modTask t f) (m'.modTask t f) := by
  refine ⟨?_,?_⟩
  · simp only [Mem.modTask_task_self,hown,h.own]
  · have hp := h.period
    simp only [tickTimeOf,Mem.modTask_task_self,hctx] at hp ⊢
    exact hp

theorem Alike.eq_relink (h : Alike t m m') :
    m'.task t = (m.task t).relink (m'.task t).next (m'.task t).ctx :=
  (congrArg (TaskCtx.relink (m'.task t).next (m'.task t).ctx) h.own).symm

/-- A call on `t` by itself takes the same course in both memories. -/
theorem TaskOp.apply_alike (h : Alike t m m') (op : TaskOp) :
    (op.apply m (m.task t)).map TaskCtx.own = (op.apply m' (m'.task t)).map TaskCtx.own := by
  have hp := h.period.symm
  rw [h.eq_relink] at hp
  rw [h.eq_relink,TaskOp.apply_relink hp,Option.map_map]
  rfl

theorem Alike.call (h : Alike t m m') {op : TaskOp} {y y' : TaskCtx}
    (hy : op.apply m (m.task t) = some y) (hy' : op.apply m' (m'.task t) = some y')
    (hown : y.own = y'.own) : Alike t (m.modTask t fun _ => y) (m'.modTask t fun _ => y') := by
  have hp := h.period
  refine ⟨?_,?_⟩
  · simpa using hown
  · simp only [tickTimeOf,Mem.modTask_task_self,Mem.modTask_sch] at hp ⊢
    rw [ctx_of_frame (TaskOp.apply_frame hy),ctx_of_frame (TaskOp.apply_frame hy')]
    exact hp

theorem execCalls_alike (h : Alike t m m') :
    (execCalls (ops.map (.task t)) m).Rel (Alike t) (execCalls (ops.map (.task t)) m') := by
  induction ops generalizing m m' with
  | nil => exact .some h
  | cons op ops ih =>
    have ho := TaskOp.apply_alike h op
    simp only [List.map_cons,execCalls,Call.exec]
    cases hy : op.apply m (m.task t) with
    | none =>
      rw [hy,Option.map_none,eq_comm,Option.map_eq_none_iff] at ho
      rw [ho]
      exact .none
    | some y =>
      rw [hy,Option.map_some,eq_comm,Option.map_eq_some_iff] at ho
      obtain ⟨y',hy',hown⟩ := ho
      rw [hy']
      exact ih (h.call hy hy' hown.symm)

structure Kept (t : TaskPtr) (m r : Mem) : Prop where
  sch : r.sch = m.sch
  others : ∀ u, u ≠ t → r.task u = m.task u
  next : (r.task t).next = (m.task t).next
  ctx : (r.task t).ctx = (m.task t).ctx

theorem Kept.trans {m₁ m₂ : Mem} (h : Kept t m m₁) (h' : Kept t m₁ m₂) : Kept t m m₂ :=
  ⟨h'.sch.trans h.sch,fun u hu => (h'.others u hu).trans (h.others u hu),h'.next.trans h.next,
    h'.ctx.trans h.ctx⟩

theorem Kept.modTask {f : TaskCtx → TaskCtx} (hn : (f (m.task t)).next = (m.task t).next)
    (hc : (f (m.task t)).ctx = (m.task t).ctx) : Kept t m (m.modTask t f) :=
  ⟨rfl,fun _ hu => Mem.modTask_task_of_ne _ _ _ _ hu,by simpa using hn,by simpa using hc⟩

theorem Kept.period (h : Kept t m m') : tickTimeOf m' (m'.task t) = tickTimeOf m (m.task t) := by
  simp only [tickTimeOf,h.sch,h.ctx]

theorem execCalls_kept (h : execCalls (ops.map (.task t)) m = some m') : Kept t m m' := by
  induction ops generalizing m with
  | nil =>
    cases h
    exact ⟨rfl,fun _ _ => rfl,rfl,rfl⟩
  | cons op ops ih =>
    obtain ⟨m₁,hm,hr⟩ := Option.bind_eq_some_iff.mp h
    obtain ⟨y,hy,rfl⟩ := Option.map_eq_some_iff.mp hm
    have hf := TaskOp.apply_frame hy
    exact (Kept.modTask (f := fun _ => y) (next_of_frame hf) (ctx_of_frame hf)).trans (ih hr)

theorem TaskOp.apply_total {period : U32} (hp : tickTimeOf m x = some period) (hz : period ≠ 0)
    (op : TaskOp) : ∃ y, op.apply m x = some y := by
  cases op with
  | sleep timeMs => exact odsTaskSleep_total timeMs hp hz
  | eventWait eventMask type tmroutMs => exact odsTaskEventWait_total eventMask type tmroutMs hp hz
  | _ => exact ⟨_,rfl⟩

theorem execCalls_total {period : U32} (hp : tickTimeOf m (m.task t) = some period)
    (hz : period ≠ 0) : ∃ m', execCalls (ops.map (.task t)) m = some m' := by
  induction ops generalizing m with
  | nil => exact ⟨m,rfl⟩
  | cons op ops ih =>
    obtain ⟨y,hy⟩ := TaskOp.apply_total hp hz op
    have hf := TaskOp.apply_frame hy
    have hk := Kept.modTask (f := fun _ => y) (m := m) (next_of_frame hf) (ctx_of_frame hf)
    obtain ⟨m',hm'⟩ := ih (hk.period.trans hp)
    exact ⟨m',by simpa [execCalls,Call.exec,hy] using hm'⟩

end Own

variable {ψ : Type} {beh : Behaviour ψ} {w w' r : World (TaskPtr → ψ)} {t u item : TaskPtr}
variable {v : Visit} {vs : List Visit} {fuel : Nat} {p : Option TaskPtr} {L : List TaskPtr}

theorem odsExecWake_kept {m : Mem} : Kept t m (m.modTask t odsExecWake) :=
  .modTask (next_of_frame (odsExecWake_frame _)) (ctx_of_frame (odsExecWake_frame _))

theorem odsExecBody_kept (h : odsExecBody (selfClient beh) w t = some (r,v)) :
    Kept t w.mem r.mem ∧ (∀ u, u ≠ t → r.priv u = w.priv u) ∧ v.item = t := by
  have hcount : ∀ m : Mem, Kept t m (m.modTask t odsExecCount) := fun m => .modTask rfl rfl
  simp only [odsExecBody] at h
  split at h
  · cases h
    exact ⟨odsExecWake_kept.trans (hcount _),fun _ _ => rfl,rfl⟩
  · obtain ⟨m,hm,he⟩ := Option.map_eq_some_iff.mp h
    cases he
    refine ⟨(odsExecWake_kept.trans (execCalls_kept hm)).trans (hcount m),fun u hu => ?_,rfl⟩
    exact Function.update_of_ne hu _ _

theorem odsExecBody_total (beh : Behaviour ψ) {period : U32}
    (hp : tickTimeOf w.mem (w.mem.task t) = some period) (hz : period ≠ 0) :
    ∃ r v, odsExecBody (selfClient beh) w t = some (r,v) := by
  simp only [odsExecBody]
  split
  · exact ⟨_,_,rfl⟩
  · obtain ⟨m,hm⟩ := execCalls_total (odsExecWake_kept.period.trans hp) hz
    exact ⟨_,_,Option.map_eq_some_iff.mpr ⟨m,hm,rfl⟩⟩

def ownVisit (beh : Behaviour ψ) (w : World (TaskPtr → ψ)) (t : TaskPtr) :
    Option (TaskCtx × ψ × Bool) :=
  (odsExecBody (selfClient beh) w t).map fun (r,v) => ((r.mem.task t).own,r.priv t,v.invoked)

/-- It depends on the task's record, its tick time and its private state only. -/
theorem ownVisit_congr (h : Alike t w.mem w'.mem) (hp : w.priv t = w'.priv t) :
    ownVisit beh w t = ownVisit beh w' t := by
  have hwake : Alike t (w.mem.modTask t odsExecWake) (w'.mem.modTask t odsExecWake) :=
    h.modTask odsExecWake_own fun x => ctx_of_frame (odsExecWake_frame x)
  have hsame := congrArg odsExecFunc hwake.own
  have hfunc : odsExecFunc ((w.mem.modTask t odsExecWake).task t) =
      odsExecFunc ((w'.mem.modTask t odsExecWake).task t) := hsame
  simp only [ownVisit,odsExecBody,← hfunc]
  cases odsExecFunc ((w.mem.modTask t odsExecWake).task t) with
  | none =>
    have hcount := hwake.modTask (f := odsExecCount) (fun _ => rfl) fun _ => rfl
    simp only [Option.map_some,hcount.own,hp]
  | some f =>
    simp only [selfClient,hwake.own,hwake.period,hp,Option.map_map]
    refine rel_map_eq (execCalls_alike hwake) fun m m' hm => ?_
    have hcount := hm.modTask (f := odsExecCount) (fun _ => rfl) fun _ => rfl
    simp only [Function.comp_apply,hcount.own,Function.update_self]

structure Passed (beh : Behaviour ψ) (L : List TaskPtr) (w r : World (TaskPtr → ψ))
    (vs : List Visit) : Prop where
  sch : r.mem.sch = w.mem.sch
  next : r.mem.next = w.mem.next
  ctx : ∀ u, (r.mem.task u).ctx = (w.mem.task u).ctx
  items : vs.map Visit.item = L
  others : ∀ u, u ∉ L → r.mem.task u = w.mem.task u ∧ r.priv u = w.priv u
  visited : ∀ u ∈ L, ∃ b, ownVisit beh w u = some ((r.mem.task u).own,r.priv u,b) ∧ ⟨u,b⟩ ∈ vs

theorem Kept.links {m r : Mem} (h : Kept t m r) : r.next = m.next := by
  funext u
  by_cases hu : u = t
  · subst hu
    exact h.next
  · exact congrArg TaskCtx.next (h.others u hu)

theorem Kept.owner {m r : Mem} (h : Kept t m r) (u : TaskPtr) :
    (r.task u).ctx = (m.task u).ctx := by
  by_cases hu : u = t
  · subst hu
    exact h.ctx
  · exact congrArg TaskCtx.ctx (h.others u hu)

/-- A task is visited as if it stood at the head of the list. -/
theorem odsExecLoop_passed (hL : Links w.mem.next p L)
    (h : odsExecLoop (selfClient beh) fuel w p = some (r,vs)) : Passed beh L w r vs := by
  induction L generalizing w p fuel vs with
  | nil =>
    rw [links_nil] at hL
    subst hL
    cases fuel with
    | zero => cases h
    | succ fuel =>
      cases h
      exact ⟨rfl,rfl,fun _ => rfl,rfl,fun _ _ => ⟨rfl,rfl⟩,by simp⟩
  | cons a L ih =>
    have hn := List.nodup_cons.mp hL.nodup
    obtain ⟨rfl,hL⟩ := hL
    cases fuel with
    | zero => cases h
    | succ fuel =>
      simp only [odsExecLoop,Option.bind_eq_bind,Option.bind_eq_some_iff,Prod.exists,
        Option.some.injEq,Prod.mk.injEq] at h
      obtain ⟨w₁,v,hb,r',vs',hl,rfl,rfl⟩ := h
      obtain ⟨hk,hpriv,hitem⟩ := odsExecBody_kept hb
      have hlinks : Links w₁.mem.next (w₁.mem.task a).next L := by
        rw [hk.links,hk.next]
        exact hL
      have hp := ih hlinks hl
      refine ⟨hp.sch.trans hk.sch,hp.next.trans hk.links,
        fun u => (hp.ctx u).trans (hk.owner u),?_,?_,?_⟩
      · rw [List.map_cons,hitem,hp.items]
      · intro u hu
        rw [List.mem_cons,not_or] at hu
        obtain ⟨ht,hq⟩ := hp.others u hu.2
        exact ⟨ht.trans (hk.others u hu.1),hq.trans (hpriv u hu.1)⟩
      · intro u hu
        by_cases hua : u = a
        · subst hua
          obtain ⟨ht,hq⟩ := hp.others u hn.1
          refine ⟨v.invoked,?_,?_⟩
          · rw [ownVisit,hb,Option.map_some,ht,hq]
          · rw [← hitem]
            exact List.mem_cons_self
        · have huL : u ∈ L := (List.mem_cons.mp hu).resolve_left hua
          obtain ⟨b,hvisit,hmem⟩ := hp.visited u huL
          refine ⟨b,?_,List.mem_cons_of_mem _ hmem⟩
          rw [← hvisit]
          have htask := hk.others u hua
          refine ownVisit_congr ⟨?_,?_⟩ (hpriv u hua).symm
          · rw [htask]
          · rw [htask,tickTimeOf,tickTimeOf,hk.sch]

theorem odsExecLoop_total (beh : Behaviour ψ) {period : U32} (hL : Links w.mem.next p L)
    (hf : L.length < fuel) (hp : ∀ u ∈ L, tickTimeOf w.mem (w.mem.task u) = some period)
    (hz : period ≠ 0) : ∃ r vs, odsExecLoop (selfClient beh) fuel w p = some (r,vs) := by
  induction L generalizing w p fuel with
  | nil =>
    rw [links_nil] at hL
    subst hL
    obtain ⟨fuel,rfl⟩ : ∃ n, fuel = n + 1 := ⟨fuel - 1,by simp at hf; omega⟩
    exact ⟨w,[],rfl⟩
  | cons a L ih =>
    have hn := List.nodup_cons.mp hL.nodup
    obtain ⟨rfl,hL⟩ := hL
    obtain ⟨fuel,rfl⟩ : ∃ n, fuel = n + 1 := ⟨fuel - 1,by simp at hf; omega⟩
    rw [List.forall_mem_cons] at hp
    obtain ⟨w₁,v,hb⟩ := odsExecBody_total beh hp.1 hz
    obtain ⟨hk,-,-⟩ := odsExecBody_kept hb
    have hlinks : Links w₁.mem.next (w₁.mem.task a).next L := by
      rw [hk.links,hk.next]
      exact hL
    obtain ⟨r,vs,hl⟩ := ih hlinks (by simpa using hf) fun u hu => by
      have hua : u ≠ a := fun he => hn.1 (he ▸ hu)
      rw [hk.others u hua,tickTimeOf,hk.sch]
      exact hp.2 u hu
    refine ⟨r,v :: vs,?_⟩
    simp only [odsExecLoop,hb,hl,Option.bind_eq_bind,Option.bind_some]

end Ods
