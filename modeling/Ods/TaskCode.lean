import Ods.DelayTicks

/-! Tasks whose functions are programs. The machine leaves open what a task function does.
Here the function of one task is code, and what a run of the scheduler makes of that task,
whatever goes on beside it, is a run of the task alone. -/
namespace Ods
open LabelledRun

/-- The function of a task: the calls it makes, from its `tsk_ctx`, from the record there and
from what it keeps behind `arg`, and what it keeps afterwards. -/
abbrev TaskCode (σ : Type) := TaskPtr → TaskCtx → σ → List Call × σ

structure Coded (σ : Type) where
  sys : Sys
  priv : σ
  todo : List Call

variable {σ : Type} {code : TaskCode σ} {cs : List CtxPtr} {fuel : Nat} {s s' : Sys}
variable {a a' : ListSched} {c : CtxPtr} {t : TaskPtr} {act : Act} {acts : List Act}
variable {mine : Act → Prop} {q : σ} {ops : List Call} {p : U32} {m : Mem} {acts₀ : List Act}

/-- A step that is none of the function of `t`, and does nothing to `t` but set events. -/
structure ByOthers (t : TaskPtr) (s : Sys) (act : Act) : Prop where
  notCalled : visitOf s act ≠ some ⟨t,true⟩
  notLeft : ∀ c, s.pc = .body c t → act ≠ .ret
  notAdded : ∀ c, act ≠ .call (.add c t)
  events : ∀ op, act = .call (.task t op) → ∃ mask type, op = .eventSet mask type

/-- The function of `t` makes its calls in order and returns after the last of them. The actions
that are `mine` nobody else takes. -/
inductive CodedStep (code : TaskCode σ) (mine : Act → Prop) (fuel : Nat) (t : TaskPtr) :
    Coded σ → Act → Coded σ → Prop
  | enter {s s' : Sys} {q : σ} {ops : List Call} :
      visitOf s .visit = some ⟨t,true⟩ → Step fuel s .visit s' →
      CodedStep code mine fuel t ⟨s,q,ops⟩ .visit
        ⟨s',(code t (s'.mem.task t).data q).2,(code t (s'.mem.task t).data q).1⟩
  | call {s s' : Sys} {c : CtxPtr} {q : σ} {op : Call} {ops : List Call} :
      s.pc = .body c t → Step fuel s (.call op) s' →
      CodedStep code mine fuel t ⟨s,q,op :: ops⟩ (.call op) ⟨s',q,ops⟩
  | leave {s s' : Sys} {c : CtxPtr} {q : σ} : s.pc = .body c t → Step fuel s .ret s' →
      CodedStep code mine fuel t ⟨s,q,[]⟩ .ret ⟨s',q,[]⟩
  | others {s s' : Sys} {act : Act} {q : σ} {ops : List Call} : ByOthers t s act → ¬ mine act →
      Step fuel s act s' → CodedStep code mine fuel t ⟨s,q,ops⟩ act ⟨s',q,ops⟩

theorem CodedStep.step {r r' : Coded σ} (hs : CodedStep code mine fuel t r act r') :
    Step fuel r.sys act r'.sys := by
  cases hs <;> assumption

theorem delayTicks_pos (p timeMs : U32) : 0 < delayTicks p timeMs := Nat.le_max_left _ _

theorem odsExecFunc_of_run {x : TaskCtx} (hf : x.func ≠ none) (hs : x.state = .run) :
    odsExecFunc x ≠ none := by
  rwa [odsExecFunc,if_pos hs]

theorem func_wake {x : TaskCtx} : (odsExecWake x).func = x.func := func_of_frame (odsExecWake_frame x)

section Own

inductive Place where
  | queued | listed | inside | gone
  deriving DecidableEq

structure Own (σ : Type) where
  place : Place
  ctx : TaskCtx
  priv : σ
  todo : List Call

/-- What may happen to a task. The label of a visit is the record at its beginning. -/
inductive OwnStep (code : TaskCode σ) (t : TaskPtr) (p : U32) : Own σ → Option TaskCtx → Own σ → Prop
  | still {o : Own σ} : OwnStep code t p o none o
  | event {l : Place} {x : TaskCtx} {q : σ} {ops : List Call} (mask : U32) (type : EventMaskType) :
      OwnStep code t p ⟨l,x,q,ops⟩ none ⟨l,odsTaskEventSet x mask type,q,ops⟩
  | activate {x : TaskCtx} {q : σ} {ops : List Call} :
      OwnStep code t p ⟨.queued,x,q,ops⟩ none ⟨.listed,activate x,q,ops⟩
  | skip {x : TaskCtx} {q : σ} {ops : List Call} : odsExecFunc (odsExecWake x) = none →
      OwnStep code t p ⟨.listed,x,q,ops⟩ (some x) ⟨.listed,odsExecCount (odsExecWake x),q,ops⟩
  | enter {x : TaskCtx} {q : σ} {ops : List Call} {f : FuncPtr} :
      odsExecFunc (odsExecWake x) = some f →
      OwnStep code t p ⟨.listed,x,q,ops⟩ (some x)
        ⟨.inside,odsExecWake x,(code t (odsExecWake x) q).2,(code t (odsExecWake x) q).1⟩
  | call {m : Mem} {x x' : TaskCtx} {q : σ} {op : TaskOp} {ops : List Call} :
      tickTimeOf m x = some p → op.apply m x = some x' →
      OwnStep code t p ⟨.inside,x,q,.task t op :: ops⟩ none ⟨.inside,x',q,ops⟩
  | elsewhere {x : TaskCtx} {q : σ} {op : Call} {ops : List Call} : (∀ op', op ≠ .task t op') →
      OwnStep code t p ⟨.inside,x,q,op :: ops⟩ none ⟨.inside,x,q,ops⟩
  | leave {x : TaskCtx} {q : σ} :
      OwnStep code t p ⟨.inside,x,q,[]⟩ none ⟨.listed,odsExecCount x,q,[]⟩
  | remove {x : TaskCtx} {q : σ} {ops : List Call} : x.state = .del →
      OwnStep code t p ⟨.listed,x,q,ops⟩ none ⟨.gone,x,q,ops⟩

def Place.Of (t : TaskPtr) (c : CtxPtr) (a : ListSched) : Place → Prop
  | .queued => t ∈ a.lay.pend c
  | .listed => t ∈ a.lay.exec c ∧ ∀ d rest, a.pc ≠ .body d t rest
  | .inside => t ∈ a.lay.exec c ∧ ∃ d rest, a.pc = .body d t rest
  | .gone => a.lay.Free t

theorem Refines.visitedAs_walk (h : Refines cs s a) {item : TaskPtr} {rest : List TaskPtr}
    (hpc : a.pc = .walk c (item :: rest)) : (visitedAs t s .visit).map TaskCtx.data =
      if item = t then some (a.data.task t) else none := by
  rw [h.task]
  by_cases hi : item = t <;> simp [visitedAs,visitOf,(h.exec_of_walk hpc).2.2,hi]

theorem Place.Of.stay {l : Place} (hl : l.Of t c a) (hlay : a'.lay = a.lay) (hpc : a'.pc = a.pc) :
    l.Of t c a' := by
  cases l <;> simpa only [Of,hlay,hpc] using hl

/-- A walk that goes on, to any task but `t`, leaves `t` where it stands. -/
theorem Place.Of.walk {l : Place} (hl : l.Of t c a) (hlay : a'.lay = a.lay)
    (hout : ∀ d rest, a.pc ≠ .body d t rest) (hout' : ∀ d rest, a'.pc ≠ .body d t rest) :
    l.Of t c a' := by
  cases l with
  | queued | gone => simpa only [Of,hlay] using hl
  | listed => exact ⟨hlay ▸ hl.1,hout'⟩
  | inside =>
    obtain ⟨-,d,rest,hp⟩ := hl
    exact (hout d rest hp).elim

/-- A task that a walk comes to is listed. -/
theorem Place.Of.listed_of_walk {l : Place} {d : CtxPtr} {rest : List TaskPtr} (hl : l.Of t c a)
    (he : t ∈ a.lay.exec d) (hpc : a.pc = .walk d rest) : l = .listed := by
  cases l with
  | queued => exact (Layout.not_pend_of_exec he hl).elim
  | listed => rfl
  | inside =>
    obtain ⟨-,e,rest,hp⟩ := hl
    rw [hpc] at hp
    cases hp
  | gone => exact (not_free_of_exec he hl).elim

theorem Place.Of.tick {l : Layout} {d : Mem} {e : CtxPtr} {pl : Place}
    (hl : pl.Of t c ⟨l,d,.idle⟩) (hout : pl = .queued → e ≠ c) :
    pl.Of t c ⟨l.activate e,activateAll d (l.pend e),.walk e ((l.pend e).reverse ++ l.exec e)⟩ := by
  cases pl with
  | queued =>
    simp only [Of,Layout.activate_pend_of_ne _ _ _ (Ne.symm (hout rfl))]
    exact hl
  | listed =>
    refine ⟨?_,fun _ _ hp => by cases hp⟩
    by_cases hce : c = e
    · subst hce
      rw [Layout.activate_exec_self]
      exact List.mem_append_right _ hl.1
    · rw [Layout.activate_exec_of_ne _ _ _ hce]
      exact hl.1
  | inside =>
    obtain ⟨-,f,rest,hp⟩ := hl
    cases hp
  | gone => exact Layout.Free.activate hl

theorem Place.Of.finish {l : Layout} {d : Mem} {e : CtxPtr} {pl : Place}
    (hl : pl.Of t c ⟨l,d,.walk e []⟩) (hkept : (d.task t).state = .del → pl = .listed → e ≠ c) :
    pl.Of t c ⟨l.prune e fun t => (d.task t).state ≠ .del,d,.idle⟩ := by
  cases pl with
  | queued => exact hl
  | listed =>
    refine ⟨?_,fun _ _ hp => by cases hp⟩
    by_cases hce : c = e
    · subst hce
      rw [Layout.prune_exec_self,List.mem_filter]
      exact ⟨hl.1,by simpa using fun hd => hkept hd rfl rfl⟩
    · rw [Layout.prune_exec_of_ne _ _ _ _ hce]
      exact hl.1
  | inside =>
    obtain ⟨-,f,rest,hp⟩ := hl
    cases hp
  | gone => exact Layout.Free.prune hl

theorem Place.Of.add {l : Layout} {d d' : Mem} {pc : ListPc} {e : CtxPtr} {u : TaskPtr} {pl : Place}
    (hl : pl.Of t c ⟨l,d,pc⟩) (hf : l.Free u) (hu : u ≠ t) : pl.Of t c ⟨l.queue e u hf,d',pc⟩ := by
  cases pl with
  | queued =>
    by_cases hce : c = e
    · subst hce
      simp only [Of,Layout.queue_pend_self]
      exact List.mem_cons_of_mem _ hl
    · simp only [Of,Layout.queue_pend_of_ne _ _ _ _ _ hce]
      exact hl
  | listed | inside => exact hl
  | gone =>
    have hidle : ListPc.idle.Client := trivial
    have hstep : ListStep ⟨l,d,.idle⟩ (.call (.add e u)) _ := .add hf hidle
    exact hstep.free (by simp [hu]) hl

theorem Place.Of.not_pend {pl : Place} {e : CtxPtr} (hl : pl.Of t c a) (he : pl = .queued → e ≠ c) :
    t ∉ a.lay.pend e := by
  intro hp
  cases pl with
  | queued => exact he rfl (a.lay.apart e c t (List.mem_append_right _ hp) (List.mem_append_right _ hl))
  | listed | inside => exact Layout.not_pend_of_exec hl.1 hp
  | gone => exact not_free_of_pend hp hl

/-- A call that is not on `t` changes nothing about it. -/
theorem ListStep.call_elsewhere {op : Call} {pl : Place} (hstep : ListStep a (.call op) a')
    (hadd : ∀ e, op ≠ .add e t) (hop : ∀ op', op ≠ .task t op') (hl : pl.Of t c a) :
    pl.Of t c a' ∧ a'.data.task t = a.data.task t := by
  constructor
  · cases hstep with
    | call => exact hl.stay rfl rfl
    | @add l d pc e u hf => exact hl.add hf fun hu => hadd e (hu ▸ rfl)
  · cases hstep.taskStep t with
    | same hs => exact hs
    | call => exact (hop _ rfl).elim
    | add => exact (hadd _ rfl).elim

theorem ListStep.call_self {op : TaskOp} (hstep : ListStep a (.call (.task t op)) a') :
    a'.lay = a.lay ∧ a'.pc = a.pc ∧ op.apply a.data (a.data.task t) = some (a'.data.task t) := by
  cases hstep with
  | call _ _ he =>
    obtain ⟨x,hx,rfl⟩ := Option.map_eq_some_iff.mp he
    exact ⟨rfl,rfl,by simpa using hx⟩

/-- A call of others. -/
theorem ListStep.byOthers_call {op : Call} {pl : Place} (code : TaskCode σ) (p : U32) (q : σ)
    (ops : List Call) (ho : ByOthers t s (.call op)) (hstep : ListStep a (.call op) a')
    (hl : pl.Of t c a) : pl.Of t c a' ∧
      OwnStep code t p ⟨pl,a.data.task t,q,ops⟩ none ⟨pl,a'.data.task t,q,ops⟩ := by
  have hadd : ∀ e, op ≠ .add e t := fun e he => ho.notAdded e (he ▸ rfl)
  by_cases hop : ∃ op', op = .task t op'
  · obtain ⟨op',rfl⟩ := hop
    obtain ⟨mask,type,rfl⟩ := ho.events _ rfl
    obtain ⟨hlay,hpc,hx⟩ := hstep.call_self
    have hx : odsTaskEventSet (a.data.task t) mask type = a'.data.task t := Option.some.inj hx
    rw [← hx]
    exact ⟨hl.stay hlay hpc,.event mask type⟩
  · obtain ⟨hl',hs⟩ := hstep.call_elsewhere hadd (not_exists.mp hop) hl
    rw [hs]
    exact ⟨hl',.still⟩

/-- A step of others, as it is for the task. -/
theorem ListStep.byOthers {pl : Place} (code : TaskCode σ) (p : U32) (q : σ)
    (ops : List Call) (h : Refines cs s a) (ho : ByOthers t s act) (hstep : ListStep a act a')
    (hl : pl.Of t c a) : ∃ pl', pl'.Of t c a' ∧
      OwnStep code t p ⟨pl,a.data.task t,q,ops⟩ ((visitedAs t s act).map TaskCtx.data)
        ⟨pl',a'.data.task t,q,ops⟩ := by
  have hlist := hstep
  cases hstep with
  | call => exact ⟨pl,hlist.byOthers_call code p q ops ho hl⟩
  | add => exact ⟨pl,hlist.byOthers_call code p q ops ho hl⟩
  | @tick l d e =>
    by_cases hp : pl = .queued ∧ e = c
    · obtain ⟨rfl,rfl⟩ := hp
      refine ⟨.listed,⟨?_,fun _ _ hp => by cases hp⟩,?_⟩
      · rw [Layout.activate_exec_self]
        exact List.mem_append_left _ (List.mem_reverse.mpr hl)
      · rw [activateAll_task_of_mem (l.pend_nodup e) hl]
        exact .activate
    · have hout : pl = .queued → e ≠ c := fun hq he => hp ⟨hq,he⟩
      refine ⟨pl,hl.tick hout,?_⟩
      rw [activateAll_task_of_not_mem (hl.not_pend hout)]
      exact .still
  | @skip l d e item rest hf =>
    have hexec := (h.exec_of_walk rfl).2.1
    rw [h.visitedAs_walk rfl]
    by_cases hi : item = t
    · subst hi
      obtain rfl := hl.listed_of_walk hexec rfl
      refine ⟨.listed,⟨hl.1,fun _ _ hp => by cases hp⟩,?_⟩
      simp only [if_true,Mem.modTask_task_self]
      exact .skip hf
    · refine ⟨pl,hl.walk rfl (fun _ _ hp => by cases hp) (fun _ _ hp => by cases hp),?_⟩
      simp only [if_neg hi,Mem.modTask_task_of_ne _ _ _ _ (Ne.symm hi)]
      exact .still
  | @invoke l d e item rest f hf =>
    have hi : item ≠ t := by
      rintro rfl
      have hpc := (h.exec_of_walk rfl).2.2
      rw [h.task,odsExecFunc_wake_data] at hf
      exact ho.notCalled (by simp [visitOf,hpc,hf])
    rw [h.visitedAs_walk rfl,if_neg hi]
    refine ⟨pl,hl.walk rfl (fun _ _ hp => by cases hp) (fun _ _ hp => by cases hp; exact hi rfl),?_⟩
    simp only [Mem.modTask_task_of_ne _ _ _ _ (Ne.symm hi)]
    exact .still
  | @ret l d e item rest =>
    have hi : item ≠ t := by
      rintro rfl
      exact ho.notLeft e (h.exec_of_body rfl).2.2 rfl
    refine ⟨pl,hl.walk rfl (fun _ _ hp => by cases hp; exact hi rfl) (fun _ _ hp => by cases hp),?_⟩
    simp only [Mem.modTask_task_of_ne _ _ _ _ (Ne.symm hi)]
    exact .still
  | @finish l d e =>
    by_cases hd : (d.task t).state = .del ∧ pl = .listed ∧ e = c
    · obtain ⟨hs,rfl,rfl⟩ := hd
      exact ⟨.gone,hlist.finish_free rfl hl.1 hs,.remove hs⟩
    · exact ⟨pl,hl.finish fun hs hp he => hd ⟨hs,hp,he⟩,.still⟩

structure Shows (cs : List CtxPtr) (c : CtxPtr) (t : TaskPtr) (p : U32) (r : Coded σ)
    (a : ListSched) (o : Own σ) : Prop where
  refines : Refines cs r.sys a
  period : (r.sys.mem.sch c).odsTickTimeMs = p
  place : o.place.Of t c a
  ctx : o.ctx = a.data.task t
  priv : o.priv = r.priv
  todo : o.todo = r.todo

/-- The steps of clients that do not start `c` again. -/
structure Timed (cs : List CtxPtr) (c : CtxPtr) (s : Sys) (act : Act) : Prop where
  legal : Legal cs s act
  notStarted : ∀ tickTimeMs id, act ≠ .call (.start c tickTimeMs id)

theorem Timed.period (hok : Timed cs c s act) (h : Refines cs s a) (h' : Refines cs s' a')
    (hstep : ListStep a act a') : (s'.mem.sch c).odsTickTimeMs = (s.mem.sch c).odsTickTimeMs := by
  have hp := hstep.period c
  rw [h.period,h'.period] at hp
  rw [hp]
  unfold periodAfter
  split
  · rename_i d tickTimeMs id
    split
    · rename_i hd
      subst hd
      exact (hok.notStarted tickTimeMs id rfl).elim
    · rfl
  · rfl

/-- The task that is in its function stands there, and is a task of `c`. -/
theorem Place.Of.inside_of_body {pl : Place} {d : CtxPtr} {rest : List TaskPtr} (hl : pl.Of t c a)
    (he : t ∈ a.lay.exec d) (hpc : a.pc = .body d t rest) : pl = .inside ∧ d = c := by
  cases pl with
  | queued => exact (Layout.not_pend_of_exec he hl).elim
  | listed => exact (hl.2 d rest hpc).elim
  | inside =>
    exact ⟨rfl,a.lay.apart d c t (List.mem_append_left _ he) (List.mem_append_left _ hl.1)⟩
  | gone => exact (not_free_of_exec he hl).elim

theorem ListStep.enter {d : CtxPtr} {rest : List TaskPtr} (hstep : ListStep a .visit a')
    (hpc : a.pc = .walk d (t :: rest))
    (hf : (odsExecFunc (odsExecWake (a.data.task t))).isSome = true) :
    a'.lay = a.lay ∧ a'.pc = .body d t rest ∧ a'.data.task t = odsExecWake (a.data.task t) := by
  cases hstep with
  | skip hn =>
    cases hpc
    rw [hn] at hf
    cases hf
  | invoke =>
    cases hpc
    exact ⟨rfl,rfl,by simp⟩

theorem ListStep.leave {d : CtxPtr} {rest : List TaskPtr} (hstep : ListStep a .ret a')
    (hpc : a.pc = .body d t rest) : a'.lay = a.lay ∧ a'.pc = .walk d rest ∧
      a'.data.task t = odsExecCount (a.data.task t) := by
  cases hstep with
  | ret =>
    cases hpc
    exact ⟨rfl,rfl,by simp⟩

/-- A step of the machine is a step of the task. -/
theorem CodedStep.own {r r' : Coded σ} {o : Own σ} (hs : CodedStep code mine fuel t r act r')
    (h : Shows cs c t p r a o) (hok : Timed cs c r.sys act) (hstep : ListStep a act a')
    (hR' : Refines cs r'.sys a') : ∃ o',
      OwnStep code t p o ((visitedAs t r.sys act).map TaskCtx.data) o' ∧ Shows cs c t p r' a' o' := by
  obtain ⟨pl,x,q,ops⟩ := o
  obtain ⟨hR,hperiod,hplace,rfl,rfl,rfl⟩ := h
  have hperiod' := (hok.period hR hR' hstep).trans hperiod
  cases hs with
  | @enter s s' q ops hv hs =>
    obtain ⟨d,hpc,hc⟩ := visitOf_eq_some hv
    obtain ⟨rest,hwalk⟩ := hR.walk_of_pc hpc
    have hexec := (hR.exec_of_walk hwalk).2.1
    obtain rfl := hplace.listed_of_walk hexec hwalk
    have hf : (odsExecFunc (odsExecWake (a.data.task t))).isSome = true := by
      rw [hR.task,odsExecFunc_wake_data]
      exact hc.symm
    obtain ⟨f,hfunc⟩ := Option.isSome_iff_exists.mp hf
    obtain ⟨hlay,hbody,hctx⟩ := hstep.enter hwalk hf
    rw [hR.visitedAs_walk hwalk,if_pos rfl,← hR'.task,hctx]
    refine ⟨_,.enter hfunc,hR',hperiod',⟨?_,d,rest,hbody⟩,hctx.symm,rfl,rfl⟩
    rw [hlay]
    exact hplace.1
  | @call s s' d q op ops hpc hs =>
    obtain ⟨rest,hbody,hd,hsuf⟩ := (hpc ▸ hR.pc : PcRel cs a.lay (.body d t) a.pc).of_body
    have hexec := hsuf.subset List.mem_cons_self
    obtain ⟨rfl,rfl⟩ := hplace.inside_of_body hexec hbody
    by_cases hop : ∃ op', op = .task t op'
    · obtain ⟨op',rfl⟩ := hop
      obtain ⟨hlay,hpc',hx⟩ := hstep.call_self
      have htime : tickTimeOf a.data (a.data.task t) = some p := by
        have htick := hR.tickTime hd hexec
        rw [hperiod] at htick
        rw [hR.data]
        exact htick
      exact ⟨_,.call htime hx,hR',hperiod',hplace.stay hlay hpc',rfl,rfl,rfl⟩
    · have hadd : ∀ e, op ≠ .add e t := by
        rintro e rfl
        exact hok.legal.2 (hR.rep.linked_iff.mpr (not_free_of_exec hexec))
      obtain ⟨hplace',hctx⟩ := hstep.call_elsewhere hadd (not_exists.mp hop) hplace
      exact ⟨_,.elsewhere (not_exists.mp hop),hR',hperiod',hplace',hctx.symm,rfl,rfl⟩
  | @leave s s' d q hpc hs =>
    obtain ⟨rest,hbody,hd,hsuf⟩ := (hpc ▸ hR.pc : PcRel cs a.lay (.body d t) a.pc).of_body
    have hexec := hsuf.subset List.mem_cons_self
    obtain ⟨rfl,rfl⟩ := hplace.inside_of_body hexec hbody
    obtain ⟨hlay,hwalk,hctx⟩ := hstep.leave hbody
    refine ⟨_,.leave,hR',hperiod',⟨?_,?_⟩,hctx.symm,rfl,rfl⟩
    · rw [hlay]
      exact hexec
    · intro e rest' hp
      rw [hwalk] at hp
      cases hp
  | @others s s' act q ops ho _ hs =>
    obtain ⟨pl',hplace',hown⟩ := hstep.byOthers code p q ops hR ho hplace
    exact ⟨_,hown,hR',hperiod',hplace',rfl,rfl,rfl⟩

end Own

section Runs
variable {r r' : Coded σ} {o o' : Own σ} {ls : List (Option TaskCtx)} {ok : Sys → Act → Prop}

def flags (fuel : Nat) (t : TaskPtr) (s : Sys) (acts : List Act) : List Bool :=
  (visits fuel s acts).filterMap fun v => if v.item = t then some v.invoked else none

def called (x : TaskCtx) : Bool := (odsExecFunc (odsExecWake x)).isSome

theorem called_data {x : TaskCtx} : called x.data = called x := by
  rw [called,odsExecFunc_wake_data]
  rfl

theorem visit_flag : ((visitOf s act).toList.filterMap fun v =>
    if v.item = t then some v.invoked else none) =
      ((visitedAs t s act).toList.map TaskCtx.data).map called := by
  cases hv : visitOf s act with
  | none => simp [visitedAs,hv]
  | some v =>
    cases act with
    | visit =>
      obtain ⟨c,-,hc⟩ := visitOf_eq_some hv
      by_cases hi : v.item = t
      · rw [hi,← called,← called_data] at hc
        simp [visitedAs,hv,hi,hc]
      · simp [visitedAs,hv,hi]
    | _ => cases hv

theorem flags_eq (hrun : Run (Step fuel) ok s acts s') :
    flags fuel t s acts = ((visitRecords fuel t s acts).map TaskCtx.data).map called := by
  induction hrun with
  | nil => rfl
  | cons _ hs _ ih =>
    simp only [flags] at ih
    simp only [flags,visits,visitRecords,step_iff.mpr hs,Option.map_some,Option.getD_some,
      List.filterMap_append,List.map_append,visit_flag,ih]

/-- A task that is queued is visited once in the tick that begins next. -/
theorem ListStep.due_pend (h : Refines cs s a) (hstep : ListStep a act a')
    (hp : t ∈ a.lay.pend c) :
    (visitedAs t s act).toList.length + Ods.due t a' = [act].count (.tick c) + Ods.due t a := by
  have hother : ∀ {e : CtxPtr} {item : TaskPtr} {rest : List TaskPtr}, a.pc = .walk e (item :: rest) →
      visitedAs t s .visit = none ∧ (item :: rest).count t = rest.count t := by
    intro e item rest hpc
    obtain ⟨-,hexec,hwalk⟩ := h.exec_of_walk hpc
    have hi : item ≠ t := by
      rintro rfl
      exact Layout.not_pend_of_exec hexec hp
    exact ⟨by simp [visitedAs,visitOf,hwalk,hi],List.count_cons_of_ne hi⟩
  cases hstep with
  | call | add => simp [visitedAs,visitOf,Ods.due]
  | @tick l d e =>
    by_cases hec : e = c
    · subst hec
      have hnodup := (l.activate e).exec_nodup e
      rw [Layout.activate_exec_self] at hnodup
      have hone := List.count_eq_one_of_mem hnodup
        (List.mem_append_left _ (List.mem_reverse.mpr hp))
      simpa [visitedAs,visitOf,Ods.due,ListPc.rest] using hone
    · have hmem : t ∉ (l.pend e).reverse ++ l.exec e := by
        intro hm
        refine hec (l.apart e c t ?_ (List.mem_append_right _ hp))
        simpa [or_comm] using hm
      have hzero := List.count_eq_zero.mpr hmem
      simpa [visitedAs,visitOf,Ods.due,ListPc.rest,hec] using hzero
  | skip => simp [Ods.due,ListPc.rest,hother rfl]
  | invoke => simp [Ods.due,ListPc.rest,hother rfl]
  | ret => simp [visitedAs,visitOf,Ods.due,ListPc.rest]
  | finish => simp [visitedAs,visitOf,Ods.due,ListPc.rest]

theorem OwnStep.gone {v : Option TaskCtx} (hs : OwnStep code t p o v o') (hg : o.place = .gone) :
    o'.place = .gone := by
  cases hs with
  | still | event => exact hg
  | _ => cases hg

theorem run_gone (hrun : Run (OwnStep code t p) (fun _ _ => True) o ls o') (hg : o.place = .gone) :
    o'.place = .gone :=
  hrun.invariant (I := fun o => o.place = .gone) (fun _ _ _ hg _ hs => hs.gone hg) hg

theorem Shows.due (h : Shows cs c t p r a o) (hstep : ListStep a act a') (hg : o.place ≠ .gone) :
    (visitedAs t r.sys act).toList.length + Ods.due t a' = [act].count (.tick c) + Ods.due t a := by
  have hplace := h.place
  generalize o.place = pl at hplace hg
  cases pl with
  | queued => exact hstep.due_pend h.refines hplace
  | listed | inside => exact hstep.due h.refines hplace.1
  | gone => exact (hg rfl).elim

theorem Shows.due_idle (h : Shows cs c t p r a o) (hidle : r.sys.pc = .idle) : Ods.due t a = 0 := by
  have hpc := (hidle ▸ h.refines.pc : PcRel cs a.lay .idle a.pc).of_idle
  rw [Ods.due,hpc]
  rfl

theorem coded_run (hrun : Run (CodedStep code mine fuel t) (fun r act => Timed cs c r.sys act) r acts r') :
    Run (Step fuel) (Timed cs c) r.sys acts r'.sys := by
  induction hrun with
  | nil r => exact .nil r.sys
  | cons hok hs _ ih => exact .cons hok hs.step ih

/-- A run of the machine is a run of the task, with the same visits; and as long as the task
is in a list its scheduler has ticked as often as it was visited. -/
theorem run_own (hrun : Run (CodedStep code mine fuel t) (fun r act => Timed cs c r.sys act) r acts r')
    (h : Shows cs c t p r a o) : ∃ a' o' ls, Run (OwnStep code t p) (fun _ _ => True) o ls o' ∧
      Shows cs c t p r' a' o' ∧
      ls.filterMap id = (visitRecords fuel t r.sys acts).map TaskCtx.data ∧
      (o'.place ≠ .gone →
        (visitRecords fuel t r.sys acts).length + due t a' = acts.count (.tick c) + due t a) := by
  induction hrun generalizing a o with
  | nil r => exact ⟨a,o,[],.nil o,h,rfl,fun _ => by simp [visitRecords]⟩
  | @cons r r₁ r' act acts hok hs _ ih =>
    obtain ⟨a₁,hstep,hR₁⟩ := step_refines h.refines hok.legal hs.step
    obtain ⟨o₁,hown,h₁⟩ := hs.own h hok hstep hR₁
    obtain ⟨a',o',ls,hrun,h',hrecords,hdue⟩ := ih h₁
    refine ⟨a',o',_ :: ls,.cons trivial hown hrun,h',?_,fun hg => ?_⟩
    · simp only [visitRecords,step_iff.mpr hs.step,Option.map_some,Option.getD_some,
        List.map_append,← hrecords]
      cases visitedAs t r.sys act <;> rfl
    · have hg₁ : o₁.place ≠ .gone := mt (run_gone hrun) hg
      have hone := h.due hstep (mt hown.gone hg₁)
      have hrest := hdue hg
      have hcount : (act :: acts).count (.tick c) = [act].count (.tick c) + acts.count (.tick c) := by
        rw [← List.singleton_append,List.count_append]
      simp only [visitRecords,step_iff.mpr hs.step,Option.map_some,Option.getD_some,
        List.length_append,hcount]
      omega

/-- What a tick has still to visit is in an exec list. -/
theorem Refines.rest_suffix (h : Refines cs s a) : ∃ d, a.pc.rest <:+ a.lay.exec d := by
  cases hpc : a.pc with
  | idle => exact ⟨0,List.nil_suffix⟩
  | walk d rest => exact ⟨d,(h.pc_of_walk hpc).2.1⟩
  | body d item rest =>
    have hbody := h.pc
    rw [hpc] at hbody
    generalize s.pc = pc at hbody
    cases hbody with
    | body _ hsuf => exact ⟨d,(List.suffix_cons item rest).trans hsuf⟩

theorem Refines.due_pend (h : Refines cs s a) (hp : t ∈ a.lay.pend c) : due t a = 0 := by
  obtain ⟨d,hsuf⟩ := h.rest_suffix
  exact List.count_eq_zero.mpr fun hin => Layout.not_pend_of_exec (hsuf.subset hin) hp

/-- Where the run of a queued task begins. -/
theorem shows_queued (hreach : Run (Step fuel) (Legal cs) (boot cs m) acts₀ s) (hc : c ∈ cs)
    (hq : Queued s.mem c t) : ∃ a, due t a = 0 ∧
      Shows cs c t (s.mem.sch c).odsTickTimeMs ⟨s,q,[]⟩ a ⟨.queued,(s.mem.task t).data,q,[]⟩ := by
  obtain ⟨a,-,h⟩ := reachable_refines hreach
  have hp := (h.rep.queued_iff hc).mp hq
  exact ⟨a,h.due_pend hp,h,rfl,hp,h.task.symm,rfl,rfl⟩

end Runs

section Checked
variable {r r' : Coded σ}

def byOthersIn (t : TaskPtr) (s : Sys) (act : Act) : Bool :=
  visitOf s act ≠ some ⟨t,true⟩ &&
    (match s.pc, act with
      | .body _ u, .ret => u ≠ t
      | _, _ => true) &&
    match act with
    | .call (.task _ (.eventSet _ _)) => true
    | .call (.task u _) => u ≠ t
    | .call (.add _ u) => u ≠ t
    | _ => true

theorem byOthersIn_byOthers (h : byOthersIn t s act = true) : ByOthers t s act := by
  simp only [byOthersIn,Bool.and_eq_true,decide_eq_true_eq] at h
  obtain ⟨⟨hv,hret⟩,hcall⟩ := h
  refine ⟨hv,?_,?_,?_⟩
  · rintro c hpc rfl
    simp [hpc] at hret
  · rintro c rfl
    simp at hcall
  · rintro op rfl
    cases op with
    | eventSet mask type => exact ⟨mask,type,rfl⟩
    | _ => simp at hcall

def codedStep (code : TaskCode σ) (mine : Act → Prop) [DecidablePred mine] (fuel : Nat)
    (t : TaskPtr) (r : Coded σ) (act : Act) : Option (Coded σ) :=
  (step fuel r.sys act).bind fun s =>
    if visitOf r.sys act = some ⟨t,true⟩ then
      some ⟨s,(code t (s.mem.task t).data r.priv).2,(code t (s.mem.task t).data r.priv).1⟩
    else match r.sys.pc, act, r.todo with
      | .body _ u, .call op, o :: ops =>
        if u = t ∧ op = o then some ⟨s,r.priv,ops⟩
        else if byOthersIn t r.sys act ∧ ¬ mine act then some ⟨s,r.priv,r.todo⟩ else none
      | .body _ u, .ret, [] =>
        if u = t then some ⟨s,r.priv,[]⟩
        else if byOthersIn t r.sys act ∧ ¬ mine act then some ⟨s,r.priv,r.todo⟩ else none
      | _, _, _ =>
        if byOthersIn t r.sys act ∧ ¬ mine act then some ⟨s,r.priv,r.todo⟩ else none

theorem codedStep_step [DecidablePred mine] (h : codedStep code mine fuel t r act = some r') :
    CodedStep code mine fuel t r act r' := by
  obtain ⟨s,q,todo⟩ := r
  obtain ⟨s₁,hstep,hr⟩ := Option.bind_eq_some_iff.mp h
  have hs := step_iff.mp hstep
  dsimp only at hs hr
  have hothers : (if byOthersIn t s act ∧ ¬ mine act then
      some (⟨s₁,q,todo⟩ : Coded σ) else none) = some r' → CodedStep code mine fuel t ⟨s,q,todo⟩ act r' := by
    intro h
    split at h
    · rename_i ho
      cases h
      exact .others (byOthersIn_byOthers ho.1) ho.2 hs
    · cases h
  split at hr
  · rename_i hv
    cases hr
    cases act with
    | visit => exact .enter hv hs
    | _ => cases hv
  · split at hr
    · rename_i hpc _
      split at hr
      · rename_i he
        obtain ⟨rfl,rfl⟩ := he
        cases hr
        exact .call hpc hs
      · exact hothers hr
    · rename_i hpc _
      split at hr
      · rename_i he
        subst he
        cases hr
        exact .leave hpc hs
      · exact hothers hr
    · exact hothers hr

def timedIn (cs : List CtxPtr) (fuel : Nat) (c : CtxPtr) (s : Sys) (act : Act) : Bool :=
  legalIn cs fuel s act &&
    match act with
    | .call (.start d _ _) => d ≠ c
    | _ => true

theorem timedIn_timed (h : timedIn cs fuel c s act = true) : Timed cs c s act := by
  obtain ⟨hl,hs⟩ := Bool.and_eq_true_iff.mp h
  refine ⟨legalIn_legal hl,?_⟩
  rintro tickTimeMs id rfl
  simp at hs

def runCoded (code : TaskCode σ) (mine : Act → Prop) [DecidablePred mine] (cs : List CtxPtr)
    (fuel : Nat) (c : CtxPtr) (t : TaskPtr) (r : Coded σ) : List Act → Option (Coded σ)
  | [] => some r
  | act :: acts =>
    if timedIn cs fuel c r.sys act then
      (codedStep code mine fuel t r act).bind fun r => runCoded code mine cs fuel c t r acts
    else none

theorem runCoded_run [DecidablePred mine] (h : runCoded code mine cs fuel c t r acts = some r') :
    Run (CodedStep code mine fuel t) (fun r act => Timed cs c r.sys act) r acts r' := by
  induction acts generalizing r with
  | nil =>
    cases h
    exact .nil _
  | cons act acts ih =>
    unfold runCoded at h
    split at h
    · rename_i ht
      obtain ⟨r₁,hs,hr⟩ := Option.bind_eq_some_iff.mp h
      exact .cons (timedIn_timed ht) (codedStep_step hs) (ih hr)
    · cases h

end Checked

end Ods
