import Ods.TaskHistory

/-! One tick of the pointer program as one tick of the list-level scheduler, whatever the
task functions do through the public calls. -/
namespace Ods
open PointerChain LabelledRun

variable {cs : List CtxPtr} {m : Mem} {l : Layout} {fuel bound : Nat} {s s' s₁ s₂ s₃ : Sys}
variable {a a' : ListSched} {c : CtxPtr} {t : TaskPtr} {act : Act} {acts : List Act}
variable {L u v added : List TaskPtr} {k : TaskPtr → U32}

def addedTo (c : CtxPtr) : Act → Option TaskPtr
  | .call (.add d t) => if d = c then some t else none
  | _ => none

def ListPc.todo : ListPc → List TaskPtr
  | .idle => []
  | .walk _ rest => rest
  | .body _ item rest => item :: rest

/-- A tick of `c` that walks along `L`. At its start the tasks had executed `k` ticks. -/
structure InTick (c : CtxPtr) (L : List TaskPtr) (k : TaskPtr → U32) (added : List TaskPtr)
    (a : ListSched) : Prop where
  ticking : a.pc.ticking = some c
  exec : a.lay.exec c = L
  todo : a.pc.todo <:+ L
  counted : ∀ t, (a.data.task t).execTickCounter =
    if t ∈ L ∧ t ∉ a.pc.todo then k t + 1 else k t
  pend : a.lay.pend c = added

theorem ListStep.exec_eq (hstep : ListStep a act a') (hpc : a.pc.ticking = some c)
    (hfin : act ≠ .finish) : a'.lay.exec c = a.lay.exec c := by
  cases hstep with
  | tick => cases hpc
  | finish => exact (hfin rfl).elim
  | _ => rfl

theorem ListStep.pend_eq (hstep : ListStep a act a') (hpc : a.pc.ticking = some c) :
    a'.lay.pend c = (addedTo c act).toList ++ a.lay.pend c := by
  cases hstep with
  | @call l d d' pc op _ hop _ =>
    cases op with
    | add d t => exact hop.elim
    | _ => rfl
  | @add l d pc e t hf _ =>
    by_cases he : e = c
    · subst he
      simp [addedTo]
    · simp [addedTo,he,Ne.symm he]
  | tick => cases hpc
  | _ => rfl

theorem odsExecWake_execTickCounter (x : TaskCtx) :
    (odsExecWake x).execTickCounter = x.execTickCounter :=
  execTickCounter_of_frame (odsExecWake_frame x)

theorem ListStep.todo_suffix (hstep : ListStep a act a') (hpc : a.pc.ticking = some c) :
    a'.pc.todo <:+ a.pc.todo := by
  cases hstep with
  | tick => cases hpc
  | skip | ret => exact List.suffix_cons _ _
  | _ => exact List.suffix_rfl

theorem mem_cons_and_not_mem {item : TaskPtr} {rest : List TaskPtr} (hn : (item :: rest).Nodup) :
    t ∈ item :: rest ∧ t ∉ rest ↔ t = item := by
  have hitem := (List.nodup_cons.mp hn).1
  constructor
  · rintro ⟨ht,hr⟩
    exact (List.mem_cons.mp ht).resolve_right hr
  · rintro rfl
    exact ⟨List.mem_cons_self,hitem⟩

/-- No public call counts a tick. -/
theorem Call.exec_counter {op : Call} {d d' : Mem} (hop : op.Plain) (he : op.exec d = some d') :
    (d'.task t).execTickCounter = (d.task t).execTickCounter := by
  cases op with
  | init c | add c u => exact hop.elim
  | start c tickTimeMs id =>
    cases he
    rfl
  | stop c =>
    cases he
    unfold odsStop
    split <;> rfl
  | task u op =>
    obtain ⟨x,hx,rfl⟩ := Option.map_eq_some_iff.mp he
    exact Mem.modTask_keeps _ u t _ TaskCtx.execTickCounter
      (execTickCounter_of_frame (TaskOp.apply_frame hx))

/-- The end of a visit is the only step of a walk that counts, and it counts its own task. -/
theorem ListStep.counter (hstep : ListStep a act a') (hpc : a.pc.ticking = some c)
    (hn : a.pc.todo.Nodup) (t : TaskPtr) : (a'.data.task t).execTickCounter =
      if t ∈ a.pc.todo ∧ t ∉ a'.pc.todo then (a.data.task t).execTickCounter + 1
      else (a.data.task t).execTickCounter := by
  have hsame : a'.pc.todo = a.pc.todo →
      (a'.data.task t).execTickCounter = (a.data.task t).execTickCounter →
      (a'.data.task t).execTickCounter =
        if t ∈ a.pc.todo ∧ t ∉ a'.pc.todo then (a.data.task t).execTickCounter + 1
        else (a.data.task t).execTickCounter := by
    intro ht hx
    rw [hx,ht,if_neg (by tauto)]
  cases hstep with
  | @call l d d' pc op _ hop he =>
    exact hsame rfl (Call.exec_counter hop he)
  | @add l d pc e u hf _ =>
    exact hsame rfl (Mem.modTask_keeps _ u t _ TaskCtx.execTickCounter rfl)
  | tick => cases hpc
  | @skip l d e item rest hf =>
    simp only [ListPc.todo,mem_cons_and_not_mem hn]
    split
    · rename_i hu
      subst hu
      simp [odsExecCount,odsExecWake_execTickCounter]
    · rename_i hu
      simp [hu]
  | @invoke l d e item rest f hf =>
    have hwake : (odsExecWake (d.task item)).execTickCounter = (d.task item).execTickCounter :=
      odsExecWake_execTickCounter _
    exact hsame rfl (Mem.modTask_keeps _ item t _ TaskCtx.execTickCounter hwake)
  | @ret l d e item rest =>
    simp only [ListPc.todo,mem_cons_and_not_mem hn]
    split
    · rename_i hu
      subst hu
      simp [odsExecCount]
    · rename_i hu
      simp [hu]
  | @finish l d e =>
    exact hsame rfl rfl

theorem ListStep.inTick (hstep : ListStep a act a') (hI : InTick c L k added a)
    (hfin : act ≠ .finish) : InTick c L k ((addedTo c act).toList ++ added) a' := by
  have hL : L.Nodup := hI.exec ▸ a.lay.exec_nodup c
  have hn : a.pc.todo.Nodup := hL.sublist hI.todo.sublist
  have hsub := hstep.todo_suffix hI.ticking
  refine ⟨hstep.ticking hI.ticking hfin,(hstep.exec_eq hI.ticking hfin).trans hI.exec,
    hsub.trans hI.todo,?_,?_⟩
  · intro t
    rw [hstep.counter hI.ticking hn t,hI.counted t]
    by_cases ht : t ∈ a.pc.todo
    · have htL := hI.todo.subset ht
      simp [ht,htL]
    · have ht' : t ∉ a'.pc.todo := fun h => ht (hsub.subset h)
      simp [ht,ht']
  · rw [hstep.pend_eq hI.ticking,hI.pend]

theorem run_inTick (hrun : Run (Step fuel) (Legal cs) s acts s') (h : Refines cs s a)
    (hI : InTick c L k added a) (hfin : .finish ∉ acts) :
    ∃ a', Refines cs s' a' ∧ InTick c L k ((acts.filterMap (addedTo c)).reverse ++ added) a' ∧
      (visits fuel s acts).map Visit.item ++ a'.pc.rest = a.pc.rest := by
  induction hrun generalizing a added with
  | nil s => exact ⟨a,h,hI,rfl⟩
  | @cons s s₁ s₂ act as hok hs _ ih =>
    rw [List.mem_cons,not_or] at hfin
    obtain ⟨a₁,ha,hR,-,hrest⟩ := step_rest h hok hs (Ne.symm hfin.1) hI.ticking
    obtain ⟨a₂,hR₂,hI₂,hrest₂⟩ := ih hR (ha.inTick hI (Ne.symm hfin.1)) hfin.2
    refine ⟨a₂,hR₂,?_,?_⟩
    · have hl : (((act :: as).filterMap (addedTo c)).reverse ++ added) =
          (as.filterMap (addedTo c)).reverse ++ ((addedTo c act).toList ++ added) := by
        cases hx : addedTo c act <;> simp [hx]
      rwa [hl]
    · simp only [visits,step_iff.mpr hs,Option.map_some,Option.getD_some,List.map_append,
        List.append_assoc,hrest₂,hrest]

def odsPostExecDels (bound : Nat) (c : CtxPtr) : Nat → Mem → Option TaskPtr → List Bool
  | 0, _, _ => []
  | _ + 1, _, none => []
  | fuel + 1, m, some item =>
    let answer := if (m.task item).state = .del then
      ((odsListDel bound m (.execList c) item).map Prod.fst).toList else []
    answer ++ ((odsPostExecBody bound c m item).map fun m =>
      odsPostExecDels bound c fuel m (m.task item).next).getD []

theorem odsPostExecDels_eq {m' : Mem} (hL : Links m.next (m.sch c).odsExecList (u ++ v))
    (h : odsPostExecLoop bound c fuel m v.head? = some m') :
    odsPostExecDels bound c fuel m v.head? =
      (v.filter fun t => (m.task t).state = .del).map fun _ => true := by
  induction v generalizing m u fuel with
  | nil => cases fuel <;> rfl
  | cons x v ih =>
    cases fuel with
    | zero => cases h
    | succ fuel =>
      obtain ⟨m₁,hb,hl⟩ := Option.bind_eq_some_iff.mp h
      obtain ⟨hr,hnext⟩ := odsPostExecBody_pass hL hb
      have hlinks := hr.links
      have hstate : ∀ t, (m₁.task t).state = (m.task t).state := fun t =>
        congrArg (fun d => (d.task t).state) hr.data
      rw [hnext] at hl
      simp only [odsPostExecDels,List.head?_cons,hb,Option.map_some,Option.getD_some,hnext]
      by_cases hs : (m.task x).state = .del
      · rw [if_pos hs] at hlinks
        have hu : u.length ≤ bound := by
          rw [odsPostExecBody_remove hL hs] at hb
          split at hb
          · rename_i hlt
            rw [List.length_append] at hlt
            omega
          · cases hb
        have hdel := odsListDel_eq bound (r := .execList c) hL
        rw [if_pos hu] at hdel
        simp only [if_pos hs,hdel,ih hlinks hl,hstate]
        simp [hs]
      · rw [if_neg hs,List.append_cons] at hlinks
        simp only [if_neg hs,ih hlinks hl,hstate]
        simp [hs]

/-- After `ods_pre_exec`: the pending tasks are in front of the exec list `L`, set back. -/
structure Activated (c : CtxPtr) (m : Mem) (P L : List TaskPtr) (s : Sys) : Prop where
  walk : s.pc = .walk c L.head?
  list : Links s.mem.next (s.mem.sch c).odsExecList L
  pending : (s.mem.sch c).odsPreExecList = none
  fresh : ∀ t ∈ P, (s.mem.task t).state = .run ∧ (s.mem.task t).execTickCounter = 0 ∧
    (s.mem.task t).sleepTickCounter = 0 ∧ (s.mem.task t).event = Event.zero
  others : ∀ t, t ∉ P → (s.mem.task t).data = (m.task t).data

structure TickDone (fuel : Nat) (c : CtxPtr) (L : List TaskPtr) (acts : List Act)
    (s₁ s₂ s₃ : Sys) : Prop where
  visited : (visits fuel s₁ acts).map Visit.item = L
  counted : ∀ t, (s₃.mem.task t).execTickCounter =
    if t ∈ L then (s₁.mem.task t).execTickCounter + 1 else (s₁.mem.task t).execTickCounter
  kept : Links s₃.mem.next (s₃.mem.sch c).odsExecList
    (L.filter fun t => (s₂.mem.task t).state ≠ .del)
  numTasks : (s₃.mem.sch c).odsNumTasks =
    BitVec.ofNat 32 (L.filter fun t => (s₂.mem.task t).state ≠ .del).length
  deleted : odsPostExecDels fuel c fuel s₂.mem (s₂.mem.sch c).odsExecList =
    (L.filter fun t => (s₂.mem.task t).state = .del).map fun _ => true
  pending : Links s₃.mem.next (s₃.mem.sch c).odsPreExecList
    (acts.filterMap (addedTo c)).reverse

/-- Where a tick can stand, and how it goes on from there. -/
inductive TickGoesOn (fuel : Nat) (c : CtxPtr) (L : List TaskPtr) (acts : List Act) (s₁ s₂ : Sys) :
    Prop
  | visit {t : TaskPtr} {s₃ : Sys} : s₂.pc = .walk c (some t) → Step fuel s₂ .visit s₃ →
      (s₃.pc = .body c t ↔
        (s₂.mem.task t).func ≠ none ∧ (odsExecWake (s₂.mem.task t)).state = .run) →
      TickGoesOn fuel c L acts s₁ s₂
  | ret {t : TaskPtr} {s₃ : Sys} : s₂.pc = .body c t → Step fuel s₂ .ret s₃ →
      TickGoesOn fuel c L acts s₁ s₂
  | finish {s₃ : Sys} : s₂.pc = .walk c none → Step fuel s₂ .finish s₃ →
      TickDone fuel c L acts s₁ s₂ s₃ → TickGoesOn fuel c L acts s₁ s₂

theorem tick_activated (hR : Rep cs m l) (hc : c ∈ cs)
    (hf : (l.exec c).length + (l.pend c).length < fuel) :
    ∃ s₁, Step fuel ⟨m,.idle⟩ (.tick c) s₁ ∧
      Activated c m (l.pend c) ((l.pend c).reverse ++ l.exec c) s₁ ∧
      Refines cs s₁ ⟨l.activate c,activateAll m.data (l.pend c),
        .walk c ((l.pend c).reverse ++ l.exec c)⟩ := by
  have h₀ : Refines cs ⟨m,.idle⟩ ⟨l,m.data,.idle⟩ := ⟨hR,rfl,.idle⟩
  have hpre := odsPreExec_of_rep hR hc hf
  have hs : Step fuel ⟨m,.idle⟩ (.tick c) _ := .tick hpre
  have hok : Legal cs ⟨m,.idle⟩ (.tick c) := hc
  obtain ⟨a,hstep,h₁⟩ := step_refines h₀ hok hs
  refine ⟨_,hs,?_,?_⟩
  · have hlist := h₁.rep.exec c hc
    have hpend := h₁.rep.pend c hc
    cases hstep with
    | tick =>
      rw [Layout.activate_exec_self] at hlist
      rw [Layout.activate_pend_self] at hpend
      refine ⟨?_,hlist,hpend,?_,?_⟩
      · rw [← Links.head_eq hlist]
      · intro t ht
        have hx := (h₁.task (t := t)).symm.trans (activateAll_task_of_mem (l.pend_nodup c) ht)
        have hstate := congrArg TaskCtx.state hx
        have hexec := congrArg TaskCtx.execTickCounter hx
        have hsleep := congrArg TaskCtx.sleepTickCounter hx
        have hevent := congrArg TaskCtx.event hx
        exact ⟨hstate,hexec,hsleep,hevent⟩
      · intro t ht
        exact (h₁.task (t := t)).symm.trans (activateAll_task_of_not_mem ht)
  · cases hstep with
    | tick => exact h₁

/-- A visit calls the function of a task if it has one and runs after the wake-up step. -/
theorem visit_enabled (fuel : Nat) (hpc : s.pc = .walk c (some t)) : ∃ s', Step fuel s .visit s' ∧
    (s'.pc = .body c t ↔
      (s.mem.task t).func ≠ none ∧ (odsExecWake (s.mem.task t)).state = .run) := by
  obtain ⟨m,pc⟩ := s
  dsimp only at hpc
  subst hpc
  have hfunc : (odsExecWake (m.task t)).func = (m.task t).func :=
    func_of_frame (odsExecWake_frame (m.task t))
  cases hf : odsExecFunc (odsExecWake (m.task t)) with
  | none =>
    refine ⟨_,.skip hf,?_⟩
    rw [odsExecFunc,hfunc] at hf
    constructor
    · intro hb
      cases hb
    · rintro ⟨hne,hrun⟩
      rw [if_pos hrun] at hf
      exact (hne hf).elim
  | some f =>
    refine ⟨_,.invoke hf,?_⟩
    rw [odsExecFunc,hfunc] at hf
    split at hf
    · rename_i hrun
      simp [hf,hrun]
    · cases hf

theorem inTick_start (h : Refines cs s₁ ⟨l.activate c,activateAll m.data (l.pend c),
      .walk c ((l.pend c).reverse ++ l.exec c)⟩) :
    InTick c ((l.pend c).reverse ++ l.exec c) (fun t => (s₁.mem.task t).execTickCounter) []
      ⟨l.activate c,activateAll m.data (l.pend c),.walk c ((l.pend c).reverse ++ l.exec c)⟩ := by
  refine ⟨rfl,Layout.activate_exec_self ..,List.suffix_rfl,fun t => ?_,Layout.activate_pend_self ..⟩
  have hx := congrArg TaskCtx.execTickCounter (h.task (t := t))
  rw [if_neg fun hm => hm.2 hm.1]
  exact hx

theorem tick_done (h : Refines cs s₂ a) (hI : InTick c L k added a) (hpc : s₂.pc = .walk c none)
    (hf : L.length < fuel) : ∃ s₃, Step fuel s₂ .finish s₃ ∧
      (∀ t, (s₃.mem.task t).execTickCounter = if t ∈ L then k t + 1 else k t) ∧
      Links s₃.mem.next (s₃.mem.sch c).odsExecList
        (L.filter fun t => (s₂.mem.task t).state ≠ .del) ∧
      (s₃.mem.sch c).odsNumTasks =
        BitVec.ofNat 32 (L.filter fun t => (s₂.mem.task t).state ≠ .del).length ∧
      odsPostExecDels fuel c fuel s₂.mem (s₂.mem.sch c).odsExecList =
        (L.filter fun t => (s₂.mem.task t).state = .del).map (fun _ => true) ∧
      Links s₃.mem.next (s₃.mem.sch c).odsPreExecList added := by
  obtain ⟨m,pc⟩ := s₂
  dsimp only at hpc
  subst hpc
  obtain ⟨rest,hwalk,hnil,hc,-⟩ := h.pc.of_walk
  obtain rfl := List.head?_eq_none_iff.mp hnil.symm
  have hE : Links m.next (m.sch c).odsExecList L := hI.exec ▸ h.rep.exec c hc
  obtain ⟨m',hpost⟩ := odsPostExec_total hE hf
  have hs : Step fuel ⟨m,.walk c none⟩ .finish ⟨m',.idle⟩ := .finish hpost
  have hok : Legal cs ⟨m,.walk c none⟩ .finish := trivial
  obtain ⟨a',hstep,h'⟩ := step_refines h hok hs
  have hlist := h'.rep.exec c hc
  have hcount := h'.rep.count c hc
  have hpend := h'.rep.pend c hc
  have hstate : ∀ t, (a.data.task t).state = (m.task t).state := fun t => h.state
  refine ⟨_,hs,?_,?_⟩
  · intro t
    have hk := hI.counted t
    rw [hwalk] at hk
    have hx := congrArg TaskCtx.execTickCounter (h'.task (t := t))
    cases hstep with
    | finish =>
      rw [hk] at hx
      simpa [ListPc.todo] using hx.symm
  · cases hstep with
    | @finish l d e =>
      cases hwalk
      have hexec : l.exec c = L := hI.exec
      have hpend' : l.pend c = added := hI.pend
      have hstate' : ∀ t, (d.task t).state = (m.task t).state := hstate
      simp only [Layout.prune_exec_self,hexec,hstate'] at hlist hcount
      rw [Layout.prune_pend,hpend'] at hpend
      refine ⟨hlist,hcount,?_,hpend⟩
      rw [odsPostExec,Links.head_eq hE] at hpost
      dsimp only
      rw [Links.head_eq hE]
      exact odsPostExecDels_eq (u := []) hE hpost

/-- If no task function makes a call, the walk comes to its end. -/
theorem walk_completes (fuel : Nat) {rest : List TaskPtr} (h : Refines cs s a)
    (hpc : a.pc = .walk c rest) :
    ∃ acts s', Run (Step fuel) (fun s act => Legal cs s act ∧ (act = .visit ∨ act = .ret)) s acts s' ∧
      s'.pc = .walk c none := by
  induction rest generalizing s a with
  | nil => exact ⟨[],s,.nil s,(h.pc_of_walk hpc).2.2⟩
  | cons t rest ih =>
    have hwalk := (h.exec_of_walk hpc).2.2
    obtain ⟨s₁,hs,-⟩ := visit_enabled fuel hwalk
    have hok : Legal cs s .visit := trivial
    obtain ⟨a₁,hstep,h₁⟩ := step_refines h hok hs
    cases hstep with
    | skip =>
      cases hpc
      obtain ⟨acts,s',hrun,hend⟩ := ih h₁ rfl
      exact ⟨.visit :: acts,s',.cons ⟨hok,.inl rfl⟩ hs hrun,hend⟩
    | invoke =>
      cases hpc
      have hbody := (h₁.exec_of_body rfl).2.2
      obtain ⟨m₁,pc₁⟩ := s₁
      dsimp only at hbody
      subst hbody
      have hret : Step fuel ⟨m₁,.body c t⟩ .ret _ := .ret
      have hok₁ : Legal cs ⟨m₁,.body c t⟩ .ret := trivial
      obtain ⟨a₂,hstep₂,h₂⟩ := step_refines h₁ hok₁ hret
      cases hstep₂ with
      | ret =>
        obtain ⟨acts,s',hrun,hend⟩ := ih h₂ rfl
        exact ⟨.visit :: .ret :: acts,s',.cons ⟨hok,.inl rfl⟩ hs (.cons ⟨hok₁,.inr rfl⟩ hret hrun),hend⟩

/-- A tick visits the tasks of its list in order, and can always go on. -/
theorem tick_goesOn (h₁ : Refines cs s₁ ⟨l.activate c,activateAll m.data (l.pend c),
      .walk c ((l.pend c).reverse ++ l.exec c)⟩)
    (hf : (l.exec c).length + (l.pend c).length < fuel)
    (hrun : Run (Step fuel) (Legal cs) s₁ acts s₂) (hfin : .finish ∉ acts) :
    (visits fuel s₁ acts).map Visit.item <+: (l.pend c).reverse ++ l.exec c ∧
      TickGoesOn fuel c ((l.pend c).reverse ++ l.exec c) acts s₁ s₂ := by
  have hI₁ := inTick_start h₁
  obtain ⟨a₂,h₂,hI₂,hvis⟩ := run_inTick hrun h₁ hI₁ hfin
  rw [List.append_nil] at hI₂
  have hlen : ((l.pend c).reverse ++ l.exec c).length < fuel := by
    rw [List.length_append,List.length_reverse]
    omega
  refine ⟨⟨a₂.pc.rest,hvis⟩,?_⟩
  cases hp : s₂.pc with
  | idle =>
    have hpc := h₂.pc
    rw [hp] at hpc
    have htick := hI₂.ticking
    rw [hpc.of_idle] at htick
    cases htick
  | body d t =>
    have hpc := h₂.pc
    rw [hp] at hpc
    obtain ⟨rest,hbody,-,-⟩ := hpc.of_body
    have htick := hI₂.ticking
    rw [hbody] at htick
    cases htick
    obtain ⟨m₂,pc₂⟩ := s₂
    dsimp only at hp
    subst hp
    exact .ret rfl .ret
  | walk d p =>
    have hpc := h₂.pc
    rw [hp] at hpc
    obtain ⟨rest,hwalk,hhead,-,-⟩ := hpc.of_walk
    have htick := hI₂.ticking
    rw [hwalk] at htick
    cases htick
    cases p with
    | some t =>
      obtain ⟨s₃,hvisit,hcalled⟩ := visit_enabled fuel hp
      exact .visit hp hvisit hcalled
    | none =>
      obtain ⟨s₃,hend,hcount,hkept,hnum,hdel,hpend⟩ := tick_done h₂ hI₂ hp hlen
      refine .finish hp hend ⟨?_,hcount,hkept,hnum,hdel,hpend⟩
      rw [hwalk,List.head?_eq_none_iff.mp hhead.symm] at hvis
      simpa [ListPc.rest] using hvis

/-- One `ods_process` from any well-formed memory, with any task functions that keep to the
public calls and add unlinked tasks only: it activates the pending tasks, visits each task
of the list `L` once and in order, removes those in state `DEL`, and never gets stuck. -/
theorem odsProcess_refines (hR : Rep cs m l) (hc : c ∈ cs)
    (hf : (l.exec c).length + (l.pend c).length < fuel) :
    ∃ s₁, Step fuel ⟨m,.idle⟩ (.tick c) s₁ ∧
      Activated c m (l.pend c) ((l.pend c).reverse ++ l.exec c) s₁ ∧
      ∀ acts s₂, Run (Step fuel) (Legal cs) s₁ acts s₂ → .finish ∉ acts →
        (visits fuel s₁ acts).map Visit.item <+: (l.pend c).reverse ++ l.exec c ∧
          TickGoesOn fuel c ((l.pend c).reverse ++ l.exec c) acts s₁ s₂ := by
  obtain ⟨s₁,hs,hact,h₁⟩ := tick_activated hR hc hf
  exact ⟨s₁,hs,hact,fun acts s₂ hrun hfin => tick_goesOn h₁ hf hrun hfin⟩

/-- Tasks 1 and 2 are in the exec list, 1 is to be deleted, and 3 is queued. -/
theorem odsProcess_refines_two : ∃ m s₁, (m.task 1).state = .del ∧ Step 8 ⟨m,.idle⟩ (.tick 0) s₁ ∧
    Activated 0 m [3] [3,1,2] s₁ ∧
      ∀ acts s₂, Run (Step 8) (Legal [0]) s₁ acts s₂ → .finish ∉ acts →
        (visits 8 s₁ acts).map Visit.item <+: [3,1,2] ∧ TickGoesOn 8 0 [3,1,2] acts s₁ s₂ := by
  obtain ⟨s,hrun,hP⟩ := runChecked_any (legalIn [0] 8) 8 (boot [0] blank)
    [.call (.add 0 1),.call (.add 0 2),.tick 0,.visit,.ret,.visit,.ret,.finish,
      .call (.task 1 .del),.call (.add 0 3)]
    (fun s => (s.mem.task 1).state = .del &&
      odsListPrint s.mem 8 (s.mem.sch 0).odsExecList = some [1,2] &&
      odsListPrint s.mem 8 (s.mem.sch 0).odsPreExecList = some [3])
    (fun _ _ => legalIn_legal) (by decide +kernel)
  simp only [Bool.and_eq_true,decide_eq_true_eq] at hP
  obtain ⟨⟨hdel,he⟩,hp⟩ := hP
  obtain ⟨a,-,h⟩ := reachable_refines hrun
  have hc : (0 : CtxPtr) ∈ [0] := List.mem_cons_self
  have hexec : a.lay.exec 0 = [1,2] := (h.rep.exec 0 hc).unique (odsListPrint_links he)
  have hpend : a.lay.pend 0 = [3] := (h.rep.pend 0 hc).unique (odsListPrint_links hp)
  have hlen : (a.lay.exec 0).length + (a.lay.pend 0).length < 8 := by
    rw [hexec,hpend]
    decide
  have hmain := odsProcess_refines h.rep hc hlen
  rw [hexec,hpend] at hmain
  obtain ⟨s₁,hall⟩ := hmain
  exact ⟨s.mem,s₁,hdel,hall⟩

theorem odsExecWake_ne_del {x : TaskCtx} (h : x.state ≠ .del) : (odsExecWake x).state ≠ .del := by
  by_cases hs : x.state = .sleep
  · rw [odsExecWake_of_sleep hs]
    dsimp only
    split <;> simp
  · by_cases he : x.state = .event
    · cases hsat : x.event.satisfied with
      | true =>
        rw [odsExecWake_of_satisfied he hsat]
        simp
      | false =>
        rw [odsExecWake_of_unsatisfied he hsat]
        dsimp only
        split <;> simp
    · rwa [odsExecWake_of_other hs he]

/-- Without a call nothing is deleted. -/
theorem ListStep.ne_del (hstep : ListStep a act a') (hact : act = .visit ∨ act = .ret)
    (h : (a.data.task t).state ≠ .del) : (a'.data.task t).state ≠ .del := by
  cases hstep.taskStep t with
  | same he => rwa [he]
  | call | add | activate => simp at hact
  | skip _ _ _ he | invoke _ _ _ he =>
    rw [he]
    exact odsExecWake_ne_del h
  | ret _ _ he =>
    rw [he]
    exact h

/-- From a well-formed memory with `2^32` queued tasks a tick ends with all of them in the
exec list, and with `ods_num_tasks` 0. -/
theorem odsProcess_count_wraps : ∃ m l s₁ acts s₂ s₃ E,
    Rep [0] m l ∧ (m.sch 0).odsNumTasks.toNat = (l.exec 0).length ∧
      Step (2 ^ 32 + 1) ⟨m,.idle⟩ (.tick 0) s₁ ∧
      Run (Step (2 ^ 32 + 1)) (Legal [0]) s₁ acts s₂ ∧ .finish ∉ acts ∧
      Step (2 ^ 32 + 1) s₂ .finish s₃ ∧ Links s₃.mem.next (s₃.mem.sch 0).odsExecList E ∧
      (s₃.mem.sch 0).odsNumTasks.toNat ≠ E.length := by
  obtain ⟨m,l,d,-,hR,hE,hP,-,-⟩ := queueUpTo_run (2 ^ 32 + 1) (2 ^ 32)
  have hc : (0 : CtxPtr) ∈ [0] := List.mem_cons_self
  have hrep : Rep [0] m l := hR.rep
  have hlen : (l.exec 0).length + (l.pend 0).length < 2 ^ 32 + 1 := by
    rw [hE,hP,List.length_nil]
    norm_num
  obtain ⟨s₁,hs,hact,h₁⟩ := tick_activated hrep hc hlen
  obtain ⟨acts,s₂,hrun,hend⟩ := walk_completes (2 ^ 32 + 1) h₁ rfl
  have hlegal : Run (Step (2 ^ 32 + 1)) (Legal [0]) s₁ acts s₂ := hrun.mono fun _ _ hok => hok.1
  have hfin : .finish ∉ acts := by
    intro hm
    simpa using hrun.all (Q := fun act => act = .visit ∨ act = .ret) (fun _ _ hok => hok.2) _ hm
  obtain ⟨a₂,h₂,hI₂,-⟩ := run_inTick hlegal h₁ (inTick_start h₁) hfin
  have hkeep : ∀ t ∈ (l.pend 0).reverse ++ l.exec 0, (s₂.mem.task t).state ≠ .del := by
    intro t ht
    have ht' : t ∈ l.pend 0 := by simpa [hE] using ht
    obtain ⟨b,hb,hstate⟩ := run_invariant (I := fun a => (a.data.task t).state ≠ .del) hrun
      (fun _ _ hok => hok.1) (fun _ _ _ _ _ hok hstep hI => hstep.ne_del hok.2 hI) h₁
      (by rw [h₁.state,(hact.fresh t ht').1]; simp)
    rwa [hb.state] at hstate
  have hlen₂ : ((l.pend 0).reverse ++ l.exec 0).length = 2 ^ 32 := by
    rw [hE,List.append_nil,List.length_reverse,hP]
  obtain ⟨s₃,hs₃,-,hlist,hnum,-,-⟩ := tick_done h₂ hI₂ hend (by rw [hlen₂]; exact Nat.lt_succ_self _)
  refine ⟨m,l,s₁,acts,s₂,s₃,_,hrep,?_,hs,hlegal,hfin,hs₃,hlist,?_⟩
  · rw [hrep.count 0 hc,hE]
    rfl
  · have hall := List.filter_eq_self.mpr fun t ht => decide_eq_true (hkeep t ht)
    rw [hnum,hall,hlen₂,BitVec.toNat_ofNat,Nat.mod_self]
    norm_num

end Ods
