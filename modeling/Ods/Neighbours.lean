import Ods.Independence
import Ods.OwnVisit
import Ods.Reachability

/-! The tasks of one scheduler do not depend on each other: what a tick does to a task is
the same whatever other tasks are in the lists. -/
namespace Ods
open PointerChain LabelledRun

variable {ψ : Type} {beh : Behaviour ψ} {w w' r r' v v' : World (TaskPtr → ψ)} {t u : TaskPtr}
variable {c c' : CtxPtr} {cs cs' : List CtxPtr} {l l' : Layout} {fuel : Nat} {m m' : Mem}
variable {vs vs' : List Visit} {h h' hist hist' : List (List Visit)} {as : List Input}

structure Ticked (beh : Behaviour ψ) (cs : List CtxPtr) (c : CtxPtr) (l : Layout)
    (w r : World (TaskPtr → ψ)) (vs : List Visit) : Prop where
  rep : Rep cs r.mem ((l.activate c).prune c fun u => (r.mem.task u).state ≠ .del)
  period : (r.mem.sch c).odsTickTimeMs = (w.mem.sch c).odsTickTimeMs
  others : ∀ u, u ∉ l.exec c ++ l.pend c →
    (r.mem.task u).own = (w.mem.task u).own ∧ r.priv u = w.priv u ∧ ⟨u,true⟩ ∉ vs
  visited : ∀ u ∈ l.exec c ++ l.pend c, ∃ (w₀ : World (TaskPtr → ψ)) (b : Bool),
    (w₀.mem.task u).own =
      (if u ∈ l.pend c then activate (w.mem.task u) else w.mem.task u).own ∧
    tickTimeOf w₀.mem (w₀.mem.task u) = some (w.mem.sch c).odsTickTimeMs ∧
    w₀.priv u = w.priv u ∧ ownVisit beh w₀ u = some ((r.mem.task u).own,r.priv u,b) ∧
    (⟨u,true⟩ ∈ vs ↔ b = true)

theorem preExecMem_own : ((preExecMem m c (l.pend c)).task u).own =
    (if u ∈ l.pend c then activate (m.task u) else m.task u).own := by
  have hmem : (preExecMem m c (l.pend c)).data = activateAll m.data (l.pend c) := preExecMem_data
  have hd := congrArg (fun d => (d.task u).own) hmem
  simp only [Mem.data_task,TaskCtx.own_data] at hd
  rw [hd]
  split
  · rename_i hu
    rw [activateAll_task_of_mem (l.pend_nodup c) hu]
    rfl
  · rename_i hu
    rw [activateAll_task_of_not_mem hu]
    rfl

theorem preExecMem_period {ts : List TaskPtr} :
    ((preExecMem m c ts).sch c).odsTickTimeMs = (m.sch c).odsTickTimeMs := by
  have hmem : (preExecMem m c ts).data = activateAll m.data ts := preExecMem_data
  have hd := congrArg (fun d => (d.sch c).odsTickTimeMs) hmem
  simpa using hd

/-- After activation every task that is due counts on the tick time of `c`. -/
theorem preExecMem_tickTime (hR : Rep cs m l) (hc : c ∈ cs) (hu : u ∈ l.exec c ++ l.pend c) :
    tickTimeOf (preExecMem m c (l.pend c)) ((preExecMem m c (l.pend c)).task u) =
      some (m.sch c).odsTickTimeMs := by
  rw [tickTimeOf,preExecMem_task_ctx,hR.owner c hc u hu,Option.map_some,preExecMem_period]

theorem mem_visits_iff (hn : (vs.map Visit.item).Nodup) {b : Bool} (hb : ⟨u,b⟩ ∈ vs) :
    ⟨u,true⟩ ∈ vs ↔ b = true := by
  constructor
  · intro ht
    have he := List.inj_on_of_nodup_map hn ht hb rfl
    exact (congrArg Visit.invoked he).symm
  · rintro rfl
    exact hb

theorem odsProcess_ticked (hR : Rep cs w.mem l) (hc : c ∈ cs)
    (hrun : odsProcess (selfClient beh) fuel w c = some (r,vs)) : Ticked beh cs c l w r vs := by
  simp only [odsProcess,Option.bind_eq_bind,Option.bind_eq_some_iff,Prod.exists,
    Option.some.injEq,Prod.mk.injEq] at hrun
  obtain ⟨m₁,hpre,w₂,vs',hex,m₃,hpost,rfl,rfl⟩ := hrun
  obtain rfl := odsPreExec_some (hR.pend c hc) hpre
  have hR₁ := preExecMem_rep hR hc
  have hL := hR₁.exec c hc
  rw [Layout.activate_exec_self] at hL
  have hp := odsExecLoop_passed hL hex
  have hsame : ∀ d, w₂.mem.sch d = (preExecMem w.mem c (l.pend c)).sch d := fun d => by rw [hp.sch]
  have hR₂ : Rep cs w₂.mem (l.activate c) := hR₁.of_links hp.next hp.ctx
    (fun d => by rw [hsame]) (fun d => by rw [hsame]) fun d => by rw [hsame]
  obtain ⟨hR₃,hd⟩ := odsPostExec_rep hR₂ hc hpost
  have hown : ∀ u, (m₃.task u).own = (w₂.mem.task u).own := fun u =>
    congrArg (fun d => (d.task u).own) hd
  have hstate : ∀ u, (m₃.task u).state = (w₂.mem.task u).state := fun u =>
    congrArg (fun d => (d.task u).state) hd
  have hdue : ∀ u, u ∈ (l.pend c).reverse ++ l.exec c ↔ u ∈ l.exec c ++ l.pend c := by
    simp [or_comm]
  refine ⟨?_,?_,?_,?_⟩
  · simp only [hstate]
    exact hR₃
  · have hsch := congrArg (fun d => (d.sch c).odsTickTimeMs) hd
    simp only [Mem.data_sch,OdsCtx.data_odsTickTimeMs] at hsch
    rw [hsch,hp.sch,preExecMem_period]
  · intro u hu
    have hnot := mt (hdue u).mp hu
    obtain ⟨htask,hpriv⟩ := hp.others u hnot
    refine ⟨?_,hpriv,fun hv => hnot ?_⟩
    · have hpend : u ∉ l.pend c := fun hx => hu (List.mem_append_right _ hx)
      rw [hown,htask,preExecMem_own,if_neg hpend]
    · rw [← hp.items]
      exact List.mem_map_of_mem hv
  · intro u hu
    obtain ⟨b,hvisit,hmem⟩ := hp.visited u ((hdue u).mpr hu)
    refine ⟨⟨preExecMem w.mem c (l.pend c),w.priv⟩,b,preExecMem_own,preExecMem_tickTime hR hc hu,rfl,
      ?_,?_⟩
    · rw [hown]
      exact hvisit
    · exact mem_visits_iff (by rw [hp.items]; exact hL.nodup) hmem

/-- The tick does return. -/
theorem odsProcess_self_total (hR : Rep cs w.mem l) (hc : c ∈ cs)
    (hz : (w.mem.sch c).odsTickTimeMs ≠ 0) :
    ∃ fuel r vs, odsProcess (selfClient beh) fuel w c = some (r,vs) := by
  let fuel := (l.exec c).length + (l.pend c).length + 1
  have hpre : odsPreExec fuel w.mem c = some (preExecMem w.mem c (l.pend c)) :=
    odsPreExec_of_rep hR hc (Nat.lt_succ_self _)
  have hR₁ := preExecMem_rep hR hc
  have hL := hR₁.exec c hc
  rw [Layout.activate_exec_self] at hL
  have hlen : ((l.pend c).reverse ++ l.exec c).length < fuel := by
    simp only [List.length_append,List.length_reverse,fuel]
    omega
  obtain ⟨w₂,vs,hex⟩ := odsExecLoop_total beh (w := ⟨preExecMem w.mem c (l.pend c),w.priv⟩) hL hlen
    (fun u hu => preExecMem_tickTime hR hc (by simpa [or_comm] using hu)) hz
  have hp := odsExecLoop_passed hL hex
  have hL₂ : Links w₂.mem.next (w₂.mem.sch c).odsExecList ((l.pend c).reverse ++ l.exec c) := by
    rw [hp.next,hp.sch]
    exact hL
  obtain ⟨m₃,hpost⟩ := odsPostExec_total hL₂ hlen
  refine ⟨fuel,⟨m₃,w₂.priv⟩,vs,?_⟩
  simp only [odsProcess,hpre,odsExec,hex,hpost,Option.bind_eq_bind,Option.bind_some]

structure Together (t : TaskPtr) (c c' : CtxPtr) (l l' : Layout) (w w' : World (TaskPtr → ψ)) :
    Prop where
  exec : t ∈ l.exec c ↔ t ∈ l'.exec c'
  pend : t ∈ l.pend c ↔ t ∈ l'.pend c'
  own : (w.mem.task t).own = (w'.mem.task t).own
  priv : w.priv t = w'.priv t
  period : (w.mem.sch c).odsTickTimeMs = (w'.mem.sch c').odsTickTimeMs

/-- What a tick does to `t` is settled by what `t` is like before it. -/
theorem Ticked.outcome (hk : Ticked beh cs c l w r vs) (hk' : Ticked beh cs' c' l' w' r' vs')
    (ht : Together t c c' l l' w w') : (r.mem.task t).own = (r'.mem.task t).own ∧
      r.priv t = r'.priv t ∧ (⟨t,true⟩ ∈ vs ↔ ⟨t,true⟩ ∈ vs') := by
  have hin : t ∈ l.exec c ++ l.pend c ↔ t ∈ l'.exec c' ++ l'.pend c' := by
    rw [List.mem_append,List.mem_append,ht.exec,ht.pend]
  by_cases hm : t ∈ l.exec c ++ l.pend c
  · obtain ⟨w₀,b,hown,hper,hpriv,hvisit,hb⟩ := hk.visited t hm
    obtain ⟨w₁,b',hown',hper',hpriv',hvisit',hb'⟩ := hk'.visited t (hin.mp hm)
    have hown₀ : (w₀.mem.task t).own = (w₁.mem.task t).own := by
      rw [hown,hown']
      by_cases hp : t ∈ l.pend c
      · rw [if_pos hp,if_pos (ht.pend.mp hp)]
        have hact := congrArg activate ht.own
        exact hact
      · rw [if_neg hp,if_neg fun hp' => hp (ht.pend.mpr hp')]
        exact ht.own
    have hcongr : ownVisit beh w₀ t = ownVisit beh w₁ t := by
      refine ownVisit_congr ⟨hown₀,?_⟩ ?_
      · rw [hper,hper',ht.period]
      · rw [hpriv,hpriv',ht.priv]
    rw [hvisit,hvisit',Option.some.injEq,Prod.mk.injEq,Prod.mk.injEq] at hcongr
    obtain ⟨hx,hq,hbb⟩ := hcongr
    refine ⟨hx,hq,?_⟩
    rw [hb,hb',hbb]
  · obtain ⟨hown,hpriv,hv⟩ := hk.others t hm
    obtain ⟨hown',hpriv',hv'⟩ := hk'.others t (mt hin.mpr hm)
    refine ⟨?_,?_,iff_of_false hv hv'⟩
    · rw [hown,hown',ht.own]
    · rw [hpriv,hpriv',ht.priv]

theorem mem_ticked_exec {keep : TaskPtr → Bool} : t ∈ ((l.activate c).prune c keep).exec c ↔
    (t ∈ l.exec c ∨ t ∈ l.pend c) ∧ keep t = true := by
  rw [Layout.prune_exec_self,List.mem_filter,Layout.activate_exec_self,List.mem_append,
    List.mem_reverse,or_comm]

theorem Ticked.together (hk : Ticked beh cs c l w r vs) (hk' : Ticked beh cs' c' l' w' r' vs')
    (ht : Together t c c' l l' w w') :
    Together t c c' ((l.activate c).prune c fun u => (r.mem.task u).state ≠ .del)
      ((l'.activate c').prune c' fun u => (r'.mem.task u).state ≠ .del) r r' := by
  obtain ⟨hown,hpriv,-⟩ := hk.outcome hk' ht
  have hs := congrArg TaskCtx.state hown
  have hstate : (r.mem.task t).state = (r'.mem.task t).state := hs
  refine ⟨?_,?_,hown,hpriv,?_⟩
  · rw [mem_ticked_exec,mem_ticked_exec,ht.exec,ht.pend,hstate]
  · simp
  · rw [hk.period,hk'.period,ht.period]

inductive InputStep (client : Client (TaskPtr → ψ)) :
    World (TaskPtr → ψ) × List (List Visit) → Input →
      World (TaskPtr → ψ) × List (List Visit) → Prop
  | tick {w r : World (TaskPtr → ψ)} {hist : List (List Visit)} {c : CtxPtr} {vs : List Visit}
      (fuel : Nat) : odsProcess client fuel w c = some (r,vs) →
      InputStep client (w,hist) (.tick c) (r,hist ++ [vs])
  | call {w : World (TaskPtr → ψ)} {hist : List (List Visit)} {op : Call} {m : Mem} :
      op.exec w.mem = some m → InputStep client (w,hist) (.call op) (⟨m,w.priv⟩,hist)

/-- What may happen around `t` on its scheduler: ticks, further tasks, calls on them. -/
def Input.Beside (cs : List CtxPtr) (c : CtxPtr) (t : TaskPtr) (m : Mem) : Input → Prop
  | .tick d => d = c
  | .call (.add d u) => d = c ∧ u ≠ t ∧ ¬ Linked cs m u
  | .call (.task u _) => u ≠ t
  | .call _ => False

def ticksOf (c : CtxPtr) (as : List Input) : List Input :=
  as.filterMap fun a => match a with
    | .tick _ => some (.tick c)
    | .call _ => none

def invocations (t : TaskPtr) (hist : List (List Visit)) : List Bool :=
  hist.map fun vs => ⟨t,true⟩ ∈ vs

theorem Together.call {op : Call} (hR : Rep cs w.mem l) (hc : c ∈ cs)
    (ht : Together t c c' l l' w w') (hop : Input.Beside cs c t w.mem (.call op))
    (hx : op.exec w.mem = some m) :
    ∃ l₁, Rep cs m l₁ ∧ Together t c c' l₁ l' ⟨m,w.priv⟩ w' := by
  cases op with
  | init d | start d tickTimeMs id | stop d => exact hop.elim
  | add d u =>
    obtain ⟨rfl,hut,hun⟩ := hop
    cases hx
    have hf := hR.free hun
    refine ⟨_,odsTaskAdd_rep hR hc hf,?_,?_,?_,ht.priv,?_⟩
    · exact ht.exec
    · rw [Layout.queue_pend_self,List.mem_cons,← ht.pend]
      exact or_iff_right hut.symm
    · rw [odsTaskAdd_task_of_ne hut.symm]
      exact ht.own
    · rw [odsTaskAdd_sch_self]
      exact ht.period
  | task u op =>
    have hut : u ≠ t := hop
    have hplain : Call.Plain (.task u op) := trivial
    obtain ⟨x,-,rfl⟩ := Option.map_eq_some_iff.mp hx
    refine ⟨l,hR.plain hplain hx,ht.exec,ht.pend,?_,ht.priv,ht.period⟩
    rw [Mem.modTask_task_of_ne _ _ _ _ hut.symm]
    exact ht.own

/-- Runs of two schedulers that have `t` alike leave it alike after the same ticks. -/
theorem run_together {s s' q q' : World (TaskPtr → ψ) × List (List Visit)} (hc : c ∈ cs)
    (hc' : c' ∈ cs') (hR : Rep cs s.1.mem l) (hR' : Rep cs' s'.1.mem l')
    (ht : Together t c c' l l' s.1 s'.1) (hinv : invocations t s.2 = invocations t s'.2)
    (hrun : Run (InputStep (selfClient beh)) (fun s a => a.Beside cs c t s.1.mem) s as q)
    (hrun' : Run (InputStep (selfClient beh)) (fun _ _ => True) s' (ticksOf c' as) q') :
    (q.1.mem.task t).own = (q'.1.mem.task t).own ∧ q.1.priv t = q'.1.priv t ∧
      invocations t q.2 = invocations t q'.2 := by
  induction hrun generalizing s' l l' with
  | nil s =>
    obtain rfl := run_nil_iff.mp hrun'
    exact ⟨ht.own,ht.priv,hinv⟩
  | @cons s s₁ q a as hok hs _ ih =>
    cases hs with
    | @tick w r hist d vs fuel hp =>
      obtain rfl : d = c := hok
      obtain ⟨-,s₁',hs',hrest⟩ := run_cons_iff.mp hrun'
      cases hs' with
      | @tick w' r' hist' _ vs' fuel' hp' =>
        have hk := odsProcess_ticked hR hc hp
        have hk' := odsProcess_ticked hR' hc' hp'
        obtain ⟨-,-,hv⟩ := hk.outcome hk' ht
        refine ih hk.rep hk'.rep (hk.together hk' ht) ?_ hrest
        simp only [invocations,List.map_append,List.map_cons,List.map_nil,hv] at hinv ⊢
        rw [hinv]
    | @call w hist op m hx =>
      obtain ⟨l₁,hR₁,ht₁⟩ := ht.call hR hc hok hx
      exact ih hR₁ hR' ht₁ hinv hrun'

def Standing (cs : List CtxPtr) (c : CtxPtr) (m : Mem) : Prop :=
  (∃ l, Rep cs m l) ∧ (m.sch c).odsTickTimeMs ≠ 0

theorem InputStep.standing {s s' : World (TaskPtr → ψ) × List (List Visit)} {a : Input}
    (hc : c ∈ cs) (hs : InputStep (selfClient beh) s a s') (ha : a.Beside cs c t s.1.mem)
    (h : Standing cs c s.1.mem) : Standing cs c s'.1.mem := by
  obtain ⟨⟨l,hR⟩,hz⟩ := h
  cases hs with
  | @tick w r hist d vs fuel hp =>
    obtain rfl : d = c := ha
    have hk := odsProcess_ticked hR hc hp
    exact ⟨⟨_,hk.rep⟩,hk.period ▸ hz⟩
  | @call w hist op m hx =>
    have hself : Together t c c l l w w := ⟨Iff.rfl,Iff.rfl,rfl,rfl,rfl⟩
    obtain ⟨l₁,hR₁,ht₁⟩ := hself.call hR hc ha hx
    exact ⟨⟨l₁,hR₁⟩,ht₁.period ▸ hz⟩

/-- Where the scheduler stands a tick returns, so any number of ticks can follow. -/
theorem Standing.tick (beh : Behaviour ψ) (hc : c ∈ cs) (h : Standing cs c w.mem)
    (hist : List (List Visit)) :
    ∃ s, InputStep (selfClient beh) (w,hist) (.tick c) s := by
  obtain ⟨⟨l,hR⟩,hz⟩ := h
  obtain ⟨fuel,r,vs,hp⟩ := odsProcess_self_total hR hc hz
  exact ⟨_,.tick fuel hp⟩

theorem ticks_run (beh : Behaviour ψ) (hc : c ∈ cs) (h : Standing cs c w.mem)
    (hist : List (List Visit)) (as : List Input) :
    ∃ q, Run (InputStep (selfClient beh)) (fun _ _ => True) (w,hist) (ticksOf c as) q := by
  induction as generalizing w hist with
  | nil => exact ⟨_,.nil _⟩
  | cons a as ih =>
    cases a with
    | call op => exact ih h hist
    | tick d =>
      obtain ⟨⟨w₁,hist₁⟩,hs⟩ := h.tick beh hc hist
      have hbeside : Input.Beside cs c 0 w.mem (.tick c) := rfl
      obtain ⟨q,hq⟩ := ih (hs.standing hc hbeside h) hist₁
      exact ⟨q,.cons trivial hs hq⟩

def aloneMem (m : Mem) (c : CtxPtr) (tickTimeMs : U32) (id : TmrId) (t : TaskPtr) : Mem :=
  (odsTaskAdd (odsStart (odsInit m c) c tickTimeMs id) c t).2

theorem odsTaskAdd_own :
    ((odsTaskAdd m c t).2.task t).own = { (m.task t).own with state := .add } := by
  have hd := congrArg (fun d => (d.task t).own) (odsTaskAdd_data (m := m) (c := c) (t := t))
  rw [Mem.modTask_task_self] at hd
  exact hd

theorem aloneMem_rep (tickTimeMs : U32) (id : TmrId) : ∃ hf : Layout.empty.Free t,
    Rep [c] (aloneMem m c tickTimeMs id t) (Layout.empty.queue c t hf) := by
  have hc : c ∈ [c] := List.mem_cons_self
  have hfree : Layout.empty.Free t := by simp [Layout.Free,Layout.empty]
  have hboot : Refines [c] (boot [c] m) ⟨Layout.empty,(boot [c] m).mem.data,.idle⟩ := boot_refines m
  have hinit : Rep [c] (odsInit m c) Layout.empty := hboot.rep
  have hplain : Call.Plain (.start c tickTimeMs id) := trivial
  exact ⟨hfree,odsTaskAdd_rep (hinit.plain hplain rfl) hc hfree⟩

theorem aloneMem_period {tickTimeMs : U32} (h : odsTickTimeMsMin ≤ tickTimeMs) (id : TmrId) :
    ((aloneMem m c tickTimeMs id t).sch c).odsTickTimeMs = tickTimeMs := by
  have hlt : ¬ tickTimeMs < odsTickTimeMsMin := BitVec.not_lt.mpr h
  rw [aloneMem,odsTaskAdd_sch_self]
  simp [odsStart,halTmrCreate,hlt]

/-- A task of a scheduler with any other tasks, queued once and then left to itself, has
after any number of ticks the record and the history of invocations that it has in a
scheduler of the same tick time which it has for itself; and no tick of either gets stuck. -/
theorem neighbours_irrelevant (beh : Behaviour ψ) (w' : World (TaskPtr → ψ)) (c' : CtxPtr)
    (id : TmrId) (hR : Rep cs w.mem l) (hc : c ∈ cs) (hun : ¬ Linked cs w.mem t)
    (hmin : odsTickTimeMsMin ≤ (w.mem.sch c).odsTickTimeMs)
    (hown : (w.mem.task t).own = (w'.mem.task t).own) (hpriv : w.priv t = w'.priv t)
    (hrun : Run (InputStep (selfClient beh)) (fun s a => a.Beside cs c t s.1.mem)
      (⟨(odsTaskAdd w.mem c t).2,w.priv⟩,[]) as (v,hist)) :
    (∃ s, InputStep (selfClient beh) (v,hist) (.tick c) s) ∧
    (∃ q, Run (InputStep (selfClient beh)) (fun _ _ => True)
      (⟨aloneMem w'.mem c' (w.mem.sch c).odsTickTimeMs id t,w'.priv⟩,[]) (ticksOf c' as) q) ∧
    ∀ v' hist', Run (InputStep (selfClient beh)) (fun _ _ => True)
      (⟨aloneMem w'.mem c' (w.mem.sch c).odsTickTimeMs id t,w'.priv⟩,[]) (ticksOf c' as) (v',hist') →
      (v.mem.task t).own = (v'.mem.task t).own ∧ v.priv t = v'.priv t ∧
        invocations t hist = invocations t hist' := by
  have hf := hR.free hun
  have hR₁ := odsTaskAdd_rep hR hc hf
  obtain ⟨hf',hR'⟩ := aloneMem_rep (m := w'.mem) (c := c') (t := t) (w.mem.sch c).odsTickTimeMs id
  have hper := aloneMem_period (m := w'.mem) (c := c') (t := t) hmin id
  have hc' : c' ∈ [c'] := List.mem_cons_self
  have hz := ne_zero_of_min_le hmin
  have hstand : Standing cs c (odsTaskAdd w.mem c t).2 := by
    refine ⟨⟨_,hR₁⟩,?_⟩
    rw [odsTaskAdd_sch_self]
    exact hz
  refine ⟨?_,?_,?_⟩
  · refine Standing.tick beh hc ?_ hist
    exact hrun.invariant (I := fun s => Standing cs c s.1.mem)
      (fun _ _ _ hI hok hs => hs.standing hc hok hI) hstand
  · exact ticks_run beh hc' ⟨⟨_,hR'⟩,by rw [hper]; exact hz⟩ [] as
  · intro v' hist' hrun'
    have ht : Together t c c' (l.queue c t hf) (Layout.empty.queue c' t hf')
        ⟨(odsTaskAdd w.mem c t).2,w.priv⟩
        ⟨aloneMem w'.mem c' (w.mem.sch c).odsTickTimeMs id t,w'.priv⟩ := by
      refine ⟨?_,?_,?_,hpriv,?_⟩
      · have hfree := hf c
        rw [List.mem_append,not_or] at hfree
        simp [Layout.empty,hfree.1]
      · simp
      · rw [odsTaskAdd_own,aloneMem,odsTaskAdd_own,hown]
        rfl
      · rw [odsTaskAdd_sch_self,hper]
    have hnone : invocations t [] = invocations t [] := rfl
    exact run_together hc hc' hR₁ hR' ht hnone hrun hrun'

def counter : Behaviour Nat := fun _ _ _ _ q => ([.sleep 20],q + 1)

/-- Task 1 on a scheduler on which task 2 is queued, and by itself. -/
theorem neighbours_irrelevant_two : ∃ (v v' : World (TaskPtr → Nat)) (hist hist' : List (List Visit)),
    Run (InputStep (selfClient counter)) (fun s a => a.Beside [0] 0 1 s.1.mem)
      (⟨(odsTaskAdd (odsTaskAdd (odsInit blank 0) 0 2).2 0 1).2,fun _ => 0⟩,[]) [.tick 0] (v,hist) ∧
    Run (InputStep (selfClient counter)) (fun _ _ => True)
      (⟨aloneMem blank 3 odsTickTimeMsMin 7 1,fun _ => 0⟩,[]) [.tick 3] (v',hist') ∧
    (v.mem.task 1).own = (v'.mem.task 1).own ∧ v.priv 1 = v'.priv 1 ∧
    invocations 1 hist = invocations 1 hist' := by
  have hc : (0 : CtxPtr) ∈ [0] := List.mem_cons_self
  have hboot : Refines [0] (boot [0] blank) ⟨Layout.empty,(boot [0] blank).mem.data,.idle⟩ :=
    boot_refines blank
  have hinit : Rep [0] (odsInit blank 0) Layout.empty := hboot.rep
  have hf : Layout.empty.Free 2 := by simp [Layout.Free,Layout.empty]
  have hR := odsTaskAdd_rep hinit hc hf
  have hcheck : unlinkedIn [0] 4 (odsTaskAdd (odsInit blank 0) 0 2).2 1 = true := by decide +kernel
  have hun : ¬ Linked [0] (odsTaskAdd (odsInit blank 0) 0 2).2 1 := unlinkedIn_not_linked hcheck
  have hstand : Standing [0] 0 (odsTaskAdd (odsTaskAdd (odsInit blank 0) 0 2).2 0 1).2 :=
    ⟨⟨_,odsTaskAdd_rep hR hc (hR.free hun)⟩,by decide +kernel⟩
  obtain ⟨⟨v,hist⟩,hs⟩ := Standing.tick counter (w := ⟨_,fun _ => 0⟩) hc hstand []
  have hbeside : Input.Beside [0] 0 1 (odsTaskAdd (odsTaskAdd (odsInit blank 0) 0 2).2 0 1).2
    (.tick 0) := rfl
  have hrun : Run (InputStep (selfClient counter)) (fun s a => a.Beside [0] 0 1 s.1.mem) _ [.tick 0]
    (v,hist) := .single hbeside hs
  obtain ⟨-,⟨⟨v',hist'⟩,hq⟩,hsame⟩ := neighbours_irrelevant counter ⟨blank,fun _ => 0⟩ 3 7
    (w := ⟨_,fun _ => 0⟩) hR hc hun (by decide +kernel) (by decide +kernel) rfl hrun
  exact ⟨v,v',hist,hist',hrun,hq,hsame v' hist' hq⟩

end Ods
