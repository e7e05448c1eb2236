import Ods.Removal
import Ods.WakeUp

/-! Every legal step of the pointer program is a step of the list-level scheduler. -/
namespace Ods
open PointerChain LabelledRun

variable {cs : List CtxPtr} {m m' : Mem} {l : Layout} {c d : CtxPtr} {t : TaskPtr} {fuel : Nat}

/-- A step that writes no link, list head or `ctx` field keeps the representation. -/
theorem Rep.of_links (hR : Rep cs m l) (hn : m'.next = m.next)
    (hctx : ∀ t, (m'.task t).ctx = (m.task t).ctx)
    (hE : ∀ c, (m'.sch c).odsExecList = (m.sch c).odsExecList)
    (hP : ∀ c, (m'.sch c).odsPreExecList = (m.sch c).odsPreExecList)
    (hc : ∀ c, (m'.sch c).odsNumTasks = (m.sch c).odsNumTasks) : Rep cs m' l where
  exec c h := by rw [hn,hE]; exact hR.exec c h
  pend c h := by rw [hn,hP]; exact hR.pend c h
  owner c h t ht := by rw [hctx]; exact hR.owner c h t ht
  count c h := by rw [hc]; exact hR.count c h
  outside := hR.outside

theorem Rep.modTask (hR : Rep cs m l) {f : TaskCtx → TaskCtx}
    (hf : (f (m.task t)).frame.1 = (m.task t).next)
    (hx : (f (m.task t)).ctx = (m.task t).ctx) : Rep cs (m.modTask t f) l := by
  refine hR.of_links (Mem.modTask_next_of_eq _ _ _ hf) (fun u => ?_) (fun _ => rfl) (fun _ => rfl)
    fun _ => rfl
  exact m.modTask_keeps t u f TaskCtx.ctx hx

theorem Rep.wake (hR : Rep cs m l) : Rep cs (m.modTask t odsExecWake) l :=
  hR.modTask (next_of_frame (odsExecWake_frame _)) (ctx_of_frame (odsExecWake_frame _))

theorem Rep.count_exec (hR : Rep cs m l) : Rep cs (m.modTask t odsExecCount) l :=
  hR.modTask rfl rfl

theorem Rep.plain {op : Call} (hR : Rep cs m l) (hop : op.Plain) (h : op.exec m = some m') :
    Rep cs m' l := by
  cases op with
  | init c | add c t => exact hop.elim
  | start c tickTimeMs id =>
    cases h
    refine hR.of_links rfl (fun _ => rfl) ?_ ?_ ?_ <;>
    · intro d
      by_cases hd : d = c
      · subst hd
        simp [odsStart,halTmrCreate]
      · simp [odsStart,halTmrCreate,hd]
  | stop c =>
    cases h
    unfold odsStop
    split
    · refine hR.of_links rfl (fun _ => rfl) ?_ ?_ ?_ <;>
      · intro d
        by_cases hd : d = c
        · subst hd
          simp [halTmrDelete]
        · simp [halTmrDelete,hd]
    · exact hR
  | task t op =>
    obtain ⟨x,hx,rfl⟩ := Option.map_eq_some_iff.mp h
    have hf := TaskOp.apply_frame hx
    exact hR.modTask (next_of_frame hf) (ctx_of_frame hf)

theorem Call.exec_data {op : Call} (hop : op.Plain) :
    op.exec m.data = (op.exec m).map Mem.data := by
  cases op with
  | init c | add c t => exact hop.elim
  | start c tickTimeMs id =>
    simp only [exec,Option.map_some,Option.some.injEq]
    refine Mem.ext' (fun _ => rfl) (fun d => ?_) ?_
    · by_cases hd : d = c
      · subst hd
        simp [odsStart,halTmrCreate]
        rfl
      · simp [odsStart,halTmrCreate,hd]
    · simp [odsStart,halTmrCreate]
  | stop c =>
    simp only [exec,Option.map_some,Option.some.injEq]
    by_cases hz : (m.sch c).odsTimer = 0
    · simp [odsStop,hz]
    · refine Mem.ext' (fun _ => ?_) (fun d => ?_) ?_
      · simp [odsStop,hz,halTmrDelete]
      · by_cases hd : d = c
        · subst hd
          simp [odsStop,hz,halTmrDelete]
          rfl
        · simp [odsStop,hz,halTmrDelete,hd]
      · simp only [odsStop,Mem.data_sch,OdsCtx.data_odsTimer,ne_eq,hz,not_false_eq_true,if_true]
        rfl
  | task t op =>
    have hcomm : ∀ x, (m.modTask t fun _ => x).data = m.data.modTask t fun _ => x.data :=
      fun x => Mem.data_modTask rfl
    simp only [exec,Mem.data_task,TaskOp.apply_data,Option.map_map,Function.comp_def,hcomm]

theorem Rep.free (hR : Rep cs m l) (h : ¬ Linked cs m t) : l.Free t := by
  intro d hd
  by_cases hdc : d ∈ cs
  · refine h ⟨d,hdc,?_⟩
    rcases List.mem_append.mp hd with he | hp
    · exact .inl (((hR.exec d hdc).meets_iff t).mpr he)
    · exact .inr (((hR.pend d hdc).meets_iff t).mpr hp)
  · have ho := hR.outside d hdc
    simp [ho.1,ho.2] at hd

theorem Rep.inExec_iff (hR : Rep cs m l) (hc : c ∈ cs) : InExec m c t ↔ t ∈ l.exec c :=
  (hR.exec c hc).meets_iff t

theorem Rep.queued_iff (hR : Rep cs m l) (hc : c ∈ cs) : Queued m c t ↔ t ∈ l.pend c :=
  (hR.pend c hc).meets_iff t

theorem odsTaskAdd_next : (odsTaskAdd m c t).2.next =
    Function.update m.next t (m.sch c).odsPreExecList := by
  simp only [odsTaskAdd,odsListAdd]
  rw [Mem.modTask_next_of_eq _ _ _ rfl,Mem.setHead_next,Mem.setNext_next]
  rfl

theorem odsTaskAdd_sch_self : (odsTaskAdd m c t).2.sch c =
    { m.sch c with odsPreExecList := some t } := by
  simp [odsTaskAdd,odsListAdd,Mem.setHead]

theorem odsTaskAdd_sch_of_ne (h : d ≠ c) : (odsTaskAdd m c t).2.sch d = m.sch d := by
  simp [odsTaskAdd,odsListAdd,Mem.setHead,h]

theorem odsTaskAdd_task_of_ne {u : TaskPtr} (h : u ≠ t) :
    (odsTaskAdd m c t).2.task u = m.task u := by
  simp [odsTaskAdd,odsListAdd,Mem.setNext,h]

theorem odsTaskAdd_data : (odsTaskAdd m c t).2.data = m.data.modTask t (queued c) := by
  simp only [odsTaskAdd,odsListAdd]
  rw [Mem.data_modTask (g := queued c) rfl,Mem.data_setHead,Mem.data_setNext]

theorem odsTaskAdd_rep (hR : Rep cs m l) (hc : c ∈ cs) (h : l.Free t) :
    Rep cs (odsTaskAdd m c t).2 (l.queue c t h) := by
  have hoff : ∀ d, ∀ u ∈ l.exec d ++ l.pend d, (odsTaskAdd m c t).2.task u = m.task u := by
    intro d u hu
    refine odsTaskAdd_task_of_ne ?_
    rintro rfl
    exact h d hu
  refine hR.of_step hc (fun d hd => ?_) (fun d hd => odsTaskAdd_sch_of_ne hd)
    (fun d _ => hoff d) ?_ ?_ ?_ ?_
  · exact ⟨rfl,Layout.queue_pend_of_ne _ _ _ _ _ hd⟩
  · rw [odsTaskAdd_sch_self]
    exact Links.of_task (hR.exec c hc) fun u hu => hoff c u (List.mem_append_left _ hu)
  · rw [odsTaskAdd_sch_self,odsTaskAdd_next,Layout.queue_pend_self]
    exact (hR.pend c hc).push fun hp => h c (List.mem_append_right _ hp)
  · intro u hu
    by_cases hut : u = t
    · subst hut
      simp [odsTaskAdd,odsListAdd]
    · have hu' : u ∈ l.exec c ++ l.pend c := by simpa [hut] using hu
      rw [hoff c u hu']
      exact hR.owner c hc u hu'
  · rw [odsTaskAdd_sch_self]
    exact hR.count c hc

/-- The walk of `ods_exec` stands on a suffix of the exec list. -/
inductive PcRel (cs : List CtxPtr) (l : Layout) : Pc → ListPc → Prop
  | idle : PcRel cs l .idle .idle
  | walk {c : CtxPtr} {rest : List TaskPtr} : c ∈ cs → rest <:+ l.exec c →
      PcRel cs l (.walk c rest.head?) (.walk c rest)
  | body {c : CtxPtr} {item : TaskPtr} {rest : List TaskPtr} : c ∈ cs →
      item :: rest <:+ l.exec c → PcRel cs l (.body c item) (.body c item rest)

theorem PcRel.of_idle {lpc : ListPc} (h : PcRel cs l .idle lpc) : lpc = .idle := by
  cases h
  rfl

theorem PcRel.of_walk {p : Option TaskPtr} {lpc : ListPc} (h : PcRel cs l (.walk c p) lpc) :
    ∃ rest, lpc = .walk c rest ∧ p = rest.head? ∧ c ∈ cs ∧ rest <:+ l.exec c := by
  generalize hq : Pc.walk c p = q at h
  cases h with
  | walk hc hs =>
    cases hq
    exact ⟨_,rfl,rfl,hc,hs⟩
  | _ => cases hq

theorem PcRel.of_body {item : TaskPtr} {lpc : ListPc} (h : PcRel cs l (.body c item) lpc) :
    ∃ rest, lpc = .body c item rest ∧ c ∈ cs ∧ item :: rest <:+ l.exec c := by
  cases h with
  | body hc hs => exact ⟨_,rfl,hc,hs⟩

structure Refines (cs : List CtxPtr) (s : Sys) (a : ListSched) : Prop where
  rep : Rep cs s.mem a.lay
  data : a.data = s.mem.data
  pc : PcRel cs a.lay s.pc a.pc

theorem PcRel.client {pc : Pc} {lpc : ListPc} (h : PcRel cs l pc lpc) : pc.Client ↔ lpc.Client := by
  cases h <;> exact Iff.rfl

theorem PcRel.queue {pc : Pc} {lpc : ListPc} (h : PcRel cs l pc lpc) (hf : l.Free t) :
    PcRel cs (l.queue c t hf) pc lpc := by
  cases h with
  | idle => exact .idle
  | walk hc hs => exact .walk hc hs
  | body hc hs => exact .body hc hs

/-- After a visit the walk stands on the successor in the exec list. -/
theorem endVisit_refines {item : TaskPtr} {rest : List TaskPtr} (hR : Rep cs m l) (hc : c ∈ cs)
    (hs : item :: rest <:+ l.exec c) : Refines cs (endVisit m c item)
      ⟨l,m.data.modTask item odsExecCount,.walk c rest⟩ := by
  have hnext : m.next item = rest.head? := by
    obtain ⟨u,hu⟩ := hs
    have hl := hR.exec c hc
    rw [← hu] at hl
    exact Links.head_eq hl.suffix.2
  have hpc : PcRel cs l (.walk c (m.next item)) (.walk c rest) := by
    rw [hnext]
    exact .walk hc ((List.suffix_cons item rest).trans hs)
  have hd : (m.modTask item odsExecCount).data = m.data.modTask item odsExecCount :=
    Mem.data_modTask rfl
  refine ⟨hR.count_exec,hd.symm,?_⟩
  simpa [endVisit,odsExecCount,Mem.next] using hpc

theorem step_refines {s s' : Sys} {a : ListSched} {act : Act} (h : Refines cs s a)
    (hok : Legal cs s act) (hs : Step fuel s act s') :
    ∃ a', ListStep a act a' ∧ Refines cs s' a' := by
  obtain ⟨l,dm,lpc⟩ := a
  obtain ⟨hR,hd,hpc⟩ := h
  cases hs with
  | @call m m' pc op hcl hm =>
    dsimp only at hR hd hpc
    subst hd
    by_cases hop : op.Plain
    · have he := Call.exec_data (m := m) hop
      rw [hm] at he
      exact ⟨_,.call (hpc.client.mp hcl) hop he,hR.plain hop hm,rfl,hpc⟩
    · cases op with
      | init c => exact hok.elim
      | add c t =>
        have hf := hR.free hok.2
        cases hm
        exact ⟨_,.add hf (hpc.client.mp hcl),odsTaskAdd_rep hR hok.1 hf,odsTaskAdd_data.symm,
          hpc.queue hf⟩
      | _ => exact (hop trivial).elim
  | @tick m m' c hm =>
    dsimp only at hR hd hpc
    subst hd
    obtain rfl := hpc.of_idle
    have hc : c ∈ cs := hok
    obtain rfl := odsPreExec_some (hR.pend c hc) hm
    have hR' := preExecMem_rep hR hc
    refine ⟨_,.tick,hR',preExecMem_data.symm,?_⟩
    dsimp only
    rw [Links.head_eq (hR'.exec c hc),← Layout.activate_exec_self]
    exact .walk hc List.suffix_rfl
  | @skip m c item hf =>
    dsimp only at hR hd hpc
    subst hd
    obtain ⟨rest,rfl,hp,hc,hsuf⟩ := hpc.of_walk
    obtain ⟨rest,rfl⟩ := List.head?_eq_some_iff.mp hp.symm
    have hw : (m.modTask item odsExecWake).data = m.data.modTask item odsExecWake :=
      Mem.data_modTask (odsExecWake_data _)
    have hr := endVisit_refines (hR.wake (t := item)) hc hsuf
    rw [hw] at hr
    exact ⟨_,.skip (by rw [Mem.data_task,odsExecFunc_wake_data,hf]),hr⟩
  | @invoke m c item f hf =>
    dsimp only at hR hd hpc
    subst hd
    obtain ⟨rest,rfl,hp,hc,hsuf⟩ := hpc.of_walk
    obtain ⟨rest,rfl⟩ := List.head?_eq_some_iff.mp hp.symm
    exact ⟨_,.invoke (by rw [Mem.data_task,odsExecFunc_wake_data,hf]),hR.wake,
      (Mem.data_modTask (odsExecWake_data _)).symm,.body hc hsuf⟩
  | @ret m c item =>
    dsimp only at hR hd hpc
    subst hd
    obtain ⟨rest,rfl,hc,hsuf⟩ := hpc.of_body
    exact ⟨_,.ret,endVisit_refines hR hc hsuf⟩
  | @finish m m' c hm =>
    dsimp only at hR hd hpc
    subst hd
    obtain ⟨rest,rfl,hp,hc,hsuf⟩ := hpc.of_walk
    obtain rfl := List.head?_eq_none_iff.mp hp.symm
    obtain ⟨hR',hd'⟩ := odsPostExec_rep hR hc hm
    exact ⟨_,.finish,hR',hd'.symm,.idle⟩

end Ods
