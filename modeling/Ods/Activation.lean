import Ods.ListSched

/-! When memory represents a layout, and what `ods_list_print` and `ods_pre_exec` do to
such a memory: both end, and the second moves the pending list as `Layout.activate` says. -/
namespace Ods
open PointerChain LabelledRun

/-- The lists in memory are those of the layout. `ods_num_tasks` is 32 bits wide. -/
structure Rep (cs : List CtxPtr) (m : Mem) (l : Layout) : Prop where
  exec : ∀ c ∈ cs, Links m.next (m.sch c).odsExecList (l.exec c)
  pend : ∀ c ∈ cs, Links m.next (m.sch c).odsPreExecList (l.pend c)
  owner : ∀ c ∈ cs, ∀ t ∈ l.exec c ++ l.pend c, (m.task t).ctx = some c
  count : ∀ c ∈ cs, (m.sch c).odsNumTasks = BitVec.ofNat 32 (l.exec c).length
  outside : ∀ c, c ∉ cs → l.exec c = [] ∧ l.pend c = []

variable {cs : List CtxPtr} {m m' : Mem} {l l' : Layout} {c d : CtxPtr} {fuel : Nat}
variable {p : Option TaskPtr} {t u : TaskPtr} {ts E : List TaskPtr}

theorem odsListPrint_eq (fuel : Nat) (h : Links m.next p ts) :
    odsListPrint m fuel p = if ts.length < fuel then some ts else none := by
  induction ts generalizing fuel p with
  | nil =>
    rw [links_nil] at h
    subst h
    cases fuel <;> simp [odsListPrint]
  | cons a ts ih =>
    obtain ⟨rfl,ht⟩ := h
    cases fuel with
    | zero => simp [odsListPrint]
    | succ fuel =>
      have hr : odsListPrint m fuel (m.task a).next = if ts.length < fuel then some ts else none :=
        ih fuel ht
      simp only [odsListPrint,hr,List.length_cons,Nat.add_lt_add_iff_right]
      split <;> rfl

def moveToExec (c : CtxPtr) (m : Mem) (item : TaskPtr) : Mem := (odsPreExecBody c m item true).1

theorem odsPreExecBody_eq (b : Bool) : odsPreExecBody c m t b = (moveToExec c m t,true) := rfl

theorem moveToExec_next :
    (moveToExec c m t).next = Function.update m.next t (m.sch c).odsExecList := by
  simp only [moveToExec,odsPreExecBody,odsListAdd,Mem.modSch_next]
  rw [Mem.modTask_next_of_eq _ _ _ rfl,Mem.setHead_next,Mem.setNext_next]
  rfl

theorem moveToExec_task_of_ne (h : u ≠ t) : (moveToExec c m t).task u = m.task u := by
  simp [moveToExec,odsPreExecBody,odsListAdd,h,Mem.setNext]

theorem moveToExec_sch_self : (moveToExec c m t).sch c =
    { m.sch c with odsExecList := some t, odsNumTasks := (m.sch c).odsNumTasks + 1 } := by
  simp [moveToExec,odsPreExecBody,odsListAdd,Mem.setHead]

theorem moveToExec_sch_of_ne (h : d ≠ c) : (moveToExec c m t).sch d = m.sch d := by
  simp [moveToExec,odsPreExecBody,odsListAdd,Mem.setHead,h]

theorem moveToExec_data : (moveToExec c m t).data = m.data.modTask t activate := by
  simp only [moveToExec,odsPreExecBody,odsListAdd]
  rw [Mem.data_modSch_self rfl,Mem.data_modTask (g := activate) rfl,Mem.data_setHead,
    Mem.data_setNext]

theorem odsPreExecLoop_eq {b : Bool} (h : Links m.next p ts) :
    odsPreExecLoop c fuel m p b =
      if ts.length < fuel then some (ts.foldl (moveToExec c) m,b || !ts.isEmpty) else none := by
  induction ts generalizing fuel m p b with
  | nil =>
    rw [links_nil] at h
    subst h
    cases fuel <;> simp [odsPreExecLoop]
  | cons a ts ih =>
    have hn := h.nodup
    obtain ⟨rfl,ht⟩ := h
    cases fuel with
    | zero => simp [odsPreExecLoop]
    | succ fuel =>
      -- the saved next pointer still spells the rest: only the link of `a` was rewritten
      have hl : Links (moveToExec c m a).next (m.next a) ts := by
        rw [moveToExec_next]
        exact ht.update_off (List.nodup_cons.mp hn).1 _
      simp only [odsPreExecLoop,odsPreExecBody_eq]
      rw [show (m.task a).next = m.next a from rfl,ih hl]
      simp

theorem moveAll_links (h : Links m.next (m.sch c).odsExecList E) (hn : (ts ++ E).Nodup) :
    Links (ts.foldl (moveToExec c) m).next ((ts.foldl (moveToExec c) m).sch c).odsExecList
      (ts.reverse ++ E) := by
  induction ts generalizing m E with
  | nil => exact h
  | cons a ts ih =>
    have ha : a ∉ E := fun he => (List.nodup_cons.mp hn).1 (List.mem_append_right _ he)
    have hpush : Links (moveToExec c m a).next ((moveToExec c m a).sch c).odsExecList (a :: E) := by
      rw [moveToExec_next,moveToExec_sch_self]
      exact h.push ha
    have hn' : (ts ++ a :: E).Nodup := List.nodup_middle.mpr hn
    simpa using ih hpush hn'

theorem moveAll_task_of_not_mem (h : u ∉ ts) : (ts.foldl (moveToExec c) m).task u = m.task u :=
  foldl_keeps (fun m : Mem => m.task u) fun _ a ha =>
    moveToExec_task_of_ne fun he : u = a => h (he ▸ ha)

theorem moveAll_sch_of_ne (h : d ≠ c) : (ts.foldl (moveToExec c) m).sch d = m.sch d :=
  foldl_keeps (fun m : Mem => m.sch d) fun _ _ _ => moveToExec_sch_of_ne h

theorem moveAll_numTasks : ((ts.foldl (moveToExec c) m).sch c).odsNumTasks =
    (m.sch c).odsNumTasks + BitVec.ofNat 32 ts.length := by
  induction ts generalizing m with
  | nil => simp
  | cons a ts ih =>
    rw [List.foldl_cons,ih,moveToExec_sch_self,List.length_cons,BitVec.ofNat_add]
    simp only [BitVec.add_assoc,BitVec.add_comm]
    rfl

theorem moveAll_data : (ts.foldl (moveToExec c) m).data = activateAll m.data ts := by
  induction ts generalizing m with
  | nil => rfl
  | cons a ts ih => rw [List.foldl_cons,ih,moveToExec_data]; rfl

theorem activateAll_task_of_not_mem (h : u ∉ ts) : (activateAll m ts).task u = m.task u :=
  foldl_keeps (fun m : Mem => m.task u) fun _ a ha =>
    Mem.modTask_task_of_ne _ _ _ _ fun he : u = a => h (he ▸ ha)

theorem activateAll_task_of_mem (hn : ts.Nodup) (h : u ∈ ts) :
    (activateAll m ts).task u = activate (m.task u) := by
  induction ts generalizing m with
  | nil => simp at h
  | cons a ts ih =>
    have hc := List.nodup_cons.mp hn
    change (activateAll (m.modTask a activate) ts).task u = _
    rcases List.mem_cons.mp h with rfl | h
    · rw [activateAll_task_of_not_mem hc.1,Mem.modTask_task_self]
    · have hu : u ≠ a := fun he => hc.1 (he ▸ h)
      rw [ih hc.2 h,Mem.modTask_task_of_ne _ _ _ _ hu]

@[simp] theorem activateAll_sch : (activateAll m ts).sch = m.sch :=
  foldl_keeps Mem.sch fun _ _ _ => rfl

@[simp] theorem activateAll_timers : (activateAll m ts).timers = m.timers :=
  foldl_keeps Mem.timers fun _ _ _ => rfl

theorem Links.of_task {m m' : Mem} (h : Links m.next p ts) (ht : ∀ t ∈ ts, m'.task t = m.task t) :
    Links m'.next p ts :=
  h.congr fun t hm => by rw [Mem.next,ht t hm,Mem.next]

def preExecMem (m : Mem) (c : CtxPtr) (ts : List TaskPtr) : Mem :=
  (ts.foldl (moveToExec c) m).modSch c fun x => { x with odsPreExecList := none }

/-- If `ods_pre_exec` returns, this is what it leaves. -/
theorem odsPreExec_some (hP : Links m.next (m.sch c).odsPreExecList ts)
    (h : odsPreExec fuel m c = some m') : m' = preExecMem m c ts := by
  simp only [odsPreExec,odsPreExecLoop_eq hP,Option.bind_eq_bind,Option.bind_eq_some_iff] at h
  obtain ⟨⟨m₁,b⟩,hl,h⟩ := h
  split at hl
  · cases hl
    simp only at h
    split at h
    · obtain ⟨_,-,hr⟩ := Option.bind_eq_some_iff.mp h
      exact (Option.some.inj hr).symm
    · exact (Option.some.inj h).symm
  · cases hl

/-- It does return. -/
theorem odsPreExec_total (hE : Links m.next (m.sch c).odsExecList E)
    (hP : Links m.next (m.sch c).odsPreExecList ts) (hn : (E ++ ts).Nodup)
    (hf : E.length + ts.length < fuel) : odsPreExec fuel m c = some (preExecMem m c ts) := by
  have hn' : (ts ++ E).Nodup := List.perm_append_comm.nodup_iff.mp hn
  have hlen : (ts.reverse ++ E).length < fuel := by
    rw [List.length_append,List.length_reverse]
    omega
  have hprint := odsListPrint_eq fuel (moveAll_links hE hn')
  rw [if_pos hlen] at hprint
  have hf' : ts.length < fuel := by omega
  simp only [odsPreExec,odsPreExecLoop_eq hP,if_pos hf',Option.bind_eq_bind,Option.bind_some,hprint]
  split <;> rfl

theorem preExecMem_sch_of_ne (h : d ≠ c) : (preExecMem m c ts).sch d = m.sch d := by
  rw [preExecMem,Mem.modSch_sch_of_ne _ _ _ _ h,moveAll_sch_of_ne h]

theorem preExecMem_data : (preExecMem m c ts).data = activateAll m.data ts := by
  rw [preExecMem,Mem.data_modSch_self rfl,moveAll_data]

theorem activateAll_task_ctx : ((activateAll m ts).task u).ctx = (m.task u).ctx :=
  foldl_keeps (fun m : Mem => (m.task u).ctx) fun m a _ => m.modTask_keeps a u activate TaskCtx.ctx rfl

theorem preExecMem_task_ctx : ((preExecMem m c ts).task u).ctx = (m.task u).ctx := by
  have h : ((preExecMem m c ts).data.task u).ctx = (m.data.task u).ctx := by
    rw [preExecMem_data,activateAll_task_ctx]
  exact h

/-- A step of the scheduler `c`: the lists of the others stay, its own become those of `l'`. -/
theorem Rep.of_step (hR : Rep cs m l) (hc : c ∈ cs)
    (hlay : ∀ d, d ≠ c → l'.exec d = l.exec d ∧ l'.pend d = l.pend d)
    (hsch : ∀ d, d ≠ c → m'.sch d = m.sch d)
    (htask : ∀ d, d ≠ c → ∀ t ∈ l.exec d ++ l.pend d, m'.task t = m.task t)
    (hE : Links m'.next (m'.sch c).odsExecList (l'.exec c))
    (hP : Links m'.next (m'.sch c).odsPreExecList (l'.pend c))
    (hown : ∀ t ∈ l'.exec c ++ l'.pend c, (m'.task t).ctx = some c)
    (hcount : (m'.sch c).odsNumTasks = BitVec.ofNat 32 (l'.exec c).length) : Rep cs m' l' := by
  constructor
  · intro d hd
    by_cases hdc : d = c
    · exact hdc ▸ hE
    · rw [(hlay d hdc).1,hsch d hdc]
      exact Links.of_task (hR.exec d hd) fun t ht => htask d hdc t (List.mem_append_left _ ht)
  · intro d hd
    by_cases hdc : d = c
    · exact hdc ▸ hP
    · rw [(hlay d hdc).2,hsch d hdc]
      exact Links.of_task (hR.pend d hd) fun t ht => htask d hdc t (List.mem_append_right _ ht)
  · intro d hd t ht
    by_cases hdc : d = c
    · subst hdc
      exact hown t ht
    · rw [(hlay d hdc).1,(hlay d hdc).2] at ht
      rw [htask d hdc t ht]
      exact hR.owner d hd t ht
  · intro d hd
    by_cases hdc : d = c
    · exact hdc ▸ hcount
    · rw [(hlay d hdc).1,hsch d hdc]
      exact hR.count d hd
  · intro d hd
    have hdc : d ≠ c := fun h => hd (h ▸ hc)
    rw [(hlay d hdc).1,(hlay d hdc).2]
    exact hR.outside d hd

theorem odsPreExec_of_rep (hR : Rep cs m l) (hc : c ∈ cs)
    (hf : (l.exec c).length + (l.pend c).length < fuel) :
    odsPreExec fuel m c = some (preExecMem m c (l.pend c)) :=
  odsPreExec_total (hR.exec c hc) (hR.pend c hc) (l.nodup c) hf

theorem preExecMem_rep (hR : Rep cs m l) (hc : c ∈ cs) :
    Rep cs (preExecMem m c (l.pend c)) (l.activate c) := by
  refine hR.of_step hc (fun d hd => ?_) (fun d hd => preExecMem_sch_of_ne hd) ?_ ?_ ?_ ?_ ?_
  · exact ⟨Layout.activate_exec_of_ne _ _ _ hd,Layout.activate_pend_of_ne _ _ _ hd⟩
  · -- the lists of another scheduler hold none of the moved tasks
    intro d hd t ht
    refine moveAll_task_of_not_mem fun hp => hd ?_
    exact l.apart d c t ht (List.mem_append_right _ hp)
  · rw [Layout.activate_exec_self,preExecMem,Mem.modSch_sch_self,Mem.modSch_next]
    exact moveAll_links (hR.exec c hc) (List.perm_append_comm.nodup_iff.mp (l.nodup c))
  · rw [Layout.activate_pend_self,preExecMem,Mem.modSch_sch_self]
    exact rfl
  · intro t ht
    rw [preExecMem_task_ctx]
    exact hR.owner c hc t (by simpa [or_comm] using ht)
  · rw [preExecMem,Mem.modSch_sch_self,Layout.activate_exec_self]
    simp only [moveAll_numTasks,hR.count c hc,List.length_append,List.length_reverse,
      BitVec.ofNat_add,BitVec.add_comm]

end Ods
