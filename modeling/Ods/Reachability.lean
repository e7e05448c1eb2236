import Ods.CheckedRun
import Ods.Refinement
import Mathlib.Tactic.NormNum

/-! The representation invariant over whole runs, and the ends of all loops. -/
namespace Ods
open PointerChain LabelledRun

variable {cs : List CtxPtr} {m m' : Mem} {l : Layout} {c : CtxPtr} {t item : TaskPtr} {fuel : Nat}
variable {s s' : Sys} {a a' : ListSched} {acts : List Act} {p : Option TaskPtr}

def initSch (c : CtxPtr) (x : OdsCtx) : OdsCtx :=
  { x with
    odsTickTimeMs := odsTickTimeMsMin
    odsExecList := none
    odsPreExecList := none
    odsNumTasks := 0
    odsTimer := 0
    odsTmrArgs := ⟨some .odsProcess,some c⟩ }

theorem boot_sch (m : Mem) (h : c ∈ cs) :
    ∃ x, ((boot cs m).mem.sch c) = initSch c x := by
  have hkeep : ∀ (ds : List CtxPtr) (m : Mem), (∃ x, m.sch c = initSch c x) →
      ∃ x, (ds.foldl odsInit m).sch c = initSch c x := by
    intro ds
    induction ds with
    | nil => exact fun m h => h
    | cons d ds ih =>
      intro m hm
      refine ih (odsInit m d) ?_
      by_cases hd : c = d
      · subst hd
        exact ⟨m.sch c,by simp [odsInit,initSch]⟩
      · rwa [odsInit,Mem.modSch_sch_of_ne _ _ _ _ hd]
  unfold boot
  induction cs generalizing m with
  | nil => simp at h
  | cons d ds ih =>
    rcases List.mem_cons.mp h with rfl | h
    · exact hkeep ds (odsInit m c) ⟨m.sch c,by simp [odsInit,initSch]⟩
    · exact ih (odsInit m d) h

theorem foldl_odsInit_task : (cs.foldl odsInit m).task = m.task :=
  foldl_keeps Mem.task fun _ _ _ => rfl

theorem foldl_odsInit_timers : (cs.foldl odsInit m).timers = m.timers :=
  foldl_keeps Mem.timers fun _ _ _ => rfl

theorem boot_refines (m : Mem) :
    Refines cs (boot cs m) ⟨Layout.empty,(boot cs m).mem.data,.idle⟩ := by
  refine ⟨⟨?_,?_,?_,?_,?_⟩,rfl,.idle⟩
  · intro c hc
    obtain ⟨x,hx⟩ := boot_sch m hc
    rw [hx]
    exact rfl
  · intro c hc
    obtain ⟨x,hx⟩ := boot_sch m hc
    rw [hx]
    exact rfl
  · intro c hc t ht
    simp [Layout.empty] at ht
  · intro c hc
    obtain ⟨x,hx⟩ := boot_sch m hc
    rw [hx]
    exact rfl
  · exact fun c _ => ⟨rfl,rfl⟩

/-- Legal runs of the pointer program are runs of the list-level scheduler. -/
theorem run_refines (hrun : Run (Step fuel) (Legal cs) s acts s') (h : Refines cs s a) :
    ∃ a', Run ListStep (fun _ _ => True) a acts a' ∧ Refines cs s' a' := by
  refine hrun.simulate (R := Refines cs) ?_ h
  intro s a act s' hR hok hs
  obtain ⟨a',ha,hR'⟩ := step_refines hR hok hs
  exact ⟨a',trivial,ha,hR'⟩

theorem reachable_refines (hrun : Run (Step fuel) (Legal cs) (boot cs m) acts s) :
    ∃ a, Run ListStep (fun _ _ => True) ⟨Layout.empty,(boot cs m).mem.data,.idle⟩ acts a ∧
      Refines cs s a :=
  run_refines hrun (boot_refines m)

def ListPc.rest : ListPc → List TaskPtr
  | .idle => []
  | .walk _ rest => rest
  | .body _ _ rest => rest

def ListPc.ticking : ListPc → Option CtxPtr
  | .idle => none
  | .walk c _ => some c
  | .body c _ _ => some c

/-- Each visit takes the first of the remaining tasks; nothing else changes them. -/
theorem step_rest {act : Act} (h : Refines cs s a) (hok : Legal cs s act)
    (hs : Step fuel s act s') (hfin : act ≠ .finish) (hpc : a.pc.ticking = some c) :
    ∃ a', ListStep a act a' ∧ Refines cs s' a' ∧ a'.pc.ticking = some c ∧
      (visitOf s act).toList.map Visit.item ++ a'.pc.rest = a.pc.rest := by
  obtain ⟨a',ha,hR⟩ := step_refines h hok hs
  have hp := h.pc
  refine ⟨a',ha,hR,?_⟩
  cases ha with
  | call | add => exact ⟨hpc,rfl⟩
  | tick => cases hpc
  | skip | invoke =>
    refine ⟨hpc,?_⟩
    generalize hq : s.pc = q at hp
    cases hp
    simp [visitOf,hq,ListPc.rest]
  | ret => exact ⟨hpc,rfl⟩
  | finish => exact (hfin rfl).elim

theorem run_rest (hrun : Run (Step fuel) (Legal cs) s acts s') (h : Refines cs s a)
    (hfin : .finish ∉ acts) (hpc : a.pc.ticking = some c) :
    ∃ a', Run ListStep (fun _ _ => True) a acts a' ∧ Refines cs s' a' ∧
      a'.pc.ticking = some c ∧ (visits fuel s acts).map Visit.item ++ a'.pc.rest = a.pc.rest := by
  induction hrun generalizing a with
  | nil s => exact ⟨a,.nil a,h,hpc,rfl⟩
  | @cons s s₁ s₂ act as hok hs _ ih =>
    rw [List.mem_cons,not_or] at hfin
    obtain ⟨a₁,ha,hR,hpc₁,hrest⟩ := step_rest h hok hs (Ne.symm hfin.1) hpc
    obtain ⟨a₂,hr,hR₂,hpc₂,hrest₂⟩ := ih hR hfin.2 hpc₁
    refine ⟨a₂,.cons trivial ha hr,hR₂,hpc₂,?_⟩
    simp only [visits,step_iff.mpr hs,Option.map_some,Option.getD_some,List.map_append,
      List.append_assoc,hrest₂,hrest]

theorem Rep.links_of_suffix (hR : Rep cs m l) (hc : c ∈ cs) {rest : List TaskPtr}
    (hs : rest <:+ l.exec c) : Links m.next rest.head? rest := by
  obtain ⟨u,hu⟩ := hs
  have he := hR.exec c hc
  rw [← hu] at he
  cases rest with
  | nil => exact rfl
  | cons b rest => exact he.suffix

theorem odsListDel_total (hE : Links m.next (m.sch c).odsExecList E)
    (hf : E.length ≤ fuel) : ∃ r, odsListDel fuel m (.execList c) t = some r := by
  by_cases ht : t ∈ E
  · obtain ⟨u,v,rfl⟩ := List.append_of_mem ht
    have hu : u.length ≤ fuel := by
      rw [List.length_append] at hf
      omega
    exact ⟨_,(odsListDel_eq fuel (r := .execList c) hE).trans (if_pos hu)⟩
  · exact ⟨_,odsListDel_absent (r := .execList c) hE ht hf⟩

/-- In every reachable state the lists of the schedulers are finite, hold no task twice
and only tasks of their own scheduler, and `ods_num_tasks` counts the exec list modulo
`2^32`; the loops of `ods_pre_exec`, `ods_list_del` and `ods_post_exec` end there, and the
loop of `ods_exec` makes one pass for each of finitely many tasks, whatever their
functions do. -/
theorem reachable_wellFormed (hrun : Run (Step fuel) (Legal cs) (boot cs m) acts s) :
    ∃ l : Layout, Rep cs s.mem l ∧
      (∀ c ∈ cs, ∀ n, (l.exec c).length + (l.pend c).length < n →
        ∃ m', odsPreExec n s.mem c = some m') ∧
      (∀ c ∈ cs, ∀ t n, (l.exec c).length ≤ n →
        ∃ r, odsListDel n s.mem (.execList c) t = some r) ∧
      (∀ c ∈ cs, ∀ n, (l.exec c).length < n → ∃ m', odsPostExec n s.mem c = some m') ∧
      (∀ c p, s.pc = .walk c p → ∃ rest, Links s.mem.next p rest ∧ rest <:+ l.exec c ∧
        ∀ n as s', Run (Step n) (Legal cs) s as s' → .finish ∉ as →
          (visits n s as).map Visit.item <+: rest ∧
          (s'.pc = .walk c none → (visits n s as).map Visit.item = rest)) := by
  obtain ⟨⟨l,d,lpc⟩,-,h⟩ := reachable_refines hrun
  have hR := h.rep
  refine ⟨l,hR,?_,?_,?_,?_⟩
  · intro c hc n hn
    exact ⟨_,odsPreExec_of_rep hR hc hn⟩
  · intro c hc t n hn
    exact odsListDel_total (hR.exec c hc) hn
  · intro c hc n hn
    exact odsPostExec_total (hR.exec c hc) hn
  · intro c p hp
    obtain ⟨rest,rfl,rfl,hc,hsuf⟩ := (hp ▸ h.pc : PcRel cs l (.walk c p) lpc).of_walk
    refine ⟨rest,hR.links_of_suffix hc hsuf,hsuf,?_⟩
    intro n as s' hr hfin
    obtain ⟨a',-,hR',hpc',hrest⟩ := run_rest hr h hfin rfl
    refine ⟨⟨a'.pc.rest,hrest⟩,?_⟩
    intro hend
    obtain ⟨rest',hw,hnil,-⟩ := (hend ▸ hR'.pc : PcRel cs _ (.walk c none) a'.pc).of_walk
    rw [hw,List.head?_eq_none_iff.mp hnil.symm] at hrest
    simpa [ListPc.rest] using hrest

def deleteAndReadd : List Act :=
  [.call (.add 0 1),.call (.add 0 2),.tick 0,.visit,.call (.task 2 .del),.ret,.visit,.finish,
    .call (.add 0 2),.tick 0,.visit]

theorem deleteAndReadd_wellFormed : ∃ s,
    Run (Step 5) (Legal [0]) (boot [0] blank) deleteAndReadd s ∧ s.pc = .body 0 2 ∧
      ∃ l : Layout, Rep [0] s.mem l := by
  obtain ⟨s,hs,hpc⟩ := runChecked_any (legalIn [0] 5) 5 (boot [0] blank) deleteAndReadd
    (fun s => s.pc = .body 0 2) (fun _ _ => legalIn_legal) (by decide +kernel)
  obtain ⟨l,hR,-⟩ := reachable_wellFormed hs
  exact ⟨s,hs,by simpa using hpc,l,hR⟩

theorem Rep.linked_iff (hR : Rep cs m l) : Linked cs m t ↔ ¬ l.Free t := by
  constructor
  · rintro ⟨c,hc,he | hp⟩ hf
    · exact hf c (List.mem_append_left _ ((hR.inExec_iff hc).mp he))
    · exact hf c (List.mem_append_right _ ((hR.queued_iff hc).mp hp))
  · intro hf
    by_contra hl
    exact hf (hR.free hl)

section CountWraps

def queueUpTo (n : Nat) : List Act := (List.range n).map fun t => .call (.add 0 t)

theorem queueUpTo_run (fuel n : Nat) : ∃ m l d,
    Run (Step fuel) (Legal [0]) (boot [0] blank) (queueUpTo n) ⟨m,.idle⟩ ∧
      Refines [0] ⟨m,.idle⟩ ⟨l,d,.idle⟩ ∧ l.exec 0 = [] ∧ (l.pend 0).length = n ∧
      (∀ c, ∀ t ∈ l.exec c ++ l.pend c, t < n) ∧ ∀ t, (d.task t).func = some 0 := by
  induction n with
  | zero =>
    refine ⟨_,_,_,.nil _,boot_refines blank,rfl,rfl,by simp [Layout.empty],?_⟩
    intro t
    rw [Mem.data_task,boot,foldl_odsInit_task]
    rfl
  | succ n ih =>
    obtain ⟨m,l,d,hrun,hR,hE,hP,hlt,hfunc⟩ := ih
    have hfree : l.Free n := fun c hc => Nat.lt_irrefl n (hlt c n hc)
    have hok : Legal [0] ⟨m,.idle⟩ (.call (.add 0 n)) :=
      ⟨List.mem_cons_self,fun hl => hR.rep.linked_iff.mp hl hfree⟩
    have hs : Step fuel ⟨m,.idle⟩ (.call (.add 0 n)) ⟨(odsTaskAdd m 0 n).2,.idle⟩ := .call trivial rfl
    refine ⟨(odsTaskAdd m 0 n).2,l.queue 0 n hfree,d.modTask n (queued 0),?_,?_,hE,?_,?_,?_⟩
    · rw [queueUpTo,List.range_succ,List.map_append]
      exact hrun.append (.single hok hs)
    · have hd : d = m.data := hR.data
      exact ⟨odsTaskAdd_rep hR.rep List.mem_cons_self hfree,by rw [odsTaskAdd_data,hd],.idle⟩
    · rw [Layout.queue_pend_self,List.length_cons,hP]
    · intro c t ht
      by_cases hc : c = 0
      · subst hc
        simp only [Layout.queue_exec,Layout.queue_pend_self,List.mem_append,List.mem_cons] at ht
        rcases ht with he | rfl | hp
        · exact Nat.lt_succ_of_lt (hlt 0 t (List.mem_append_left _ he))
        · exact Nat.lt_succ_self t
        · exact Nat.lt_succ_of_lt (hlt 0 t (List.mem_append_right _ hp))
      · rw [Layout.queue_exec,Layout.queue_pend_of_ne _ _ _ _ _ hc] at ht
        exact Nat.lt_succ_of_lt (hlt c t ht)
    · intro t
      rw [Mem.modTask_keeps _ n t _ TaskCtx.func rfl]
      exact hfunc t

/-- The first invocation after `n` tasks were queued. -/
theorem first_invocation {n : Nat} (hn : 0 < n) : ∃ s E,
    Run (Step (n + 1)) (Legal [0]) (boot [0] blank) (queueUpTo n ++ [.tick 0,.visit]) s ∧
      (∃ t, s.pc = .body 0 t) ∧ Links s.mem.next (s.mem.sch 0).odsExecList E ∧ E.length = n ∧
      (s.mem.sch 0).odsNumTasks = BitVec.ofNat 32 n := by
  obtain ⟨m,l,d,hrun,hR,hE,hP,-,hfunc⟩ := queueUpTo_run (n + 1) n
  have hc : (0 : CtxPtr) ∈ [0] := List.mem_cons_self
  have hd : d = m.data := hR.data
  have hrep₀ : Rep [0] m l := hR.rep
  obtain ⟨t,ts,hts⟩ : ∃ t ts, (l.pend 0).reverse = t :: ts := by
    refine List.exists_cons_of_ne_nil fun hnil => ?_
    have hlen := congrArg List.length hnil
    simp only [List.length_reverse,hP,List.length_nil] at hlen
    omega
  have hlist : (l.activate 0).exec 0 = t :: ts := by
    rw [Layout.activate_exec_self,hts,hE,List.append_nil]
  have hlen : ((l.activate 0).exec 0).length = n := by
    rw [Layout.activate_exec_self,hE,List.append_nil,List.length_reverse,hP]
  have hpre : odsPreExec (n + 1) m 0 = some (preExecMem m 0 (l.pend 0)) := by
    refine odsPreExec_of_rep hrep₀ hc ?_
    rw [hE,hP,List.length_nil]
    omega
  have hrep := preExecMem_rep hrep₀ hc
  have hhead : ((preExecMem m 0 (l.pend 0)).sch 0).odsExecList = some t := by
    have hl := hrep.exec 0 hc
    rw [hlist] at hl
    exact hl.1
  have hmem : t ∈ l.pend 0 := by
    rw [← List.mem_reverse,hts]
    exact List.mem_cons_self
  have hf : odsExecFunc (odsExecWake ((preExecMem m 0 (l.pend 0)).task t)) = some 0 := by
    have hx : (preExecMem m 0 (l.pend 0)).data.task t = activate (d.task t) := by
      rw [preExecMem_data,hd]
      exact activateAll_task_of_mem (l.pend_nodup 0) hmem
    have hw : odsExecWake (activate (d.task t)) = activate (d.task t) :=
      odsExecWake_of_other (by simp [activate]) (by simp [activate])
    rw [← odsExecFunc_wake_data,← Mem.data_task,hx,hw]
    exact hfunc t
  have htick : Step (n + 1) ⟨m,.idle⟩ (.tick 0) ⟨preExecMem m 0 (l.pend 0),.walk 0 (some t)⟩ := by
    rw [← hhead]
    exact .tick hpre
  have hwake := hrep.wake (t := t)
  refine ⟨_,(l.activate 0).exec 0,hrun.append (.cons hc htick (.single trivial (.invoke hf))),
    ⟨t,rfl⟩,hwake.exec 0 hc,hlen,?_⟩
  rw [← hlen]
  exact hwake.count 0 hc

/-- With `2^32` tasks the 32-bit counter reads 0 although no list is empty. -/
theorem numTasks_wraps : ∃ s E,
    Run (Step (2 ^ 32 + 1)) (Legal [0]) (boot [0] blank) (queueUpTo (2 ^ 32) ++ [.tick 0,.visit]) s ∧
      (∃ t, s.pc = .body 0 t) ∧ Links s.mem.next (s.mem.sch 0).odsExecList E ∧
      (s.mem.sch 0).odsNumTasks.toNat ≠ E.length := by
  obtain ⟨s,E,hrun,hpc,hl,hlen,hnum⟩ := first_invocation (n := 2 ^ 32) (by norm_num)
  refine ⟨s,E,hrun,hpc,hl,?_⟩
  rw [hnum,hlen,BitVec.toNat_ofNat,Nat.mod_self]
  norm_num

end CountWraps

end Ods
