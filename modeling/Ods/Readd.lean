import Ods.CheckedRun
import Ods.TickRefinement

/-! Adding a task again after its deletion was requested: what it takes is that a tick has
unlinked the task, and what goes wrong otherwise. -/
namespace Ods
open PointerChain LabelledRun

variable {cs : List CtxPtr} {m : Mem} {fuel : Nat} {s s₁ s₂ : Sys} {a a₁ : ListSched}
variable {c d : CtxPtr} {t item : TaskPtr} {acts acts₀ : List Act}

/-- The next `ods_process` of `c` begins and ends, visits `t` once, and loses no task. -/
def TicksWith (cs : List CtxPtr) (c : CtxPtr) (t : TaskPtr) (fuel : Nat) (s : Sys) : Prop :=
  ∃ s₁ L, Step fuel s (.tick c) s₁ ∧ Links s₁.mem.next (s₁.mem.sch c).odsExecList L ∧
    L.count t = 1 ∧ (∀ u, InExec s.mem c u ∨ Queued s.mem c u → u ∈ L) ∧
    ∀ acts s₂, Run (Step fuel) (Legal cs) s₁ acts s₂ → .finish ∉ acts →
      (visits fuel s₁ acts).map Visit.item <+: L ∧ TickGoesOn fuel c L acts s₁ s₂

/-- The tick in progress visits `due` after the task it stands on. -/
def StillDue (cs : List CtxPtr) (c : CtxPtr) (due : List TaskPtr) (s : Sys) : Prop :=
  ∀ fuel acts s₁, Run (Step fuel) (Legal cs) s acts s₁ → .finish ∉ acts →
    (visits fuel s acts).map Visit.item <+: due ∧
      (s₁.pc = .walk c none → (visits fuel s acts).map Visit.item = due)

theorem Refines.stillDue (h : Refines cs s a) {rest : List TaskPtr}
    (hbody : a.pc = .body c item rest) : StillDue cs c rest s := by
  intro fuel acts s₁ hrun hfin
  obtain ⟨a₁,-,h₁,-,hrest⟩ := run_rest hrun h hfin (by rw [hbody]; rfl)
  rw [hbody] at hrest
  refine ⟨⟨_,hrest⟩,fun hend => ?_⟩
  have hpc₁ := h₁.pc
  rw [hend] at hpc₁
  obtain ⟨rest₁,hwalk,hnil,-⟩ := hpc₁.of_walk
  rw [hwalk,List.head?_eq_none_iff.mp hnil.symm] at hrest
  simpa [ListPc.rest] using hrest

theorem Refines.ticksWith (h : Refines cs s a) (hidle : s.pc = .idle) (hc : c ∈ cs)
    (ht : t ∈ a.lay.pend c) (hf : (a.lay.exec c).length + (a.lay.pend c).length < fuel) :
    TicksWith cs c t fuel s := by
  obtain ⟨m,pc⟩ := s
  dsimp only at hidle
  subst hidle
  obtain ⟨s₁,hs,hact,h₁⟩ := tick_activated h.rep hc hf
  have hn : ((a.lay.pend c).reverse ++ a.lay.exec c).Nodup := hact.list.nodup
  refine ⟨s₁,_,hs,hact.list,?_,?_,fun acts s₂ hrun hfin => tick_goesOn h₁ hf hrun hfin⟩
  · exact List.count_eq_one_of_mem hn (List.mem_append_left _ (List.mem_reverse.mpr ht))
  · rintro u (he | hq)
    · exact List.mem_append_right _ ((h.rep.inExec_iff hc).mp he)
    · exact List.mem_append_left _ (List.mem_reverse.mpr ((h.rep.queued_iff hc).mp hq))

/-- A task stays queued until its scheduler ticks. -/
theorem run_queued (hrun : Run (Step fuel) (Legal cs) s acts s₁) (h : Refines cs s a)
    (ht : t ∈ a.lay.pend c) (htick : .tick c ∉ acts) :
    ∃ a₁, Refines cs s₁ a₁ ∧ t ∈ a₁.lay.pend c := by
  have hrun' := hrun.strengthen (Q := fun _ act => act ≠ .tick c)
    fun us act vs _ he _ hact => htick (by simp [he,hact])
  refine run_invariant (I := fun a => t ∈ a.lay.pend c) hrun' (fun _ _ hok => hok.1) ?_ h ht
  intro s a act a' _ hok hstep hI
  exact (hstep.pend_mem hI).resolve_right fun hx => hok.2 hx.1

/-- Once a task is in no list, whatever its state reads, it can be added again at any point
where client code runs: every list stays as it was but for the task in front of the pending
list, the tick in progress goes on as it was due, and the next tick of the scheduler ends and
visits the task once. -/
theorem readd_unlinked (hreach : Run (Step fuel) (Legal cs) (boot cs m) acts₀ s) (hc : c ∈ cs)
    (hpc : s.pc.Client) (hun : ¬ Linked cs s.mem t) :
    ∃ s₁ l, Step fuel s (.call (.add c t)) s₁ ∧ Rep cs s.mem l ∧
      (∃ hfree : l.Free t, Rep cs s₁.mem (l.queue c t hfree)) ∧
      (∀ d item, s.pc = .body d item →
        ∃ due, item :: due <:+ l.exec d ∧ StillDue cs d due s₁) ∧
      ∀ n acts s₂, Run (Step n) (Legal cs) s₁ acts s₂ → .tick c ∉ acts → s₂.pc = .idle →
        ∃ k, ∀ n, k < n → TicksWith cs c t n s₂ := by
  obtain ⟨a,-,h⟩ := reachable_refines hreach
  obtain ⟨ms,pc⟩ := s
  have hs : Step fuel ⟨ms,pc⟩ (.call (.add c t)) ⟨(odsTaskAdd ms c t).2,pc⟩ := .call hpc rfl
  have hok : Legal cs ⟨ms,pc⟩ (.call (.add c t)) := ⟨hc,hun⟩
  obtain ⟨a₁,hstep,h₁⟩ := step_refines h hok hs
  cases hstep with
  | call _ hop => exact hop.elim
  | @add l dm lpc c t hfree _ =>
    refine ⟨_,l,hs,h.rep,⟨hfree,h₁.rep⟩,?_,?_⟩
    · rintro d item rfl
      obtain ⟨rest,hbody,-,hsuf⟩ := h.pc.of_body
      exact ⟨rest,hsuf,h₁.stillDue hbody⟩
    · intro n acts s₂ hrun htick hidle
      have ht : t ∈ (l.queue c t hfree).pend c := by simp
      obtain ⟨a₂,h₂,ht₂⟩ := run_queued hrun h₁ ht htick
      exact ⟨_,fun n hn => h₂.ticksWith hidle hc ht₂ hn⟩

/-- Task 1 is deleted and unlinked by a tick that leaves task 2, then added again. -/
theorem readd_unlinked_after_tick : ∃ s : Sys, (s.mem.task 1).state = .del ∧ InExec s.mem 0 2 ∧
    ∃ s₁ l, Step 8 s (.call (.add 0 1)) s₁ ∧ Rep [0] s.mem l ∧
      (∃ hfree : l.Free 1, Rep [0] s₁.mem (l.queue 0 1 hfree)) ∧
      (∀ d item, s.pc = .body d item →
        ∃ due, item :: due <:+ l.exec d ∧ StillDue [0] d due s₁) ∧
      ∀ n acts s₂, Run (Step n) (Legal [0]) s₁ acts s₂ → .tick 0 ∉ acts → s₂.pc = .idle →
        ∃ k, ∀ n, k < n → TicksWith [0] 0 1 n s₂ := by
  obtain ⟨s,hrun,hP⟩ := runChecked_any (legalIn [0] 8) 8 (boot [0] blank)
    [.call (.add 0 1),.call (.add 0 2),.tick 0,.visit,.call (.task 1 .del),.ret,.visit,.ret,.finish]
    (fun s => s.pc = .idle && (s.mem.task 1).state = .del &&
      presentIn 8 s.mem (s.mem.sch 0).odsExecList 2 && unlinkedIn [0] 8 s.mem 1)
    (fun _ _ => legalIn_legal) (by decide +kernel)
  simp only [Bool.and_eq_true,decide_eq_true_eq] at hP
  obtain ⟨⟨⟨hidle,hdel⟩,hpresent⟩,hun⟩ := hP
  have hclient : s.pc.Client := by
    rw [hidle]
    trivial
  exact ⟨s,hdel,presentIn_meets hpresent,
    readd_unlinked hrun List.mem_cons_self hclient (unlinkedIn_not_linked hun)⟩

theorem odsListPrint_loop (h : m.next t = some t) : odsListPrint m fuel (some t) = none := by
  induction fuel with
  | zero => rfl
  | succ fuel ih =>
    have hnext : (m.task t).next = some t := h
    simp only [odsListPrint,hnext,ih,Option.map_none]

/-- A task that heads the exec list and the pending list is linked to itself by the next
tick, and `ods_list_print` does not come back. -/
theorem odsPreExec_diverges (hE : (m.sch c).odsExecList = some t)
    (hP : (m.sch c).odsPreExecList = some t) (hn : m.next t = none) :
    odsPreExec fuel m c = none := by
  have hlinks : Links m.next (m.sch c).odsPreExecList [t] := ⟨hP,hn⟩
  have hloop : (moveToExec c m t).next t = some t := by
    rw [moveToExec_next,hE,Function.update_self]
  have hhead : ((moveToExec c m t).sch c).odsExecList = some t := by
    rw [moveToExec_sch_self]
  have hprint : odsListPrint (moveToExec c m t) fuel ((moveToExec c m t).sch c).odsExecList = none := by
    rw [hhead]
    exact odsListPrint_loop hloop
  simp only [odsPreExec,odsPreExecLoop_eq hlinks]
  split
  · simp [hprint]
  · rfl

/-- Tasks 1 and 2 are in the exec list, the deletion of task 1 is requested, and it is added
again before a tick has unlinked it: task 2 is lost, and the next tick does not end. -/
theorem readd_linked_diverges : ∃ acts s s₁,
    Run (Step 8) (Legal [0]) (boot [0] blank) acts s ∧ s.pc = .idle ∧
      odsTaskStateGet (s.mem.task 1) = .del ∧ InExec s.mem 0 2 ∧ (s.mem.task 2).state = .run ∧
      Step 8 s (.call (.add 0 1)) s₁ ∧ ¬ Linked [0] s₁.mem 2 ∧
      ∀ fuel, odsPreExec fuel s₁.mem 0 = none := by
  obtain ⟨s,hrun,hP⟩ := runChecked_any (legalIn [0] 8) 8 (boot [0] blank)
    [.call (.add 0 1),.call (.add 0 2),.tick 0,.visit,.ret,.visit,.ret,.finish,.call (.task 1 .del)]
    (fun s => s.pc = .idle && (s.mem.task 1).state = .del && (s.mem.task 2).state = .run &&
      presentIn 8 s.mem (s.mem.sch 0).odsExecList 2 &&
      unlinkedIn [0] 8 (odsTaskAdd s.mem 0 1).2 2 && (s.mem.sch 0).odsExecList = some 1 &&
      (s.mem.sch 0).odsPreExecList = none) (fun _ _ => legalIn_legal) (by decide +kernel)
  simp only [Bool.and_eq_true,decide_eq_true_eq] at hP
  obtain ⟨⟨⟨⟨⟨⟨hidle,hdel⟩,hrunning⟩,hpresent⟩,hun⟩,hE⟩,hnil⟩ := hP
  obtain ⟨m,pc⟩ := s
  dsimp only at hidle hE hnil
  subst hidle
  refine ⟨_,_,_,hrun,rfl,hdel,presentIn_meets hpresent,hrunning,.call trivial rfl,
    unlinkedIn_not_linked hun,fun fuel => odsPreExec_diverges (t := 1) ?_ ?_ ?_⟩
  · rw [odsTaskAdd_sch_self]
    exact hE
  · rw [odsTaskAdd_sch_self]
  · rw [odsTaskAdd_next,Function.update_self,hnil]

end Ods
