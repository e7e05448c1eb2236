import Ods.TaskHistory

/-! The one `ods_timer` field of a scheduler against the driver's armed timers. -/
namespace Ods
open LabelledRun

variable {cs : List CtxPtr} {m : Mem} {fuel : Nat} {s s' : Sys} {a a' : ListSched}
variable {c d : CtxPtr} {act : Act} {acts : List Act} {tickTimeMs : U32} {id : TmrId}

def portTmrGeneralCbk (m : Mem) (tm : Timer) : Option CtxPtr :=
  match (m.sch tm.args).odsTmrArgs.cbk with
  | none => none
  | some .odsProcess => (m.sch tm.args).odsTmrArgs.arg

def armedFor (m : Mem) (c : CtxPtr) : List Timer := m.timers.filter fun tm => tm.args = c

/-- What a driver answers: an id that no armed timer has. Zero is allowed. -/
def DriverOk (s : Sys) : Act → Prop
  | .call (.start _ _ id) => ∀ tm ∈ s.mem.timers, tm.id ≠ id
  | _ => True

/-- No scheduler is started while a timer of it is armed, and none is stopped while its
timer has the id that reads as no timer. -/
def TimerKept (s : Sys) : Act → Prop
  | .call (.start c _ _) => armedFor s.mem c = []
  | .call (.stop c) => ∀ tm ∈ armedFor s.mem c, tm.id ≠ 0
  | _ => True

/-- After the actions `acts` at most one timer is armed for each scheduler, and none for one
that was stopped and not started again: its `ods_process` is not run any more. -/
structure TimersOk (cs : List CtxPtr) (acts : List Act) (m : Mem) : Prop where
  atMostOne : ∀ c ∈ cs, (armedFor m c).length ≤ 1
  stopped : ∀ c ∈ cs, ∀ as bs, acts = as ++ .call (.stop c) :: bs →
    (∀ tickTimeMs id, .call (.start c tickTimeMs id) ∉ bs) →
      armedFor m c = [] ∧ ∀ tm ∈ m.timers, portTmrGeneralCbk m tm ≠ some c

/-- An armed timer is the one its scheduler has stored, and runs that scheduler. -/
structure TimerInv (cs : List CtxPtr) (m : Mem) : Prop where
  stored : ∀ tm ∈ m.timers, tm.args ∈ cs ∧ tm.id = (m.sch tm.args).odsTimer
  atMostOne : ∀ c, (armedFor m c).length ≤ 1
  callback : ∀ c ∈ cs, (m.sch c).odsTmrArgs = ⟨some .odsProcess,some c⟩

theorem odsStart_timers : (odsStart m c tickTimeMs id).timers =
    ⟨id,((odsStart m c tickTimeMs id).sch c).odsTickTimeMs.setWidth 64,true,c⟩ :: m.timers := by
  simp [odsStart,halTmrCreate]

theorem odsStart_sch_self : (odsStart m c tickTimeMs id).sch c = { m.sch c with
    odsTickTimeMs := if tickTimeMs < odsTickTimeMsMin then odsTickTimeMsMin else tickTimeMs
    odsTimer := id } := by
  simp [odsStart,halTmrCreate]

theorem odsStart_sch_of_ne (h : d ≠ c) : (odsStart m c tickTimeMs id).sch d = m.sch d := by
  simp [odsStart,halTmrCreate,h]

theorem odsStop_of_zero (h : (m.sch c).odsTimer = 0) : odsStop m c = m := by
  simp [odsStop,h]

theorem odsStop_timers (h : (m.sch c).odsTimer ≠ 0) :
    (odsStop m c).timers = m.timers.filter fun tm => tm.id ≠ (m.sch c).odsTimer := by
  simp [odsStop,h,halTmrDelete]

theorem odsStop_sch_self (h : (m.sch c).odsTimer ≠ 0) :
    (odsStop m c).sch c = { m.sch c with odsTimer := 0 } := by
  simp [odsStop,h,halTmrDelete]

theorem odsStop_sch_of_ne (h : d ≠ c) : (odsStop m c).sch d = m.sch d := by
  unfold odsStop
  split
  · simp [halTmrDelete,h]
  · rfl

/-- Only starting and stopping a scheduler touches a timer. -/
theorem ListStep.timers (hstep : ListStep a act a') :
    (a'.data.timers = a.data.timers ∧ ∀ c, a'.data.sch c = a.data.sch c) ∨
      (∃ c tickTimeMs id, act = .call (.start c tickTimeMs id) ∧
        a'.data = odsStart a.data c tickTimeMs id) ∨
      ∃ c, act = .call (.stop c) ∧ a'.data = odsStop a.data c := by
  cases hstep with
  | @call l d d' pc op _ hop he =>
    cases op with
    | init c | add c t => exact hop.elim
    | start c tickTimeMs id =>
      cases he
      exact .inr (.inl ⟨c,tickTimeMs,id,rfl,rfl⟩)
    | stop c =>
      cases he
      exact .inr (.inr ⟨c,rfl,rfl⟩)
    | task t op =>
      obtain ⟨x,-,rfl⟩ := Option.map_eq_some_iff.mp he
      exact .inl ⟨rfl,fun _ => rfl⟩
  | tick => exact .inl ⟨activateAll_timers,fun _ => by rw [activateAll_sch]⟩
  | _ => exact .inl ⟨rfl,fun _ => rfl⟩

theorem mem_armedFor {tm : Timer} : tm ∈ armedFor m c ↔ tm ∈ m.timers ∧ tm.args = c := by
  simp [armedFor]

theorem armedFor_start : armedFor (odsStart m c tickTimeMs id) d =
    if d = c then ⟨id,((odsStart m c tickTimeMs id).sch c).odsTickTimeMs.setWidth 64,true,c⟩ ::
      armedFor m c else armedFor m d := by
  unfold armedFor
  rw [odsStart_timers]
  split
  · rename_i hd
    subst hd
    simp
  · rename_i hd
    simp [Ne.symm hd]

theorem armedFor_stop_sublist : (armedFor (odsStop m c) d).Sublist (armedFor m d) := by
  by_cases hz : (m.sch c).odsTimer = 0
  · rw [odsStop_of_zero hz]
  · unfold armedFor
    rw [odsStop_timers hz]
    exact List.filter_sublist.filter _

theorem TimerInv.start (hI : TimerInv cs m) (hc : c ∈ cs) (hnone : armedFor m c = []) :
    TimerInv cs (odsStart m c tickTimeMs id) := by
  refine ⟨?_,?_,?_⟩
  · intro tm htm
    rw [odsStart_timers] at htm
    rcases List.mem_cons.mp htm with rfl | htm
    · exact ⟨hc,by rw [odsStart_sch_self]⟩
    · have hne : tm.args ≠ c := by
        intro he
        have hmem := mem_armedFor.mpr ⟨htm,he⟩
        rw [hnone] at hmem
        cases hmem
      rw [odsStart_sch_of_ne hne]
      exact hI.stored tm htm
  · intro d
    rw [armedFor_start]
    split
    · simp [hnone]
    · exact hI.atMostOne d
  · intro d hd
    by_cases hdc : d = c
    · subst hdc
      rw [odsStart_sch_self]
      exact hI.callback d hd
    · rw [odsStart_sch_of_ne hdc]
      exact hI.callback d hd

/-- A stop finds the one timer of its scheduler, unless the id of it is zero. -/
theorem TimerInv.stop_unarmed (hI : TimerInv cs m) (hkept : ∀ tm ∈ armedFor m c, tm.id ≠ 0) :
    armedFor (odsStop m c) c = [] := by
  rw [List.eq_nil_iff_forall_not_mem]
  intro tm htm
  have htm₀ := armedFor_stop_sublist.subset htm
  obtain ⟨hmem,hargs⟩ := mem_armedFor.mp htm₀
  have hid := (hI.stored tm hmem).2
  rw [hargs] at hid
  have hz : (m.sch c).odsTimer ≠ 0 := hid ▸ hkept tm htm₀
  have hdel := (mem_armedFor.mp htm).1
  rw [odsStop_timers hz] at hdel
  simp [hid] at hdel

theorem TimerInv.stop (hI : TimerInv cs m) (hkept : ∀ tm ∈ armedFor m c, tm.id ≠ 0) :
    TimerInv cs (odsStop m c) := by
  have hnone := hI.stop_unarmed hkept
  refine ⟨?_,?_,?_⟩
  · intro tm htm
    have hne : tm.args ≠ c := by
      intro he
      have hmem := mem_armedFor.mpr ⟨htm,he⟩
      rw [hnone] at hmem
      cases hmem
    have hmem : tm ∈ armedFor m tm.args :=
      armedFor_stop_sublist.subset (mem_armedFor.mpr ⟨htm,rfl⟩)
    rw [odsStop_sch_of_ne hne]
    exact hI.stored tm (mem_armedFor.mp hmem).1
  · intro d
    exact armedFor_stop_sublist.length_le.trans (hI.atMostOne d)
  · intro d hd
    by_cases hdc : d = c
    · subst hdc
      by_cases hz : (m.sch d).odsTimer = 0
      · rw [odsStop_of_zero hz]
        exact hI.callback d hd
      · rw [odsStop_sch_self hz]
        exact hI.callback d hd
    · rw [odsStop_sch_of_ne hdc]
      exact hI.callback d hd

theorem TimerInv.not_run (hI : TimerInv cs m) (hnone : armedFor m c = []) (tm : Timer)
    (htm : tm ∈ m.timers) : portTmrGeneralCbk m tm ≠ some c := by
  have hcb := hI.callback tm.args (hI.stored tm htm).1
  simp only [portTmrGeneralCbk,hcb]
  intro he
  have hmem := mem_armedFor.mpr ⟨htm,Option.some.inj he⟩
  rw [hnone] at hmem
  cases hmem

theorem TimerInv.congr {m' : Mem} (hI : TimerInv cs m) (ht : m'.timers = m.timers)
    (hs : ∀ c, m'.sch c = m.sch c) : TimerInv cs m' := by
  refine ⟨?_,?_,?_⟩
  · intro tm htm
    rw [hs]
    exact hI.stored tm (ht ▸ htm)
  · intro c
    rw [armedFor,ht]
    exact hI.atMostOne c
  · intro c hc
    rw [hs]
    exact hI.callback c hc

def TimerSafe (cs : List CtxPtr) (s : Sys) (act : Act) : Prop := Legal cs s act ∧ TimerKept s act

theorem ListStep.timerInv (h : Refines cs s a) (hok : TimerSafe cs s act)
    (hstep : ListStep a act a') (hI : TimerInv cs a.data) : TimerInv cs a'.data := by
  have harmed : armedFor a.data = armedFor s.mem := by rw [h.data]; rfl
  rcases hstep.timers with ⟨ht,hs⟩ | ⟨c,tickTimeMs,id,rfl,he⟩ | ⟨c,rfl,he⟩
  · exact hI.congr ht hs
  · rw [he]
    exact hI.start hok.1 (harmed ▸ hok.2)
  · rw [he]
    exact hI.stop (harmed ▸ hok.2)

theorem run_timerInv (hrun : Run (Step fuel) (TimerSafe cs) s acts s') (h : Refines cs s a)
    (hI : TimerInv cs s.mem) : TimerInv cs s'.mem := by
  have hI₀ : TimerInv cs a.data := by
    rw [h.data]
    exact ⟨hI.stored,hI.atMostOne,hI.callback⟩
  obtain ⟨a',hR,hI'⟩ := run_invariant (I := fun a => TimerInv cs a.data) hrun
    (fun _ _ hok => hok.1) (fun _ _ _ _ h hok hstep hI => hstep.timerInv h hok hI) h hI₀
  rw [hR.data] at hI'
  exact ⟨hI'.stored,hI'.atMostOne,hI'.callback⟩

/-- Without a start no timer gets armed. -/
theorem run_unarmed (hrun : Run (Step fuel) (TimerSafe cs) s acts s') (h : Refines cs s a)
    (hnone : armedFor s.mem c = []) (hstart : ∀ ms id, .call (.start c ms id) ∉ acts) :
    armedFor s'.mem c = [] := by
  have hnone₀ : armedFor a.data c = [] := by
    rw [h.data]
    exact hnone
  have hrun' := hrun.strengthen (Q := fun _ act => ∀ ms id, act ≠ .call (.start c ms id))
    fun us act vs _ he _ ms id hact => hstart ms id (by simp [he,hact])
  have hkeep : ∀ a act a', (∀ ms id, act ≠ .call (.start c ms id)) → ListStep a act a' →
      armedFor a.data c = [] → armedFor a'.data c = [] := by
    intro a act a' hact hstep hI
    rcases hstep.timers with ⟨ht,-⟩ | ⟨d,ms,id,rfl,he⟩ | ⟨d,rfl,he⟩
    · rw [armedFor,ht]
      exact hI
    · have hdc : c ≠ d := fun hcd => hact ms id (hcd ▸ rfl)
      rw [he,armedFor_start,if_neg hdc]
      exact hI
    · rw [he]
      exact List.sublist_nil.mp (hI ▸ armedFor_stop_sublist)
  obtain ⟨a',hR,hnone'⟩ := run_invariant (I := fun a => armedFor a.data c = []) hrun'
    (fun _ _ hok => hok.1.1) (fun _ a act a' _ hok hstep hI => hkeep a act a' hok.2 hstep hI) h hnone₀
  rw [hR.data] at hnone'
  exact hnone'

theorem boot_timerInv (hm : m.timers = []) : TimerInv cs (boot cs m).mem := by
  have ht : (boot cs m).mem.timers = [] := foldl_odsInit_timers.trans hm
  refine ⟨?_,?_,?_⟩
  · simp [ht]
  · simp [armedFor,ht]
  · intro c hc
    obtain ⟨x,hx⟩ := boot_sch m hc
    rw [hx]
    rfl

/-- A run all of whose steps keep to `TimerKept` keeps the promise. -/
theorem run_timersOk (hm : m.timers = []) (hrun : Run (Step fuel) (TimerSafe cs) (boot cs m) acts s) :
    TimersOk cs acts s.mem := by
  have hR₀ : Refines cs (boot cs m) _ := boot_refines m
  have hI := run_timerInv hrun hR₀ (boot_timerInv hm)
  refine ⟨fun c _ => hI.atMostOne c,?_⟩
  rintro c hc as bs rfl hstart
  obtain ⟨s₁,hr₁,hr₂⟩ := run_append_iff.mp hrun
  obtain ⟨hok,s₂,hs,hr₃⟩ := run_cons_iff.mp hr₂
  have hI₁ := run_timerInv hr₁ hR₀ (boot_timerInv hm)
  obtain ⟨a₁,-,hR₁⟩ := run_refines (hr₁.mono fun _ _ h => h.1) hR₀
  obtain ⟨a₂,-,hR₂⟩ := step_refines hR₁ hok.1 hs
  have hnone : armedFor s₂.mem c = [] := by
    cases hs with
    | call _ he =>
      cases he
      exact hI₁.stop_unarmed hok.2
  have hnone' := run_unarmed hr₃ hR₂ hnone hstart
  exact ⟨hnone',hI.not_run hnone'⟩

/-- A step that breaks `TimerKept` breaks the promise. -/
theorem timerKept_of_ok (hI : TimerInv cs s.mem) (hok : Legal cs s act)
    (hs : Step fuel s act s') (h : TimersOk cs (acts ++ [act]) s'.mem) : TimerKept s act := by
  unfold TimerKept
  split
  · rename_i c ms id
    cases hs with
    | call _ he =>
      cases he
      have hle := h.atMostOne c hok
      rw [armedFor_start,if_pos rfl,List.length_cons] at hle
      exact List.eq_nil_of_length_eq_zero (Nat.le_zero.mp (Nat.le_of_succ_le_succ hle))
  · rename_i c
    intro tm htm hz
    cases hs with
    | @call m _ _ _ _ he =>
      cases he
      obtain ⟨hmem,hargs⟩ := mem_armedFor.mp htm
      have hid := (hI.stored tm hmem).2
      rw [hz,hargs] at hid
      have hnone := (h.stopped c hok acts [] rfl (by simp)).1
      rw [odsStop_of_zero hid.symm] at hnone
      rw [hnone] at htm
      cases htm
  · trivial

theorem run_timerSafe (hm : m.timers = []) (hrun : Run (Step fuel) (Legal cs) (boot cs m) acts s)
    (h : ∀ as bs s', acts = as ++ bs → Run (Step fuel) (Legal cs) (boot cs m) as s' →
      TimersOk cs as s'.mem) : Run (Step fuel) (TimerSafe cs) (boot cs m) acts s := by
  induction acts using List.reverseRecOn generalizing s with
  | nil =>
    obtain rfl := run_nil_iff.mp hrun
    exact .nil _
  | append_singleton acts act ih =>
    obtain ⟨s₁,hr,hl⟩ := run_append_iff.mp hrun
    obtain ⟨hok,s₂,hs,hn⟩ := run_cons_iff.mp hl
    obtain rfl := run_nil_iff.mp hn
    have hsafe := ih hr fun as bs s' he => h as (bs ++ [act]) s' (by rw [he,List.append_assoc])
    have hI := run_timerInv hsafe (boot_refines m) (boot_timerInv hm)
    have hkept := timerKept_of_ok hI hok hs (h _ [] _ (by simp) hrun)
    exact hsafe.append (.single ⟨hok,hkept⟩ hs)

/-- In a run from `ods_init` the promise holds in every state reached, if and only if every
step of the run keeps to `TimerKept`. -/
theorem timersOk_iff (hm : m.timers = []) (hrun : Run (Step fuel) (Legal cs) (boot cs m) acts s) :
    (∀ as bs s', acts = as ++ bs → Run (Step fuel) (Legal cs) (boot cs m) as s' →
        TimersOk cs as s'.mem) ↔
      ∀ as act bs s', acts = as ++ act :: bs → Run (Step fuel) (Legal cs) (boot cs m) as s' →
        TimerKept s' act := by
  constructor
  · intro h as act bs s' he hr
    exact (run_ok_at (he ▸ run_timerSafe hm hrun h) hr).2
  · intro h as bs s' he hr
    refine run_timersOk hm (hr.strengthen (Q := TimerKept) ?_)
    intro us act vs s₁ hu hr₁
    exact h us act (vs ++ bs) s₁ (by rw [he,hu,List.append_assoc,List.cons_append]) hr₁

def timerSafeIn (cs : List CtxPtr) (fuel : Nat) (s : Sys) (act : Act) : Bool :=
  legalIn cs fuel s act &&
    match act with
    | .call (.start c _ _) => (armedFor s.mem c).isEmpty
    | .call (.stop c) => (armedFor s.mem c).all fun tm => tm.id ≠ 0
    | _ => true

theorem timerSafeIn_timerSafe (h : timerSafeIn cs fuel s act = true) : TimerSafe cs s act := by
  obtain ⟨hl,hk⟩ := Bool.and_eq_true_iff.mp h
  refine ⟨legalIn_legal hl,?_⟩
  unfold TimerKept
  split
  · exact List.isEmpty_iff.mp hk
  · simpa using hk
  · trivial

def restart : List Act :=
  [.call (.start 0 20 7),.call (.start 1 30 8),.call (.stop 0),.call (.start 0 50 9),.call (.stop 1)]

theorem timersOk_restart : ∃ s, Run (Step 1) (Legal [0,1]) (boot [0,1] blank) restart s ∧
    TimersOk [0,1] restart s.mem ∧ (armedFor s.mem 0).length = 1 := by
  obtain ⟨s,hr,hlen⟩ := runChecked_any (timerSafeIn [0,1] 1) 1 (boot [0,1] blank) restart
    (fun s => (armedFor s.mem 0).length = 1) (fun _ _ => timerSafeIn_timerSafe) (by decide +kernel)
  have hl : Run (Step 1) (Legal [0,1]) (boot [0,1] blank) restart s := hr.mono fun _ _ h => h.1
  refine ⟨s,hl,?_,by simpa using hlen⟩
  exact (timersOk_iff rfl hl).mpr (fun _ _ _ _ he hr' => (run_ok_at (he ▸ hr) hr').2) restart []
    s (by simp) hl

/-- The id 0 is a timer for the driver and none for `ods_stop`. -/
theorem timer_leaks : ∃ s, Run (Step 1) (fun s act => Legal [0] s act ∧ DriverOk s act)
    (boot [0] blank) [.call (.start 0 20 0),.call (.stop 0)] s ∧
      ¬ TimersOk [0] [.call (.start 0 20 0),.call (.stop 0)] s.mem := by
  let m := odsStart (boot [0] blank).mem 0 20 0
  have hs₁ : Step 1 (boot [0] blank) (.call (.start 0 20 0)) ⟨m,.idle⟩ := .call trivial rfl
  have hs₂ : Step 1 ⟨m,.idle⟩ (.call (.stop 0)) ⟨odsStop m 0,.idle⟩ := .call trivial rfl
  refine ⟨_,.cons ⟨List.mem_cons_self,?_⟩ hs₁ (.single ⟨List.mem_cons_self,trivial⟩ hs₂),?_⟩
  · intro tm htm
    cases htm
  · intro h
    have hnone := (h.stopped 0 List.mem_cons_self [.call (.start 0 20 0)] [] rfl (by simp)).1
    revert hnone
    decide

end Ods
