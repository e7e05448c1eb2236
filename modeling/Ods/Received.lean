import Ods.Consumer

/-! Who raises the event the consumer of `src/examples/main.c` waits for is left open here: it
receives it no more often than it was raised. -/
namespace Ods
open LabelledRun

section Event
variable {cs : List CtxPtr} {s : Sys} {a a' : ListSched} {c : CtxPtr} {t u : TaskPtr} {act : Act}
variable {p : U32} {σ : Type} {code : TaskCode σ} {r r' : Coded σ} {o o' : Own σ} {x : TaskCtx}

/-- Whether its event is raised. On a queued task none is: the tick that activates it clears
them. -/
def Own.raised (o : Own σ) : Bool := o.place ≠ .queued && raisedOn o.ctx

/-- The event of a task that is not queued is raised by calls and taken by visits. -/
theorem ListStep.raisedOn (hstep : ListStep a act a') (h : Refines cs s a)
    (hv : visitedAs u s act = none) (hp : ∀ e, u ∉ a.lay.pend e)
    (hset : ∀ mask type, act ≠ .call (.task u (.eventSet mask type))) :
    Ods.raisedOn (a'.data.task u) = Ods.raisedOn (a.data.task u) := by
  have hwalk : ∀ {e : CtxPtr} {rest : List TaskPtr}, a.pc = .walk e (u :: rest) → act ≠ .visit := by
    rintro e rest hpc rfl
    rw [visitedAs_of_walk (h.exec_of_walk hpc).2.2] at hv
    cases hv
  cases hstep.taskStep u with
  | same he => rw [he]
  | @call op ho =>
    rcases TaskOp.apply_event ho with he | ⟨mask,type,rfl,-⟩ | ⟨mask,type,ms,-,he⟩
    · rw [Ods.raisedOn,odsTaskEventGet,he]
      rfl
    · exact (hset mask type rfl).elim
    · rw [Ods.raisedOn,odsTaskEventGet,he]
      rfl
  | add he =>
    rw [he]
    rfl
  | activate hpend => exact (hp _ hpend).elim
  | skip hpc => exact (hwalk hpc rfl).elim
  | invoke hpc => exact (hwalk hpc rfl).elim
  | ret _ _ he =>
    rw [he]
    rfl

theorem Place.Of.not_pend_any {pl : Place} (hl : pl.Of t c a) (hq : pl ≠ .queued) (e : CtxPtr) :
    t ∉ a.lay.pend e :=
  hl.not_pend fun h => (hq h).elim

theorem OwnStep.queued {y : Option TaskCtx} (hs : OwnStep code t p o y o')
    (hq : o.place = .queued) : o'.raised = false := by
  cases hs with
  | still => simp [Own.raised,hq]
  | event =>
    obtain rfl : _ = Place.queued := hq
    rfl
  | activate => simp [Own.raised,raisedOn,odsTaskEventGet,Ods.activate,Event.zero]
  | _ => cases hq

theorem OwnStep.place_ne_queued {y : Option TaskCtx} (hs : OwnStep code t p o y o')
    (hq : o.place ≠ .queued) : o'.place ≠ .queued := by
  cases hs with
  | still | event => exact hq
  | activate => exact (hq rfl).elim
  | _ => exact fun h => by cases h

/-- Nothing else touches it. -/
theorem Shows.raised (h : Shows cs c u p r a o) (h' : Shows cs c u p r' a' o')
    (hown : OwnStep code u p o none o') (hstep : ListStep a act a')
    (hv : visitedAs u r.sys act = none)
    (hset : ∀ mask type, act ≠ .call (.task u (.eventSet mask type))) : o'.raised = o.raised := by
  by_cases hq : o.place = .queued
  · rw [hown.queued hq,Own.raised,hq]
    rfl
  · have hkept := hstep.raisedOn h.refines hv (h.place.not_pend_any hq) hset
    rw [Own.raised,Own.raised,h.ctx,h'.ctx,hkept,decide_eq_true hq,
      decide_eq_true (hown.place_ne_queued hq)]

/-- A visit begins in the exec list, and wakes the task. -/
theorem OwnStep.visit (hs : OwnStep code t p o (some x) o') : o.place = .listed ∧ o.ctx = x ∧
    o'.place ≠ .queued ∧ raisedOn o'.ctx = raisedOn (odsExecWake x) := by
  cases hs with
  | skip => exact ⟨rfl,rfl,by simp,rfl⟩
  | enter => exact ⟨rfl,rfl,by simp,rfl⟩

end Event

section Visits
variable {u : TaskPtr} {p : U32} {o o' : Own (TskCtrl × List TskReport)} {y : Consuming} {b : Bool}

def Consuming.take : Consuming → Bool → Bool
  | .wait _ _, _ => false
  | _, raised => raised

/-- A visit takes the event when it ends a wait with it. -/
theorem ConsumerPhase.take (h : ConsumerPhase u p y o) (hl : o.place = .listed) :
    raisedOn (odsExecWake o.ctx) = y.take (raisedOn o.ctx) := by
  have hsame : o.ctx.state = .run → raisedOn (odsExecWake o.ctx) = raisedOn o.ctx := by
    intro hs
    rw [odsExecWake_of_other (by simp [hs]) (by simp [hs])]
  cases h with
  | queued => cases hl
  | idle _ hs => exact hsame hs
  | recv _ _ hs => exact hsame hs
  | ask => cases hl
  | @wait _ x _ _ _ _ _ _ hx =>
    rw [Consuming.take,raisedOn,odsTaskEventGet,odsExecWake_events]
    split
    · rw [Event.consumed_of_and hx.type]
      rfl
    · rename_i hn
      have hw : ¬ Wanted 1 .and x.event.events := by
        rw [← hx.satisfied_iff]
        exact fun hsat => hn ⟨hx.state,hsat⟩
      rw [wanted_iff,Bool.not_eq_true] at hw
      exact hw
  | done _ _ hs => exact hsame hs

/-- A visit that tells of the event takes it. -/
theorem Consuming.verdict_take :
    (y.verdict b).toList.count true + (y.take b).toNat ≤ b.toNat := by
  cases y with
  | wait j left =>
    cases b with
    | true => simp [verdict,take]
    | false =>
      by_cases hl : left ≤ 1 <;> simp [verdict,take,hl]
  | _ => simp [verdict,take]

end Visits

section Runs
variable {cs : List CtxPtr} {fuel n : Nat} {s : Sys} {c : CtxPtr} {t : TaskPtr} {m : Mem} {p : U32}
variable {act : Act} {acts acts₀ : List Act} {ctrl : TskCtrl} {a a' : ListSched} {y : Consuming}
variable {r r' : Coded (TskCtrl × List TskReport)} {o o' : Own (TskCtrl × List TskReport)}

def raises (t : TaskPtr) (act : Act) : Bool :=
  match eventSetOn t act with
  | some (mask,.or) => mask.getLsbD 0
  | _ => false

theorem raisedOn_set {x : TaskCtx} {mask : U32} {type : EventMaskType} :
    (raisedOn (odsTaskEventSet x mask type)).toNat ≤
      (raisedOn x).toNat + (raises t (.call (.task t (.eventSet mask type)))).toNat := by
  cases type with
  | or =>
    simp only [raisedOn,odsTaskEventGet,odsTaskEventSet,raises,eventSetOn,if_true,BitVec.getLsbD_or]
    cases x.event.events.getLsbD 0 <;> cases mask.getLsbD 0 <;> decide
  | and =>
    simp only [raisedOn,odsTaskEventGet,odsTaskEventSet,raises,eventSetOn,if_true,
      BitVec.getLsbD_and]
    cases x.event.events.getLsbD 0 <;> cases mask.getLsbD 0 <;> decide

/-- A step that does not visit the task raises its event by a call that does. -/
theorem Shows.raised_le (h : Shows cs c t p r a o) (h' : Shows cs c t p r' a' o')
    (hown : OwnStep tskConsumer t p o none o') (hstep : ListStep a act a')
    (hv : visitedAs t r.sys act = none) :
    o'.raised.toNat ≤ o.raised.toNat + (raises t act).toNat := by
  by_cases hset : ∃ mask type, act = .call (.task t (.eventSet mask type))
  · obtain ⟨mask,type,rfl⟩ := hset
    by_cases hq : o.place = .queued
    · rw [hown.queued hq]
      exact Nat.zero_le _
    · obtain ⟨-,-,hctx⟩ := hstep.call_self
      have hctx : odsTaskEventSet (a.data.task t) mask type = a'.data.task t := Option.some.inj hctx
      rw [Own.raised,Own.raised,decide_eq_true hq,decide_eq_true (hown.place_ne_queued hq),
        Bool.true_and,Bool.true_and,h.ctx,h'.ctx,← hctx]
      exact raisedOn_set
  · have hnone : ∀ mask type, act ≠ .call (.task t (.eventSet mask type)) :=
      fun mask type hc => hset ⟨mask,type,hc⟩
    rw [h.raised h' hown hstep hv hnone]
    exact Nat.le_add_right _ _

/-- What was received and what is raised, together, was raised since the task was queued. -/
def Accounted (n : Nat) (o : Own (TskCtrl × List TskReport)) : Prop :=
  (verdictsIn o.priv.2).count true + o.raised.toNat ≤ n

theorem Shows.accounted (h : Shows cs c t p r a o) (h' : Shows cs c t p r' a' o')
    (hphase : ConsumerPhase t p y o)
    (hown : OwnStep tskConsumer t p o ((visitedAs t r.sys act).map TaskCtx.data) o')
    (hstep : ListStep a act a') (hn : Accounted n o) :
    Accounted (n + (raises t act).toNat) o' := by
  have htold := (hphase.step hown).2
  unfold Accounted at hn ⊢
  rw [htold,List.count_append]
  cases hv : visitedAs t r.sys act with
  | none =>
    rw [hv] at hown
    have hle := h.raised_le h' hown hstep hv
    simp only [Option.map_none,Option.bind_none,Option.toList_none,List.count_nil]
    omega
  | some x =>
    rw [hv] at hown
    obtain ⟨hl,hctx,hq,hwake⟩ := hown.visit
    have htake := hphase.take hl
    have hone := Consuming.verdict_take (y := y) (b := raisedOn x.data)
    have hbefore : o.raised = raisedOn x.data := by
      rw [Own.raised,hl,hctx]
      rfl
    have hafter : o'.raised = y.take (raisedOn x.data) := by
      rw [Own.raised,decide_eq_true hq,Bool.true_and,hwake,← hctx,htake]
    rw [hbefore] at hn
    rw [hafter]
    simp only [Option.map_some,Option.bind_some]
    omega

theorem accounted_run
    (hrun : Run (CodedStep tskConsumer (fun _ => False) fuel t) (fun r act => Timed cs c r.sys act)
      r acts r') (h : Shows cs c t p r a o) (hphase : ConsumerPhase t p y o) (hn : Accounted n o) :
    ∃ a' o', Shows cs c t p r' a' o' ∧ Accounted (n + acts.countP (raises t)) o' := by
  induction hrun generalizing a o y n with
  | nil r => exact ⟨a,o,h,hn⟩
  | @cons r r₁ r' act acts hok hs _ ih =>
    obtain ⟨a₁,hstep,hR₁⟩ := step_refines h.refines hok.legal hs.step
    obtain ⟨o₁,hown,h₁⟩ := hs.own h hok hstep hR₁
    obtain ⟨a',o',h',hn'⟩ := ih h₁ (hphase.step hown).1 (h.accounted h₁ hphase hown hstep hn)
    refine ⟨a',o',h',?_⟩
    rw [List.countP_cons]
    have hone : (raises t act).toNat = if raises t act = true then 1 else 0 := by
      cases raises t act <;> rfl
    rwa [hone,Nat.add_assoc,Nat.add_comm _ (List.countP _ _)] at hn'

/-- The consumer, from the moment it is queued, whatever else the clients do, as long as they
set no more than events on it and do not start its scheduler again: at any time it has received
its event no more often than the event was raised, and once less often while it is pending. -/
theorem received_le_raised (hreach : Run (Step fuel) (Legal cs) (boot cs m) acts₀ s) (hc : c ∈ cs)
    (hq : Queued s.mem c t) (hfunc : (s.mem.task t).func ≠ none) (hctrl : ctrl.state = .idle)
    (hrun : Run (CodedStep tskConsumer (fun _ => False) fuel t) (fun r act => Timed cs c r.sys act)
      ⟨s,(ctrl,[]),[]⟩ acts r) :
    (verdictsIn r.priv.2).count true ≤ acts.countP (raises t) ∧
      (InExec r.sys.mem c t → raisedOn (r.sys.mem.task t) = true →
        (verdictsIn r.priv.2).count true < acts.countP (raises t)) := by
  obtain ⟨a,-,hshows⟩ := shows_queued (q := (ctrl,[])) hreach hc hq
  have hphase : ConsumerPhase t (s.mem.sch c).odsTickTimeMs .idle
      ⟨.queued,(s.mem.task t).data,(ctrl,[]),[]⟩ := .queued hfunc hctrl
  have hzero : Accounted 0 ⟨.queued,(s.mem.task t).data,(ctrl,([] : List TskReport)),[]⟩ := le_rfl
  obtain ⟨a',o',h',hn⟩ := accounted_run hrun hshows hphase hzero
  rw [Accounted,h'.priv,Nat.zero_add] at hn
  refine ⟨le_trans (Nat.le_add_right _ _) hn,fun hin hraised => ?_⟩
  have hplace : o'.place ≠ .queued := by
    intro hp
    have hpend := h'.place
    rw [hp] at hpend
    exact Layout.not_pend_of_exec ((h'.refines.rep.inExec_iff hc).mp hin) hpend
  have hone : o'.raised = true := by
    rw [Own.raised,decide_eq_true hplace,h'.ctx,h'.refines.task]
    exact hraised
  rw [hone] at hn
  exact hn

def raisedOnce : List Act :=
  [.tick 0,.visit,.ret,.finish] ++ askTick ++ [.call (.task 1 (.eventSet 1 .or))]

theorem received_le_raised_once : ∃ s r,
    Run (Step 5) (Legal [0]) (boot [0] blank) queuedAt500 s ∧ Queued s.mem 0 1 ∧
      Run (CodedStep tskConsumer (fun _ => False) 5 1) (fun r act => Timed [0] 0 r.sys act)
        ⟨s,(⟨.idle,0,0,2⟩,[]),[]⟩ raisedOnce r ∧
      raisedOn (r.sys.mem.task 1) = true ∧ raisedOnce.countP (raises 1) = 1 ∧
      (verdictsIn r.priv.2).count true < 1 := by
  obtain ⟨s,hreach,hP⟩ := runChecked_any (legalIn [0] 5) 5 (boot [0] blank) queuedAt500
    (fun s => presentIn 5 s.mem (s.mem.sch 0).odsPreExecList 1 && (s.mem.task 1).func = some 0 &&
      (runCoded tskConsumer (fun _ => False) [0] 5 0 1 ⟨s,(⟨.idle,0,0,2⟩,[]),[]⟩ raisedOnce).any
        fun r => presentIn 5 r.sys.mem (r.sys.mem.sch 0).odsExecList 1 && raisedOn (r.sys.mem.task 1))
    (fun _ _ => legalIn_legal) (by decide +kernel)
  simp only [Bool.and_eq_true,decide_eq_true_eq] at hP
  obtain ⟨⟨hqueued,hfunc⟩,hP⟩ := hP
  obtain ⟨r,hr,hpending⟩ := (Option.any_eq_true _ _).mp hP
  obtain ⟨hin,hraised⟩ := Bool.and_eq_true_iff.mp hpending
  have hq : Queued s.mem 0 1 := presentIn_meets hqueued
  have hexec : InExec r.sys.mem 0 1 := presentIn_meets hin
  have hrun := runCoded_run hr
  have hticks : raisedOnce.countP (raises 1) = 1 := by decide
  obtain ⟨-,hless⟩ := received_le_raised hreach List.mem_cons_self hq (by simp [hfunc]) rfl hrun
  exact ⟨s,r,hreach,hq,hrun,hraised,hticks,hticks ▸ hless hexec hraised⟩

end Runs

end Ods
