import Ods.TaskHistory

/-! Event bits: what a satisfied wait consumes, and which steps take a pending bit away. -/
namespace Ods
open LabelledRun

section Bits
variable {v w : U32} {e : Event} {b : Nat}

theorem pos_iff_ne_zero : 0#32 < v ↔ v ≠ 0#32 := by
  constructor
  · rintro h rfl
    exact BitVec.not_lt_zero h
  · intro h
    bv_omega

theorem and_eq_zero_iff :
    v &&& w = 0#32 ↔ ∀ b, v.getLsbD b = true → w.getLsbD b = false := by
  constructor
  · intro h b hv
    have hb := congrArg (·.getLsbD b) h
    simpa [hv] using hb
  · intro h
    refine BitVec.eq_of_getLsbD_eq fun b _ => ?_
    cases hv : v.getLsbD b with
    | false => simp [hv]
    | true => simp [h b hv]

theorem and_eq_right_iff :
    v &&& w = w ↔ ∀ b, w.getLsbD b = true → v.getLsbD b = true := by
  constructor
  · intro h b hw
    have hb := congrArg (·.getLsbD b) h
    simpa [hw] using hb
  · intro h
    refine BitVec.eq_of_getLsbD_eq fun b _ => ?_
    cases hw : w.getLsbD b with
    | false => simp [hw]
    | true => simp [h b hw,hw]

theorem lt_of_getLsbD (h : v.getLsbD b = true) : b < 32 := by
  by_contra hb
  rw [BitVec.getLsbD_of_ge _ _ (by omega)] at h
  cases h

def Event.Awaited (e : Event) : Prop :=
  match e.type with
  | .or => ∃ b, e.events.getLsbD b = true ∧ e.mask.getLsbD b = true
  | .and => ∀ b, e.mask.getLsbD b = true → e.events.getLsbD b = true

theorem Event.satisfied_iff : e.satisfied = true ↔ e.Awaited := by
  unfold satisfied Awaited
  cases e.type with
  | or => simp [pos_iff_ne_zero,and_eq_zero_iff]
  | and => simp [and_eq_right_iff]

/-- No awaited bit is pending after a satisfied wait. -/
theorem Event.consumed_and_mask : e.consumed &&& e.mask = 0#32 := by
  rw [and_eq_zero_iff]
  intro b hb
  unfold consumed at hb
  cases ht : e.type with
  | or =>
    rw [ht] at hb
    simp only [BitVec.getLsbD_and,BitVec.getLsbD_not,Bool.and_eq_true] at hb
    obtain ⟨he,-,hn⟩ := hb
    simpa [he] using hn
  | and =>
    rw [ht] at hb
    simp at hb

theorem Event.consumed_of_or (ht : e.type = .or) (hm : e.mask.getLsbD b = false) :
    e.consumed.getLsbD b = e.events.getLsbD b := by
  unfold consumed
  rw [ht]
  cases he : e.events.getLsbD b with
  | false => simp [he]
  | true =>
    have hb := lt_of_getLsbD he
    simp only [BitVec.getLsbD_and,BitVec.getLsbD_not,he,hm,hb]
    rfl

theorem Event.consumed_of_and (ht : e.type = .and) : e.consumed = 0#32 := by
  unfold consumed
  rw [ht]
  rfl

def Event.surplus (e : Event) : U32 := e.events &&& ~~~e.mask

theorem Event.surplus_eq_zero_iff :
    e.surplus = 0#32 ↔ ∀ b, e.events.getLsbD b = true → e.mask.getLsbD b = true := by
  rw [surplus,and_eq_zero_iff]
  constructor
  · intro h b hb
    simpa [lt_of_getLsbD hb] using h b hb
  · intro h b hb
    simp [h b hb]

/-- A satisfied wait leaves the bits outside its mask alone, if and only if it waited for
any of the bits, or no bit outside the mask was pending. -/
theorem Event.consumed_off_mask_iff :
    (∀ b, e.mask.getLsbD b = false → e.consumed.getLsbD b = e.events.getLsbD b) ↔
      (e.type = .and → e.surplus = 0#32) := by
  rw [surplus_eq_zero_iff]
  cases ht : e.type with
  | or => simpa using fun b hm => consumed_of_or ht hm
  | and =>
    rw [consumed_of_and ht]
    constructor
    · intro h _ b hb
      by_contra hm
      have hz := h b (by simpa using hm)
      rw [hb] at hz
      simp at hz
    · intro h b hm
      cases he : e.events.getLsbD b with
      | false => simp
      | true =>
        rw [h rfl b he] at hm
        cases hm

end Bits

section History
variable {cs : List CtxPtr} {m : Mem} {fuel : Nat} {s s₁ s₂ : Sys} {a a' : ListSched}
variable {c : CtxPtr} {t : TaskPtr} {act : Act} {acts acts₀ : List Act} {x x' : TaskCtx} {b : Nat}
variable {mask : U32}

def endsWait (s : Sys) (t : TaskPtr) : Act → Bool
  | .visit =>
    match s.pc with
    | .walk _ (some item) =>
      item = t && (s.mem.task t).state = .event && (s.mem.task t).event.satisfied
    | _ => false
  | _ => false

/-- A step after which a pending bit `b` of `t`, a task in an exec list, must still be
pending: `t` is not told to drop `b`, and no wait for `b` ends. -/
def Quiet (cs : List CtxPtr) (t : TaskPtr) (b : Nat) (s : Sys) (act : Act) : Prop :=
  Legal cs s act ∧ (∃ c ∈ cs, InExec s.mem c t) ∧
    (∀ mask, act = .call (.task t (.eventSet mask .and)) → mask.getLsbD b = true) ∧
    (endsWait s t act = true → (s.mem.task t).event.mask.getLsbD b = false)

/-- No wait for all bits of a mask ends while another bit is pending. -/
def NoSurplus (t : TaskPtr) (s : Sys) (act : Act) : Prop :=
  endsWait s t act = true → (s.mem.task t).event.type = .and → (s.mem.task t).event.surplus = 0#32

/-- What a call on a task does to its event record. -/
theorem TaskOp.apply_event {op : TaskOp} (h : op.apply m x = some x') :
    x'.event = x.event ∨
      (∃ mask type, op = .eventSet mask type ∧ x' = odsTaskEventSet x mask type) ∨
      ∃ mask type ms, op = .eventWait mask type ms ∧ x'.event.events = x.event.events := by
  cases op with
  | del | done =>
    cases h
    exact .inl rfl
  | pause | resume =>
    cases h
    left
    simp only [odsTaskPause,odsTaskResume]
    split <;> rfl
  | sleep timeMs =>
    left
    rcases odsTaskSleep_some h with ⟨-,rfl⟩ | ⟨-,p,-,-,rfl⟩ <;> rfl
  | eventSet mask type =>
    cases h
    exact .inr (.inl ⟨mask,type,rfl,rfl⟩)
  | eventWait mask type ms =>
    obtain ⟨p,-,-,rfl⟩ := odsTaskEventWait_some h
    exact .inr (.inr ⟨mask,type,ms,rfl,rfl⟩)

/-- The wake-up step writes the pending events only when it ends a wait as satisfied. -/
theorem odsExecWake_events : (odsExecWake x).event.events =
    if x.state = .event ∧ x.event.satisfied = true then x.event.consumed else x.event.events := by
  by_cases hs : x.state = .sleep
  · rw [odsExecWake_of_sleep hs]
    simp [hs]
  · by_cases he : x.state = .event
    · cases hsat : x.event.satisfied with
      | true => rw [odsExecWake_of_satisfied he hsat,if_pos ⟨he,rfl⟩]
      | false =>
        rw [odsExecWake_of_unsatisfied he hsat]
        simp
    · rw [odsExecWake_of_other hs he,if_neg (by simp [he])]

theorem ListStep.bit_wake (h : Refines cs s a) {rest : List TaskPtr}
    (hpc : a.pc = .walk c (t :: rest)) (hq : Quiet cs t b s .visit) (hc : NoSurplus t s .visit)
    (hb : (a.data.task t).event.events.getLsbD b = true) :
    (odsExecWake (a.data.task t)).event.events.getLsbD b = true := by
  rw [odsExecWake_events]
  split
  · rename_i hsat
    have hends : endsWait s t .visit = true := by
      rw [h.state,h.event] at hsat
      simp [endsWait,(h.exec_of_walk hpc).2.2,hsat]
    have hm := hq.2.2.2 hends
    have ho := hc hends
    rw [← h.event] at hm ho
    rw [Event.consumed_off_mask_iff.mpr ho b hm]
    exact hb
  · exact hb

theorem ListStep.bit_kept (h : Refines cs s a) (hq : Quiet cs t b s act) (hc : NoSurplus t s act)
    (hstep : ListStep a act a') (hb : (a.data.task t).event.events.getLsbD b = true) :
    (a'.data.task t).event.events.getLsbD b = true := by
  obtain ⟨c,hcs,hin⟩ := hq.2.1
  have hexec := (h.rep.inExec_iff hcs).mp hin
  cases hstep.taskStep t with
  | same he => rw [he,hb]
  | @call op ho =>
    rcases TaskOp.apply_event ho with he | ⟨mask,type,rfl,he⟩ | ⟨mask,type,ms,rfl,he⟩
    · rw [he,hb]
    · rw [he]
      cases type with
      | or => simp [odsTaskEventSet,hb]
      | and => simp [odsTaskEventSet,hb,hq.2.2.1 mask rfl]
    · rw [he,hb]
  | add => exact (hq.1.2 ⟨c,hcs,.inl hin⟩).elim
  | activate hp => exact (Layout.not_pend_of_exec hexec hp).elim
  | skip hpc _ _ he =>
    rw [he]
    exact bit_wake h hpc hq hc hb
  | invoke hpc _ _ he =>
    rw [he]
    exact bit_wake h hpc hq hc hb
  | ret _ _ he =>
    rw [he]
    exact hb

/-- An event bit raised on `t` stays pending along every run of `Quiet` steps in which no
wait for all bits of a mask ends with a bit outside the mask pending; and that a satisfied
wait leaves the bits outside its mask alone is the case exactly then. -/
theorem event_bit_kept (hreach : Run (Step fuel) (Legal cs) (boot cs m) acts₀ s)
    (hset : Step fuel s (.call (.task t (.eventSet mask .or))) s₁) (hb : mask.getLsbD b = true)
    (hrun : Run (Step fuel) (fun s act => Quiet cs t b s act ∧ NoSurplus t s act) s₁ acts s₂) :
    (odsTaskEventGet (s₂.mem.task t)).getLsbD b = true ∧
      ∀ x : TaskCtx, x.state = .event → x.event.satisfied = true →
        ((∀ b, x.event.mask.getLsbD b = false →
            (odsTaskEventGet (odsExecWake x)).getLsbD b = (odsTaskEventGet x).getLsbD b) ↔
          (x.event.type = .and → x.event.surplus = 0#32)) := by
  constructor
  · obtain ⟨a,-,hR⟩ := reachable_refines hreach
    have hok : Legal cs s (.call (.task t (.eventSet mask .or))) := trivial
    obtain ⟨a₁,hstep,hR₁⟩ := step_refines hR hok hset
    have hb₁ : (a₁.data.task t).event.events.getLsbD b = true := by
      cases hstep with
      | call _ _ he =>
        cases he
        simp [odsTaskEventSet,hb]
    obtain ⟨a₂,hR₂,hb₂⟩ := run_invariant
      (I := fun a => (a.data.task t).event.events.getLsbD b = true) hrun (fun _ _ hok => hok.1.1)
      (fun _ _ _ _ h hok hstep hI => hstep.bit_kept h hok.1 hok.2 hI) hR₁ hb₁
    rw [hR₂.event] at hb₂
    exact hb₂
  · intro x hs hsat
    have hw : odsTaskEventGet (odsExecWake x) = x.event.consumed := by
      rw [odsTaskEventGet,odsExecWake_events,if_pos ⟨hs,hsat⟩]
    rw [hw]
    exact Event.consumed_off_mask_iff

def quietIn (cs : List CtxPtr) (fuel : Nat) (t : TaskPtr) (b : Nat) (s : Sys) (act : Act) : Bool :=
  legalIn cs fuel s act &&
    (cs.any fun c => presentIn fuel s.mem (s.mem.sch c).odsExecList t) &&
    (match act with
      | .call (.task u (.eventSet mask .and)) => u ≠ t || mask.getLsbD b
      | _ => true) &&
    (!endsWait s t act || !(s.mem.task t).event.mask.getLsbD b)

theorem quietIn_quiet (h : quietIn cs fuel t b s act = true) : Quiet cs t b s act := by
  simp only [quietIn,Bool.and_eq_true] at h
  obtain ⟨⟨⟨hl,hin⟩,hset⟩,hends⟩ := h
  refine ⟨legalIn_legal hl,?_,?_,?_⟩
  · obtain ⟨c,hc,hp⟩ := List.any_eq_true.mp hin
    exact ⟨c,hc,presentIn_meets hp⟩
  · rintro mask rfl
    simpa using hset
  · intro he
    simpa [he] using hends

def noSurplusIn (t : TaskPtr) (s : Sys) (act : Act) : Bool :=
  !endsWait s t act || (s.mem.task t).event.type ≠ .and || (s.mem.task t).event.surplus = 0#32

theorem noSurplusIn_noSurplus (h : noSurplusIn t s act = true) : NoSurplus t s act := by
  intro he ht
  simpa [noSurplusIn,he,ht] using h

def waitForBit0 (type : EventMaskType) : List Act :=
  [.call (.task 1 (.eventSet 1 .or)),.call (.task 1 (.eventWait 1 type 100)),.ret,.finish,
    .tick 0,.visit]

theorem event_bit_kept_or : ∃ s s₁ s₂,
    Run (Step 5) (Legal [0]) (boot [0] blank) [.call (.add 0 1),.tick 0,.visit] s ∧
      Step 5 s (.call (.task 1 (.eventSet 2 .or))) s₁ ∧
      Run (Step 5) (fun s act => Quiet [0] 1 1 s act ∧ NoSurplus 1 s act) s₁ (waitForBit0 .or) s₂ ∧
      (odsTaskEventGet (s₂.mem.task 1)).getLsbD 1 = true := by
  obtain ⟨s,hreach,hP⟩ := runChecked_any (legalIn [0] 5) 5 (boot [0] blank)
    [.call (.add 0 1),.tick 0,.visit]
    (fun s => (step 5 s (.call (.task 1 (.eventSet 2 .or)))).any fun s₁ =>
      (runChecked (fun s act => quietIn [0] 5 1 1 s act && noSurplusIn 1 s act) 5 s₁
        (waitForBit0 .or)).isSome)
    (fun _ _ => legalIn_legal) (by decide +kernel)
  obtain ⟨s₁,hset,hP⟩ := (Option.any_eq_true _ _).mp hP
  obtain ⟨s₂,hrun⟩ := Option.isSome_iff_exists.mp hP
  have hset := step_iff.mp hset
  have hrun : Run (Step 5) (fun s act => Quiet [0] 1 1 s act ∧ NoSurplus 1 s act) s₁
      (waitForBit0 .or) s₂ := by
    refine runChecked_run (fun s act h => ?_) hrun
    exact (Bool.and_eq_true_iff.mp h).imp quietIn_quiet noSurplusIn_noSurplus
  exact ⟨s,s₁,s₂,hreach,hset,hrun,(event_bit_kept hreach hset (by decide) hrun).1⟩

/-- A wait for all bits of its mask drops the pending bit outside it. -/
theorem event_bit_lost : ∃ s s₁ s₂,
    Run (Step 5) (Legal [0]) (boot [0] blank) [.call (.add 0 1),.tick 0,.visit] s ∧
      Step 5 s (.call (.task 1 (.eventSet 2 .or))) s₁ ∧
      Run (Step 5) (Quiet [0] 1 1) s₁ (waitForBit0 .and) s₂ ∧
      (2#32).getLsbD 1 = true ∧ (odsTaskEventGet (s₂.mem.task 1)).getLsbD 1 = false := by
  obtain ⟨s,hreach,hP⟩ := runChecked_any (legalIn [0] 5) 5 (boot [0] blank)
    [.call (.add 0 1),.tick 0,.visit]
    (fun s => (step 5 s (.call (.task 1 (.eventSet 2 .or)))).any fun s₁ =>
      (runChecked (quietIn [0] 5 1 1) 5 s₁ (waitForBit0 .and)).any fun s₂ =>
        !(odsTaskEventGet (s₂.mem.task 1)).getLsbD 1)
    (fun _ _ => legalIn_legal) (by decide +kernel)
  obtain ⟨s₁,hset,hP⟩ := (Option.any_eq_true _ _).mp hP
  obtain ⟨s₂,hrun,hlost⟩ := (Option.any_eq_true _ _).mp hP
  exact ⟨s,s₁,s₂,hreach,step_iff.mp hset,runChecked_run (fun _ _ => quietIn_quiet) hrun,by decide,
    by simpa using hlost⟩

end History

end Ods
