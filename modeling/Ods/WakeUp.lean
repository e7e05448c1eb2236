import Ods.Tick

/-! What one public call and one wake-up step do to a task record: what a timed call leaves,
the fields no call writes, and the cases of the wake-up step. -/
namespace Ods

section Timed
variable {m : Mem} {x x' : TaskCtx} {a b q p timeMs eventMask tmroutMs : U32} {type : EventMaskType}

theorem cDiv_eq_some_iff : cDiv a b = some q ↔ b ≠ 0 ∧ a / b = q := by
  unfold cDiv
  split
  · rename_i hb
    simp [hb]
  · rename_i hb
    rw [Option.some.injEq,and_iff_right hb]

theorem ne_zero_of_min_le (h : odsTickTimeMsMin ≤ p) : p ≠ 0 := by
  rintro rfl
  revert h
  decide

/-- `ods_task_sleep` does nothing to a task that does not run. -/
theorem odsTaskSleep_some (h : odsTaskSleep m x timeMs = some x') :
    x.state ≠ .run ∧ x' = x ∨ x.state = .run ∧ ∃ p, tickTimeOf m x = some p ∧ p ≠ 0 ∧ x' =
      { x with state := .sleep, sleepTickCounter := if timeMs / p = 0 then 1 else timeMs / p } := by
  unfold odsTaskSleep at h
  split at h
  · rename_i hs
    simp only [Option.bind_eq_bind,Option.bind_eq_some_iff,Option.some.injEq] at h
    obtain ⟨p,hp,ticks,ht,rfl⟩ := h
    obtain ⟨hne,rfl⟩ := cDiv_eq_some_iff.mp ht
    exact .inr ⟨hs,p,hp,hne,rfl⟩
  · rename_i hs
    exact .inl ⟨hs,(Option.some.inj h).symm⟩

theorem odsTaskSleep_total (timeMs : U32) (hp : tickTimeOf m x = some p) (hne : p ≠ 0) :
    ∃ x', odsTaskSleep m x timeMs = some x' := by
  have hp' : tickTimeOf m { x with state := .sleep } = some p := hp
  have hdiv : cDiv timeMs p = some (timeMs / p) := if_neg hne
  unfold odsTaskSleep
  split
  · simp only [hp',hdiv,Option.bind_eq_bind,Option.bind_some]
    exact ⟨_,rfl⟩
  · exact ⟨x,rfl⟩

theorem odsTaskEventWait_some (h : odsTaskEventWait m x eventMask type tmroutMs = some x') :
    ∃ p, tickTimeOf m x = some p ∧ p ≠ 0 ∧ x' = { x with
      state := .event
      event := ⟨x.event.events,eventMask,type,if tmroutMs / p = 0 then 1 else tmroutMs / p,false⟩ } := by
  simp only [odsTaskEventWait,Option.bind_eq_bind,Option.bind_eq_some_iff,Option.some.injEq] at h
  obtain ⟨p,hp,ticks,ht,rfl⟩ := h
  obtain ⟨hne,rfl⟩ := cDiv_eq_some_iff.mp ht
  exact ⟨p,hp,hne,rfl⟩

theorem odsTaskEventWait_total (eventMask : U32) (type : EventMaskType) (tmroutMs : U32)
    (hp : tickTimeOf m x = some p) (hne : p ≠ 0) :
    ∃ x', odsTaskEventWait m x eventMask type tmroutMs = some x' := by
  have hp' : tickTimeOf m { x with
      event.mask := eventMask, event.type := type, event.timeout := false } = some p := hp
  have hdiv : cDiv tmroutMs p = some (tmroutMs / p) := if_neg hne
  simp only [odsTaskEventWait,hp',hdiv,Option.bind_eq_bind,Option.bind_some]
  exact ⟨_,rfl⟩

end Timed

section Frames
variable {m : Mem} {x x' : TaskCtx}

/-- The fields no public call on a task and no wake-up step writes. -/
def TaskCtx.frame (x : TaskCtx) : Option TaskPtr × Option CtxPtr × Option FuncPtr × U32 :=
  (x.next,x.ctx,x.func,x.execTickCounter)

theorem odsTaskSleep_frame {timeMs : U32} (h : odsTaskSleep m x timeMs = some x') :
    x'.frame = x.frame := by
  rcases odsTaskSleep_some h with ⟨-,rfl⟩ | ⟨-,p,-,-,rfl⟩ <;> rfl

theorem odsTaskEventWait_frame {eventMask tmroutMs : U32} {type : EventMaskType}
    (h : odsTaskEventWait m x eventMask type tmroutMs = some x') : x'.frame = x.frame := by
  obtain ⟨p,-,-,rfl⟩ := odsTaskEventWait_some h
  rfl

theorem TaskOp.apply_frame {op : TaskOp} (h : op.apply m x = some x') : x'.frame = x.frame := by
  cases op with
  | del | done => cases h; rfl
  | pause | resume =>
    cases h
    simp only [odsTaskPause,odsTaskResume]
    split <;> rfl
  | eventSet eventMask type => cases type <;> cases h <;> rfl
  | sleep timeMs => exact odsTaskSleep_frame h
  | eventWait eventMask type tmroutMs => exact odsTaskEventWait_frame h

theorem odsExecSleep_frame (x : TaskCtx) : (odsExecSleep x).frame = x.frame := by
  unfold odsExecSleep
  split
  · dsimp only
    split <;> rfl
  · rfl

theorem odsTaskEventCheck_frame (x : TaskCtx) : (odsTaskEventCheck x).2.frame = x.frame := by
  unfold odsTaskEventCheck
  dsimp only
  split
  · split <;> rfl
  · rfl

theorem odsExecEvent_frame (x : TaskCtx) : (odsExecEvent x).frame = x.frame := by
  have hc := odsTaskEventCheck_frame x
  unfold odsExecEvent
  split
  · revert hc
    obtain ⟨b,y⟩ := odsTaskEventCheck x
    intro hc
    cases b with
    | true => exact hc
    | false =>
      dsimp only
      split <;> exact hc
  · rfl

theorem odsExecWake_frame (x : TaskCtx) : (odsExecWake x).frame = x.frame :=
  (odsExecEvent_frame _).trans (odsExecSleep_frame x)

theorem next_of_frame {x y : TaskCtx} (h : x.frame = y.frame) : x.next = y.next :=
  congrArg Prod.fst h

theorem ctx_of_frame {x y : TaskCtx} (h : x.frame = y.frame) : x.ctx = y.ctx :=
  congrArg (fun f => f.2.1) h

theorem func_of_frame {x y : TaskCtx} (h : x.frame = y.frame) : x.func = y.func :=
  congrArg (fun f => f.2.2.1) h

theorem execTickCounter_of_frame {x y : TaskCtx} (h : x.frame = y.frame) :
    x.execTickCounter = y.execTickCounter :=
  congrArg (fun f => f.2.2.2) h

end Frames

section Wake
variable {x : TaskCtx}

theorem odsExecWake_of_sleep (h : x.state = .sleep) : odsExecWake x =
    { x with
      sleepTickCounter := countDown x.sleepTickCounter
      state := if countDown x.sleepTickCounter = 0 then .run else .sleep } := by
  by_cases hz : countDown x.sleepTickCounter = 0#32 <;>
    simp [odsExecWake,odsExecSleep,odsExecEvent,h,hz]

def Event.consumed (e : Event) : U32 :=
  match e.type with
  | .or => e.events &&& ~~~(e.events &&& e.mask)
  | .and => 0

theorem odsExecWake_of_satisfied (h : x.state = .event) (hs : x.event.satisfied = true) :
    odsExecWake x =
      { x with event.events := x.event.consumed, event.timeout := false, state := .run } := by
  cases ht : x.event.type <;>
    simp [odsExecWake,odsExecSleep,odsExecEvent,odsTaskEventCheck,Event.consumed,h,hs,ht]

theorem odsExecWake_of_unsatisfied (h : x.state = .event) (hs : x.event.satisfied = false) :
    odsExecWake x = { x with
      event.eventTickCounter := countDown x.event.eventTickCounter
      event.timeout := if countDown x.event.eventTickCounter = 0 then true else x.event.timeout
      state := if countDown x.event.eventTickCounter = 0 then .run else .event } := by
  by_cases hz : countDown x.event.eventTickCounter = 0#32 <;>
    simp [odsExecWake,odsExecSleep,odsExecEvent,odsTaskEventCheck,h,hs,hz]

theorem odsExecWake_of_other (h : x.state ≠ .sleep) (h' : x.state ≠ .event) :
    odsExecWake x = x := by
  simp [odsExecWake,odsExecSleep,odsExecEvent,h,h']

end Wake

end Ods
