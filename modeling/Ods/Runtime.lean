import Ods.DelayTicks

/-! The runtime a task reports: ticks executed times the tick time its scheduler has now. -/
namespace Ods
open LabelledRun

variable {cs : List CtxPtr} {m : Mem} {fuel : Nat} {s s' u v : Sys} {a a' : ListSched}
variable {c : CtxPtr} {t : TaskPtr} {act : Act} {acts acts₀ : List Act}

/-- What a step does to the two factors of the runtime. -/
theorem ListStep.clock (h : Refines cs s a) (hok : Legal cs s act) (hstep : ListStep a act a')
    (he : t ∈ a.lay.exec c) :
    (a'.data.task t).execTickCounter = (a.data.task t).execTickCounter ∨
      (a'.data.task t).execTickCounter = (a.data.task t).execTickCounter + 1 ∧
        (a'.data.sch c).odsTickTimeMs = (a.data.sch c).odsTickTimeMs := by
  have hp := hstep.period c
  cases hstep.taskStep t with
  | same hs => exact .inl (by rw [hs])
  | call ho => exact .inl (execTickCounter_of_frame (TaskOp.apply_frame ho))
  | add => exact (hok.2 (h.rep.linked_iff.mpr (not_free_of_exec he))).elim
  | activate hq => exact (Layout.not_pend_of_exec he hq).elim
  | skip _ _ _ hs =>
    right
    rw [hs]
    exact ⟨congrArg (· + 1) (execTickCounter_of_frame (odsExecWake_frame _)),hp⟩
  | invoke _ _ _ hs =>
    left
    rw [hs]
    exact execTickCounter_of_frame (odsExecWake_frame _)
  | ret _ _ hs =>
    right
    rw [hs]
    exact ⟨rfl,hp⟩

def exactRuntime (c : CtxPtr) (t : TaskPtr) (m : Mem) : Nat :=
  (m.task t).execTickCounter.toNat * (m.sch c).odsTickTimeMs.toNat

structure Clocked (c : CtxPtr) (t : TaskPtr) (m : Mem) : Prop where
  listed : InExec m c t
  fits : exactRuntime c t m < 2 ^ 32

def ShortensPeriod (c : CtxPtr) (t : TaskPtr) (s : Sys) (act : Act) : Prop :=
  (s.mem.task t).execTickCounter ≠ 0 ∧
    periodAfter c (s.mem.sch c).odsTickTimeMs act < (s.mem.sch c).odsTickTimeMs

def RuntimeLe (t : TaskPtr) (u v : Sys) : Prop :=
  ∃ x y, odsTaskRuntimeGetMs u.mem (u.mem.task t) = some x ∧
    odsTaskRuntimeGetMs v.mem (v.mem.task t) = some y ∧ x ≤ y

/-- The 32-bit product is the exact one. -/
theorem Clocked.reported (hk : Clocked c t s.mem) (h : Refines cs s a) (hc : c ∈ cs) :
    ∃ x, odsTaskRuntimeGetMs s.mem (s.mem.task t) = some x ∧ x.toNat = exactRuntime c t s.mem := by
  have htime := h.tickTime hc ((h.rep.inExec_iff hc).mp hk.listed)
  refine ⟨_,by rw [odsTaskRuntimeGetMs,htime]; rfl,?_⟩
  exact BitVec.toNat_mul_of_lt hk.fits

theorem runtimeLe_iff (hu : Clocked c t u.mem) (hv : Clocked c t v.mem) (h : Refines cs u a)
    (h' : Refines cs v a') (hc : c ∈ cs) :
    RuntimeLe t u v ↔ exactRuntime c t u.mem ≤ exactRuntime c t v.mem := by
  obtain ⟨x,hx,hxe⟩ := hu.reported h hc
  obtain ⟨y,hy,hye⟩ := hv.reported h' hc
  rw [← hxe,← hye,← BitVec.le_def]
  constructor
  · rintro ⟨x',y',hx',hy',hle⟩
    rw [hx] at hx'
    rw [hy] at hy'
    cases hx'
    cases hy'
    exact hle
  · exact fun hle => ⟨x,y,hx,hy,hle⟩

/-- As long as the runtime fits 32 bits the tick counter does not wrap. -/
theorem Clocked.counter_succ (hk : Clocked c t m) (hp : odsTickTimeMsMin ≤ (m.sch c).odsTickTimeMs) :
    ((m.task t).execTickCounter + 1).toNat = (m.task t).execTickCounter.toNat + 1 := by
  have hten : 10 ≤ (m.sch c).odsTickTimeMs.toNat := hp
  have hle := Nat.mul_le_mul_left (m.task t).execTickCounter.toNat hten
  have hfits := hk.fits
  unfold exactRuntime at hfits
  have hone : (1 : U32).toNat = 1 := rfl
  rw [BitVec.toNat_add,hone,Nat.mod_eq_of_lt (by omega)]

/-- A step sets the runtime back if and only if it shortens the period. -/
theorem ListStep.runtime (h : Refines cs s a) (h' : Refines cs s' a') (hc : c ∈ cs)
    (hok : Legal cs s act) (hp : odsTickTimeMsMin ≤ (s.mem.sch c).odsTickTimeMs)
    (hk : Clocked c t s.mem) (hstep : ListStep a act a') :
    exactRuntime c t s.mem ≤ exactRuntime c t s'.mem ↔ ¬ ShortensPeriod c t s act := by
  have hperiod := hstep.period c
  rw [h.period,h'.period] at hperiod
  have hcount := hstep.clock h hok ((h.rep.inExec_iff hc).mp hk.listed)
  rw [h.task,h'.task,h.period,h'.period] at hcount
  simp only [TaskCtx.data_execTickCounter] at hcount
  unfold ShortensPeriod
  rw [← hperiod]
  rcases hcount with hsame | ⟨hsucc,hq⟩
  · unfold exactRuntime
    rw [hsame,BitVec.lt_def]
    by_cases hz : (s.mem.task t).execTickCounter = 0
    · simp [hz]
    · have hpos : 0 < (s.mem.task t).execTickCounter.toNat := by
        rw [Nat.pos_iff_ne_zero]
        exact fun h0 => hz (BitVec.eq_of_toNat_eq h0)
      rw [Nat.mul_le_mul_left_iff hpos,and_iff_right hz,Nat.not_lt]
  · have hlt : ¬ (s.mem.sch c).odsTickTimeMs < (s.mem.sch c).odsTickTimeMs := BitVec.lt_irrefl _
    unfold exactRuntime
    rw [hsucc,hq,hk.counter_succ hp]
    simp only [hlt,and_false,not_false_eq_true,iff_true]
    exact Nat.mul_le_mul_right _ (Nat.le_succ _)

def ClockedStep (cs : List CtxPtr) (c : CtxPtr) (t : TaskPtr) (s : Sys) (act : Act) : Prop :=
  Legal cs s act ∧ Clocked c t s.mem

theorem run_clocked (hrun : Run (Step fuel) (ClockedStep cs c t) s acts s')
    (hend : Clocked c t s'.mem) : Clocked c t s.mem := by
  cases hrun with
  | nil => exact hend
  | cons hok _ _ => exact hok.2

/-- A run that does not shorten the period does not set the runtime back. -/
theorem run_runtime (hc : c ∈ cs)
    (hrun : Run (Step fuel) (fun s act => ClockedStep cs c t s act ∧ ¬ ShortensPeriod c t s act)
      u acts v) (h : Refines cs u a) (hp : odsTickTimeMsMin ≤ (u.mem.sch c).odsTickTimeMs) :
    exactRuntime c t u.mem ≤ exactRuntime c t v.mem := by
  induction hrun generalizing a with
  | nil s => exact Nat.le_refl _
  | @cons s s₁ s₂ act acts hok hs _ ih =>
    obtain ⟨a₁,hstep,h₁⟩ := step_refines h hok.1.1 hs
    have hp₁ : odsTickTimeMsMin ≤ (s₁.mem.sch c).odsTickTimeMs := by
      rw [← h₁.period,hstep.period c]
      exact min_le_periodAfter (by rwa [h.period])
    exact ((hstep.runtime h h₁ hc hok.1.1 hp hok.1.2).mpr hok.2).trans (ih h₁ hp₁)

/-- From its activation to its removal the runtimes a task reports never go back, as long as
they fit 32 bits, if and only if no `ods_start` shortens the period of its scheduler after
its first tick. -/
theorem runtime_monotone_iff (hreach : Run (Step fuel) (Legal cs) (boot cs m) acts₀ s)
    (hc : c ∈ cs) (hrun : Run (Step fuel) (ClockedStep cs c t) s acts s')
    (hend : Clocked c t s'.mem) :
    (∀ us vs ws u v, acts = us ++ vs ++ ws → FreeRun fuel s us u → FreeRun fuel u vs v →
        RuntimeLe t u v) ↔
      ∀ us act vs u, acts = us ++ act :: vs → FreeRun fuel s us u → ¬ ShortensPeriod c t u act := by
  have hlegal : ∀ {as : List Act} {x y : Sys}, Run (Step fuel) (ClockedStep cs c t) x as y →
      Run (Step fuel) (Legal cs) x as y := fun hr => hr.mono fun _ _ hok => hok.1
  have hsplit : ∀ {us vs : List Act} {u : Sys}, acts = us ++ vs → FreeRun fuel s us u →
      Run (Step fuel) (ClockedStep cs c t) s us u ∧ Run (Step fuel) (ClockedStep cs c t) u vs s' := by
    rintro us vs u rfl hu
    exact run_split hrun hu
  constructor
  · intro hmono us act vs u he hu
    obtain ⟨hu₁,hv₁⟩ := hsplit he hu
    obtain ⟨hok,v,hs,hrest⟩ := run_cons_iff.mp hv₁
    have hreach₁ := hreach.append (hlegal hu₁)
    obtain ⟨a,-,h⟩ := reachable_refines hreach₁
    obtain ⟨a₁,hstep,h₁⟩ := step_refines h hok.1 hs
    rw [← hstep.runtime h h₁ hc hok.1 (run_period hreach₁ hc) hok.2]
    rw [← runtimeLe_iff hok.2 (run_clocked hrest hend) h h₁ hc]
    exact hmono us [act] vs u v (by rw [he,List.append_assoc,List.singleton_append]) hu
      (.single trivial hs)
  · intro hkept us vs ws u v he hu hv
    rw [List.append_assoc] at he
    obtain ⟨hu₁,hrest⟩ := hsplit he hu
    obtain ⟨hv₁,hw₁⟩ := run_split hrest hv
    have hstrong := hv₁.strengthen (Q := fun s act => ¬ ShortensPeriod c t s act) <| by
      rintro xs act ys w rfl hxs
      refine hkept (us ++ xs) act (ys ++ ws) w ?_ (hu.append (hxs.mono fun _ _ _ => trivial))
      rw [he]
      simp
    have hreach₁ := hreach.append (hlegal hu₁)
    obtain ⟨a,-,h⟩ := reachable_refines hreach₁
    obtain ⟨a₁,-,h₁⟩ := run_refines (hlegal hv₁) h
    rw [runtimeLe_iff (run_clocked hrest hend) (run_clocked hw₁ hend) h h₁ hc]
    exact run_runtime hc hstrong h (run_period hreach₁ hc)

section Examples

instance : Decidable (ShortensPeriod c t s act) := inferInstanceAs (Decidable (_ ∧ _))

def clockedIn (fuel : Nat) (c : CtxPtr) (t : TaskPtr) (m : Mem) : Bool :=
  presentIn fuel m (m.sch c).odsExecList t && exactRuntime c t m < 2 ^ 32

theorem clockedIn_clocked (h : clockedIn fuel c t m = true) : Clocked c t m := by
  obtain ⟨hin,hfits⟩ := Bool.and_eq_true_iff.mp h
  exact ⟨presentIn_meets hin,by simpa using hfits⟩

def clockedStepIn (cs : List CtxPtr) (fuel : Nat) (c : CtxPtr) (t : TaskPtr) (s : Sys) (act : Act) :
    Bool :=
  legalIn cs fuel s act && clockedIn fuel c t s.mem

theorem clockedStepIn_clockedStep (h : clockedStepIn cs fuel c t s act = true) :
    ClockedStep cs c t s act :=
  (Bool.and_eq_true_iff.mp h).imp legalIn_legal clockedIn_clocked

def slowDown : List Act :=
  [.ret,.finish,.call (.stop 0),.call (.start 0 20 7),.tick 0,.visit,.ret,.finish]

theorem runtime_monotone_slowDown : ∃ s s',
    Run (Step 5) (Legal [0]) (boot [0] blank) firstRuns s ∧
      Run (Step 5) (ClockedStep [0] 0 1) s slowDown s' ∧
      odsTaskRuntimeGetMs s'.mem (s'.mem.task 1) = some 40 ∧ RuntimeLe 1 s s' := by
  obtain ⟨s,hreach,hP⟩ := runChecked_any (legalIn [0] 5) 5 (boot [0] blank) firstRuns
    (fun s => (runChecked (fun s act => clockedStepIn [0] 5 0 1 s act && !ShortensPeriod 0 1 s act)
      5 s slowDown).any fun s' =>
        clockedIn 5 0 1 s'.mem && odsTaskRuntimeGetMs s'.mem (s'.mem.task 1) = some 40)
    (fun _ _ => legalIn_legal) (by decide +kernel)
  obtain ⟨s',hrun,hP⟩ := (Option.any_eq_true _ _).mp hP
  obtain ⟨hend,hvalue⟩ := Bool.and_eq_true_iff.mp hP
  have hrun : Run (Step 5) (fun s act => ClockedStep [0] 0 1 s act ∧ ¬ ShortensPeriod 0 1 s act) s
      slowDown s' := by
    refine runChecked_run (fun s act h => ?_) hrun
    exact (Bool.and_eq_true_iff.mp h).imp clockedStepIn_clockedStep (by simp)
  have hclocked := hrun.mono fun _ _ hok => hok.1
  have hmono := (runtime_monotone_iff hreach List.mem_cons_self hclocked (clockedIn_clocked hend)).mpr
    fun _ _ _ _ he hu => (run_ok_at (he ▸ hrun) hu).2
  exact ⟨s,s',hreach,hclocked,by simpa using hvalue,
    hmono [] slowDown [] s s' (by simp) (.nil s) (hrun.mono fun _ _ _ => trivial)⟩

/-- Two runs one after the other, and the runtimes reported after each. -/
theorem runtimes_of_runs {reach acts : List Act} {x y : U32}
    (h : (runChecked (legalIn [0] 5) 5 (boot [0] blank) reach).any fun s =>
      odsTaskRuntimeGetMs s.mem (s.mem.task 1) = some x &&
        (runChecked (fun s act => legalIn [0] 5 s act &&
          presentIn 5 s.mem (s.mem.sch 0).odsExecList 1) 5 s acts).any fun s' =>
            odsTaskRuntimeGetMs s'.mem (s'.mem.task 1) = some y) :
    ∃ s s', Run (Step 5) (Legal [0]) (boot [0] blank) reach s ∧
      Run (Step 5) (Staying [0] 0 1) s acts s' ∧
      odsTaskRuntimeGetMs s.mem (s.mem.task 1) = some x ∧
      odsTaskRuntimeGetMs s'.mem (s'.mem.task 1) = some y := by
  obtain ⟨s,hreach,hP⟩ := runChecked_any (legalIn [0] 5) 5 (boot [0] blank) reach _
    (fun _ _ => legalIn_legal) h
  obtain ⟨hbefore,hP⟩ := Bool.and_eq_true_iff.mp hP
  obtain ⟨s',hrun,hafter⟩ := (Option.any_eq_true _ _).mp hP
  have hstay : Run (Step 5) (Staying [0] 0 1) s acts s' :=
    runChecked_run (fun _ _ hok => (Bool.and_eq_true_iff.mp hok).imp legalIn_legal presentIn_meets)
      hrun
  exact ⟨s,s',hreach,hstay,by simpa using hbefore,by simpa using hafter⟩

/-- The runtime goes back when the scheduler is restarted with a shorter tick time, and when
the 32-bit product wraps. -/
theorem runtime_goes_back :
    (∃ s s', Run (Step 5) (Legal [0]) (boot [0] blank)
        [.call (.add 0 1),.call (.start 0 20 7),.tick 0,.visit,.ret,.finish] s ∧
      Run (Step 5) (Staying [0] 0 1) s [.call (.stop 0),.call (.start 0 10 8)] s' ∧
      odsTaskRuntimeGetMs s.mem (s.mem.task 1) = some 20 ∧
      odsTaskRuntimeGetMs s'.mem (s'.mem.task 1) = some 10) ∧
    ∃ s s', Run (Step 5) (Legal [0]) (boot [0] blank)
        [.call (.add 0 1),.call (.start 0 0x80000000 7),.tick 0,.visit,.ret,.finish] s ∧
      Run (Step 5) (Staying [0] 0 1) s [.tick 0,.visit,.ret] s' ∧
      odsTaskRuntimeGetMs s.mem (s.mem.task 1) = some 0x80000000 ∧
      odsTaskRuntimeGetMs s'.mem (s'.mem.task 1) = some 0 := by
  constructor
  · exact runtimes_of_runs (by decide +kernel)
  · exact runtimes_of_runs (by decide +kernel)

end Examples

end Ods
