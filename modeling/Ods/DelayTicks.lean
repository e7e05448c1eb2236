import Ods.Delays

/-! A tick visits each task of its exec list once, so delays may be counted in ticks; and what
is lost when the requested time is no whole number of them. -/
namespace Ods
open LabelledRun

variable {cs : List CtxPtr} {m : Mem} {fuel : Nat} {s s' s₁ s₂ : Sys} {a a' : ListSched}
variable {c : CtxPtr} {t : TaskPtr} {act : Act} {acts acts₀ : List Act} {x : TaskCtx} {k : Nat}
variable {timeMs : U32} {op : TaskOp}

section Ticks

def due (t : TaskPtr) (a : ListSched) : Nat := a.pc.rest.count t

theorem ListStep.due (h : Refines cs s a) (hstep : ListStep a act a') (he : t ∈ a.lay.exec c) :
    (visitedAs t s act).toList.length + due t a' = [act].count (.tick c) + due t a := by
  have hvisit : ∀ {e : CtxPtr} {item : TaskPtr} {rest : List TaskPtr}, a.pc = .walk e (item :: rest) →
      (visitedAs t s .visit).toList.length + rest.count t = (item :: rest).count t := by
    intro e item rest hpc
    by_cases hu : item = t
    · subst hu
      rw [visitedAs_of_walk (h.exec_of_walk hpc).2.2,List.count_cons_self]
      exact Nat.add_comm _ _
    · simp [visitedAs,visitOf,(h.exec_of_walk hpc).2.2,hu]
  cases hstep with
  | call | add => simp [visitedAs,visitOf,Ods.due]
  | @tick l d e =>
    by_cases hec : e = c
    · subst hec
      have hnodup := (l.activate e).exec_nodup e
      rw [Layout.activate_exec_self] at hnodup
      have hone := List.count_eq_one_of_mem hnodup (List.mem_append_right _ he)
      simpa [visitedAs,visitOf,Ods.due,ListPc.rest] using hone
    · have hmem : t ∉ (l.pend e).reverse ++ l.exec e := by
        intro hm
        refine hec (l.apart e c t ?_ (List.mem_append_left _ he))
        simpa [or_comm] using hm
      have hzero := List.count_eq_zero.mpr hmem
      simpa [visitedAs,visitOf,Ods.due,ListPc.rest,hec] using hzero
  | skip => simpa [Ods.due,ListPc.rest] using hvisit rfl
  | invoke => simpa [Ods.due,ListPc.rest] using hvisit rfl
  | ret => simp [visitedAs,visitOf,Ods.due,ListPc.rest]
  | finish => simp [visitedAs,visitOf,Ods.due,ListPc.rest]

def Staying (cs : List CtxPtr) (c : CtxPtr) (t : TaskPtr) (s : Sys) (act : Act) : Prop :=
  Legal cs s act ∧ InExec s.mem c t

/-- Visits of a task and ticks of its scheduler come in step. -/
theorem run_due (hc : c ∈ cs) (hrun : Run (Step fuel) (Staying cs c t) s acts s')
    (h : Refines cs s a) : ∃ a', Refines cs s' a' ∧
      (visitRecords fuel t s acts).length + due t a' = acts.count (.tick c) + due t a := by
  induction hrun generalizing a with
  | nil s => exact ⟨a,h,by simp [visitRecords]⟩
  | @cons s s₁ s₂ act acts hok hs _ ih =>
    obtain ⟨a₁,hstep,h₁⟩ := step_refines h hok.1 hs
    have hdue := hstep.due h ((h.rep.inExec_iff hc).mp hok.2)
    obtain ⟨a₂,h₂,hrest⟩ := ih h₁
    refine ⟨a₂,h₂,?_⟩
    have hcount : (act :: acts).count (.tick c) = [act].count (.tick c) + acts.count (.tick c) := by
      rw [← List.singleton_append,List.count_append]
    simp only [visitRecords,step_iff.mpr hs,Option.map_some,Option.getD_some,List.length_append,
      hcount]
    omega

/-- A task that counts down stays in its exec list. -/
theorem Countdown.staying {left : Nat → TaskCtx → Prop} {ended : Event → Prop}
    (hcd : Countdown left ended) (hrun : Run (Step fuel) (LeftAlone cs t) s acts s')
    (h : Refines cs s a) (hc : c ∈ cs) (he : t ∈ a.lay.exec c) (hl : left k (a.data.task t))
    (hn : (visitRecords fuel t s acts).length < k)
    (hopen : ∀ x ∈ visitRecords fuel t s acts, ¬ ended x.event) :
    Run (Step fuel) (Staying cs c t) s acts s' := by
  have hin : Run (Step fuel) (fun s act => LeftAlone cs t s act ∧ InExec s.mem c t) s acts s' := by
    refine hrun.strengthen fun us act vs s₁ hu hr => ?_
    have hsplit : visitRecords fuel t s acts =
        visitRecords fuel t s us ++ visitRecords fuel t s₁ (act :: vs) := by
      rw [hu,visitRecords_append hr]
    rw [hsplit,List.length_append] at hn
    rw [hsplit,List.forall_mem_append] at hopen
    obtain ⟨a₁,h₁,he₁,-⟩ := hcd.run hr h he hl (by omega) hopen.1
    exact (h₁.rep.inExec_iff hc).mpr he₁
  exact hin.mono fun _ _ hok => ⟨hok.1.legal,hok.2⟩

/-- The visit that calls the function is the last one to be counted. -/
theorem Countdown.called_last {left : Nat → TaskCtx → Prop} {ended : Event → Prop}
    (hcd : Countdown left ended) (hl : left (k + 1) x.data) (hopen : ¬ ended x.event)
    (hcalled : (odsExecFunc (odsExecWake x)).isSome = true) : k = 0 := by
  by_contra hne
  have hwake := hcd.visit hl (Nat.pos_of_ne_zero hne) hopen
  have hnone := odsExecFunc_of_ne_run (hcd.waits hwake).1
  rw [odsExecFunc_wake_data] at hnone
  rw [hnone] at hcalled
  cases hcalled

end Ticks

section Rounding
variable {n p : Nat}

/-- Whole ticks cover a delay of at most one tick, and a delay that is a number of ticks. -/
theorem le_max_one_div_mul_iff (hp : 0 < p) : n ≤ max 1 (n / p) * p ↔ n ≤ p ∨ p ∣ n := by
  by_cases hlt : n < p
  · rw [Nat.div_eq_of_lt hlt]
    simp [hlt.le]
  · have hone : 1 ≤ n / p := (Nat.one_le_div_iff hp).mpr (Nat.le_of_not_lt hlt)
    rw [Nat.max_eq_right hone]
    constructor
    · intro h
      exact .inr ⟨n / p,by rw [Nat.mul_comm]; exact Nat.le_antisymm h (Nat.div_mul_le_self n p)⟩
    · rintro (hle | hdvd)
      · obtain rfl : n = p := Nat.le_antisymm hle (Nat.le_of_not_lt hlt)
        exact Nat.le_mul_of_pos_left n hone
      · exact (Nat.div_mul_cancel hdvd).ge

theorem lt_max_one_div_succ_mul (hp : 0 < p) : n < (max 1 (n / p) + 1) * p := by
  have h := Nat.lt_mul_div_succ n hp
  have hle := Nat.mul_le_mul_right p (Nat.succ_le_succ (Nat.le_max_right 1 (n / p)))
  rw [Nat.mul_comm] at h
  exact Nat.lt_of_lt_of_le h hle

end Rounding

section Delay

def TaskOp.Delays (x : TaskCtx) (timeMs : U32) : TaskOp → Prop
  | .sleep ms => ms = timeMs ∧ x.state = .run
  | .eventWait _ _ ms => ms = timeMs
  | _ => False

def TaskOp.EndsOn (events : U32) : TaskOp → Prop
  | .eventWait mask type _ => Wanted mask type events
  | _ => False

theorem delay_begun (hreach : Run (Step fuel) (Legal cs) (boot cs m) acts₀ s) (hc : c ∈ cs)
    (hpc : s.pc.Client) (h : Refines cs s a) (he : t ∈ a.lay.exec c)
    (hop : op.Delays (s.mem.task t) timeMs) : ∃ s₁ a₁ left,
    Step fuel s (.call (.task t op)) s₁ ∧ s₁.pc = s.pc ∧ Refines cs s₁ a₁ ∧ t ∈ a₁.lay.exec c ∧
      (s₁.mem.task t).func = (s.mem.task t).func ∧
      Countdown left (fun e => op.EndsOn e.events) ∧
      left (delayTicks (s.mem.sch c).odsTickTimeMs timeMs) (a₁.data.task t) := by
  cases op with
  | sleep ms =>
    obtain ⟨rfl,hrunning⟩ := hop
    obtain ⟨s₁,a₁,hs,hpc₁,h₁,he₁,hfunc,-,hl⟩ := sleep_begun hreach hc hpc h he hrunning ms
    exact ⟨s₁,a₁,SleepLeft,hs,hpc₁,h₁,he₁,hfunc,sleepCountdown,hl⟩
  | eventWait mask type ms =>
    obtain rfl := hop
    obtain ⟨s₁,a₁,hs,hpc₁,h₁,he₁,hfunc,-,hl⟩ := wait_begun hreach hc hpc h he mask type ms
    exact ⟨s₁,a₁,WaitLeft mask type,hs,hpc₁,h₁,he₁,hfunc,waitCountdown,hl⟩
  | _ => exact hop.elim

/-- Only a task with a function is ever in it. -/
theorem run_body_func (hreach : Run (Step fuel) (Legal cs) (boot cs m) acts s)
    (hpc : s.pc = .body c t) : (s.mem.task t).func ≠ none := by
  obtain ⟨a,h,hI⟩ := run_invariant
    (I := fun a => ∀ c t rest, a.pc = .body c t rest → (a.data.task t).func ≠ none) hreach
    (fun _ _ hok => hok) (fun _ a act a' _ _ hstep hI d u rest hp => by
      rw [hstep.func]
      cases hstep with
      | call | add => exact hI d u rest hp
      | invoke hf =>
        cases hp
        intro hn
        rw [odsExecFunc,func_of_frame (odsExecWake_frame _)] at hf
        split at hf
        · rw [hn] at hf
          cases hf
        · cases hf
      | _ => cases hp) (boot_refines m) (fun d u rest hp => by cases hp)
  obtain ⟨rest,hp,-⟩ := (hpc ▸ h.pc : PcRel cs a.lay (.body c t) a.pc).of_body
  have hf := hI c t rest hp
  rw [h.task] at hf
  exact hf

theorem due_of_body {rest : List TaskPtr} (hsuf : t :: rest <:+ a.lay.exec c)
    (hp : a.pc = .body c t rest) : due t a = 0 := by
  have hn := (List.nodup_cons.mp ((a.lay.exec_nodup c).sublist hsuf.sublist)).1
  rw [due,hp]
  exact List.count_eq_zero.mpr hn

theorem due_of_walk {rest : List TaskPtr} (hsuf : t :: rest <:+ a.lay.exec c)
    (hp : a.pc = .walk c (t :: rest)) : due t a = 1 := by
  rw [due,hp]
  exact List.count_eq_one_of_mem ((a.lay.exec_nodup c).sublist hsuf.sublist) List.mem_cons_self

/-- What a delay of `timeMs`, of which `ticks` ticks began, amounts to with a tick time of `p`. -/
structure DelayKept (p timeMs : U32) (ticks : Nat) : Prop where
  wholeTicks : ticks = delayTicks p timeMs
  notShorter_iff : timeMs.toNat ≤ ticks * p.toNat ↔
    timeMs.toNat ≤ p.toNat ∨ p.toNat ∣ timeMs.toNat
  lessThanOneTick : timeMs.toNat < (ticks + 1) * p.toNat

theorem delayKept_delayTicks {p : U32} (hp : p ≠ 0) (timeMs : U32) :
    DelayKept p timeMs (delayTicks p timeMs) := by
  have hpos : 0 < p.toNat := by
    rw [Nat.pos_iff_ne_zero]
    exact fun h => hp (BitVec.eq_of_toNat_eq h)
  exact ⟨rfl,le_max_one_div_mul_iff hpos,lt_max_one_div_succ_mul hpos⟩

/-- A task that asks for a delay in its own function is next called after the requested time
rounded down to whole ticks, but not to none: so the delay is not shorter than asked for if and
only if the time is at most one tick or a number of ticks. -/
theorem delay_in_ticks (hreach : Run (Step fuel) (Legal cs) (boot cs m) acts₀ s)
    (hpc : s.pc = .body c t) (hop : op.Delays (s.mem.task t) timeMs) :
    ∃ s₁, Step fuel s (.call (.task t op)) s₁ ∧
      ∀ acts s₂, Run (Step fuel) (LeftAlone cs t) s₁ acts s₂ → ⟨t,true⟩ ∉ visits fuel s₁ acts →
        (∀ x ∈ visitRecords fuel t s₁ acts, ¬ op.EndsOn (odsTaskEventGet x)) →
        (s₂.pc = .idle →
          acts.count (.tick c) < delayTicks (s.mem.sch c).odsTickTimeMs timeMs) ∧
        (visitOf s₂ .visit = some ⟨t,true⟩ → ¬ op.EndsOn (odsTaskEventGet (s₂.mem.task t)) →
          DelayKept (s.mem.sch c).odsTickTimeMs timeMs (acts.count (.tick c))) := by
  obtain ⟨a,-,h⟩ := reachable_refines hreach
  obtain ⟨rest,hp,hc,hsuf⟩ := (hpc ▸ h.pc : PcRel cs a.lay (.body c t) a.pc).of_body
  have hclient : s.pc.Client := by rw [hpc]; trivial
  obtain ⟨s₁,a₁,left,hs,hpc₁,h₁,he₁,hfunc₁,hcd,hl₁⟩ :=
    delay_begun hreach hc hclient h (hsuf.subset List.mem_cons_self) hop
  refine ⟨s₁,hs,fun acts s₂ hrun hnot hopen => ?_⟩
  have hf₁ : (s₁.mem.task t).func ≠ none := by
    rw [hfunc₁]
    exact run_body_func hreach hpc
  have hpos : 0 < delayTicks (s.mem.sch c).odsTickTimeMs timeMs := Nat.le_max_left _ _
  have hn := hcd.uncalled hrun h₁ he₁ hl₁ hpos (by rw [h₁.task]; exact hf₁) hopen hnot
  obtain ⟨a₂,h₂,hdue⟩ := run_due hc (hcd.staying hrun h₁ hc he₁ hl₁ hn hopen) h₁
  have hdue₁ : due t a₁ = 0 := by
    rw [hpc] at hpc₁
    obtain ⟨rest₁,hp₁,-,hsuf₁⟩ := (hpc₁ ▸ h₁.pc : PcRel cs a₁.lay (.body c t) a₁.pc).of_body
    exact due_of_body hsuf₁ hp₁
  constructor
  · intro hidle
    have hp₂ := (hidle ▸ h₂.pc : PcRel cs a₂.lay .idle a₂.pc).of_idle
    have hdue₂ : due t a₂ = 0 := by
      rw [due,hp₂]
      rfl
    omega
  · intro hv hlast
    obtain ⟨d,hwalk,hcalled⟩ := visitOf_eq_some hv
    obtain ⟨-,-,-,j,hleft,hj⟩ := hcd.reached hrun h₁ hc he₁ hl₁ hf₁ hn hopen
    obtain rfl := hcd.called_last hleft hlast hcalled.symm
    obtain ⟨rest₂,hp₂⟩ := h₂.walk_of_pc hwalk
    have hdue₂ : due t a₂ = 1 := due_of_walk (h₂.pc_of_walk hp₂).2.1 hp₂
    have hticks : acts.count (.tick c) = delayTicks (s.mem.sch c).odsTickTimeMs timeMs := by omega
    rw [hticks]
    exact delayKept_delayTicks (ne_zero_of_min_le (run_period hreach hc)) timeMs

def firstRuns : List Act := [.call (.add 0 1),.tick 0,.visit]

def fourTicks : List Act :=
  [.ret,.finish,.tick 0,.visit,.finish,.tick 0,.visit,.finish,.tick 0,.visit,.finish,.tick 0]

theorem delay_in_ticks_four : ∃ s s₁ s₂,
    Run (Step 5) (Legal [0]) (boot [0] blank) firstRuns s ∧ s.pc = .body 0 1 ∧
      Step 5 s (.call (.task 1 (.sleep 40))) s₁ ∧
      Run (Step 5) (LeftAlone [0] 1) s₁ fourTicks s₂ ∧ visitOf s₂ .visit = some ⟨1,true⟩ ∧
      DelayKept 10 40 4 := by
  obtain ⟨s,hreach,hP⟩ := runChecked_any (legalIn [0] 5) 5 (boot [0] blank) firstRuns
    (fun s => s.pc = .body 0 1 && (s.mem.task 1).state = .run && (s.mem.sch 0).odsTickTimeMs = 10 &&
      (step 5 s (.call (.task 1 (.sleep 40)))).any fun s₁ =>
        ⟨1,true⟩ ∉ visits 5 s₁ fourTicks &&
          (runChecked (leftAloneIn [0] 5 1) 5 s₁ fourTicks).any fun s₂ =>
            visitOf s₂ .visit = some ⟨1,true⟩)
    (fun _ _ => legalIn_legal) (by decide +kernel)
  simp only [Bool.and_eq_true,decide_eq_true_eq] at hP
  obtain ⟨⟨⟨hpc,hrunning⟩,hperiod⟩,hP⟩ := hP
  obtain ⟨s₁,hsleep,hP⟩ := (Option.any_eq_true _ _).mp hP
  simp only [Bool.and_eq_true,decide_eq_true_eq] at hP
  obtain ⟨hnot,hP⟩ := hP
  obtain ⟨s₂,hrun,hv⟩ := (Option.any_eq_true _ _).mp hP
  have hv : visitOf s₂ .visit = some ⟨1,true⟩ := by simpa using hv
  have hrun := runChecked_run (fun _ _ => leftAloneIn_leftAlone) hrun
  have hop : (TaskOp.sleep 40).Delays (s.mem.task 1) 40 := ⟨rfl,hrunning⟩
  obtain ⟨s₁',hs,hall⟩ := delay_in_ticks hreach hpc hop
  obtain rfl := step_unique (step_iff.mp hsleep) hs
  have hkept := (hall _ _ hrun hnot (by simp [TaskOp.EndsOn])).2 hv (by simp [TaskOp.EndsOn])
  rw [hperiod] at hkept
  exact ⟨s,s₁,s₂,hreach,hpc,hs,hrun,hv,hkept⟩

/-- A sleep of 15 ms is over after one tick of 10 ms. -/
theorem delay_shorter_than_asked : ∃ s s₁ s₂,
    Run (Step 5) (Legal [0]) (boot [0] blank) firstRuns s ∧ s.pc = .body 0 1 ∧
      (s.mem.task 1).state = .run ∧ (s.mem.sch 0).odsTickTimeMs = 10 ∧
      Step 5 s (.call (.task 1 (.sleep 15))) s₁ ∧
      Run (Step 5) (LeftAlone [0] 1) s₁ [.ret,.finish,.tick 0] s₂ ∧
      visitOf s₂ .visit = some ⟨1,true⟩ ∧ [Act.ret,.finish,.tick 0].count (.tick 0) * 10 < 15 := by
  obtain ⟨s,hreach,hP⟩ := runChecked_any (legalIn [0] 5) 5 (boot [0] blank) firstRuns
    (fun s => s.pc = .body 0 1 && (s.mem.task 1).state = .run && (s.mem.sch 0).odsTickTimeMs = 10 &&
      (step 5 s (.call (.task 1 (.sleep 15)))).any fun s₁ =>
        (runChecked (leftAloneIn [0] 5 1) 5 s₁ [.ret,.finish,.tick 0]).any fun s₂ =>
          visitOf s₂ .visit = some ⟨1,true⟩)
    (fun _ _ => legalIn_legal) (by decide +kernel)
  simp only [Bool.and_eq_true,decide_eq_true_eq] at hP
  obtain ⟨⟨⟨hpc,hrunning⟩,hperiod⟩,hP⟩ := hP
  obtain ⟨s₁,hsleep,hP⟩ := (Option.any_eq_true _ _).mp hP
  obtain ⟨s₂,hrun,hv⟩ := (Option.any_eq_true _ _).mp hP
  exact ⟨s,s₁,s₂,hreach,hpc,hrunning,hperiod,step_iff.mp hsleep,
    runChecked_run (fun _ _ => leftAloneIn_leftAlone) hrun,by simpa using hv,by decide⟩

end Delay

end Ods
