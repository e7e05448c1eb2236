import Ods.TaskCode

/-! The consumer of `src/examples/main.c`. It waits three times for an event, each time for a
second at most. What it does is settled by the event bits its visits find. -/
namespace Ods
open LabelledRun

inductive TskState where
  | idle | exec | send | recv | done
  deriving DecidableEq, Repr

structure TskCtrl where
  state : TskState
  counter : U32
  noper : U32
  peer : TaskPtr
  deriving DecidableEq, Repr

inductive TskReport where
  /-- `RECV: waiting event` -/
  | waiting
  /-- `RECV: event timeout` -/
  | timeout
  /-- `RECV: event received` -/
  | received
  /-- `PROD: event sent` -/
  | sent
  /-- `CONS: %u -> %u` -/
  | cons (last state : TskState)
  /-- `PROD: %u -> %u` -/
  | prod (last state : TskState)
  deriving DecidableEq, Repr

def tskConsumerSwitch (t : TaskPtr) (x : TaskCtx) (ctrl : TskCtrl) :
    List Call × TskCtrl × List TskReport :=
  match ctrl.state with
  | .idle => ([],{ ctrl with counter := 0, noper := 0, state := .recv },[])
  | .recv =>
    ([.task t (.eventWait 0x01 .and 1000)],{ ctrl with counter := 0, state := .exec },[.waiting])
  | .exec =>
    let noper := ctrl.noper + 1
    ([],{ ctrl with noper := noper, state := if 2 < noper then .done else .recv },
      [if odsTaskEventTimedOut x then .timeout else .received])
  | .done => ([],{ ctrl with counter := 0, noper := 0 },[])
  | .send => ([],ctrl,[])

def tskConsumer : TaskCode (TskCtrl × List TskReport) := fun t x (ctrl,printed) =>
  let (ops,ctrl',reports) := tskConsumerSwitch t x ctrl
  (ops,ctrl',printed ++ reports ++ [.cons ctrl.state ctrl'.state])

def TskReport.verdict : TskReport → Option Bool
  | .received => some true
  | .timeout => some false
  | _ => none

section Abstract

/-- The consumer, as it is meant: `recv j` and `wait j left` after `j` waits have ended, the
latter with `left` visits to go. -/
inductive Consuming where
  | idle
  | recv (j : Nat)
  | wait (j left : Nat)
  | done
  deriving DecidableEq

def Consuming.ended (j : Nat) : Consuming := if 2 < j then .done else .recv j

def Consuming.visit (k : Nat) : Consuming → Bool → Consuming
  | .idle, _ => .recv 0
  | .recv j, _ => .wait j k
  | .wait j left, raised => if raised ∨ left ≤ 1 then ended (j + 1) else .wait j (left - 1)
  | .done, _ => .done

def Consuming.verdict : Consuming → Bool → Option Bool
  | .wait _ left, raised => if raised then some true else if left ≤ 1 then some false else none
  | _, _ => none

def Consuming.visits (k : Nat) (y : Consuming) (raised : List Bool) : Consuming :=
  raised.foldl (visit k) y

def Consuming.verdicts (k : Nat) (y : Consuming) : List Bool → List Bool
  | [] => []
  | b :: raised => (y.verdict b).toList ++ verdicts k (y.visit k b) raised

variable {k n : Nat} {y : Consuming} {raised : List Bool} {b : Bool}

def Consuming.Ok (k : Nat) : Consuming → Prop
  | .recv j => j ≤ 2
  | .wait j left => j ≤ 2 ∧ 0 < left ∧ left ≤ k
  | _ => True

theorem Consuming.ended_ok {j : Nat} : (ended j).Ok k := by
  unfold ended
  split
  · trivial
  · rename_i h
    exact Nat.not_lt.mp h

theorem Consuming.Ok.visit (h : y.Ok k) (hk : 0 < k) : (y.visit k b).Ok k := by
  cases y with
  | idle => exact Nat.zero_le 2
  | recv j => exact ⟨h,hk,le_rfl⟩
  | wait j left =>
    obtain ⟨hj,hpos,hle⟩ := h
    simp only [Consuming.visit]
    split
    · exact ended_ok
    · exact ⟨hj,by omega,by omega⟩
  | done => trivial

def Consuming.most (k : Nat) : Consuming → Nat
  | .idle => 1 + 3 * (k + 1)
  | .recv j => (3 - j) * (k + 1)
  | .wait j left => (2 - j) * (k + 1) + left
  | .done => 0

def Consuming.least : Consuming → Nat
  | .idle => 7
  | .recv j => 2 * (3 - j)
  | .wait j _ => 2 * (2 - j) + 1
  | .done => 0

def Consuming.waits : Consuming → Nat
  | .idle => 3
  | .recv j | .wait j _ => 3 - j
  | .done => 0

theorem Consuming.most_ended {j : Nat} (hj : j ≤ 2) : (ended (j + 1)).most k = (2 - j) * (k + 1) := by
  unfold ended
  split
  · obtain rfl : j = 2 := by omega
    simp [most]
  · simp only [most]
    congr 1
    omega

theorem Consuming.most_visit (h : y.Ok k) (hy : y ≠ .done) :
    (y.visit k b).most k + 1 ≤ y.most k ∧ (b = false → (y.visit k b).most k + 1 = y.most k) := by
  cases y with
  | idle => simp [Consuming.visit,most,Nat.add_comm]
  | recv j =>
    have hj : j ≤ 2 := h
    have hsub : 3 - j = 2 - j + 1 := by omega
    simp only [Consuming.visit,most,hsub,Nat.succ_mul]
    omega
  | wait j left =>
    obtain ⟨hj,hpos,hle⟩ := h
    have hend := most_ended (k := k) hj
    simp only [Consuming.visit]
    split
    · rw [hend]
      simp only [most]
      constructor
      · omega
      · rintro rfl
        simp only [Bool.false_eq_true,false_or] at *
        omega
    · simp only [most]
      omega
  | done => exact (hy rfl).elim

theorem Consuming.least_visit (h : y.Ok k) : y.least ≤ (y.visit k b).least + 1 := by
  cases y with
  | idle => simp [Consuming.visit,least]
  | recv j =>
    have hj : j ≤ 2 := h
    simp only [Consuming.visit,least]
    omega
  | wait j left =>
    obtain ⟨hj,-,-⟩ := h
    simp only [Consuming.visit]
    split
    · unfold ended
      split <;> simp only [least] <;> omega
    · simp only [least]
      omega
  | done => simp [least]

/-- Each wait that ends is told of once. -/
theorem Consuming.waits_visit (h : y.Ok k) :
    (y.verdict b).toList.length + (y.visit k b).waits = y.waits := by
  cases y with
  | idle => rfl
  | recv j => simp [Consuming.visit,verdict,waits]
  | wait j left =>
    obtain ⟨hj,hpos,hle⟩ := h
    have hend : (ended (j + 1)).waits + 1 = 3 - j := by
      unfold ended
      split <;> simp only [waits] <;> omega
    have hw : (Consuming.wait j left).waits = 3 - j := rfl
    cases b with
    | true =>
      simp only [Consuming.visit,verdict,true_or,if_true,Option.toList_some,List.length_singleton]
      omega
    | false =>
      by_cases hl : left ≤ 1
      · simp only [Consuming.visit,verdict,hl,or_true,if_true,Bool.false_eq_true,if_false,
          Option.toList_some,List.length_singleton]
        omega
      · simp [Consuming.visit,verdict,hl,waits]
  | done => rfl

theorem Consuming.visits_done : Consuming.done.visits k raised = .done := by
  induction raised with
  | nil => rfl
  | cons b raised ih => exact ih

theorem Consuming.most_pos (h : y.Ok k) (hy : y ≠ .done) : 0 < y.most k := by
  cases y with
  | idle => simp [most]
  | recv j =>
    have hj : j ≤ 2 := h
    exact Nat.mul_pos (by omega) (Nat.succ_pos k)
  | wait j left => exact Nat.add_pos_right _ h.2.1
  | done => exact (hy rfl).elim

/-- The consumer is done when every wait may have timed out. -/
theorem Consuming.visits_eq_done (hk : 0 < k) (h : y.Ok k) (hn : y.most k ≤ raised.length) :
    y.visits k raised = .done := by
  induction raised generalizing y with
  | nil =>
    by_contra hy
    exact (most_pos h hy).ne' (Nat.le_zero.mp hn)
  | cons b raised ih =>
    by_cases hy : y = .done
    · rw [hy]
      exact visits_done
    · have hstep := (most_visit (b := b) h hy).1
      rw [List.length_cons] at hn
      exact ih (h.visit hk) (by omega)

theorem Consuming.least_le (hk : 0 < k) (h : y.Ok k) (hd : y.visits k raised = .done) :
    y.least ≤ raised.length := by
  induction raised generalizing y with
  | nil =>
    obtain rfl : y = .done := hd
    exact le_rfl
  | cons b raised ih =>
    have hstep := least_visit (b := b) h
    have hrest := ih (h.visit hk) hd
    rw [List.length_cons]
    omega

/-- With no event it is done no sooner. -/
theorem Consuming.most_le (hk : 0 < k) (h : y.Ok k) (hquiet : ∀ b ∈ raised, b = false)
    (hd : y.visits k raised = .done) : y.most k ≤ raised.length := by
  induction raised generalizing y with
  | nil =>
    obtain rfl : y = .done := hd
    exact le_rfl
  | cons b raised ih =>
    by_cases hy : y = .done
    · simp [hy,most]
    · rw [List.forall_mem_cons] at hquiet
      have hstep := (most_visit h hy).2 hquiet.1
      have hrest := ih (h.visit hk) hquiet.2 hd
      rw [List.length_cons]
      omega

theorem Consuming.verdicts_quiet (hquiet : ∀ b ∈ raised, b = false) :
    ∀ v ∈ y.verdicts k raised, v = false := by
  induction raised generalizing y with
  | nil => simp [verdicts]
  | cons b raised ih =>
    rw [List.forall_mem_cons] at hquiet
    obtain ⟨rfl,hquiet⟩ := hquiet
    simp only [verdicts,List.forall_mem_append,Option.mem_toList]
    refine ⟨?_,ih hquiet⟩
    cases y with
    | wait j left =>
      by_cases hl : left ≤ 1 <;> simp [verdict,hl]
    | _ => simp [verdict]

theorem Consuming.length_verdicts (hk : 0 < k) (h : y.Ok k) :
    (y.verdicts k raised).length + (y.visits k raised).waits = y.waits := by
  induction raised generalizing y with
  | nil => exact Nat.zero_add _
  | cons b raised ih =>
    have hstep := waits_visit (b := b) h
    have hrest := ih (h.visit (b := b) hk)
    simp only [verdicts,List.length_append]
    simp only [visits,List.foldl_cons] at hrest ⊢
    omega

end Abstract

section Visits
variable {t : TaskPtr} {p : U32} {o o' : Own (TskCtrl × List TskReport)} {v : Option TaskCtx} {y : Consuming}
variable {x : TaskCtx} {ls : List (Option TaskCtx)}

def raisedOn (x : TaskCtx) : Bool := (odsTaskEventGet x).getLsbD 0

theorem wanted_iff : Wanted 1 .and x.event.events ↔ raisedOn x = true := by
  constructor
  · intro h
    exact h 0 (by decide)
  · intro h b hb
    have hone : (1#32).getLsbD b = true := hb
    rw [BitVec.getLsbD_one] at hone
    obtain rfl : b = 0 := by simpa using hone
    exact h

def waitTicks (p : U32) : Nat := delayTicks p 1000

inductive ConsumerPhase (t : TaskPtr) (p : U32) : Consuming → Own (TskCtrl × List TskReport) → Prop
  | queued {x : TaskCtx} {ctrl : TskCtrl} {printed : List TskReport} :
      x.func ≠ none → ctrl.state = .idle → ConsumerPhase t p .idle ⟨.queued,x,(ctrl,printed),[]⟩
  | idle {x : TaskCtx} {ctrl : TskCtrl} {printed : List TskReport} :
      x.func ≠ none → x.state = .run → ctrl.state = .idle →
      ConsumerPhase t p .idle ⟨.listed,x,(ctrl,printed),[]⟩
  | recv {l : Place} {x : TaskCtx} {ctrl : TskCtrl} {printed : List TskReport} {j : Nat} :
      l = .listed ∨ l = .inside → x.func ≠ none → x.state = .run → ctrl.state = .recv →
      ctrl.noper.toNat = j → j ≤ 2 → ConsumerPhase t p (.recv j) ⟨l,x,(ctrl,printed),[]⟩
  | ask {x : TaskCtx} {ctrl : TskCtrl} {printed : List TskReport} {j : Nat} :
      x.func ≠ none → ctrl.state = .exec → ctrl.noper.toNat = j → j ≤ 2 →
      ConsumerPhase t p (.wait j (waitTicks p))
        ⟨.inside,x,(ctrl,printed),[.task t (.eventWait 0x01 .and 1000)]⟩
  | wait {l : Place} {x : TaskCtx} {ctrl : TskCtrl} {printed : List TskReport} {j left : Nat} :
      l = .listed ∨ l = .inside → x.func ≠ none → WaitLeft 1 .and left x → 0 < left →
      ctrl.state = .exec → ctrl.noper.toNat = j → j ≤ 2 →
      ConsumerPhase t p (.wait j left) ⟨l,x,(ctrl,printed),[]⟩
  | done {l : Place} {x : TaskCtx} {ctrl : TskCtrl} {printed : List TskReport} :
      l = .listed ∨ l = .inside → x.func ≠ none → x.state = .run → ctrl.state = .done →
      ConsumerPhase t p .done ⟨l,x,(ctrl,printed),[]⟩

theorem ConsumerPhase.event {l : Place} {q : TskCtrl × List TskReport} {ops : List Call}
    (h : ConsumerPhase t p y ⟨l,x,q,ops⟩) (mask : U32) (type : EventMaskType) :
    ConsumerPhase t p y ⟨l,odsTaskEventSet x mask type,q,ops⟩ := by
  have hfunc : (odsTaskEventSet x mask type).func = x.func := by cases type <;> rfl
  have hstate : (odsTaskEventSet x mask type).state = x.state := by cases type <;> rfl
  cases h with
  | queued hf hc => exact .queued (hfunc ▸ hf) hc
  | idle hf hs hc => exact .idle (hfunc ▸ hf) (hstate ▸ hs) hc
  | recv hl hf hs hc hn hj => exact .recv hl (hfunc ▸ hf) (hstate ▸ hs) hc hn hj
  | ask hf hc hn hj => exact .ask (hfunc ▸ hf) hc hn hj
  | wait hl hf hx hpos hc hn hj =>
    have hg : (TaskOp.eventSet mask type).Gentle := trivial
    exact .wait hl (hfunc ▸ hf) (hx.gentle (m := blank) hg rfl) hpos hc hn hj
  | done hl hf hs hc => exact .done hl (hfunc ▸ hf) (hstate ▸ hs) hc

/-- What a visit makes of a wait: it goes on, or ends with the verdict that holds. -/
theorem WaitLeft.outcome {left : Nat} (hx : WaitLeft 1 .and left x) (hpos : 0 < left) :
    if raisedOn x = true ∨ left ≤ 1 then (odsExecWake x).state = .run ∧
      odsTaskEventTimedOut (odsExecWake x) = !raisedOn x
    else WaitLeft 1 .and (left - 1) (odsExecWake x) := by
  cases hr : raisedOn x with
  | true => simpa using hx.found (wanted_iff.mpr hr)
  | false =>
    have hw : ¬ Wanted 1 .and x.event.events := by
      rw [wanted_iff,hr]
      simp
    by_cases hl : left ≤ 1
    · obtain rfl : left = 1 := by omega
      obtain ⟨hrun,hflag,-⟩ := hx.last hw
      simpa using ⟨hrun,hflag⟩
    · obtain ⟨left,rfl⟩ : ∃ n, left = n + 1 := ⟨left - 1,by omega⟩
      simpa [hl] using hx.wake (by omega) hw

/-- A visit that does not call the function leaves the consumer waiting. -/
theorem ConsumerPhase.skip {q : TskCtrl × List TskReport} {ops : List Call}
    (h : ConsumerPhase t p y ⟨.listed,x,q,ops⟩) (hn : odsExecFunc (odsExecWake x) = none) :
    ConsumerPhase t p (y.visit (waitTicks p) (raisedOn x)) ⟨.listed,odsExecCount (odsExecWake x),q,ops⟩ ∧
      y.verdict (raisedOn x) = none := by
  have hawake : x.func ≠ none → (odsExecWake x).state ≠ .run := by
    intro hf hr
    rw [odsExecFunc,if_pos hr,func_of_frame (odsExecWake_frame x)] at hn
    exact hf hn
  have hrun : x.func ≠ none → x.state ≠ .run := by
    intro hf hs
    rw [odsExecWake_of_other (by simp [hs]) (by simp [hs])] at hawake
    exact hawake hf hs
  cases h with
  | idle hf hs => exact (hrun hf hs).elim
  | recv _ hf hs => exact (hrun hf hs).elim
  | done _ hf hs => exact (hrun hf hs).elim
  | @wait _ _ _ _ j left hl hf hx hpos hc hj hle =>
    have hout := hx.outcome hpos
    split at hout
    · exact (hawake hf hout.1).elim
    · rename_i hgo
      obtain ⟨hr,hleft⟩ := not_or.mp hgo
      have hf' : (odsExecWake x).func ≠ none := by rwa [func_of_frame (odsExecWake_frame x)]
      have hx' : WaitLeft 1 .and (left - 1) (odsExecCount (odsExecWake x)) := waitCountdown.count hout
      simp only [Consuming.visit,Consuming.verdict,if_neg hgo,if_neg hr,if_neg hleft,and_true]
      exact .wait (.inl rfl) hf' hx' (by omega) hc hj hle

/-- The branch `TSK_STATE_EXEC`. -/
theorem consumerPhase_ended {ctrl : TskCtrl} {j : Nat} (hf : x.func ≠ none) (hs : x.state = .run)
    (printed : List TskReport) (hn : ctrl.noper.toNat = j) (hj : j ≤ 2) :
    ConsumerPhase t p (Consuming.ended (j + 1)) ⟨.inside,x,({ ctrl with
      noper := ctrl.noper + 1
      state := if 2 < ctrl.noper + 1 then .done else .recv },printed),[]⟩ := by
  have hnext : (ctrl.noper + 1).toNat = j + 1 := by
    rw [BitVec.toNat_add,hn]
    exact Nat.mod_eq_of_lt (by simp; omega)
  have hlt : 2 < ctrl.noper + 1 ↔ 2 < j + 1 := by rw [BitVec.lt_def,hnext]; rfl
  unfold Consuming.ended
  by_cases hd : 2 < j + 1
  · rw [if_pos hd]
    exact .done (.inr rfl) hf hs (if_pos (hlt.mpr hd))
  · rw [if_neg hd]
    exact .recv (.inr rfl) hf hs (if_neg (mt hlt.mp hd)) hnext (by omega)

def verdictsIn (printed : List TskReport) : List Bool := printed.filterMap TskReport.verdict

theorem ConsumerPhase.enter {q : TskCtrl × List TskReport} {ops : List Call} {f : FuncPtr}
    (h : ConsumerPhase t p y ⟨.listed,x,q,ops⟩) (hn : odsExecFunc (odsExecWake x) = some f) :
    ConsumerPhase t p (y.visit (waitTicks p) (raisedOn x)) ⟨.inside,odsExecWake x,
        (tskConsumer t (odsExecWake x) q).2,(tskConsumer t (odsExecWake x) q).1⟩ ∧
      verdictsIn (tskConsumer t (odsExecWake x) q).2.2 =
        verdictsIn q.2 ++ (y.verdict (raisedOn x)).toList := by
  have hsame : x.state = .run → odsExecWake x = x := fun hs =>
    odsExecWake_of_other (by simp [hs]) (by simp [hs])
  have hrun : (odsExecWake x).state = .run := by
    by_contra hr
    rw [odsExecFunc_of_ne_run hr] at hn
    cases hn
  cases h with
  | @idle _ ctrl printed hf hs hc =>
    rw [hsame hs]
    refine ⟨?_,?_⟩
    · simp only [tskConsumer,tskConsumerSwitch,hc]
      exact .recv (.inr rfl) hf hs rfl rfl (Nat.zero_le 2)
    · simp [tskConsumer,tskConsumerSwitch,hc,verdictsIn,TskReport.verdict,Consuming.verdict]
  | recv hl hf hs hc hj hle =>
    rw [hsame hs]
    refine ⟨?_,?_⟩
    · simp only [tskConsumer,tskConsumerSwitch,hc]
      exact .ask hf rfl hj hle
    · simp [tskConsumer,tskConsumerSwitch,hc,verdictsIn,TskReport.verdict,Consuming.verdict]
  | @wait _ _ ctrl printed j left hl hf hx hpos hc hj hle =>
    have hout := hx.outcome hpos
    split at hout
    · rename_i hend
      have hf' : (odsExecWake x).func ≠ none := by rwa [func_of_frame (odsExecWake_frame x)]
      have hended := consumerPhase_ended (t := t) (p := p) hf' hrun
        (tskConsumer t (odsExecWake x) (ctrl,printed)).2.2 hj hle
      refine ⟨?_,?_⟩
      · simp only [tskConsumer,tskConsumerSwitch,hc] at hended ⊢
        simp only [Consuming.visit,if_pos hend]
        exact hended
      · have hverdict : (Consuming.wait j left).verdict (raisedOn x) = some (raisedOn x) := by
          cases hr : raisedOn x with
          | true => simp [Consuming.verdict]
          | false => simpa [Consuming.verdict,hr] using hend
        rw [hverdict]
        cases hr : raisedOn x <;>
          simp [tskConsumer,tskConsumerSwitch,hc,verdictsIn,TskReport.verdict,hout.2,hr]
    · have hwait := (waitCountdown.waits hout).1
      exact (hwait hrun).elim
  | done hl hf hs hc =>
    rw [hsame hs]
    refine ⟨?_,?_⟩
    · simp only [tskConsumer,tskConsumerSwitch,hc]
      exact .done (.inr rfl) hf hs rfl
    · simp [tskConsumer,tskConsumerSwitch,hc,verdictsIn,TskReport.verdict,Consuming.verdict]

def Consuming.after (p : U32) (y : Consuming) : Option TaskCtx → Consuming
  | none => y
  | some x => y.visit (waitTicks p) (raisedOn x)

theorem ConsumerPhase.step (h : ConsumerPhase t p y o) (hs : OwnStep tskConsumer t p o v o') :
    ConsumerPhase t p (y.after p v) o' ∧ verdictsIn o'.priv.2 =
      verdictsIn o.priv.2 ++ (v.bind fun x => y.verdict (raisedOn x)).toList := by
  cases hs with
  | still => exact ⟨h,by simp⟩
  | event mask type => exact ⟨h.event mask type,by simp⟩
  | activate =>
    cases h with
    | queued hf hc => exact ⟨.idle hf rfl hc,by simp⟩
    | recv hl | wait hl | done hl => simp at hl
  | skip hn =>
    obtain ⟨hnext,hverdict⟩ := h.skip hn
    exact ⟨hnext,by simp [hverdict]⟩
  | enter hn => exact h.enter hn
  | @call m x x' q op ops hp hx =>
    cases h with
    | ask hf hc hj hle =>
      have hfunc : x'.func = x.func := func_of_frame (TaskOp.apply_frame hx)
      have hwait := odsTaskEventWait_left hp hx
      have hleft : WaitLeft 1 .and (waitTicks p) x' :=
        ⟨hwait.state,hwait.mask,hwait.type,hwait.counter⟩
      exact ⟨.wait (.inr rfl) (hfunc ▸ hf) hleft (delayTicks_pos p 1000) hc hj hle,by simp⟩
  | elsewhere ho =>
    cases h with
    | ask => exact (ho _ rfl).elim
  | leave =>
    refine ⟨?_,by simp⟩
    cases h with
    | recv _ hf hs hc hj hle => exact .recv (.inl rfl) hf hs hc hj hle
    | wait _ hf hx hpos hc hj hle =>
      exact .wait (.inl rfl) hf (waitCountdown.count hx) hpos hc hj hle
    | done _ hf hs hc => exact .done (.inl rfl) hf hs hc
  | remove hd =>
    cases h with
    | idle _ hs => simp [hs] at hd
    | recv _ _ hs => simp [hs] at hd
    | wait _ _ hx => simp [hx.state] at hd
    | done _ _ hs => simp [hs] at hd

/-- The consumer goes from phase to phase by what its visits find. -/
theorem ConsumerPhase.run (h : ConsumerPhase t p y o)
    (hrun : Run (OwnStep tskConsumer t p) (fun _ _ => True) o ls o') :
    ConsumerPhase t p (y.visits (waitTicks p) ((ls.filterMap id).map raisedOn)) o' ∧
      verdictsIn o'.priv.2 =
        verdictsIn o.priv.2 ++ y.verdicts (waitTicks p) ((ls.filterMap id).map raisedOn) := by
  induction hrun generalizing y with
  | nil o => exact ⟨h,by simp [Consuming.verdicts]⟩
  | @cons o o₁ o₂ v ls _ hs _ ih =>
    obtain ⟨h₁,hv⟩ := h.step hs
    obtain ⟨h₂,hvs⟩ := ih h₁
    cases v with
    | none =>
      rw [Option.bind_none,Option.toList_none,List.append_nil] at hv
      rw [hv] at hvs
      exact ⟨h₂,hvs⟩
    | some x =>
      refine ⟨h₂,?_⟩
      rw [hvs,hv,List.append_assoc]
      rfl

theorem ConsumerPhase.done_iff (h : ConsumerPhase t p y o) :
    o.priv.1.state = .done ↔ y = .done := by
  cases h with
  | done _ _ _ hc => simp [hc]
  | queued _ hc | idle _ _ hc | recv _ _ _ hc | ask _ hc | wait _ _ _ _ hc => simp [hc]

theorem ConsumerPhase.listed (h : ConsumerPhase t p y o) : o.place ≠ .gone := by
  cases h with
  | queued | idle | ask => simp
  | recv hl | wait hl | done hl => rcases hl with rfl | rfl <;> simp

end Visits

section Runs
variable {cs : List CtxPtr} {fuel : Nat} {s : Sys} {c : CtxPtr} {t : TaskPtr} {m : Mem}
variable {acts acts₀ : List Act} {ctrl : TskCtrl} {r : Coded (TskCtrl × List TskReport)}

/-- The consumer after a run, from the moment it is queued. -/
theorem consumer_run (hreach : Run (Step fuel) (Legal cs) (boot cs m) acts₀ s) (hc : c ∈ cs)
    (hq : Queued s.mem c t) (hfunc : (s.mem.task t).func ≠ none) (hctrl : ctrl.state = .idle)
    (hrun : Run (CodedStep tskConsumer (fun _ => False) fuel t) (fun r act => Timed cs c r.sys act)
      ⟨s,(ctrl,[]),[]⟩ acts r) : ∃ y,
    y = Consuming.idle.visits (waitTicks (s.mem.sch c).odsTickTimeMs)
        ((visitRecords fuel t s acts).map raisedOn) ∧
      (r.priv.1.state = .done ↔ y = .done) ∧
      verdictsIn r.priv.2 = Consuming.idle.verdicts (waitTicks (s.mem.sch c).odsTickTimeMs)
        ((visitRecords fuel t s acts).map raisedOn) ∧
      (r.sys.pc = .idle → (visitRecords fuel t s acts).length = acts.count (.tick c)) := by
  obtain ⟨a,hdue,hshows⟩ := shows_queued (q := (ctrl,[])) hreach hc hq
  obtain ⟨a',o',ls,hown,hshows',hrecords,hticks⟩ := run_own hrun hshows
  have hphase : ConsumerPhase t (s.mem.sch c).odsTickTimeMs .idle
      ⟨.queued,(s.mem.task t).data,(ctrl,[]),[]⟩ := .queued hfunc hctrl
  obtain ⟨hend,hverdicts⟩ := hphase.run hown
  have hraised : (ls.filterMap id).map raisedOn = (visitRecords fuel t s acts).map raisedOn := by
    rw [hrecords,List.map_map]
    rfl
  rw [hraised] at hend hverdicts
  refine ⟨_,rfl,?_,?_,fun hidle => ?_⟩
  · rw [← hshows'.priv]
    exact hend.done_iff
  · rw [← hshows'.priv]
    exact hverdicts
  · have hcount := hticks hend.listed
    rw [hdue,hshows'.due_idle hidle] at hcount
    exact hcount

/-- The consumer, from the moment it is queued, whatever else the clients do, as long as they
set no more than events on it and do not start its scheduler again: how far it has come and
which verdicts it has printed is what its visits, one in each tick, found raised. -/
theorem consumer_follows (hreach : Run (Step fuel) (Legal cs) (boot cs m) acts₀ s) (hc : c ∈ cs)
    (hq : Queued s.mem c t) (hfunc : (s.mem.task t).func ≠ none) (hctrl : ctrl.state = .idle)
    (hrun : Run (CodedStep tskConsumer (fun _ => False) fuel t) (fun r act => Timed cs c r.sys act)
      ⟨s,(ctrl,[]),[]⟩ acts r) :
    ∃ raised, raised = (visitRecords fuel t s acts).map raisedOn ∧
      (r.sys.pc = .idle → raised.length = acts.count (.tick c)) ∧
      (r.priv.1.state = .done ↔
        Consuming.idle.visits (waitTicks (s.mem.sch c).odsTickTimeMs) raised = .done) ∧
      verdictsIn r.priv.2 =
        Consuming.idle.verdicts (waitTicks (s.mem.sch c).odsTickTimeMs) raised := by
  obtain ⟨y,rfl,hdone,hverdicts,hticks⟩ := consumer_run hreach hc hq hfunc hctrl hrun
  refine ⟨_,rfl,fun hidle => ?_,hdone,hverdicts⟩
  rw [List.length_map]
  exact hticks hidle

theorem waitTicks_le {p : U32} (hp : odsTickTimeMsMin ≤ p) : waitTicks p ≤ 100 := by
  have hten : 10 ≤ p.toNat := hp
  have hdiv : 1000 / p.toNat ≤ 1000 / 10 := Nat.div_le_div_left hten (by decide)
  exact Nat.max_le.mpr ⟨by decide,hdiv⟩

/-- It is done after its three waits, each told of once: after seven ticks at the earliest, and
after `1 + 3 * (k + 1)` ticks at the latest where a wait takes `k`. If its visits find no event
every wait times out and it is done no sooner than that. -/
theorem consumer_done_within (hreach : Run (Step fuel) (Legal cs) (boot cs m) acts₀ s)
    (hc : c ∈ cs) (hq : Queued s.mem c t) (hfunc : (s.mem.task t).func ≠ none)
    (hctrl : ctrl.state = .idle)
    (hrun : Run (CodedStep tskConsumer (fun _ => False) fuel t) (fun r act => Timed cs c r.sys act)
      ⟨s,(ctrl,[]),[]⟩ acts r) (hidle : r.sys.pc = .idle) :
    ∃ k ≤ 100, k = waitTicks (s.mem.sch c).odsTickTimeMs ∧
      (r.priv.1.state = .done → 7 ≤ acts.count (.tick c) ∧ (verdictsIn r.priv.2).length = 3) ∧
      (1 + 3 * (k + 1) ≤ acts.count (.tick c) → r.priv.1.state = .done) ∧
      ((∀ x ∈ visitRecords fuel t s acts, raisedOn x = false) →
        (r.priv.1.state = .done ↔ 1 + 3 * (k + 1) ≤ acts.count (.tick c)) ∧
          ∀ v ∈ verdictsIn r.priv.2, v = false) := by
  obtain ⟨y,rfl,hdone,hverdicts,hticks⟩ := consumer_run hreach hc hq hfunc hctrl hrun
  obtain ⟨raised,hraised⟩ : ∃ raised, raised = (visitRecords fuel t s acts).map raisedOn := ⟨_,rfl⟩
  have hlen : raised.length = acts.count (.tick c) := by
    rw [hraised,List.length_map]
    exact hticks hidle
  rw [← hraised] at hdone hverdicts
  have hk : 0 < waitTicks (s.mem.sch c).odsTickTimeMs := delayTicks_pos _ _
  have hok : Consuming.idle.Ok (waitTicks (s.mem.sch c).odsTickTimeMs) := trivial
  have hnone : (∀ x ∈ visitRecords fuel t s acts, raisedOn x = false) → ∀ b ∈ raised, b = false := by
    rw [hraised,List.forall_mem_map]
    exact id
  rw [hverdicts,hdone,← hlen]
  refine ⟨_,waitTicks_le (run_period hreach hc),rfl,fun hd => ⟨?_,?_⟩,?_,fun hquiet => ⟨?_,?_⟩⟩
  · exact Consuming.least_le hk hok hd
  · have hcount : _ + (Consuming.idle.visits _ raised).waits = _ := Consuming.length_verdicts hk hok
    rw [hd] at hcount
    exact hcount
  · exact Consuming.visits_eq_done hk hok
  · exact ⟨Consuming.most_le hk hok (hnone hquiet),Consuming.visits_eq_done hk hok⟩
  · exact Consuming.verdicts_quiet (hnone hquiet)

def queuedAt500 : List Act := [.call (.add 0 1),.call (.start 0 500 7)]

def askTick : List Act :=
  [.tick 0,.visit,.call (.task 1 (.eventWait 1 .and 1000)),.ret,.finish]

def quickTicks : List Act :=
  let wait := askTick ++ [.call (.task 1 (.eventSet 1 .or)),.tick 0,.visit,.ret,.finish]
  [.tick 0,.visit,.ret,.finish] ++ wait ++ wait ++ wait

def silentTicks : List Act :=
  let wait := askTick ++ [.tick 0,.visit,.finish,.tick 0,.visit,.ret,.finish]
  [.tick 0,.visit,.ret,.finish] ++ wait ++ wait ++ wait

theorem consumer_follows_quick : ∃ s r,
    Run (Step 5) (Legal [0]) (boot [0] blank) queuedAt500 s ∧ Queued s.mem 0 1 ∧
      Run (CodedStep tskConsumer (fun _ => False) 5 1) (fun r act => Timed [0] 0 r.sys act)
        ⟨s,(⟨.idle,0,0,2⟩,[]),[]⟩ quickTicks r ∧
      r.priv.1.state = .done ∧ verdictsIn r.priv.2 = [true,true,true] := by
  obtain ⟨s,hreach,hP⟩ := runChecked_any (legalIn [0] 5) 5 (boot [0] blank) queuedAt500
    (fun s => presentIn 5 s.mem (s.mem.sch 0).odsPreExecList 1 && (s.mem.task 1).func = some 0 &&
      (s.mem.sch 0).odsTickTimeMs = 500 &&
      (visitRecords 5 1 s quickTicks).map raisedOn = [false,false,true,false,true,false,true] &&
      (runCoded tskConsumer (fun _ => False) [0] 5 0 1 ⟨s,(⟨.idle,0,0,2⟩,[]),[]⟩ quickTicks).isSome)
    (fun _ _ => legalIn_legal) (by decide +kernel)
  simp only [Bool.and_eq_true,decide_eq_true_eq] at hP
  obtain ⟨⟨⟨⟨hqueued,hfunc⟩,hperiod⟩,hrecords⟩,hP⟩ := hP
  obtain ⟨r,hr⟩ := Option.isSome_iff_exists.mp hP
  have hq : Queued s.mem 0 1 := presentIn_meets hqueued
  have hrun := runCoded_run hr
  obtain ⟨raised,hraised,-,hdone,hverdicts⟩ :=
    consumer_follows hreach List.mem_cons_self hq (by simp [hfunc]) rfl hrun
  rw [hrecords] at hraised
  rw [hraised,hperiod] at hdone hverdicts
  exact ⟨s,r,hreach,hq,hrun,hdone.mpr (by decide),hverdicts.trans (by decide)⟩

theorem consumer_done_within_silent : ∃ s r,
    Run (Step 5) (Legal [0]) (boot [0] blank) queuedAt500 s ∧ Queued s.mem 0 1 ∧
      Run (CodedStep tskConsumer (fun _ => False) 5 1) (fun r act => Timed [0] 0 r.sys act)
        ⟨s,(⟨.idle,0,0,2⟩,[]),[]⟩ silentTicks r ∧ r.sys.pc = .idle ∧
      silentTicks.count (.tick 0) = 10 ∧ r.priv.1.state = .done ∧
      (verdictsIn r.priv.2).length = 3 ∧ ∀ v ∈ verdictsIn r.priv.2, v = false := by
  obtain ⟨s,hreach,hP⟩ := runChecked_any (legalIn [0] 5) 5 (boot [0] blank) queuedAt500
    (fun s => presentIn 5 s.mem (s.mem.sch 0).odsPreExecList 1 && (s.mem.task 1).func = some 0 &&
      (s.mem.sch 0).odsTickTimeMs = 500 &&
      (visitRecords 5 1 s silentTicks).all (fun x => raisedOn x = false) &&
      (runCoded tskConsumer (fun _ => False) [0] 5 0 1 ⟨s,(⟨.idle,0,0,2⟩,[]),[]⟩ silentTicks).any fun r =>
        r.sys.pc = .idle)
    (fun _ _ => legalIn_legal) (by decide +kernel)
  simp only [Bool.and_eq_true,decide_eq_true_eq,List.all_eq_true] at hP
  obtain ⟨⟨⟨⟨hqueued,hfunc⟩,hperiod⟩,hquiet⟩,hP⟩ := hP
  obtain ⟨r,hr,hidle⟩ := (Option.any_eq_true _ _).mp hP
  have hq : Queued s.mem 0 1 := presentIn_meets hqueued
  have hrun := runCoded_run hr
  have hidle : r.sys.pc = .idle := by simpa using hidle
  obtain ⟨k,-,hk,hthree,hdone,hnone⟩ :=
    consumer_done_within hreach List.mem_cons_self hq (by simp [hfunc]) rfl hrun hidle
  obtain rfl : k = 2 := by
    rw [hk,hperiod]
    decide
  have hticks : silentTicks.count (.tick 0) = 10 := by decide
  have hd := hdone (by rw [hticks])
  exact ⟨s,r,hreach,hq,hrun,hidle,hticks,hd,(hthree hd).2,(hnone hquiet).2⟩

end Runs

end Ods
