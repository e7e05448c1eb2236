import Ods.Consumer

/-! The producer of `src/examples/main.c`. It sets an event of its peer in two of its calls; it
never waits, so it is called at every visit. -/
namespace Ods
open LabelledRun

def tskProducerSwitch (ctrl : TskCtrl) : List Call × TskCtrl × List TskReport :=
  match ctrl.state with
  | .idle => ([],{ ctrl with counter := 0, noper := 0, state := .exec },[])
  | .exec =>
    let counter := ctrl.counter + 1
    ([],if 3 < counter then { ctrl with counter := 0, state := .send }
      else { ctrl with counter := counter },[])
  | .send =>
    let noper := ctrl.noper + 1
    if 2 < noper then ([],{ ctrl with noper := noper, state := .done },[])
    else ([.task ctrl.peer (.eventSet 0x01 .or)],{ ctrl with noper := noper, state := .exec },[.sent])
  | .done => ([],{ ctrl with counter := 0, noper := 0 },[])
  | .recv => ([],ctrl,[])

def tskProducer : TaskCode (TskCtrl × List TskReport) := fun _ _ (ctrl,printed) =>
  let (ops,ctrl',reports) := tskProducerSwitch ctrl
  (ops,ctrl',printed ++ reports ++ [.prod ctrl.state ctrl'.state])

section Abstract

/-- The producer, as it is meant: `count j n` and `send j` after `j` sends, the former after `n`
calls since the last of them. -/
inductive Producing where
  | idle
  | count (j n : Nat)
  | send (j : Nat)
  | done
  deriving DecidableEq

def Producing.visit : Producing → Producing
  | .idle => .count 0 0
  | .count j n => if n < 3 then .count j (n + 1) else .send j
  | .send j => if j < 2 then .count (j + 1) 0 else .done
  | .done => .done

def Producing.sends : Producing → Bool
  | .send j => j < 2
  | _ => false

def Producing.after (n : Nat) : Producing := visit^[n] .idle

theorem Producing.after_succ (n : Nat) : after (n + 1) = (after n).visit :=
  Function.iterate_succ_apply' visit n .idle

theorem Producing.after_eq_done_iff {n : Nat} : after n = .done ↔ 16 ≤ n := by
  constructor
  · intro h
    by_contra hn
    have hsooner : ∀ i < 16, after i ≠ .done := by decide
    exact hsooner n (Nat.not_le.mp hn) h
  · intro hn
    obtain ⟨d,rfl⟩ := Nat.exists_eq_add_of_le hn
    induction d with
    | zero => decide
    | succ d ih => rw [Nat.add_succ,after_succ,ih (Nat.le_add_right 16 d),visit]

/-- It sends at its sixth and at its eleventh visit. -/
theorem Producing.sends_after {n : Nat} : (after n).sends = decide (n = 5 ∨ n = 10) := by
  by_cases hn : 16 ≤ n
  · have hneither : ¬ (n = 5 ∨ n = 10) := by omega
    rw [after_eq_done_iff.mpr hn,decide_eq_false hneither]
    rfl
  · have hsooner : ∀ i < 16, (after i).sends = decide (i = 5 ∨ i = 10) := by decide
    exact hsooner n (Nat.not_le.mp hn)

end Abstract

section Visits
variable {t u : TaskPtr} {p : U32} {o o' : Own (TskCtrl × List TskReport)} {v : Option TaskCtx}
variable {x : TaskCtx} {z : Producing} {ctrl : TskCtrl} {ls : List (Option TaskCtx)}

def sendTo (u : TaskPtr) : Call := .task u (.eventSet 0x01 .or)

def Producing.Held (ctrl : TskCtrl) : Producing → Prop
  | .idle => ctrl.state = .idle
  | .count j n => ctrl.state = .exec ∧ ctrl.noper.toNat = j ∧ ctrl.counter.toNat = n ∧ j ≤ 2 ∧ n ≤ 3
  | .send j => ctrl.state = .send ∧ ctrl.noper.toNat = j ∧ ctrl.counter = 0 ∧ j ≤ 2
  | .done => ctrl.state = .done

theorem toNat_succ {w : U32} {n : Nat} (hw : w.toNat = n) (hn : n ≤ 3) : (w + 1).toNat = n + 1 := by
  rw [BitVec.toNat_add,hw]
  exact Nat.mod_eq_of_lt (by simp; omega)

/-- A call of the producer: the next control data, and the event it sends. -/
theorem Producing.Held.call (h : z.Held ctrl) : z.visit.Held (tskProducerSwitch ctrl).2.1 ∧
    (tskProducerSwitch ctrl).2.1.peer = ctrl.peer ∧
    (tskProducerSwitch ctrl).1 = if z.sends then [sendTo ctrl.peer] else [] := by
  cases z with
  | idle =>
    have hs : ctrl.state = .idle := h
    simp [tskProducerSwitch,hs,visit,Held,sends]
  | count j n =>
    obtain ⟨hs,hj,hn,hle,hle'⟩ := h
    have hnext := toNat_succ hn hle'
    have hlt : 3 < ctrl.counter + 1 ↔ ¬ n < 3 := by
      rw [BitVec.lt_def,hnext]
      change 3 < n + 1 ↔ ¬ n < 3
      omega
    by_cases hd : n < 3
    · simp only [tskProducerSwitch,hs,if_neg (mt hlt.mp (not_not.mpr hd)),visit,if_pos hd]
      exact ⟨⟨rfl,hj,hnext,hle,hd⟩,trivial,by simp [sends]⟩
    · simp only [tskProducerSwitch,hs,if_pos (hlt.mpr hd),visit,if_neg hd]
      exact ⟨⟨rfl,hj,rfl,hle⟩,trivial,by simp [sends]⟩
  | send j =>
    obtain ⟨hs,hj,hc,hle⟩ := h
    have hnext := toNat_succ hj (Nat.le_succ_of_le hle)
    have hlt : 2 < ctrl.noper + 1 ↔ ¬ j < 2 := by
      rw [BitVec.lt_def,hnext]
      change 2 < j + 1 ↔ ¬ j < 2
      omega
    by_cases hd : j < 2
    · simp only [tskProducerSwitch,hs,if_neg (mt hlt.mp (not_not.mpr hd)),visit,if_pos hd]
      exact ⟨⟨rfl,hnext,by rw [hc]; rfl,hd,Nat.zero_le 3⟩,trivial,by simp [sends,hd,sendTo]⟩
    · simp only [tskProducerSwitch,hs,if_pos (hlt.mpr hd),visit,if_neg hd]
      exact ⟨rfl,trivial,by simp [sends,hd]⟩
  | done =>
    have hs : ctrl.state = .done := h
    simp [tskProducerSwitch,hs,visit,Held,sends]

theorem Producing.Held.done_iff (h : z.Held ctrl) : ctrl.state = .done ↔ z = .done := by
  cases z with
  | idle =>
    have hs : ctrl.state = .idle := h
    simp [hs]
  | count j n | send j => simp [h.1]
  | done =>
    have hs : ctrl.state = .done := h
    simp [hs]

inductive ProducerPhase (u : TaskPtr) : Producing → Own (TskCtrl × List TskReport) → Prop
  | queued {x : TaskCtx} {ctrl : TskCtrl} {printed : List TskReport} :
      x.func ≠ none → ctrl.state = .idle → ctrl.peer = u →
      ProducerPhase u .idle ⟨.queued,x,(ctrl,printed),[]⟩
  | ready {l : Place} {x : TaskCtx} {z : Producing} {ctrl : TskCtrl} {printed : List TskReport} :
      l = .listed ∨ l = .inside → x.func ≠ none → x.state = .run → z.Held ctrl → ctrl.peer = u →
      ProducerPhase u z ⟨l,x,(ctrl,printed),[]⟩
  | sending {x : TaskCtx} {z : Producing} {ctrl : TskCtrl} {printed : List TskReport} :
      x.func ≠ none → x.state = .run → z.Held ctrl → ctrl.peer = u →
      ProducerPhase u z ⟨.inside,x,(ctrl,printed),[sendTo u]⟩

theorem ProducerPhase.event {l : Place} {q : TskCtrl × List TskReport} {ops : List Call}
    (h : ProducerPhase u z ⟨l,x,q,ops⟩) (mask : U32) (type : EventMaskType) :
    ProducerPhase u z ⟨l,odsTaskEventSet x mask type,q,ops⟩ := by
  have hfunc : (odsTaskEventSet x mask type).func = x.func := by cases type <;> rfl
  have hstate : (odsTaskEventSet x mask type).state = x.state := by cases type <;> rfl
  cases h with
  | queued hf hc hu => exact .queued (hfunc ▸ hf) hc hu
  | ready hl hf hs hz hu => exact .ready hl (hfunc ▸ hf) (hstate ▸ hs) hz hu
  | sending hf hs hz hu => exact .sending (hfunc ▸ hf) (hstate ▸ hs) hz hu

def Producing.step (z : Producing) (v : Option TaskCtx) : Producing := if v.isSome then z.visit else z

/-- A visit of the producer calls it, and leaves it with the event to send, if it sends one. -/
theorem ProducerPhase.step (h : ProducerPhase u z o) (hs : OwnStep tskProducer t p o v o')
    (hu : u ≠ t) : ProducerPhase u (z.step v) o' ∧
      (v.isSome = true → (o'.todo = [] ↔ z.sends = false)) := by
  cases hs with
  | still => exact ⟨h,by simp⟩
  | event mask type => exact ⟨h.event mask type,by simp⟩
  | activate =>
    cases h with
    | queued hf hc hp => exact ⟨.ready (.inl rfl) hf rfl hc hp,by simp⟩
    | ready hl => simp at hl
  | skip hn =>
    cases h with
    | ready _ hf hs =>
      rw [odsExecWake_of_other (by simp [hs]) (by simp [hs])] at hn
      exact (odsExecFunc_of_run hf hs hn).elim
  | @enter x q =>
    cases h with
    | @ready _ _ _ ctrl printed _ hf hs hz hp =>
      obtain ⟨hz',hp',hops⟩ := hz.call
      rw [odsExecWake_of_other (by simp [hs]) (by simp [hs])]
      simp only [tskProducer,hops,Producing.step,Option.isSome_some,if_true,hp]
      cases z.sends with
      | true => exact ⟨.sending hf hs hz' (hp'.trans hp),by simp⟩
      | false => exact ⟨.ready (.inr rfl) hf hs hz' (hp'.trans hp),by simp⟩
  | call =>
    cases h with
    | sending => exact (hu rfl).elim
  | elsewhere =>
    cases h with
    | sending hf hs hz hp => exact ⟨.ready (.inr rfl) hf hs hz hp,by simp⟩
  | leave =>
    cases h with
    | ready _ hf hs hz hp => exact ⟨.ready (.inl rfl) hf hs hz hp,by simp⟩
  | remove hd =>
    cases h with
    | ready _ _ hs => simp [hs] at hd

theorem ProducerPhase.done_iff (h : ProducerPhase u z o) : o.priv.1.state = .done ↔ z = .done := by
  cases h with
  | queued _ hc => simp [hc]
  | ready _ _ _ hz | sending _ _ hz => exact hz.done_iff

theorem ProducerPhase.listed (h : ProducerPhase u z o) : o.place ≠ .gone := by
  cases h with
  | queued | sending => simp
  | ready hl => rcases hl with rfl | rfl <;> simp

/-- What it has still to do is to send. -/
theorem ProducerPhase.todo (h : ProducerPhase u z o) :
    o.todo = [] ∨ o.todo = [sendTo u] ∧ o.place = .inside := by
  cases h with
  | queued | ready => exact .inl rfl
  | sending => exact .inr ⟨rfl,rfl⟩

end Visits

end Ods
