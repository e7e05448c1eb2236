import Ods.Producer
import Ods.Received

/-! The producer and the consumer of `src/examples/main.c` on one scheduler, the producer in
front. Which waits end with an event, and when both are done, is settled by the tick time. -/
namespace Ods
open LabelledRun

section Abstract
variable {k n i : Nat} {y : Consuming} {b : Bool}

/-- Both tasks after the same number of visits: where the consumer is, whether its event is
raised, and what was told of its waits. -/
structure Meeting where
  consumer : Consuming
  raised : Bool
  told : List Bool
  deriving DecidableEq

def Meeting.visit (k : Nat) (g : Meeting) (sent : Bool) : Meeting where
  consumer := g.consumer.visit k (g.raised || sent)
  raised := g.consumer.take (g.raised || sent)
  told := g.told ++ (g.consumer.verdict (g.raised || sent)).toList

def Meeting.after (k : Nat) : Nat → Meeting
  | 0 => ⟨.idle,false,[]⟩
  | n + 1 => (after k n).visit k (Producing.after n).sends

def doneAt : Nat → Nat
  | 1 => 7
  | 2 => 9
  | 3 => 11
  | k => 12 + k

def reported : Nat → List Bool
  | 1 => [false,false,true]
  | 2 => [false,true,false]
  | 3 => [false,true,true]
  | _ => [true,true,false]

theorem Meeting.after_succ : after k (n + 1) = (after k n).visit k (decide (n = 5 ∨ n = 10)) := by
  rw [after,Producing.sends_after]

theorem Meeting.visit_done {g : Meeting} (h : g.consumer = .done) (sent : Bool) :
    (g.visit k sent).consumer = .done ∧ (g.visit k sent).told = g.told := by
  simp [visit,h,Consuming.visit,Consuming.verdict]

theorem Meeting.after_done (h : (after k n).consumer = .done) (hi : n ≤ i) :
    (after k i).consumer = .done ∧ (after k i).told = (after k n).told := by
  induction i,hi using Nat.le_induction with
  | base => exact ⟨h,rfl⟩
  | succ i _ ih =>
    obtain ⟨hd,ht⟩ := visit_done (k := k) ih.1 (Producing.after i).sends
    exact ⟨hd,ht.trans ih.2⟩

/-- A wait of four ticks or more finds both events. -/
theorem Meeting.after_twelve (hk : 4 ≤ k) : after k 12 = ⟨.wait 2 k,false,[true,true]⟩ := by
  have h₁ : ¬ k ≤ 1 := by omega
  have h₂ : ¬ k - 1 ≤ 1 := by omega
  have h₃ : ¬ k - 1 - 1 ≤ 1 := by omega
  simp [after,visit,Producing.sends_after,Consuming.visit,Consuming.take,Consuming.verdict,
    Consuming.ended,h₁,h₂,h₃]

/-- Then the third wait is for an event that nobody sends. -/
theorem Meeting.after_wait (hk : 4 ≤ k) (hi : i < k) :
    after k (12 + i) = ⟨.wait 2 (k - i),false,[true,true]⟩ := by
  induction i with
  | zero => exact after_twelve hk
  | succ i ih =>
    have hsent : ¬ (12 + i = 5 ∨ 12 + i = 10) := by omega
    have hleft : ¬ k - i ≤ 1 := by omega
    rw [← Nat.add_assoc,after_succ,ih (Nat.lt_of_succ_lt hi),decide_eq_false hsent]
    simp [visit,Consuming.visit,Consuming.take,Consuming.verdict,hleft,Nat.sub_sub]

theorem Meeting.after_last (hk : 4 ≤ k) : after k (12 + k) = ⟨.done,false,[true,true,false]⟩ := by
  obtain ⟨d,rfl⟩ : ∃ d, k = d + 1 := ⟨k - 1,by omega⟩
  have hsent : ¬ (12 + d = 5 ∨ 12 + d = 10) := by omega
  rw [← Nat.add_assoc,after_succ,after_wait hk (Nat.lt_succ_self d),decide_eq_false hsent]
  simp [visit,Consuming.visit,Consuming.take,Consuming.verdict,Consuming.ended]

theorem Meeting.after_doneAt (hk : 0 < k) : (after k (doneAt k)).consumer = .done ∧
    (after k (doneAt k)).told = reported k ∧ ∀ i < doneAt k, (after k i).consumer ≠ .done := by
  by_cases hlt : k < 4
  · have hsmall : ∀ k < 4, 0 < k → (after k (doneAt k)).consumer = .done ∧
        (after k (doneAt k)).told = reported k ∧ ∀ i < doneAt k, (after k i).consumer ≠ .done := by
      decide
    exact hsmall k hlt hk
  · have hle : 4 ≤ k := Nat.le_of_not_lt hlt
    obtain ⟨d,rfl⟩ : ∃ d, k = d + 4 := ⟨k - 4,by omega⟩
    have hlast := after_last hle
    refine ⟨congrArg Meeting.consumer hlast,congrArg Meeting.told hlast,fun i hi hdone => ?_⟩
    have hi : i ≤ 12 + (d + 3) := Nat.le_of_lt_succ hi
    have hwait := after_wait (i := d + 3) hle (Nat.lt_succ_self _)
    have hend := (after_done hdone hi).1
    rw [hwait] at hend
    cases hend

/-- The consumer is done from the tick `doneAt k` on. -/
theorem Meeting.done_iff (hk : 0 < k) : (after k n).consumer = .done ↔ doneAt k ≤ n := by
  obtain ⟨hdone,-,hsooner⟩ := after_doneAt hk
  constructor
  · intro h
    by_contra hn
    exact hsooner n (Nat.not_le.mp hn) h
  · intro hn
    exact (after_done hdone hn).1

theorem Meeting.told_of_done (hk : 0 < k) (hn : doneAt k ≤ n) : (after k n).told = reported k := by
  obtain ⟨hdone,htold,-⟩ := after_doneAt hk
  exact (after_done hdone hn).2.trans htold

end Abstract

section Order
variable {cs : List CtxPtr} {s : Sys} {a a' : ListSched} {c d : CtxPtr} {t u v : TaskPtr} {act : Act}
variable {L rest : List TaskPtr}

/-- What stands behind a task is not yet visited when the task is not. -/
theorem mem_of_suffix (hn : L.Nodup) (hb : [t,u].Sublist L) (hsuf : rest <:+ L) (ht : t ∈ rest) :
    u ∈ rest := by
  obtain ⟨front,rfl⟩ := hsuf
  obtain ⟨l₁,l₂,hl,h₁,h₂⟩ := List.sublist_append_iff.mp hb
  cases l₁ with
  | nil =>
    rw [List.nil_append] at hl
    subst hl
    exact h₂.subset (List.mem_cons_of_mem t List.mem_cons_self)
  | cons v l₁ =>
    rw [List.cons_append,List.cons.injEq] at hl
    obtain ⟨rfl,-⟩ := hl
    have hfront : t ∈ front := h₁.subset List.mem_cons_self
    exact ((List.nodup_append.mp hn).2.2 t hfront t ht rfl).elim

theorem pair_sublist {L' : List TaskPtr} (hn : L.Nodup) (hL : L'.Sublist L)
    (hb : [t,u].Sublist L) (ht : t ∈ L') (hu : u ∈ L') : [t,u].Sublist L' := by
  have hkept : L' = L.filter (· ∈ L') := by
    have hself : L'.filter (· ∈ L') = L' := List.filter_eq_self.mpr fun v hv => decide_eq_true hv
    have hsub := hL.filter (· ∈ L')
    rw [hself] at hsub
    refine hsub.eq_of_length_le (List.Nodup.length_le_of_subset (hn.filter _) ?_)
    intro v hv
    simpa using (List.mem_filter.mp hv).2
  have h := hb.filter (· ∈ L')
  rw [← hkept] at h
  simpa [ht,hu] using h

def lined (a : ListSched) (c : CtxPtr) : List TaskPtr := (a.lay.pend c).reverse ++ a.lay.exec c

theorem lined_nodup (a : ListSched) (c : CtxPtr) : (lined a c).Nodup := by
  refine (List.Perm.nodup_iff ?_).mpr (a.lay.nodup c)
  exact ((List.reverse_perm _).append_right _).trans List.perm_append_comm

theorem Place.Of.mem_lined {pl : Place} (hl : pl.Of t c a) (hg : pl ≠ .gone) : t ∈ lined a c := by
  cases pl with
  | queued => exact List.mem_append_left _ (List.mem_reverse.mpr hl)
  | listed | inside => exact List.mem_append_right _ hl.1
  | gone => exact (hg rfl).elim

/-- Two tasks that stay do not change places. -/
theorem ListStep.lined (hstep : ListStep a act a') (hb : [t,u].Sublist (Ods.lined a c))
    (ht : t ∈ Ods.lined a' c) (hu : u ∈ Ods.lined a' c) : [t,u].Sublist (Ods.lined a' c) := by
  cases hstep with
  | call | skip | invoke | ret => exact hb
  | @add l d pc e v hf =>
    by_cases hce : c = e
    · subst hce
      simp only [Ods.lined,Layout.queue_exec,Layout.queue_pend_self,List.reverse_cons,
        List.append_assoc] at hb ⊢
      exact hb.trans ((List.sublist_append_right [v] _).append_left _)
    · simpa only [Ods.lined,Layout.queue_exec,Layout.queue_pend_of_ne _ _ _ _ _ hce] using hb
  | @tick l d e =>
    by_cases hce : c = e
    · subst hce
      simpa only [Ods.lined,Layout.activate_exec_self,Layout.activate_pend_self,List.reverse_nil,
        List.nil_append] using hb
    · simpa only [Ods.lined,Layout.activate_exec_of_ne _ _ _ hce,
        Layout.activate_pend_of_ne _ _ _ hce] using hb
  | @finish l d e =>
    by_cases hce : c = e
    · subst hce
      refine pair_sublist (lined_nodup _ c) ?_ hb ht hu
      simp only [Ods.lined,Layout.prune_exec_self,Layout.prune_pend]
      exact List.filter_sublist.append_left _
    · simpa only [Ods.lined,Layout.prune_exec_of_ne _ _ _ _ hce,Layout.prune_pend] using hb

theorem suffix_lined (hsuf : rest <:+ a.lay.exec d) (hv : v ∈ rest) (hl : v ∈ lined a c) :
    rest <:+ lined a c := by
  have hmem : v ∈ a.lay.exec c ++ a.lay.pend c := by
    rw [lined,List.mem_append,List.mem_reverse] at hl
    exact List.mem_append.mpr hl.symm
  obtain rfl := a.lay.apart d c v (List.mem_append_left _ (hsuf.subset hv)) hmem
  exact hsuf.trans (List.suffix_append _ _)

theorem Refines.due_le_one (h : Refines cs s a) : due t a ≤ 1 := by
  obtain ⟨d,hsuf⟩ := h.rest_suffix
  exact List.nodup_iff_count_le_one.mp ((a.lay.exec_nodup d).sublist hsuf.sublist) t

/-- The task in front is visited first. -/
theorem Refines.due_le (h : Refines cs s a) (hb : [t,u].Sublist (lined a c)) : due t a ≤ due u a := by
  obtain ⟨d,hsuf⟩ := h.rest_suffix
  by_cases ht : t ∈ a.pc.rest
  · have hl : t ∈ lined a c := hb.subset List.mem_cons_self
    have hu := mem_of_suffix (lined_nodup a c) hb (suffix_lined hsuf ht hl) ht
    exact h.due_le_one.trans (List.count_pos_iff.mpr hu)
  · rw [due,List.count_eq_zero.mpr ht]
    exact Nat.zero_le _

theorem Refines.due_of_later (h : Refines cs s a) (hb : [t,u].Sublist (lined a c))
    (hpc : a.pc = .walk d (u :: rest)) : due t a = 0 ∧ due u a = 1 := by
  have hsuf := (h.pc_of_walk hpc).2.1
  refine ⟨?_,due_of_walk hsuf hpc⟩
  have hl : u ∈ lined a c := hb.subset (List.mem_cons_of_mem t List.mem_cons_self)
  have hlined := suffix_lined hsuf List.mem_cons_self hl
  have hne : t ≠ u := by simpa using (lined_nodup a c).sublist hb
  have hu : u ∉ rest := (List.nodup_cons.mp ((lined_nodup a c).sublist hlined.sublist)).1
  rw [due,hpc,ListPc.rest,List.count_cons_of_ne hne.symm]
  refine List.count_eq_zero.mpr fun ht => hu ?_
  exact mem_of_suffix (lined_nodup a c) hb ((List.suffix_cons u rest).trans hlined) ht

theorem Refines.due_of_inside (h : Refines cs s a) (hb : [t,u].Sublist (lined a c))
    (hpc : a.pc = .body d t rest) : due t a = 0 ∧ due u a = 1 := by
  obtain ⟨rest',hpc',-,hsuf⟩ :=
    ((h.exec_of_body hpc).2.2 ▸ h.pc : PcRel cs a.lay (.body d t) a.pc).of_body
  obtain rfl : rest' = rest := by
    rw [hpc] at hpc'
    cases hpc'
    rfl
  refine ⟨due_of_body hsuf hpc,Nat.le_antisymm h.due_le_one ?_⟩
  have hl : t ∈ lined a c := hb.subset List.mem_cons_self
  have hne : t ≠ u := by simpa using (lined_nodup a c).sublist hb
  have hu := mem_of_suffix (lined_nodup a c) hb (suffix_lined hsuf List.mem_cons_self hl)
    List.mem_cons_self
  rw [due,hpc]
  exact List.count_pos_iff.mpr (List.mem_of_ne_of_mem hne.symm hu)

end Order

section Paired
variable {cs : List CtxPtr} {c : CtxPtr} {t u : TaskPtr} {p : U32} {fuel i j k : Nat} {act : Act}
variable {r r₁ r' r₁' : Coded (TskCtrl × List TskReport)} {a a₁ : ListSched} {acts : List Act}
variable {o o₁ o' o₁' : Own (TskCtrl × List TskReport)} {x : TaskCtx} {y : Consuming}
variable {v : Option TaskCtx}

theorem Producing.step_after : (after i).step v = after (i + v.toList.length) := by
  cases v with
  | none => rfl
  | some x => exact (after_succ i).symm

def sent (i j : Nat) (o : Own (TskCtrl × List TskReport)) : Bool :=
  decide (i = j + 1 ∧ o.todo = []) && (Producing.after j).sends

/-- The producer and the consumer in one machine, after `i` visits of the one and `j` of the
other. -/
structure Paired (cs : List CtxPtr) (c : CtxPtr) (t u : TaskPtr) (p : U32)
    (r r' : Coded (TskCtrl × List TskReport)) (a : ListSched)
    (o o' : Own (TskCtrl × List TskReport)) (i j : Nat) : Prop where
  producer : Shows cs c t p r a o
  consumer : Shows cs c u p r' a o'
  same : r'.sys = r.sys
  lined : [t,u].Sublist (lined a c)
  visits : i + due t a = j + due u a
  counting : ProducerPhase u (Producing.after i) o
  waiting : ConsumerPhase u p (Meeting.after (waitTicks p) j).consumer o'
  sending : o.todo ≠ [] → i = j + 1 ∧ (Producing.after j).sends = true
  raised : o'.raised = ((Meeting.after (waitTicks p) j).raised || sent i j o)
  told : verdictsIn o'.priv.2 = (Meeting.after (waitTicks p) j).told

abbrev SetsEvents (u : TaskPtr) (act : Act) : Prop := (eventSetOn u act).isSome = true

theorem Paired.ne (h : Paired cs c t u p r r' a o o' i j) : t ≠ u := by
  simpa using (lined_nodup a c).sublist h.lined

/-- A visit of the consumer finds what the producer has sent in the same tick. -/
theorem Paired.found (h : Paired cs c t u p r r' a o o' i j)
    (hv : visitedAs u r.sys act = some x) (hown : OwnStep tskConsumer u p o' (some x.data) o₁') :
    i = j + 1 ∧ o.todo = [] ∧
      raisedOn x.data = ((Meeting.after (waitTicks p) j).raised || (Producing.after j).sends) := by
  obtain ⟨-,-,d,hpc⟩ := visitedAs_eq_some hv
  obtain ⟨rest,hwalk⟩ := h.producer.refines.walk_of_pc hpc
  obtain ⟨hdue,hdue'⟩ := h.producer.refines.due_of_later h.lined hwalk
  have hvisits := h.visits
  rw [hdue,hdue',Nat.add_zero] at hvisits
  have htodo : o.todo = [] := by
    rcases h.counting.todo with htodo | ⟨-,hin⟩
    · exact htodo
    · have hplace := h.producer.place
      rw [hin] at hplace
      obtain ⟨-,e,rest',hbody⟩ := hplace
      rw [hwalk] at hbody
      cases hbody
  obtain ⟨hl,hctx,-,-⟩ := hown.visit
  have hsent : sent i j o = (Producing.after j).sends := by
    rw [sent,decide_eq_true ⟨hvisits,htodo⟩,Bool.true_and]
  have hraised : o'.raised = raisedOn x.data := by
    rw [Own.raised,hl,hctx]
    rfl
  refine ⟨hvisits,htodo,?_⟩
  rw [← hraised,h.raised,hsent]

theorem visitedAs_one (ht : visitedAs t r.sys act = some x) (hne : t ≠ u) :
    visitedAs u r.sys act = none := by
  obtain ⟨rfl,-,d,hpc⟩ := visitedAs_eq_some ht
  simp [visitedAs,visitOf,hpc,hne]

/-- What the consumer comes to, and tells, is what the meeting does. -/
theorem Paired.meeting (h : Paired cs c t u p r r' a o o' i j)
    (hown : OwnStep tskConsumer u p o' ((visitedAs u r.sys act).map TaskCtx.data) o₁') :
    ConsumerPhase u p
        (Meeting.after (waitTicks p) (j + (visitedAs u r.sys act).toList.length)).consumer o₁' ∧
      verdictsIn o₁'.priv.2 =
        (Meeting.after (waitTicks p) (j + (visitedAs u r.sys act).toList.length)).told := by
  obtain ⟨hphase,htold⟩ := h.waiting.step hown
  rw [h.told] at htold
  cases hv : visitedAs u r.sys act with
  | none =>
    rw [hv] at hphase htold
    exact ⟨hphase,htold.trans (List.append_nil _)⟩
  | some x =>
    rw [hv] at hphase htold hown
    obtain ⟨-,-,hfound⟩ := h.found hv hown
    simp only [Option.map_some,Consuming.after,Option.bind_some,hfound] at hphase htold
    exact ⟨hphase,htold⟩

/-- The event as a visit of the consumer leaves it. -/
theorem Paired.taken (h : Paired cs c t u p r r' a o o' i j)
    (hv : visitedAs u r.sys act = some x) (hown : OwnStep tskConsumer u p o' (some x.data) o₁') :
    o₁'.raised = (Meeting.after (waitTicks p) (j + 1)).raised := by
  obtain ⟨hl,hctx,hq,hwake⟩ := hown.visit
  have htake := h.waiting.take hl
  rw [hctx,(h.found hv hown).2.2] at htake
  rw [Own.raised,decide_eq_true hq,Bool.true_and,hwake,htake]
  rfl

section Producer
variable {σ : Type} {code : TaskCode σ} {mine : Act → Prop} {q q₁ : Coded σ}

/-- Between its visits a function makes its calls, and nobody else those that are its own. -/
theorem CodedStep.unvisited (hs : CodedStep code mine fuel t q act q₁)
    (hv : visitedAs t q.sys act = none) :
    (q₁.todo = q.todo ∧ (act = .ret ∨ ¬ mine act)) ∨
      ∃ op d, act = .call op ∧ q.todo = op :: q₁.todo ∧ q.sys.pc = .body d t := by
  cases hs with
  | enter hc =>
    obtain ⟨d,hpc,-⟩ := visitOf_eq_some hc
    rw [visitedAs_of_walk hpc] at hv
    cases hv
  | @call _ _ d _ op _ hpc => exact .inr ⟨op,d,rfl,rfl,hpc⟩
  | leave => exact .inl ⟨rfl,.inl rfl⟩
  | others _ hm => exact .inl ⟨rfl,.inr hm⟩

end Producer

theorem not_setsEvents (h : ¬ SetsEvents u act) (mask : U32) (type : EventMaskType) :
    act ≠ .call (.task u (.eventSet mask type)) := by
  rintro rfl
  simp [SetsEvents,eventSetOn] at h

def Goes (p : U32) (o₁ o₁' : Own (TskCtrl × List TskReport)) (i j : Nat) : Prop :=
  (o₁.todo ≠ [] → i = j + 1 ∧ (Producing.after j).sends = true) ∧
    o₁'.raised = ((Meeting.after (waitTicks p) j).raised || sent i j o₁)

theorem Paired.goes_producer (h : Paired cs c t u p r r' a o o' i j)
    (h₁' : Shows cs c u p r₁' a₁ o₁') (hstep : ListStep a act a₁)
    (hv : visitedAs t r.sys act = some x) (hown : OwnStep tskProducer t p o (some x.data) o₁)
    (hown' : OwnStep tskConsumer u p o' none o₁') : Goes p o₁ o₁' (i + 1) j := by
  obtain ⟨rfl,-,d,hpc⟩ := visitedAs_eq_some hv
  have hR := h.producer.refines
  obtain ⟨rest,hwalk⟩ := hR.walk_of_pc hpc
  have hdue := due_of_walk (hR.pc_of_walk hwalk).2.1 hwalk
  have hdue' : due u a = 1 := Nat.le_antisymm hR.due_le_one (hdue ▸ hR.due_le h.lined)
  have hij : i = j := by
    have hvisits := h.visits
    rw [hdue,hdue'] at hvisits
    exact Nat.add_right_cancel hvisits
  subst hij
  have htodo := (h.counting.step hown h.ne.symm).2 rfl
  have hunvisited : visitedAs u r'.sys .visit = none := by
    rw [h.same]
    exact visitedAs_one hv h.ne
  have hkept := h.consumer.raised h₁' hown' hstep hunvisited fun _ _ hc => by cases hc
  have hbefore : sent i i o = false := by simp [sent]
  have hafter : sent (i + 1) i o₁ = false := by
    by_cases ho : o₁.todo = []
    · rw [sent,htodo.mp ho,Bool.and_false]
    · simp [sent,ho]
  refine ⟨fun ho => ⟨rfl,?_⟩,?_⟩
  · by_contra hsends
    exact ho (htodo.mpr (by simpa using hsends))
  · rw [hkept,h.raised,hbefore,hafter]

/-- The producer sends. -/
theorem Paired.goes_send (h : Paired cs c t u p r r' a o o' i j)
    (h₁' : Shows cs c u p r₁' a₁ o₁') {d : CtxPtr} {op : Call}
    (hstep : ListStep a (.call op) a₁) (hpc : r.sys.pc = .body d t) (htodo : o.todo = op :: o₁.todo)
    (hown' : OwnStep tskConsumer u p o' none o₁') : Goes p o₁ o₁' i j := by
  have hR := h.producer.refines
  obtain ⟨hij,hsends⟩ := h.sending (by simp [htodo])
  rcases h.counting.todo with hnone | ⟨hsend,-⟩
  · rw [hnone] at htodo
    cases htodo
  · rw [hsend,List.cons.injEq] at htodo
    obtain ⟨rfl,hrest⟩ := htodo
    obtain ⟨rest,hbody,-,-⟩ := (hpc ▸ hR.pc : PcRel cs a.lay (.body d t) a.pc).of_body
    have hdue := (hR.due_of_inside h.lined hbody).2
    have hq : o'.place ≠ .queued := by
      intro hq
      have hplace := h.consumer.place
      rw [hq] at hplace
      rw [hR.due_pend hplace] at hdue
      cases hdue
    obtain ⟨-,-,hctx⟩ := hstep.call_self
    have hset : odsTaskEventSet (a.data.task u) 0x01 .or = a₁.data.task u := Option.some.inj hctx
    have hraised : o₁'.raised = true := by
      rw [Own.raised,decide_eq_true (hown'.place_ne_queued hq),h₁'.ctx,← hset]
      simp [raisedOn,odsTaskEventGet,odsTaskEventSet]
    refine ⟨fun ho => (ho hrest.symm).elim,?_⟩
    rw [hraised,sent,decide_eq_true ⟨hij,hrest.symm⟩,hsends,Bool.true_and,Bool.or_true]

theorem Paired.goes_others (h : Paired cs c t u p r r' a o o' i j)
    (h₁' : Shows cs c u p r₁' a₁ o₁') (hstep : ListStep a act a₁)
    (hv : visitedAs u r.sys act = none) (htodo : o₁.todo = o.todo)
    (hset : act = .ret ∨ ¬ SetsEvents u act) (hown' : OwnStep tskConsumer u p o' none o₁') :
    Goes p o₁ o₁' i j := by
  have hcall : ∀ mask type, act ≠ .call (.task u (.eventSet mask type)) := by
    rcases hset with rfl | hset
    · exact fun _ _ hc => by cases hc
    · exact not_setsEvents hset
  have hkept := h.consumer.raised h₁' hown' hstep (h.same ▸ hv) hcall
  refine ⟨fun ho => h.sending (htodo ▸ ho),?_⟩
  rw [hkept,h.raised,sent,sent,htodo]

theorem Paired.goes_consumer (h : Paired cs c t u p r r' a o o' i j)
    (hv : visitedAs u r.sys act = some x) (hown' : OwnStep tskConsumer u p o' (some x.data) o₁')
    (htodo : o₁.todo = o.todo) : Goes p o₁ o₁' i (j + 1) := by
  obtain ⟨hij,hnone,-⟩ := h.found hv hown'
  refine ⟨fun ho => (ho (htodo.trans hnone)).elim,?_⟩
  have hsent : sent i (j + 1) o₁ = false := by
    have hne : ¬ (i = j + 1 + 1 ∧ o₁.todo = []) := by omega
    rw [sent,decide_eq_false hne,Bool.false_and]
  rw [h.taken hv hown',hsent,Bool.or_false]

theorem Paired.goes (h : Paired cs c t u p r r' a o o' i j)
    (hs : CodedStep tskProducer (SetsEvents u) fuel t r act r₁) (h₁ : Shows cs c t p r₁ a₁ o₁)
    (h₁' : Shows cs c u p r₁' a₁ o₁') (hstep : ListStep a act a₁)
    (hown : OwnStep tskProducer t p o ((visitedAs t r.sys act).map TaskCtx.data) o₁)
    (hown' : OwnStep tskConsumer u p o' ((visitedAs u r.sys act).map TaskCtx.data) o₁') :
    Goes p o₁ o₁' (i + (visitedAs t r.sys act).toList.length)
      (j + (visitedAs u r.sys act).toList.length) := by
  cases hv : visitedAs t r.sys act with
  | some x =>
    have hv' := visitedAs_one hv h.ne
    rw [hv] at hown
    rw [hv'] at hown' ⊢
    exact h.goes_producer h₁' hstep hv hown hown'
  | none =>
    rcases hs.unvisited hv with ⟨htodo,hset⟩ | ⟨op,d,rfl,htodo,hpc⟩
    · rw [← h₁.todo,← h.producer.todo] at htodo
      cases hv' : visitedAs u r.sys act with
      | some x =>
        rw [hv'] at hown'
        exact h.goes_consumer hv' hown' htodo
      | none =>
        rw [hv'] at hown'
        exact h.goes_others h₁' hstep hv' htodo hset hown'
    · rw [← h₁.todo,← h.producer.todo] at htodo
      exact h.goes_send h₁' hstep hpc htodo hown'

/-- A step of the machine, for both. -/
theorem Paired.step (h : Paired cs c t u p r r' a o o' i j)
    (hs : CodedStep tskProducer (SetsEvents u) fuel t r act r₁)
    (hs' : CodedStep tskConsumer (fun _ => False) fuel u r' act r₁') (hok : Timed cs c r.sys act) :
    ∃ a₁ o₁ o₁', Paired cs c t u p r₁ r₁' a₁ o₁ o₁' (i + (visitedAs t r.sys act).toList.length)
        (j + (visitedAs u r.sys act).toList.length) ∧
      (visitedAs t r.sys act).toList.length + due t a₁ = [act].count (.tick c) + due t a := by
  obtain ⟨a₁,hstep,hR₁⟩ := step_refines h.producer.refines hok.legal hs.step
  have hmachine := hs'.step
  rw [h.same] at hmachine
  have hsame : r₁'.sys = r₁.sys := step_unique hmachine hs.step
  obtain ⟨o₁,hown,h₁⟩ := hs.own h.producer hok hstep hR₁
  obtain ⟨o₁',hown',h₁'⟩ := hs'.own h.consumer (h.same ▸ hok) hstep (hsame ▸ hR₁)
  rw [h.same] at hown'
  have hcounting := (h.counting.step hown h.ne.symm).1
  rw [Producing.step_after,Option.toList_map,List.length_map] at hcounting
  obtain ⟨hwaiting,htold⟩ := h.meeting hown'
  have hlined := hstep.lined h.lined (h₁.place.mem_lined hcounting.listed)
    (h₁'.place.mem_lined hwaiting.listed)
  have hdue := h.producer.due hstep h.counting.listed
  have hdue' := h.consumer.due hstep h.waiting.listed
  rw [h.same] at hdue'
  have hvisits := h.visits
  obtain ⟨hsending,hraised⟩ := h.goes hs h₁ h₁' hstep hown hown'
  exact ⟨a₁,o₁,o₁',⟨h₁,h₁',hsame,hlined,by omega,hcounting,hwaiting,hsending,hraised,htold⟩,hdue⟩

/-- A run of the machine, for both: the producer is visited once in each tick. -/
theorem paired_run
    (hrun : Run (CodedStep tskProducer (SetsEvents u) fuel t) (fun r act => Timed cs c r.sys act)
      r acts r₁)
    (hrun' : Run (CodedStep tskConsumer (fun _ => False) fuel u) (fun r act => Timed cs c r.sys act)
      r' acts r₁')
    (h : Paired cs c t u p r r' a o o' i j) : ∃ a₁ o₁ o₁' i₁ j₁,
      Paired cs c t u p r₁ r₁' a₁ o₁ o₁' i₁ j₁ ∧
        i₁ + due t a₁ = acts.count (.tick c) + (i + due t a) := by
  induction hrun generalizing r' a o o' i j with
  | nil r =>
    obtain rfl := run_nil_iff.mp hrun'
    exact ⟨a,o,o',i,j,h,by simp⟩
  | @cons r r₂ r₁ act acts hok hs _ ih =>
    obtain ⟨-,r₂',hs',hrest⟩ := run_cons_iff.mp hrun'
    obtain ⟨a₂,o₂,o₂',h₂,hdue⟩ := h.step hs hs' hok
    obtain ⟨a₁,o₁,o₁',i₁,j₁,h₁,hticks⟩ := ih hrest h₂
    refine ⟨a₁,o₁,o₁',i₁,j₁,h₁,?_⟩
    have hcount : (act :: acts).count (.tick c) = [act].count (.tick c) + acts.count (.tick c) := by
      rw [← List.singleton_append,List.count_append]
    omega

end Paired

section Runs
variable {cs : List CtxPtr} {fuel : Nat} {s₀ s : Sys} {c : CtxPtr} {t u : TaskPtr} {m : Mem}
variable {acts acts₀ : List Act} {a a' : ListSched} {tickTimeMs : U32} {id : TmrId}
variable {ctrl ctrl' : TskCtrl} {r r' : Coded (TskCtrl × List TskReport)}

def pairSetup (c : CtxPtr) (t u : TaskPtr) (tickTimeMs : U32) (id : TmrId) : List Act :=
  [.call (.add c t),.call (.add c u),.call (.start c tickTimeMs id)]

theorem ListStep.added (hstep : ListStep a (.call (.add c t)) a') :
    a'.lay.pend c = t :: a.lay.pend c := by
  cases hstep with
  | call _ hop => exact hop.elim
  | add hf => exact Layout.queue_pend_self _ _ _ hf

theorem ListStep.started (hstep : ListStep a (.call (.start c tickTimeMs id)) a') :
    a'.lay = a.lay := by
  cases hstep
  rfl

theorem paired_start (hreach : Run (Step fuel) (Legal cs) (boot cs m) acts₀ s₀)
    (hsetup : Run (Step fuel) (Legal cs) s₀ (pairSetup c t u tickTimeMs id) s)
    (hf : (s₀.mem.task t).func ≠ none) (hf' : (s₀.mem.task u).func ≠ none)
    (hctrl : ctrl.state = .idle) (hpeer : ctrl.peer = u) (hctrl' : ctrl'.state = .idle) :
    ∃ a o o', Paired cs c t u (startedWith tickTimeMs) ⟨s,(ctrl,[]),[]⟩ ⟨s,(ctrl',[]),[]⟩ a o o' 0 0 ∧
      due t a = 0 := by
  obtain ⟨a₀,-,h₀⟩ := reachable_refines hreach
  obtain ⟨hok₁,s₁,hs₁,hrun₁⟩ := run_cons_iff.mp hsetup
  obtain ⟨hok₂,s₂,hs₂,hrun₂⟩ := run_cons_iff.mp hrun₁
  obtain ⟨hok₃,s₃,hs₃,hrun₃⟩ := run_cons_iff.mp hrun₂
  obtain rfl := run_nil_iff.mp hrun₃
  obtain ⟨a₁,hstep₁,h₁⟩ := step_refines h₀ hok₁ hs₁
  obtain ⟨a₂,hstep₂,h₂⟩ := step_refines h₁ hok₂ hs₂
  obtain ⟨a₃,hstep₃,h₃⟩ := step_refines h₂ hok₃ hs₃
  have hpend : a₃.lay.pend c = u :: t :: a₀.lay.pend c := by
    rw [hstep₃.started,hstep₂.added,hstep₁.added]
  have ht : t ∈ a₃.lay.pend c := by simp [hpend]
  have hu : u ∈ a₃.lay.pend c := by simp [hpend]
  have hfunc : ∀ v, (a₃.data.task v).func = (s₀.mem.task v).func := by
    intro v
    rw [hstep₃.func,hstep₂.func,hstep₁.func,h₀.task]
    rfl
  have hperiod : (s.mem.sch c).odsTickTimeMs = startedWith tickTimeMs := by
    rw [← h₃.period,hstep₃.period,periodAfter,if_pos rfl]
  have hlined : [t,u].Sublist (lined a₃ c) := by
    rw [lined,hpend,List.reverse_cons,List.reverse_cons]
    simp only [List.append_assoc,List.singleton_append]
    exact (List.sublist_append_left [t,u] _).trans (List.sublist_append_right _ _)
  refine ⟨a₃,⟨.queued,a₃.data.task t,(ctrl,[]),[]⟩,⟨.queued,a₃.data.task u,(ctrl',[]),[]⟩,?_,
    h₃.due_pend ht⟩
  exact {
    producer := ⟨h₃,hperiod,ht,rfl,rfl,rfl⟩
    consumer := ⟨h₃,hperiod,hu,rfl,rfl,rfl⟩
    same := rfl
    lined := hlined
    visits := by rw [h₃.due_pend ht,h₃.due_pend hu]
    counting := .queued (hfunc t ▸ hf) hctrl hpeer
    waiting := .queued (hfunc u ▸ hf') hctrl'
    sending := fun h => (h rfl).elim
    raised := rfl
    told := rfl }

/-- The last part of `main`: both tasks run on one scheduler. Others do nothing to the consumer, no
more to the producer than set events on it, and do not start the scheduler again. The producer is
done with the sixteenth tick; when the consumer is, and which of its waits end with an event, is told
by the ticks a wait takes. -/
theorem pair_done (hreach : Run (Step fuel) (Legal cs) (boot cs m) acts₀ s₀)
    (hsetup : Run (Step fuel) (Legal cs) s₀ (pairSetup c t u tickTimeMs id) s)
    (hf : (s₀.mem.task t).func ≠ none) (hf' : (s₀.mem.task u).func ≠ none)
    (hctrl : ctrl.state = .idle) (hpeer : ctrl.peer = u) (hctrl' : ctrl'.state = .idle)
    (hrun : Run (CodedStep tskProducer (SetsEvents u) fuel t) (fun r act => Timed cs c r.sys act)
      ⟨s,(ctrl,[]),[]⟩ acts r)
    (hrun' : Run (CodedStep tskConsumer (fun _ => False) fuel u) (fun r act => Timed cs c r.sys act)
      ⟨s,(ctrl',[]),[]⟩ acts r') (hidle : r.sys.pc = .idle) :
    (r.priv.1.state = .done ↔ 16 ≤ acts.count (.tick c)) ∧
      (r'.priv.1.state = .done ↔
        doneAt (waitTicks (startedWith tickTimeMs)) ≤ acts.count (.tick c)) ∧
      (r'.priv.1.state = .done →
        verdictsIn r'.priv.2 = reported (waitTicks (startedWith tickTimeMs))) := by
  obtain ⟨a,o,o',h,hdue⟩ := paired_start hreach hsetup hf hf' hctrl hpeer hctrl'
  obtain ⟨a₁,o₁,o₁',i,j,h₁,hticks⟩ := paired_run hrun hrun' h
  have hidle' : r'.sys.pc = .idle := by rw [h₁.same,hidle]
  have hvisits := h₁.visits
  rw [hdue,h₁.producer.due_idle hidle,Nat.zero_add,Nat.add_zero,Nat.add_zero] at hticks
  rw [h₁.producer.due_idle hidle,h₁.consumer.due_idle hidle',Nat.add_zero,Nat.add_zero] at hvisits
  have hk : 0 < waitTicks (startedWith tickTimeMs) := delayTicks_pos _ _
  have hdone : r'.priv.1.state = .done ↔
      doneAt (waitTicks (startedWith tickTimeMs)) ≤ acts.count (.tick c) := by
    rw [← h₁.consumer.priv,h₁.waiting.done_iff,Meeting.done_iff hk,← hvisits,hticks]
  refine ⟨?_,hdone,fun hd => ?_⟩
  · rw [← h₁.producer.priv,h₁.counting.done_iff,Producing.after_eq_done_iff,hticks]
  · rw [← h₁.consumer.priv,h₁.told,← hvisits,hticks]
    exact Meeting.told_of_done hk (hdone.mp hd)

def pairTick (send consume : List Act) : List Act :=
  [.tick 0,.visit] ++ send ++ [.ret,.visit] ++ consume ++ [.finish]

def pairTicks : List Act :=
  let send : List Act := [.call (.task 2 (.eventSet 1 .or))]
  let wait : List Act := [.call (.task 2 (.eventWait 1 .and 1000)),.ret]
  let quiet := pairTick [] []
  pairTick [] [.ret] ++ pairTick [] wait ++ quiet ++ quiet ++ quiet ++ pairTick send [.ret] ++
    pairTick [] wait ++ quiet ++ quiet ++ quiet ++ pairTick send [.ret] ++
    pairTick [] wait ++ quiet ++ quiet ++ quiet ++ pairTick [] [.ret]

theorem pair_done_main : ∃ s r r',
    Run (Step 5) (Legal [0]) (boot [0] blank) (pairSetup 0 1 2 250 7) s ∧
      Run (CodedStep tskProducer (SetsEvents 2) 5 1) (fun r act => Timed [0] 0 r.sys act)
        ⟨s,(⟨.idle,0,0,2⟩,[]),[]⟩ pairTicks r ∧
      Run (CodedStep tskConsumer (fun _ => False) 5 2) (fun r act => Timed [0] 0 r.sys act)
        ⟨s,(⟨.idle,0,0,1⟩,[]),[]⟩ pairTicks r' ∧
      pairTicks.count (.tick 0) = 16 ∧ r.priv.1.state = .done ∧ r'.priv.1.state = .done ∧
      verdictsIn r'.priv.2 = [true,true,false] := by
  obtain ⟨s,hsetup,hP⟩ := runChecked_any (legalIn [0] 5) 5 (boot [0] blank) (pairSetup 0 1 2 250 7)
    (fun s => (runCoded tskProducer (SetsEvents 2) [0] 5 0 1 ⟨s,(⟨.idle,0,0,2⟩,[]),[]⟩ pairTicks).any
        (fun r => r.sys.pc = .idle) &&
      (runCoded tskConsumer (fun _ => False) [0] 5 0 2 ⟨s,(⟨.idle,0,0,1⟩,[]),[]⟩ pairTicks).isSome)
    (fun _ _ => legalIn_legal) (by decide +kernel)
  simp only [Bool.and_eq_true] at hP
  obtain ⟨hprod,hcons⟩ := hP
  obtain ⟨r,hr,hidle⟩ := (Option.any_eq_true _ _).mp hprod
  obtain ⟨r',hr'⟩ := Option.isSome_iff_exists.mp hcons
  have hrun := runCoded_run hr
  have hrun' := runCoded_run hr'
  obtain ⟨hdone,hdone',htold⟩ := pair_done (.nil (boot [0] blank)) hsetup (by decide) (by decide)
    rfl rfl rfl hrun hrun' (by simpa using hidle)
  have hticks : pairTicks.count (.tick 0) = 16 := by decide
  have hk : waitTicks (startedWith 250) = 4 := by decide
  rw [hticks] at hdone hdone'
  rw [hk] at hdone' htold
  have hd := hdone'.mpr (by decide)
  exact ⟨s,r,r',hsetup,hrun,hrun',hticks,hdone.mpr le_rfl,hd,htold hd⟩

end Runs

end Ods
