import Mathlib.Data.Set.Basic
import Ods.Activation
import Ods.WakeUp

/-! What a scheduler and its tasks are in memory, and that the functions of `ods.c` called
on them read and write nothing else: every pointer they follow stays inside. -/
namespace Ods

section Rel
variable {α β α' β' : Type*} {R : α → β → Prop} {T : α' → β' → Prop} {x : Option α} {y : Option β}

theorem rel_imp {Q : α → β → Prop} (h : x.Rel R y) (hi : ∀ a b, R a b → Q a b) : x.Rel Q y := by
  cases h with
  | some h => exact .some (hi _ _ h)
  | none => exact .none

theorem rel_bind {f : α → Option α'} {g : β → Option β'} (h : x.Rel R y)
    (hfg : ∀ a b, R a b → (f a).Rel T (g b)) : (x.bind f).Rel T (y.bind g) := by
  cases h with
  | some h => exact hfg _ _ h
  | none => exact .none

theorem rel_map {f : α → α'} {g : β → β'} (h : x.Rel R y)
    (hfg : ∀ a b, R a b → T (f a) (g b)) : (x.map f).Rel T (y.map g) := by
  cases h with
  | some h => exact .some (hfg _ _ h)
  | none => exact .none

theorem rel_map_eq {γ : Type*} {f : α → γ} {g : β → γ} (h : x.Rel R y)
    (hfg : ∀ a b, R a b → f a = g b) : x.map f = y.map g := by
  cases h with
  | some h => exact congrArg some (hfg _ _ h)
  | none => rfl

end Rel

structure Side where
  ctx : CtxPtr
  tasks : Set TaskPtr

def ListRef.ctx : ListRef → CtxPtr
  | .execList c | .preExecList c => c

namespace Side

structure Agree (F : Side) (m m' : Mem) : Prop where
  sch : m.sch F.ctx = m'.sch F.ctx
  task : ∀ t ∈ F.tasks, m.task t = m'.task t

structure Off (F : Side) (m m' : Mem) : Prop where
  sch : ∀ c, c ≠ F.ctx → m'.sch c = m.sch c
  task : ∀ t, t ∉ F.tasks → m'.task t = m.task t

/-- The list heads lead into `S`, and no link leads out of it. -/
structure Sealed (F : Side) (S : Set TaskPtr) (m : Mem) : Prop where
  sub : S ⊆ F.tasks
  exec : ∀ t ∈ (m.sch F.ctx).odsExecList, t ∈ S
  pend : ∀ t ∈ (m.sch F.ctx).odsPreExecList, t ∈ S
  next : ∀ t ∈ S, ∀ u ∈ m.next t, u ∈ S
  ctx : ∀ t ∈ F.tasks, ∀ c ∈ (m.task t).ctx, c = F.ctx

/-- From memories that look the same, `m` being one of them, to `r` and `r'`. -/
structure Moved (F : Side) (m : Mem) (S : Set TaskPtr) (r r' : Mem) : Prop where
  agree : F.Agree r r'
  inside : F.Sealed S r
  off : F.Off m r

variable {F G : Side} {S S' : Set TaskPtr} {m m' r r' q q' : Mem} {t item : TaskPtr}
variable {f : TaskCtx → TaskCtx} {g : OdsCtx → OdsCtx} {p : Option TaskPtr} {fuel bound : Nat}

theorem Agree.refl (F : Side) (m : Mem) : F.Agree m m := ⟨rfl,fun _ _ => rfl⟩

theorem Agree.symm (h : F.Agree m m') : F.Agree m' m :=
  ⟨h.sch.symm,fun t ht => (h.task t ht).symm⟩

theorem Agree.trans (h : F.Agree m m') (h' : F.Agree m' r) : F.Agree m r :=
  ⟨h.sch.trans h'.sch,fun t ht => (h.task t ht).trans (h'.task t ht)⟩

theorem Off.refl (F : Side) (m : Mem) : F.Off m m := ⟨fun _ _ => rfl,fun _ _ => rfl⟩

theorem Off.trans (h : F.Off m r) (h' : F.Off r q) : F.Off m q :=
  ⟨fun c hc => (h'.sch c hc).trans (h.sch c hc),fun t ht => (h'.task t ht).trans (h.task t ht)⟩

/-- What happens on one side is not seen from another one. -/
theorem Off.agree (h : F.Off m r) (hc : F.ctx ≠ G.ctx) (hd : ∀ t ∈ F.tasks, t ∉ G.tasks) :
    G.Agree m r :=
  ⟨(h.sch _ hc.symm).symm,fun t ht => (h.task t fun hF => hd t hF ht).symm⟩

theorem Sealed.congr (h : F.Sealed S m) (hA : F.Agree m m') : F.Sealed S m' where
  sub := h.sub
  exec := hA.sch ▸ h.exec
  pend := hA.sch ▸ h.pend
  next t ht u hu := by
    rw [Mem.next,← hA.task t (h.sub ht)] at hu
    exact h.next t ht u hu
  ctx t ht c hc := h.ctx t ht c (by rwa [hA.task t ht])

theorem Moved.refl (hS : F.Sealed S m) (hA : F.Agree m m') : F.Moved m S m m' :=
  ⟨hA,hS,.refl F m⟩

theorem Moved.trans (h : F.Moved m S r r') (h' : F.Moved r S' q q') : F.Moved m S' q q' :=
  ⟨h'.agree,h'.inside,h.off.trans h'.off⟩

theorem Agree.modTask (hA : F.Agree m m') : F.Agree (m.modTask t f) (m'.modTask t f) := by
  refine ⟨hA.sch,fun u hu => ?_⟩
  simp only [Mem.modTask_task]
  split
  · rename_i h
    rw [hA.task t (h ▸ hu)]
  · exact hA.task u hu

theorem Off.modTask (ht : t ∈ F.tasks) : F.Off m (m.modTask t f) := by
  refine ⟨fun _ _ => rfl,fun u hu => Mem.modTask_task_of_ne _ _ _ _ ?_⟩
  rintro rfl
  exact hu ht

theorem Moved.modTask (hS : F.Sealed S m) (hA : F.Agree m m') (ht : t ∈ F.tasks)
    (hnext : t ∈ S → ∀ u ∈ (f (m.task t)).next, u ∈ S)
    (hctx : ∀ c ∈ (f (m.task t)).ctx, c = F.ctx) :
    F.Moved m S (m.modTask t f) (m'.modTask t f) := by
  refine ⟨hA.modTask,⟨hS.sub,hS.exec,hS.pend,?_,?_⟩,.modTask ht⟩
  · intro u hu v hv
    by_cases hut : u = t
    · subst hut
      rw [Mem.next,Mem.modTask_task_self] at hv
      exact hnext hu v hv
    · rw [Mem.next,Mem.modTask_task_of_ne _ _ _ _ hut] at hv
      exact hS.next u hu v hv
  · intro u hu c hc
    by_cases hut : u = t
    · subst hut
      rw [Mem.modTask_task_self] at hc
      exact hctx c hc
    · rw [Mem.modTask_task_of_ne _ _ _ _ hut] at hc
      exact hS.ctx u hu c hc

/-- An update of a record that leaves its `next` and `ctx` as they are. -/
theorem Moved.modTask_keep (hS : F.Sealed S m) (hA : F.Agree m m') (ht : t ∈ F.tasks)
    (hnext : (f (m.task t)).next = (m.task t).next) (hctx : (f (m.task t)).ctx = (m.task t).ctx) :
    F.Moved m S (m.modTask t f) (m'.modTask t f) := by
  refine .modTask hS hA ht (fun hu u hx => hS.next t hu u ?_) fun c hc => hS.ctx t ht c ?_
  · rwa [hnext] at hx
  · rwa [hctx] at hc

theorem Off.modSch : F.Off m (m.modSch F.ctx g) :=
  ⟨fun _ hc => Mem.modSch_sch_of_ne _ _ _ _ hc,fun _ _ => rfl⟩

theorem Moved.modSch (hS : F.Sealed S m) (hA : F.Agree m m')
    (hexec : ∀ t ∈ (g (m.sch F.ctx)).odsExecList, t ∈ S)
    (hpend : ∀ t ∈ (g (m.sch F.ctx)).odsPreExecList, t ∈ S) :
    F.Moved m S (m.modSch F.ctx g) (m'.modSch F.ctx g) := by
  refine ⟨⟨?_,hA.task⟩,⟨hS.sub,?_,?_,hS.next,hS.ctx⟩,.modSch⟩
  · simp only [Mem.modSch_sch_self,hA.sch]
  · simpa using hexec
  · simpa using hpend

theorem Moved.setNext (hS : F.Sealed S m) (hA : F.Agree m m') (ht : t ∈ F.tasks)
    (hp : ∀ u ∈ p, u ∈ S) : F.Moved m S (m.setNext t p) (m'.setNext t p) :=
  .modTask hS hA ht (fun _ => hp) fun c hc => hS.ctx t ht c hc

theorem Moved.setHead (hS : F.Sealed S m) (hA : F.Agree m m') {r : ListRef} (hr : r.ctx = F.ctx)
    (hp : ∀ u ∈ p, u ∈ S) : F.Moved m S (m.setHead r p) (m'.setHead r p) := by
  cases r with
  | execList c =>
    obtain rfl : c = F.ctx := hr
    exact .modSch (g := fun x => { x with odsExecList := p }) hS hA hp hS.pend
  | preExecList c =>
    obtain rfl : c = F.ctx := hr
    exact .modSch (g := fun x => { x with odsPreExecList := p }) hS hA hS.exec hp

theorem Sealed.head (hS : F.Sealed S m) {r : ListRef} (hr : r.ctx = F.ctx) :
    ∀ u ∈ m.head r, u ∈ S := by
  cases r with
  | execList c =>
    obtain rfl : c = F.ctx := hr
    exact hS.exec
  | preExecList c =>
    obtain rfl : c = F.ctx := hr
    exact hS.pend

theorem Agree.head (hA : F.Agree m m') {r : ListRef} (hr : r.ctx = F.ctx) :
    m.head r = m'.head r := by
  cases r with
  | execList c | preExecList c =>
    obtain rfl : c = F.ctx := hr
    simp only [Mem.head,hA.sch]

theorem Agree.next (hA : F.Agree m m') (ht : t ∈ F.tasks) : (m.task t).next = (m'.task t).next :=
  congrArg TaskCtx.next (hA.task t ht)

theorem Sealed.insert (hS : F.Sealed S m) (ht : t ∈ F.tasks) (hnext : ∀ u ∈ m.next t, u ∈ S) :
    F.Sealed (insert t S) m := by
  refine ⟨Set.insert_subset ht hS.sub,fun u hu => .inr (hS.exec u hu),
    fun u hu => .inr (hS.pend u hu),?_,hS.ctx⟩
  rintro u (rfl | hu) v hv
  · exact .inr (hnext v hv)
  · exact .inr (hS.next u hu v hv)

theorem odsListAdd_moved (hS : F.Sealed S m) (hA : F.Agree m m') {r : ListRef}
    (hr : r.ctx = F.ctx) (ht : t ∈ F.tasks) :
    F.Moved m (insert t S) (odsListAdd m r t).2 (odsListAdd m' r t).2 := by
  have h₁ : F.Moved m S (m.setNext t (m.head r)) (m'.setNext t (m.head r)) :=
    .setNext hS hA ht (hS.head hr)
  have hin : F.Sealed (insert t S) (m.setNext t (m.head r)) :=
    h₁.inside.insert ht fun u hu => hS.head hr u (by simpa using hu)
  have h₂ : F.Moved (m.setNext t (m.head r)) (insert t S) (odsListAdd m r t).2
      (odsListAdd m' r t).2 := by
    have hset := Moved.setHead (p := some t) hin h₁.agree hr fun u hu => by
      cases hu
      exact Set.mem_insert t S
    rw [odsListAdd,odsListAdd,← hA.head hr]
    exact hset
  exact h₁.trans h₂

theorem moveToExec_moved (hS : F.Sealed S m) (hA : F.Agree m m') (ht : t ∈ S) :
    F.Moved m S (moveToExec F.ctx m t) (moveToExec F.ctx m' t) := by
  have hF : t ∈ F.tasks := hS.sub ht
  have h₁ := odsListAdd_moved (r := .execList F.ctx) hS hA rfl hF
  rw [Set.insert_eq_of_mem ht] at h₁
  have h₂ := Moved.modTask_keep (f := activate) h₁.inside h₁.agree hF rfl rfl
  have h₃ := Moved.modSch (g := fun x => { x with odsNumTasks := x.odsNumTasks + 1 })
    h₂.inside h₂.agree h₂.inside.exec h₂.inside.pend
  exact (h₁.trans h₂).trans h₃

theorem odsPreExecLoop_rel {b : Bool} (hS : F.Sealed S m) (hA : F.Agree m m')
    (hp : ∀ u ∈ p, u ∈ S) : (odsPreExecLoop F.ctx fuel m p b).Rel
      (fun r r' => F.Moved m S r.1 r'.1 ∧ r.2 = r'.2) (odsPreExecLoop F.ctx fuel m' p b) := by
  induction fuel generalizing m m' p b with
  | zero => exact .none
  | succ fuel ih =>
    cases p with
    | none => exact .some ⟨.refl hS hA,rfl⟩
    | some item =>
      have hi : item ∈ S := hp item rfl
      have h₁ := moveToExec_moved hS hA hi
      simp only [odsPreExecLoop,odsPreExecBody_eq,← hA.next (hS.sub hi)]
      exact rel_imp (ih h₁.inside h₁.agree (hS.next item hi)) fun r r' h => ⟨h₁.trans h.1,h.2⟩

theorem odsListPrint_agree (hS : F.Sealed S m) (hA : F.Agree m m') (hp : ∀ u ∈ p, u ∈ S) :
    odsListPrint m fuel p = odsListPrint m' fuel p := by
  induction fuel generalizing p with
  | zero => rfl
  | succ fuel ih =>
    cases p with
    | none => rfl
    | some item =>
      have hi : item ∈ S := hp item rfl
      have hrest : odsListPrint m fuel (m.task item).next = odsListPrint m' fuel (m.task item).next :=
        ih (hS.next item hi)
      simp only [odsListPrint,← hA.next (hS.sub hi),hrest]

theorem odsPreExec_rel (hS : F.Sealed S m) (hA : F.Agree m m') :
    (odsPreExec fuel m F.ctx).Rel (F.Moved m S) (odsPreExec fuel m' F.ctx) := by
  unfold odsPreExec
  rw [← hA.sch]
  refine rel_bind (odsPreExecLoop_rel hS hA hS.pend) ?_
  rintro ⟨r,b⟩ ⟨r',b'⟩ ⟨h,hb⟩
  dsimp only at h hb
  subst hb
  have hlast := h.trans (.modSch (g := fun x => { x with odsPreExecList := none }) h.inside h.agree
    h.inside.exec (by simp))
  dsimp only
  rw [← h.agree.sch,← odsListPrint_agree h.inside h.agree h.inside.exec]
  split
  · refine rel_bind (R := fun _ _ => True) ?_ fun _ _ _ => .some hlast
    cases odsListPrint r fuel (r.sch F.ctx).odsExecList with
    | none => exact .none
    | some ts => exact .some trivial
  · exact .some hlast

theorem odsListDelSeek_agree (fuel : Nat) (item : TaskPtr) (hS : F.Sealed S m)
    (hA : F.Agree m m') {current : TaskPtr} (hc : current ∈ S) :
    odsListDelSeek m item fuel current = odsListDelSeek m' item fuel current ∧
      ∀ last ∈ odsListDelSeek m item fuel current, last ∈ S := by
  induction fuel generalizing current with
  | zero => exact ⟨rfl,by simp [odsListDelSeek]⟩
  | succ fuel ih =>
    have hnext := hS.next current hc
    simp only [odsListDelSeek,← hA.next (hS.sub hc)]
    simp only [Mem.next] at hnext
    cases hx : (m.task current).next with
    | none => exact ⟨rfl,by simpa using hc⟩
    | some nxt =>
      dsimp only
      split
      · exact ⟨rfl,by simpa using hc⟩
      · exact ih (hnext nxt hx)

theorem odsListDel_rel (hS : F.Sealed S m) (hA : F.Agree m m') {r : ListRef} (hr : r.ctx = F.ctx)
    (hi : item ∈ S) : (odsListDel fuel m r item).Rel
      (fun q q' => q.1 = q'.1 ∧ F.Moved m S q.2 q'.2) (odsListDel fuel m' r item) := by
  have hstay : F.Moved m S m m' := .refl hS hA
  have hhead := hS.head hr
  unfold odsListDel
  rw [← hA.head hr]
  cases hh : m.head r with
  | none => exact .some ⟨rfl,hstay⟩
  | some current =>
    have hc : current ∈ S := hhead current hh
    obtain ⟨hseek,hin⟩ := odsListDelSeek_agree fuel item hS hA hc
    dsimp only
    rw [← hA.next (hS.sub hi),← hseek]
    split
    · exact .some ⟨rfl,.setHead hS hA hr (hS.next item hi)⟩
    · cases hl : odsListDelSeek m item fuel current with
      | none => exact .none
      | some last =>
        have hlS : last ∈ S := hin last hl
        have hnext := hS.next last hlS
        simp only [Option.bind_eq_bind,Option.bind_some,← hA.next (hS.sub hlS)]
        simp only [Mem.next] at hnext
        cases hx : (m.task last).next with
        | none => exact .some ⟨rfl,hstay⟩
        | some nxt =>
          have hn : nxt ∈ S := hnext nxt hx
          dsimp only
          rw [← hA.next (hS.sub hn)]
          exact .some ⟨rfl,.setNext hS hA (hS.sub hlS) (hS.next nxt hn)⟩

theorem odsPostExecBody_rel (hS : F.Sealed S m) (hA : F.Agree m m') (hi : item ∈ S) :
    (odsPostExecBody fuel F.ctx m item).Rel (F.Moved m S) (odsPostExecBody fuel F.ctx m' item) := by
  unfold odsPostExecBody
  rw [← hA.task item (hS.sub hi)]
  split
  · refine rel_bind (odsListDel_rel (r := .execList F.ctx) hS hA rfl hi) ?_
    rintro ⟨b,r⟩ ⟨b',r'⟩ ⟨hb,h⟩
    dsimp only at h hb
    subst hb
    dsimp only
    split
    · have hcount := h.trans (.modSch (g := fun x => { x with odsNumTasks := x.odsNumTasks - 1 })
        h.inside h.agree h.inside.exec h.inside.pend)
      rw [← hcount.agree.sch,← odsListPrint_agree hcount.inside hcount.agree hcount.inside.exec]
      refine rel_bind (R := fun _ _ => True) ?_ fun _ _ _ => .some hcount
      cases odsListPrint _ fuel _ with
      | none => exact .none
      | some ts => exact .some trivial
    · exact .some h
  · exact .some (.refl hS hA)

theorem odsPostExecLoop_rel (hS : F.Sealed S m) (hA : F.Agree m m') (hp : ∀ u ∈ p, u ∈ S) :
    (odsPostExecLoop bound F.ctx fuel m p).Rel (F.Moved m S)
      (odsPostExecLoop bound F.ctx fuel m' p) := by
  induction fuel generalizing m m' p with
  | zero => exact .none
  | succ fuel ih =>
    cases p with
    | none => exact .some (.refl hS hA)
    | some item =>
      have hi : item ∈ S := hp item rfl
      refine rel_bind (odsPostExecBody_rel hS hA hi) fun r r' h => ?_
      rw [← h.agree.next (hS.sub hi)]
      exact rel_imp (ih h.inside h.agree (h.inside.next item hi)) fun _ _ => h.trans

theorem odsPostExec_rel (hS : F.Sealed S m) (hA : F.Agree m m') :
    (odsPostExec fuel m F.ctx).Rel (F.Moved m S) (odsPostExec fuel m' F.ctx) := by
  unfold odsPostExec
  rw [← hA.sch]
  exact odsPostExecLoop_rel hS hA hS.exec

end Side

def Call.Names (F : Side) : Call → Prop
  | .init c | .start c _ _ | .stop c => c = F.ctx
  | .add c t => c = F.ctx ∧ t ∈ F.tasks
  | .task t _ => t ∈ F.tasks

namespace Side
variable {F : Side} {S : Set TaskPtr} {m m' : Mem} {t : TaskPtr} {op : Call}

theorem odsTaskAdd_moved (hS : F.Sealed S m) (hA : F.Agree m m') (ht : t ∈ F.tasks) :
    F.Moved m (insert t S) (odsTaskAdd m F.ctx t).2 (odsTaskAdd m' F.ctx t).2 := by
  have h₁ := odsListAdd_moved (r := .preExecList F.ctx) hS hA rfl ht
  refine h₁.trans (.modTask (f := fun x => { x with state := .add, ctx := some F.ctx })
    h₁.inside h₁.agree ht (fun h => h₁.inside.next t h) ?_)
  rintro c hc
  cases hc
  rfl

theorem odsInit_moved (hS : F.Sealed S m) (hA : F.Agree m m') :
    F.Moved m S (odsInit m F.ctx) (odsInit m' F.ctx) :=
  .modSch hS hA (by simp) (by simp)

/-- The timers of the driver belong to no side. -/
theorem Moved.timers (hS : F.Sealed S m) (hA : F.Agree m m') (tms tms' : List Timer) :
    F.Moved m S { m with timers := tms } { m' with timers := tms' } :=
  ⟨⟨hA.sch,hA.task⟩,⟨hS.sub,hS.exec,hS.pend,hS.next,hS.ctx⟩,⟨fun _ _ => rfl,fun _ _ => rfl⟩⟩

theorem odsStart_moved (hS : F.Sealed S m) (hA : F.Agree m m') (tickTimeMs : U32) (id : TmrId) :
    F.Moved m S (odsStart m F.ctx tickTimeMs id) (odsStart m' F.ctx tickTimeMs id) := by
  let k : OdsCtx → OdsCtx := fun x =>
    { x with odsTickTimeMs := if tickTimeMs < odsTickTimeMsMin then odsTickTimeMsMin else tickTimeMs }
  let create : Mem → Mem := fun m =>
    halTmrCreate m id ((m.sch F.ctx).odsTickTimeMs.setWidth 64) true F.ctx
  have h₁ : F.Moved m S (m.modSch F.ctx k) (m'.modSch F.ctx k) :=
    .modSch hS hA hS.exec hS.pend
  have h₂ : F.Moved m S (create (m.modSch F.ctx k)) (create (m'.modSch F.ctx k)) :=
    h₁.trans (.timers h₁.inside h₁.agree _ _)
  exact h₂.trans (.modSch (g := fun x => { x with odsTimer := id }) h₂.inside h₂.agree
    h₂.inside.exec h₂.inside.pend)

theorem odsStop_moved (hS : F.Sealed S m) (hA : F.Agree m m') :
    F.Moved m S (odsStop m F.ctx) (odsStop m' F.ctx) := by
  unfold odsStop
  rw [← hA.sch]
  split
  · have h₁ := Moved.timers hS hA (halTmrDelete m (m.sch F.ctx).odsTimer).timers
      (halTmrDelete m' (m.sch F.ctx).odsTimer).timers
    exact h₁.trans (.modSch (g := fun x => { x with odsTimer := 0 }) h₁.inside h₁.agree
      h₁.inside.exec h₁.inside.pend)
  · exact .refl hS hA

/-- A call on a task needs its record and the period of its scheduler. -/
theorem TaskOp.apply_agree {x : TaskCtx} (hx : ∀ c ∈ x.ctx, m.sch c = m'.sch c) (op : TaskOp) :
    op.apply m x = op.apply m' x := by
  cases op with
  | sleep timeMs | eventWait eventMask type tmroutMs =>
    cases hc : x.ctx with
    | none => simp [TaskOp.apply,odsTaskSleep,odsTaskEventWait,tickTimeOf,hc]
    | some c =>
      simp [TaskOp.apply,odsTaskSleep,odsTaskEventWait,tickTimeOf,hc,hx c hc]
  | _ => rfl

theorem taskOp_rel (hS : F.Sealed S m) (hA : F.Agree m m') (ht : t ∈ F.tasks) (op : TaskOp) :
    (Call.exec m (.task t op)).Rel (F.Moved m S) (Call.exec m' (.task t op)) := by
  have happly : op.apply m (m.task t) = op.apply m' (m.task t) := by
    refine TaskOp.apply_agree (fun c hc => ?_) op
    rw [hS.ctx t ht c hc,hA.sch]
  simp only [Call.exec,← hA.task t ht,← happly]
  cases hx : op.apply m (m.task t) with
  | none => exact .none
  | some x =>
    have hf := TaskOp.apply_frame hx
    exact .some (.modTask_keep hS hA ht (next_of_frame hf) (ctx_of_frame hf))

/-- A public call by the side: it takes the same course in both memories, writes the side
only, and may add one task to the side's lists. -/
theorem call_rel (hS : F.Sealed S m) (hA : F.Agree m m') (hop : op.Names F) :
    (op.exec m).Rel (fun r r' => ∃ S', S ⊆ S' ∧ F.Moved m S' r r') (op.exec m') := by
  cases op with
  | init c =>
    obtain rfl : c = F.ctx := hop
    exact .some ⟨S,subset_rfl,odsInit_moved hS hA⟩
  | start c tickTimeMs id =>
    obtain rfl : c = F.ctx := hop
    exact .some ⟨S,subset_rfl,odsStart_moved hS hA tickTimeMs id⟩
  | stop c =>
    obtain rfl : c = F.ctx := hop
    exact .some ⟨S,subset_rfl,odsStop_moved hS hA⟩
  | add c t =>
    obtain ⟨rfl,ht⟩ : c = F.ctx ∧ t ∈ F.tasks := hop
    exact .some ⟨insert t S,Set.subset_insert t S,odsTaskAdd_moved hS hA ht⟩
  | task t op => exact rel_imp (taskOp_rel hS hA hop op) fun r r' h => ⟨S,subset_rfl,h⟩

theorem execCalls_rel {ops : List Call} (hS : F.Sealed S m) (hA : F.Agree m m')
    (hops : ∀ op ∈ ops, op.Names F) :
    (execCalls ops m).Rel (fun r r' => ∃ S', S ⊆ S' ∧ F.Moved m S' r r') (execCalls ops m') := by
  induction ops generalizing S m m' with
  | nil => exact .some ⟨S,subset_rfl,.refl hS hA⟩
  | cons op ops ih =>
    rw [List.forall_mem_cons] at hops
    refine rel_bind (call_rel hS hA hops.1) ?_
    rintro r r' ⟨S₁,hS₁,h⟩
    refine rel_imp (ih h.inside h.agree hops.2) ?_
    rintro q q' ⟨S₂,hS₂,hq⟩
    exact ⟨S₂,hS₁.trans hS₂,h.trans hq⟩

end Side

end Ods
