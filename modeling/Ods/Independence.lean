import Ods.CheckedRun
import Ods.Footprint
import Ods.Interleaving

/-! Several schedulers at a time. Task functions are functions of what their own side can
see, with private state of their own; ticks and outside calls of two sides then do not
interfere, in whatever order they come. -/
namespace Ods
open Interleaving

section Inputs
variable {γ : Type}

/-- What comes from outside: the ticks of the timers, and the calls that client code makes
between them. -/
inductive Input where
  | tick (c : CtxPtr)
  | call (op : Call)

def Input.exec (client : Client γ) (fuel : Nat) (a : Input) (w : World γ) : Option (World γ) :=
  match a with
  | .tick c => (odsProcess client fuel w c).map Prod.fst
  | .call op => (op.exec w.mem).map fun m => ⟨m,w.priv⟩

def Input.Names (F : Side) : Input → Prop
  | .tick c => c = F.ctx
  | .call op => op.Names F

end Inputs

variable {δ : Type}

namespace Side

/-- The side's lists hold its own tasks, and these belong to no other scheduler. -/
structure Owns (F : Side) (m : Mem) : Prop where
  linked : ∀ t, InExec m F.ctx t ∨ Queued m F.ctx t → t ∈ F.tasks
  ctx : ∀ t ∈ F.tasks, ∀ c ∈ (m.task t).ctx, c = F.ctx

structure Apart (F G : Side) : Prop where
  ctx : F.ctx ≠ G.ctx
  tasks : ∀ t ∈ F.tasks, t ∉ G.tasks

structure Same (F : Side) (w w' : World (CtxPtr → δ)) : Prop where
  mem : F.Agree w.mem w'.mem
  priv : w.priv F.ctx = w'.priv F.ctx

structure Untouched (F : Side) (w w' : World (CtxPtr → δ)) : Prop where
  mem : F.Off w.mem w'.mem
  priv : ∀ c, c ≠ F.ctx → w'.priv c = w.priv c

structure Went (F : Side) (w : World (CtxPtr → δ)) (S : Set TaskPtr) (r r' : World (CtxPtr → δ)) :
    Prop where
  mem : F.Moved w.mem S r.mem r'.mem
  priv : r.priv F.ctx = r'.priv F.ctx
  off : ∀ c, c ≠ F.ctx → r.priv c = w.priv c

end Side

/-- On tasks of the side, task functions name the side only, decide on what the side can
see, and keep their private state. -/
structure Client.LocalTo (client : Client (CtxPtr → δ)) (F : Side) : Prop where
  names {f : FuncPtr} {t : TaskPtr} {m : Mem} {p : CtxPtr → δ} :
    t ∈ F.tasks → ∀ op ∈ (client f t m p).1, op.Names F
  off {f : FuncPtr} {t : TaskPtr} {m : Mem} {p : CtxPtr → δ} :
    t ∈ F.tasks → ∀ c, c ≠ F.ctx → (client f t m p).2 c = p c
  sees {f : FuncPtr} {t : TaskPtr} {m m' : Mem} {p p' : CtxPtr → δ} :
    t ∈ F.tasks → F.Agree m m' → p F.ctx = p' F.ctx →
      (client f t m p).1 = (client f t m' p').1 ∧
        (client f t m p).2 F.ctx = (client f t m' p').2 F.ctx

namespace Side
variable {F G : Side} {S S' : Set TaskPtr} {m m' : Mem} {w w' r r' q q' : World (CtxPtr → δ)}
variable {client : Client (CtxPtr → δ)} {fuel : Nat} {item t : TaskPtr} {p : Option TaskPtr}
variable {a : Input} {xs ys zs zs' : List Input} {c : CtxPtr}

theorem Owns.sealed (h : F.Owns m) : F.Sealed {t | InExec m F.ctx t ∨ Queued m F.ctx t} m where
  sub := h.linked
  exec t ht := .inl (by rw [InExec,Option.mem_def.mp ht]; exact .here t)
  pend t ht := .inr (by rw [Queued,Option.mem_def.mp ht]; exact .here t)
  next t ht u hu := ht.imp (fun he => he.succ hu) fun hq => hq.succ hu
  ctx := h.ctx

theorem Sealed.owns (h : F.Sealed S m) : F.Owns m where
  linked t ht := by
    refine h.sub ?_
    rcases ht with he | hq
    · exact he.closed h.exec h.next
    · exact hq.closed h.pend h.next
  ctx := h.ctx

theorem Went.trans (h : F.Went w S r r') (h' : F.Went r S' q q') : F.Went w S' q q' :=
  ⟨h.mem.trans h'.mem,h'.priv,fun c hc => (h'.off c hc).trans (h.off c hc)⟩

/-- A step of the memory alone. -/
theorem Went.of_mem (hw : F.Same w w') (h : F.Moved w.mem S m m') :
    F.Went w S ⟨m,w.priv⟩ ⟨m',w'.priv⟩ :=
  ⟨h,hw.priv,fun _ _ => rfl⟩

theorem Went.same (h : F.Went w S r r') : F.Same r r' := ⟨h.mem.agree,h.priv⟩

theorem Went.untouched (h : F.Went w S r r') : F.Untouched w r := ⟨h.mem.off,h.off⟩

theorem odsExecBody_rel (hF : client.LocalTo F) (hS : F.Sealed S w.mem) (hw : F.Same w w')
    (hi : item ∈ S) : (odsExecBody client w item).Rel
      (fun r r' => (∃ S', S ⊆ S' ∧ F.Went w S' r.1 r'.1) ∧ r.2 = r'.2)
      (odsExecBody client w' item) := by
  have hit : item ∈ F.tasks := hS.sub hi
  have hwake : F.Moved w.mem S (w.mem.modTask item odsExecWake) (w'.mem.modTask item odsExecWake) :=
    .modTask_keep hS hw.mem hit (next_of_frame (odsExecWake_frame _))
      (ctx_of_frame (odsExecWake_frame _))
  have hcount : ∀ {m m' : Mem} {S' : Set TaskPtr}, F.Sealed S' m → F.Agree m m' →
      F.Moved m S' (m.modTask item odsExecCount) (m'.modTask item odsExecCount) :=
    fun hm ha => .modTask_keep hm ha hit rfl rfl
  simp only [odsExecBody]
  rw [← hwake.agree.task item hit]
  cases odsExecFunc ((w.mem.modTask item odsExecWake).task item) with
  | none =>
    have hmem := hwake.trans (hcount hwake.inside hwake.agree)
    exact .some ⟨⟨S,subset_rfl,.of_mem hw hmem⟩,rfl⟩
  | some f =>
    obtain ⟨hcalls,hpriv⟩ := hF.sees (f := f) hit hwake.agree hw.priv
    have hrel := execCalls_rel hwake.inside hwake.agree
      (hF.names (f := f) (m := w.mem.modTask item odsExecWake) (p := w.priv) hit)
    dsimp only
    rw [← hcalls]
    refine rel_map hrel ?_
    rintro m m' ⟨S',hS',h⟩
    have hmem := (hwake.trans h).trans (hcount h.inside h.agree)
    exact ⟨⟨S',hS',hmem,hpriv,hF.off hit⟩,rfl⟩

theorem odsExecLoop_rel (fuel : Nat) (hF : client.LocalTo F) (hS : F.Sealed S w.mem) (hw : F.Same w w')
    (hp : ∀ u ∈ p, u ∈ S) : (odsExecLoop client fuel w p).Rel
      (fun r r' => ∃ S', F.Went w S' r.1 r'.1) (odsExecLoop client fuel w' p) := by
  induction fuel generalizing w w' S p with
  | zero => exact .none
  | succ fuel ih =>
    cases p with
    | none => exact .some ⟨S,.of_mem hw (.refl hS hw.mem)⟩
    | some item =>
      have hi : item ∈ S := hp item rfl
      simp only [odsExecLoop]
      refine rel_bind (odsExecBody_rel hF hS hw hi) ?_
      rintro ⟨r,v⟩ ⟨r',v'⟩ ⟨⟨S₁,hS₁,h⟩,hv⟩
      dsimp only at h hv
      subst hv
      have hnext : (r.mem.task item).next = (r'.mem.task item).next := h.mem.agree.next (hS.sub hi)
      dsimp only
      rw [← hnext]
      refine rel_bind (ih h.mem.inside h.same (h.mem.inside.next item (hS₁ hi))) ?_
      rintro ⟨q,vs⟩ ⟨q',vs'⟩ ⟨S₂,hq⟩
      exact .some ⟨S₂,h.trans hq⟩

/-- A tick of the side's scheduler. -/
theorem odsProcess_rel (hF : client.LocalTo F) (hS : F.Sealed S w.mem) (hw : F.Same w w') :
    (odsProcess client fuel w F.ctx).Rel (fun r r' => ∃ S', F.Went w S' r.1 r'.1)
      (odsProcess client fuel w' F.ctx) := by
  unfold odsProcess
  refine rel_bind (odsPreExec_rel hS hw.mem) fun m m' hpre => ?_
  have h₁ : F.Went w S ⟨m,w.priv⟩ ⟨m',w'.priv⟩ := .of_mem hw hpre
  have hexec := odsExecLoop_rel fuel hF hpre.inside h₁.same hpre.inside.exec
  rw [odsExec,odsExec]
  dsimp only
  rw [← hpre.agree.sch]
  refine rel_bind hexec ?_
  rintro ⟨r,vs⟩ ⟨r',vs'⟩ ⟨S₂,h₂⟩
  refine rel_bind (odsPostExec_rel h₂.mem.inside h₂.mem.agree) fun q q' hpost => ?_
  exact .some ⟨S₂,h₁.trans (h₂.trans (.of_mem h₂.same hpost))⟩

theorem input_rel (fuel : Nat) (hF : client.LocalTo F) (hS : F.Sealed S w.mem) (hw : F.Same w w')
    (ha : a.Names F) : (a.exec client fuel w).Rel (fun r r' => ∃ S', F.Went w S' r r')
      (a.exec client fuel w') := by
  cases a with
  | tick c =>
    obtain rfl : c = F.ctx := ha
    exact rel_map (odsProcess_rel hF hS hw) fun _ _ h => h
  | call op =>
    refine rel_map (call_rel hS hw.mem ha) ?_
    rintro m m' ⟨S',-,h⟩
    exact ⟨S',.of_mem hw h⟩

/-- The form in which the steps of a side are used. -/
theorem input_went (hF : client.LocalTo F) (hw : F.Owns w.mem) (hsame : F.Same w w')
    (ha : a.Names F) (h : a.exec client fuel w = some r) :
    ∃ r' S, a.exec client fuel w' = some r' ∧ F.Went w S r r' := by
  have hrel := input_rel fuel hF hw.sealed hsame ha
  rw [h] at hrel
  generalize a.exec client fuel w' = y at hrel
  cases hrel with
  | some hwent =>
    obtain ⟨S,hwent⟩ := hwent
    exact ⟨_,S,rfl,hwent⟩

theorem Same.refl (F : Side) (w : World (CtxPtr → δ)) : F.Same w w := ⟨.refl F w.mem,rfl⟩

theorem same_equivalence (F : Side) : Equivalence (@Same δ F) where
  refl := .refl F
  symm h := ⟨h.mem.symm,h.priv.symm⟩
  trans h h' := ⟨h.mem.trans h'.mem,h.priv.trans h'.priv⟩

theorem Apart.symm (h : F.Apart G) : G.Apart F :=
  ⟨h.ctx.symm,fun t hG hF => h.tasks t hF hG⟩

/-- What a side does is not seen from another one. -/
theorem Untouched.same (h : F.Untouched w r) (hFG : F.Apart G) : G.Same w r :=
  ⟨h.mem.agree hFG.ctx hFG.tasks,(h.priv _ hFG.ctx.symm).symm⟩

theorem Owns.congr (h : F.Owns m) (hA : F.Agree m m') : F.Owns m' := (h.sealed.congr hA).owns

/-- Two sides are isolated programs in the sense of `Interleaving`. -/
theorem isolated (fuel : Nat) (hFG : F.Apart G) (hF : client.LocalTo F) (hG : client.LocalTo G) :
    Isolated (Input.exec client fuel) (fun w => F.Owns w.mem ∧ G.Owns w.mem) (Input.Names F)
      (Input.Names G) F.Same where
  equiv := same_equivalence F
  keeps {w r a} hw ha h := by
    rcases ha with ha | ha
    · obtain ⟨_,S,-,hr⟩ := input_went hF hw.1 (.refl F w) ha h
      exact ⟨hr.mem.inside.owns,hw.2.congr (hr.untouched.same hFG).mem⟩
    · obtain ⟨_,S,-,hr⟩ := input_went hG hw.2 (.refl G w) ha h
      exact ⟨hw.1.congr (hr.untouched.same hFG.symm).mem,hr.mem.inside.owns⟩
  reads hw _ hsame ha h := by
    obtain ⟨r',S,h',hr⟩ := input_went hF hw.1 hsame ha h
    exact ⟨r',h',hr.same⟩
  frame {w r a} hw ha h := by
    obtain ⟨_,S,-,hr⟩ := input_went hG hw.2 (.refl G w) ha h
    exact hr.untouched.same hFG.symm

structure Elsewhere (F G : Side) (w w' : World (CtxPtr → δ)) : Prop where
  sch : ∀ c, c ≠ F.ctx → c ≠ G.ctx → w.mem.sch c = w'.mem.sch c
  task : ∀ t, t ∉ F.tasks → t ∉ G.tasks → w.mem.task t = w'.mem.task t
  priv : ∀ c, c ≠ F.ctx → c ≠ G.ctx → w.priv c = w'.priv c

theorem elsewhere_equivalence (F G : Side) : Equivalence (@Elsewhere δ F G) where
  refl _ := ⟨fun _ _ _ => rfl,fun _ _ _ => rfl,fun _ _ _ => rfl⟩
  symm h := ⟨fun c hc hd => (h.sch c hc hd).symm,fun t ht hu => (h.task t ht hu).symm,
    fun c hc hd => (h.priv c hc hd).symm⟩
  trans h h' := ⟨fun c hc hd => (h.sch c hc hd).trans (h'.sch c hc hd),
    fun t ht hu => (h.task t ht hu).trans (h'.task t ht hu),
    fun c hc hd => (h.priv c hc hd).trans (h'.priv c hc hd)⟩

/-- No step of a side reaches what neither side owns. -/
theorem isolated_elsewhere (fuel : Nat) (hFG : F.Apart G) (hF : client.LocalTo F)
    (hG : client.LocalTo G) : Isolated (Input.exec client fuel)
      (fun w => F.Owns w.mem ∧ G.Owns w.mem) (fun _ => False)
      (fun a => a.Names F ∨ a.Names G) (F.Elsewhere G) where
  equiv := elsewhere_equivalence F G
  keeps hw ha h := (isolated fuel hFG hF hG).keeps hw (ha.resolve_left id) h
  reads _ _ _ ha _ := ha.elim
  frame {w r a} hw ha h := by
    rcases ha with ha | ha
    · obtain ⟨_,S,-,hr⟩ := input_went hF hw.1 (.refl F w) ha h
      exact ⟨fun c hc _ => (hr.mem.off.sch c hc).symm,fun t ht _ => (hr.mem.off.task t ht).symm,
        fun c hc _ => (hr.off c hc).symm⟩
    · obtain ⟨_,S,-,hr⟩ := input_went hG hw.2 (.refl G w) ha h
      exact ⟨fun c _ hc => (hr.mem.off.sch c hc).symm,fun t _ ht => (hr.mem.off.task t ht).symm,
        fun c _ hc => (hr.off c hc).symm⟩

/-- Everything but the driver's list of timers. -/
theorem eq_of_views {v v' : World (CtxPtr → δ)} (hF : F.Same v v') (hG : G.Same v v')
    (he : F.Elsewhere G v v') :
    v.mem.sch = v'.mem.sch ∧ v.mem.task = v'.mem.task ∧ v.priv = v'.priv := by
  refine ⟨funext fun c => ?_,funext fun t => ?_,funext fun c => ?_⟩
  · by_cases hc : c = F.ctx
    · exact hc ▸ hF.mem.sch
    · by_cases hd : c = G.ctx
      · exact hd ▸ hG.mem.sch
      · exact he.sch c hc hd
  · by_cases ht : t ∈ F.tasks
    · exact hF.mem.task t ht
    · by_cases hu : t ∈ G.tasks
      · exact hG.mem.task t hu
      · exact he.task t ht hu
  · by_cases hc : c = F.ctx
    · exact hc ▸ hF.priv
    · by_cases hd : c = G.ctx
      · exact hd ▸ hG.priv
      · exact he.priv c hc hd

/-- Right after `ods_init` the lists are empty. -/
theorem owns_init (hctx : ∀ t ∈ F.tasks, ∀ c ∈ (m.task t).ctx, c = F.ctx) :
    F.Owns (odsInit m F.ctx) where
  linked t ht := by
    have hnone : ∀ u, ¬ PointerChain.Meets (odsInit m F.ctx).next none u := fun u hu => by cases hu
    rcases ht with he | hq
    · rw [InExec,odsInit,Mem.modSch_sch_self] at he
      exact (hnone t he).elim
    · rw [Queued,odsInit,Mem.modSch_sch_self] at hq
      exact (hnone t hq).elim
  ctx := hctx

end Side

variable {F G : Side} {w : World (CtxPtr → δ)} {client : Client (CtxPtr → δ)}
variable {xs ys zs : List Input}

/-- Two sides do not interfere. An interleaving of their ticks and calls returns if and only
if both sides alone return; each side is then left as it leaves itself; the order (of two
ticks, say) makes no difference to any field; and no step writes outside its side. -/
theorem schedulers_independent (fuel : Nat) (hFG : F.Apart G) (hF : client.LocalTo F)
    (hG : client.LocalTo G) (hw : F.Owns w.mem) (hw' : G.Owns w.mem) (hxs : ∀ a ∈ xs, a.Names F)
    (hys : ∀ a ∈ ys, a.Names G) (hz : Interleaves xs ys zs) :
    ((∃ v, execAll (Input.exec client fuel) zs w = some v) ↔
      (∃ v, execAll (Input.exec client fuel) xs w = some v) ∧
        ∃ v, execAll (Input.exec client fuel) ys w = some v) ∧
    (∀ v v₁ v₂, execAll (Input.exec client fuel) zs w = some v →
      execAll (Input.exec client fuel) xs w = some v₁ →
      execAll (Input.exec client fuel) ys w = some v₂ → F.Same v v₁ ∧ G.Same v v₂) ∧
    (∀ zs' v v', Interleaves xs ys zs' → execAll (Input.exec client fuel) zs w = some v →
      execAll (Input.exec client fuel) zs' w = some v' →
      v.mem.sch = v'.mem.sch ∧ v.mem.task = v'.mem.task ∧ v.priv = v'.priv) ∧
    ∀ as a bs u u', zs = as ++ a :: bs → execAll (Input.exec client fuel) as w = some u →
      a.exec client fuel u = some u' →
      (a.Names F → F.Untouched u u') ∧ (a.Names G → G.Untouched u u') := by
  have hI := Side.isolated fuel hFG hF hG
  have hI' := Side.isolated fuel hFG.symm hG hF
  have hE := Side.isolated_elsewhere fuel hFG hF hG
  have hboth : ∀ {zs'}, Interleaves xs ys zs' → ∀ a ∈ zs', a.Names F ∨ a.Names G := fun hz' =>
    hz'.forall_mem (fun a ha => .inl (hxs a ha)) fun a ha => .inr (hys a ha)
  refine ⟨⟨?_,?_⟩,?_,?_,?_⟩
  · rintro ⟨v,hv⟩
    obtain ⟨v₁,h₁,-⟩ := hI.project hz hxs hys ⟨hw,hw'⟩ ⟨hw,hw'⟩ (.refl F w) hv
    obtain ⟨v₂,h₂,-⟩ := hI'.project hz.symm hys hxs ⟨hw',hw⟩ ⟨hw',hw⟩ (.refl G w) hv
    exact ⟨⟨v₁,h₁⟩,v₂,h₂⟩
  · rintro ⟨⟨v₁,h₁⟩,v₂,h₂⟩
    exact hI.merge hI' hz hxs hys ⟨hw,hw'⟩ ⟨hw',hw⟩ ⟨hw,hw'⟩ ⟨hw',hw⟩ (.refl F w) (.refl G w)
      h₁ h₂
  · intro v v₁ v₂ hv h₁ h₂
    obtain ⟨u₁,hu₁,hs₁⟩ := hI.project hz hxs hys ⟨hw,hw'⟩ ⟨hw,hw'⟩ (.refl F w) hv
    obtain ⟨u₂,hu₂,hs₂⟩ := hI'.project hz.symm hys hxs ⟨hw',hw⟩ ⟨hw',hw⟩ (.refl G w) hv
    obtain rfl : u₁ = v₁ := Option.some.inj (hu₁.symm.trans h₁)
    obtain rfl : u₂ = v₂ := Option.some.inj (hu₂.symm.trans h₂)
    exact ⟨hs₁,hs₂⟩
  · intro zs' v v' hz' hv hv'
    have helse := hE.frame_all ⟨hw,hw'⟩ (hboth hz) hv
    have helse' := hE.frame_all ⟨hw,hw'⟩ (hboth hz') hv'
    exact Side.eq_of_views (hI.confluent hz hz' hxs hys ⟨hw,hw'⟩ hv hv')
      (hI'.confluent hz.symm hz'.symm hys hxs ⟨hw',hw⟩ hv hv')
      (hE.equiv.trans (hE.equiv.symm helse) helse')
  · rintro as a bs u u' rfl hu ha
    have hmem : ∀ b ∈ as, b.Names F ∨ b.Names G := fun b hb =>
      hboth hz b (List.mem_append_left _ hb)
    obtain ⟨hwu,hwu'⟩ := hI.keeps_all ⟨hw,hw'⟩ hmem hu
    refine ⟨fun hn => ?_,fun hn => ?_⟩
    · obtain ⟨_,S,-,hr⟩ := Side.input_went hF hwu (.refl F u) hn ha
      exact hr.untouched
    · obtain ⟨_,S,-,hr⟩ := Side.input_went hG hwu' (.refl G u) hn ha
      exact hr.untouched

def sleeper : Client (CtxPtr → Unit) := fun _ t _ p => ([.task t (.sleep 20)],p)

theorem sleeper_local (F : Side) : sleeper.LocalTo F where
  names ht op hop := by
    obtain rfl := List.mem_singleton.mp hop
    exact ht
  off _ _ _ := rfl
  sees _ _ hp := ⟨rfl,hp⟩

/-- Two initialised schedulers with one task each, a tick of the second one first. -/
theorem schedulers_independent_two : ∃ v v₁ v₂ : World (CtxPtr → Unit),
    execAll (Input.exec sleeper 4) [.call (.add 0 1),.call (.add 1 2),.tick 1,.tick 0]
      ⟨(boot [0,1] blank).mem,fun _ => ()⟩ = some v ∧
    execAll (Input.exec sleeper 4) [.call (.add 0 1),.tick 0]
      ⟨(boot [0,1] blank).mem,fun _ => ()⟩ = some v₁ ∧
    execAll (Input.exec sleeper 4) [.call (.add 1 2),.tick 1]
      ⟨(boot [0,1] blank).mem,fun _ => ()⟩ = some v₂ ∧
    Side.Same ⟨0,{1}⟩ v v₁ ∧ Side.Same ⟨1,{2}⟩ v v₂ := by
  have hFG : Side.Apart ⟨0,{1}⟩ ⟨1,{2}⟩ := ⟨by simp,by simp⟩
  have hF₀ : Side.Owns ⟨0,{1}⟩ (odsInit blank 0) := Side.owns_init (by simp [blank])
  have hG : Side.Owns ⟨1,{2}⟩ (boot [0,1] blank).mem := Side.owns_init (by simp [blank,odsInit])
  have hoff : Side.Off ⟨1,{2}⟩ (odsInit blank 0) (odsInit (odsInit blank 0) 1) :=
    .modSch (F := ⟨1,{2}⟩)
  have hF : Side.Owns ⟨0,{1}⟩ (boot [0,1] blank).mem :=
    hF₀.congr (hoff.agree hFG.symm.ctx hFG.symm.tasks)
  have hxs : ∀ a ∈ [Input.call (.add 0 1),.tick 0], a.Names ⟨0,{1}⟩ := by
    simp [Input.Names,Call.Names]
  have hys : ∀ a ∈ [Input.call (.add 1 2),.tick 1], a.Names ⟨1,{2}⟩ := by
    simp [Input.Names,Call.Names]
  have hz : Interleaves [Input.call (.add 0 1),.tick 0] [.call (.add 1 2),.tick 1]
      [.call (.add 0 1),.call (.add 1 2),.tick 1,.tick 0] :=
    .left _ (.right _ (.right _ (.left _ .nil)))
  obtain ⟨hruns,hviews,-,-⟩ := schedulers_independent 4 hFG (sleeper_local _) (sleeper_local _)
    (w := ⟨(boot [0,1] blank).mem,fun _ => ()⟩) hF hG hxs hys hz
  have hsome : (execAll (Input.exec sleeper 4)
      [.call (.add 0 1),.call (.add 1 2),.tick 1,.tick 0]
      ⟨(boot [0,1] blank).mem,fun _ => ()⟩).isSome = true := by decide +kernel
  obtain ⟨v,hv⟩ := Option.isSome_iff_exists.mp hsome
  obtain ⟨⟨v₁,h₁⟩,v₂,h₂⟩ := hruns.mp ⟨v,hv⟩
  exact ⟨v,v₁,v₂,hv,h₁,h₂,hviews v v₁ v₂ hv h₁ h₂⟩

end Ods
