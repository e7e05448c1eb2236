import Ods.LinkFree
import Ods.System

/-! The list-level scheduler: what the component is for, without pointers. Exec and
pending lists are lists, a tick is a walk along a list that is fixed when it begins,
and a removal is a filter. -/
namespace Ods

/-- The tasks of all schedulers. No task stands twice, in whatever lists. -/
structure Layout where
  exec : CtxPtr → List TaskPtr
  pend : CtxPtr → List TaskPtr
  nodup : ∀ c, (exec c ++ pend c).Nodup
  apart : ∀ c d t, t ∈ exec c ++ pend c → t ∈ exec d ++ pend d → c = d

namespace Layout

def Free (l : Layout) (t : TaskPtr) : Prop := ∀ c, t ∉ l.exec c ++ l.pend c

def empty : Layout := ⟨fun _ => [],fun _ => [],fun _ => List.nodup_nil,by simp⟩

def queue (l : Layout) (c : CtxPtr) (t : TaskPtr) (h : l.Free t) : Layout where
  exec := l.exec
  pend := Function.update l.pend c (t :: l.pend c)
  nodup d := by
    by_cases hd : d = c
    · subst hd
      rw [Function.update_self,List.nodup_middle]
      exact List.nodup_cons.mpr ⟨h d,l.nodup d⟩
    · rw [Function.update_of_ne hd]
      exact l.nodup d
  apart d e u hd he := by
    have hin : ∀ b, u ∈ l.exec b ++ Function.update l.pend c (t :: l.pend c) b →
        u ∈ l.exec b ++ l.pend b ∨ (b = c ∧ u = t) := by
      intro b hb
      by_cases hbc : b = c
      · subst hbc
        rw [Function.update_self] at hb
        simp only [List.mem_append,List.mem_cons] at hb ⊢
        tauto
      · rw [Function.update_of_ne hbc] at hb
        exact .inl hb
    rcases hin d hd with hd' | ⟨hdc,hut⟩
    · rcases hin e he with he' | ⟨-,hut⟩
      · exact l.apart d e u hd' he'
      · exact (h d (hut ▸ hd')).elim
    · rcases hin e he with he' | ⟨hec,-⟩
      · exact (h e (hut ▸ he')).elim
      · rw [hdc,hec]

def activate (l : Layout) (c : CtxPtr) : Layout where
  exec := Function.update l.exec c ((l.pend c).reverse ++ l.exec c)
  pend := Function.update l.pend c []
  nodup d := by
    by_cases hd : d = c
    · subst hd
      simp only [Function.update_self,List.append_nil]
      refine (List.Perm.nodup_iff ?_).mpr (l.nodup d)
      exact ((List.reverse_perm _).append_right _).trans List.perm_append_comm
    · simp only [Function.update_of_ne hd]
      exact l.nodup d
  apart d e u hd he := by
    have hin : ∀ b, u ∈ Function.update l.exec c ((l.pend c).reverse ++ l.exec c) b ++
        Function.update l.pend c [] b → u ∈ l.exec b ++ l.pend b := by
      intro b hb
      by_cases hbc : b = c
      · subst hbc
        simp only [Function.update_self,List.append_nil,List.mem_append,List.mem_reverse] at hb ⊢
        exact hb.symm
      · simpa only [Function.update_of_ne hbc] using hb
    exact l.apart d e u (hin d hd) (hin e he)

def prune (l : Layout) (c : CtxPtr) (keep : TaskPtr → Bool) : Layout where
  exec := Function.update l.exec c ((l.exec c).filter keep)
  pend := l.pend
  nodup d := by
    by_cases hd : d = c
    · subst hd
      rw [Function.update_self]
      exact (l.nodup d).sublist (List.filter_sublist.append_right _)
    · rw [Function.update_of_ne hd]
      exact l.nodup d
  apart d e u hd he := by
    have hin : ∀ b, u ∈ Function.update l.exec c ((l.exec c).filter keep) b ++ l.pend b →
        u ∈ l.exec b ++ l.pend b := by
      intro b hb
      by_cases hbc : b = c
      · subst hbc
        rw [Function.update_self] at hb
        exact (List.filter_sublist.append_right _).subset hb
      · rwa [Function.update_of_ne hbc] at hb
    exact l.apart d e u (hin d hd) (hin e he)

variable (l : Layout) (c d : CtxPtr) (t : TaskPtr) (keep : TaskPtr → Bool)

@[simp] theorem queue_exec (h : l.Free t) : (l.queue c t h).exec = l.exec := rfl

@[simp] theorem queue_pend_self (h : l.Free t) : (l.queue c t h).pend c = t :: l.pend c :=
  Function.update_self ..

@[simp] theorem queue_pend_of_ne (h : l.Free t) (hd : d ≠ c) : (l.queue c t h).pend d = l.pend d :=
  Function.update_of_ne hd ..

@[simp] theorem activate_exec_self : (l.activate c).exec c = (l.pend c).reverse ++ l.exec c :=
  Function.update_self ..

@[simp] theorem activate_exec_of_ne (hd : d ≠ c) : (l.activate c).exec d = l.exec d :=
  Function.update_of_ne hd ..

@[simp] theorem activate_pend_self : (l.activate c).pend c = [] := Function.update_self ..

@[simp] theorem activate_pend_of_ne (hd : d ≠ c) : (l.activate c).pend d = l.pend d :=
  Function.update_of_ne hd ..

@[simp] theorem prune_exec_self : (l.prune c keep).exec c = (l.exec c).filter keep :=
  Function.update_self ..

@[simp] theorem prune_exec_of_ne (hd : d ≠ c) : (l.prune c keep).exec d = l.exec d :=
  Function.update_of_ne hd ..

@[simp] theorem prune_pend : (l.prune c keep).pend = l.pend := rfl

theorem exec_nodup : (l.exec c).Nodup := (List.nodup_append.mp (l.nodup c)).1

theorem pend_nodup : (l.pend c).Nodup := (List.nodup_append.mp (l.nodup c)).2.1

variable {l c d t}

theorem not_pend_of_exec (h : t ∈ l.exec c) : t ∉ l.pend d := by
  intro hp
  have he : c = d := l.apart c d t (List.mem_append_left _ h) (List.mem_append_right _ hp)
  subst he
  exact (List.nodup_append.mp (l.nodup c)).2.2 t h t hp rfl

end Layout

inductive ListPc where
  | idle
  | walk (c : CtxPtr) (rest : List TaskPtr)
  | body (c : CtxPtr) (item : TaskPtr) (rest : List TaskPtr)

def ListPc.Client : ListPc → Prop
  | .walk _ _ => False
  | _ => True

/-- `data` holds the records and settings; its links are not used. -/
structure ListSched where
  lay : Layout
  data : Mem
  pc : ListPc

def queued (c : CtxPtr) (x : TaskCtx) : TaskCtx := { x with state := .add, ctx := some c }

def activateAll (d : Mem) (ts : List TaskPtr) : Mem :=
  ts.foldl (fun d t => d.modTask t Ods.activate) d

def Call.Plain : Call → Prop
  | .init _ | .add _ _ => False
  | _ => True

inductive ListStep : ListSched → Act → ListSched → Prop
  | call {l : Layout} {d d' : Mem} {pc : ListPc} {op : Call} :
      pc.Client → op.Plain → op.exec d = some d' → ListStep ⟨l,d,pc⟩ (.call op) ⟨l,d',pc⟩
  | add {l : Layout} {d : Mem} {pc : ListPc} {c : CtxPtr} {t : TaskPtr} (h : l.Free t) :
      pc.Client → ListStep ⟨l,d,pc⟩ (.call (.add c t)) ⟨l.queue c t h,d.modTask t (queued c),pc⟩
  | tick {l : Layout} {d : Mem} {c : CtxPtr} :
      ListStep ⟨l,d,.idle⟩ (.tick c)
        ⟨l.activate c,activateAll d (l.pend c),.walk c ((l.pend c).reverse ++ l.exec c)⟩
  | skip {l : Layout} {d : Mem} {c : CtxPtr} {item : TaskPtr} {rest : List TaskPtr} :
      odsExecFunc (odsExecWake (d.task item)) = none →
      ListStep ⟨l,d,.walk c (item :: rest)⟩ .visit
        ⟨l,(d.modTask item odsExecWake).modTask item odsExecCount,.walk c rest⟩
  | invoke {l : Layout} {d : Mem} {c : CtxPtr} {item : TaskPtr} {rest : List TaskPtr} {f : FuncPtr} :
      odsExecFunc (odsExecWake (d.task item)) = some f →
      ListStep ⟨l,d,.walk c (item :: rest)⟩ .visit ⟨l,d.modTask item odsExecWake,.body c item rest⟩
  | ret {l : Layout} {d : Mem} {c : CtxPtr} {item : TaskPtr} {rest : List TaskPtr} :
      ListStep ⟨l,d,.body c item rest⟩ .ret ⟨l,d.modTask item odsExecCount,.walk c rest⟩
  | finish {l : Layout} {d : Mem} {c : CtxPtr} :
      ListStep ⟨l,d,.walk c []⟩ .finish ⟨l.prune c fun t => (d.task t).state ≠ .del,d,.idle⟩

end Ods
