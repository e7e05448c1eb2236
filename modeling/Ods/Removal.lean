import Ods.Activation

/-! What `ods_list_del` and `ods_post_exec` do to a memory that represents a layout: both
end, every removal succeeds, and what is left is `Layout.prune`. -/
namespace Ods
open PointerChain

variable {cs : List CtxPtr} {m m' : Mem} {l : Layout} {c d : CtxPtr} {fuel bound : Nat}
variable {p : Option TaskPtr} {r : ListRef} {item b : TaskPtr} {u v w : List TaskPtr}

theorem odsListDelSeek_eq (h : Links m.next p (w ++ b :: item :: v)) {current : TaskPtr}
    (hp : p = some current) :
    odsListDelSeek m item fuel current = if w.length < fuel then some b else none := by
  induction w generalizing fuel p current with
  | nil =>
    obtain ⟨rfl,hi,-⟩ := h
    cases hp
    have hnext : (m.task b).next = some item := hi
    cases fuel <;> simp [odsListDelSeek,hnext]
  | cons a w ih =>
    have hn := (List.nodup_cons.mp h.nodup).2
    obtain ⟨rfl,ht⟩ := h
    cases hp
    cases fuel with
    | zero => simp [odsListDelSeek]
    | succ fuel =>
      obtain ⟨nxt,hx,hne⟩ : ∃ nxt, m.next a = some nxt ∧ nxt ≠ item := by
        cases w with
        | nil =>
          refine ⟨b,ht.1,?_⟩
          rintro rfl
          exact (List.nodup_cons.mp hn).1 List.mem_cons_self
        | cons e w =>
          refine ⟨e,ht.1,?_⟩
          rintro rfl
          exact (List.nodup_cons.mp hn).1 (by simp)
      have hx' : (m.task a).next = some nxt := hx
      simp only [odsListDelSeek,hx',if_neg hne]
      rw [ih ht hx]
      simp

/-- The one link `ods_list_del` rewrites: that of the last node before `item`, or the head. -/
def unlinkMem (m : Mem) (r : ListRef) (u : List TaskPtr) (item : TaskPtr) : Mem :=
  match u.getLast? with
  | none => m.setHead r (m.next item)
  | some b => m.setNext b (m.next item)

theorem odsListDel_eq (fuel : Nat) (h : Links m.next (m.head r) (u ++ item :: v)) :
    odsListDel fuel m r item =
      if u.length ≤ fuel then some (true,unlinkMem m r u item) else none := by
  rcases List.eq_nil_or_concat u with rfl | ⟨w,b,rfl⟩
  · have hh : m.head r = some item := h.1
    simp [odsListDel,hh,unlinkMem]
    rfl
  · rw [List.concat_eq_append,List.append_assoc] at h
    obtain ⟨current,hcur,hne⟩ : ∃ current, m.head r = some current ∧ current ≠ item := by
      have hn := h.nodup
      cases w with
      | nil =>
        refine ⟨b,h.1,?_⟩
        rintro rfl
        exact (List.nodup_cons.mp hn).1 (by simp)
      | cons e w =>
        refine ⟨e,h.1,?_⟩
        rintro rfl
        exact (List.nodup_cons.mp hn).1 (by simp)
    have hb : (m.task b).next = some item := h.suffix.2.1
    simp only [odsListDel,hcur,if_neg hne,odsListDelSeek_eq h hcur]
    by_cases hf : w.length < fuel
    · simp [hf,Nat.succ_le_of_lt hf,hb,unlinkMem,Mem.next]
    · have hlen : ¬ (w.concat b).length ≤ fuel := by
        rw [List.length_concat]
        omega
      rw [if_neg hf,if_neg hlen]
      rfl

/-- A task that is not on the list is not found, and nothing is written. -/
theorem odsListDelSeek_absent (h : Links m.next p v) {current : TaskPtr} (hp : p = some current)
    (hi : item ∉ v) (hf : v.length ≤ fuel) :
    ∃ last, odsListDelSeek m item fuel current = some last ∧ m.next last = none := by
  induction v generalizing fuel p current with
  | nil =>
    rw [links_nil] at h
    rw [h] at hp
    cases hp
  | cons a v ih =>
    obtain ⟨rfl,ht⟩ := h
    cases hp
    rw [List.mem_cons,not_or] at hi
    obtain ⟨fuel,rfl⟩ : ∃ n, fuel = n + 1 := ⟨fuel - 1,by simp at hf; omega⟩
    cases hx : (m.task a).next with
    | none => exact ⟨a,by simp [odsListDelSeek,hx],hx⟩
    | some nxt =>
      have hne : nxt ≠ item := by
        rintro rfl
        have hm : Links m.next (some nxt) v := hx ▸ ht
        obtain ⟨r,rfl,-⟩ := hm.eq_cons
        exact hi.2 List.mem_cons_self
      obtain ⟨last,hl,hz⟩ := ih ht hx hi.2 (by simpa using hf)
      exact ⟨last,by simp only [odsListDelSeek,hx,if_neg hne]; exact hl,hz⟩

theorem odsListDel_absent (h : Links m.next (m.head r) v) (hi : item ∉ v) (hf : v.length ≤ fuel) :
    odsListDel fuel m r item = some (false,m) := by
  cases hh : m.head r with
  | none => simp [odsListDel,hh]
  | some current =>
    have hne : current ≠ item := by
      rintro rfl
      rw [hh] at h
      obtain ⟨q,rfl,-⟩ := h.eq_cons
      exact hi List.mem_cons_self
    obtain ⟨last,hl,hz⟩ := odsListDelSeek_absent h hh hi hf
    have hz' : (m.task last).next = none := hz
    simp [odsListDel,hh,hne,hl,hz']

theorem unlinkMem_data : (unlinkMem m r u item).data = m.data := by
  unfold unlinkMem
  split <;> simp

theorem unlinkMem_task_of_not_mem {t : TaskPtr} (h : t ∉ u) :
    (unlinkMem m r u item).task t = m.task t := by
  unfold unlinkMem
  split
  · simp
  · rename_i b hb
    have hne : t ≠ b := fun he => h (he ▸ List.mem_of_getLast? hb)
    exact Mem.modTask_task_of_ne _ _ _ _ hne

theorem unlinkMem_links (h : Links m.next (m.head r) (u ++ item :: v)) :
    Links (unlinkMem m r u item).next ((unlinkMem m r u item).head r) (u ++ v) := by
  rcases List.eq_nil_or_concat u with rfl | ⟨w,b,rfl⟩
  · have hv : Links m.next (m.next item) v := h.2
    simpa [unlinkMem] using hv
  · rw [List.concat_eq_append,List.append_assoc] at h
    have hu := h.unlink
    simp only [unlinkMem,List.concat_eq_append,List.getLast?_append,List.getLast?_singleton,
      Option.some_or,Mem.setNext_next,List.append_assoc]
    cases r <;> exact hu

def removeMem (c : CtxPtr) (m : Mem) (u : List TaskPtr) (item : TaskPtr) : Mem :=
  (unlinkMem m (.execList c) u item).modSch c fun x => { x with odsNumTasks := x.odsNumTasks - 1 }

/-- Between `m` and `m'` the exec list of `c` shrank from `L` to `L'`, and nothing else
but links and `ods_num_tasks` changed. -/
structure Shrunk (c : CtxPtr) (m m' : Mem) (L L' : List TaskPtr) : Prop where
  links : Links m'.next (m'.sch c).odsExecList L'
  data : m'.data = m.data
  task : ∀ t, t ∉ L → m'.task t = m.task t
  sch : ∀ d, d ≠ c → m'.sch d = m.sch d
  pend : (m'.sch c).odsPreExecList = (m.sch c).odsPreExecList
  count : (m.sch c).odsNumTasks = BitVec.ofNat 32 L.length →
    (m'.sch c).odsNumTasks = BitVec.ofNat 32 L'.length

theorem Shrunk.refl {L : List TaskPtr} (h : Links m.next (m.sch c).odsExecList L) :
    Shrunk c m m L L :=
  ⟨h,rfl,fun _ _ => rfl,fun _ _ => rfl,rfl,id⟩

theorem Shrunk.trans {m'' : Mem} {L L' L'' : List TaskPtr} (h : Shrunk c m m' L L')
    (h' : Shrunk c m' m'' L' L'') (hs : L' ⊆ L) : Shrunk c m m'' L L'' where
  links := h'.links
  data := h'.data.trans h.data
  task t ht := (h'.task t fun hm => ht (hs hm)).trans (h.task t ht)
  sch d hd := (h'.sch d hd).trans (h.sch d hd)
  pend := h'.pend.trans h.pend
  count hc := h'.count (h.count hc)

theorem removeMem_shrunk (h : Links m.next (m.sch c).odsExecList (u ++ item :: v)) :
    Shrunk c m (removeMem c m u item) (u ++ item :: v) (u ++ v) := by
  have hsch : ∀ d, d ≠ c → (unlinkMem m (.execList c) u item).sch d = m.sch d := by
    intro d hd
    unfold unlinkMem
    split
    · simp [Mem.setHead,hd]
    · rfl
  have hself : (unlinkMem m (.execList c) u item).sch c =
      { m.sch c with odsExecList := ((unlinkMem m (.execList c) u item).sch c).odsExecList } := by
    unfold unlinkMem
    split
    · simp [Mem.setHead]
    · rfl
  refine ⟨?_,?_,?_,?_,?_,?_⟩
  · rw [removeMem,Mem.modSch_sch_self,Mem.modSch_next]
    exact unlinkMem_links (r := .execList c) h
  · rw [removeMem,Mem.data_modSch_self rfl,unlinkMem_data]
  · intro t ht
    exact unlinkMem_task_of_not_mem fun hm => ht (List.mem_append_left _ hm)
  · intro d hd
    rw [removeMem,Mem.modSch_sch_of_ne _ _ _ _ hd,hsch d hd]
  · rw [removeMem,Mem.modSch_sch_self,hself]
  · intro hc
    rw [removeMem,Mem.modSch_sch_self,hself]
    simp only [hc,List.length_append,List.length_cons]
    rw [← Nat.add_assoc,BitVec.ofNat_add]
    exact BitVec.add_sub_cancel _ _

theorem odsPostExecBody_keep (h : (m.task item).state ≠ .del) :
    odsPostExecBody bound c m item = some m := by
  simp [odsPostExecBody,h]

theorem odsPostExecBody_remove (hL : Links m.next (m.sch c).odsExecList (u ++ item :: v))
    (h : (m.task item).state = .del) : odsPostExecBody bound c m item =
      if (u ++ v).length < bound then some (removeMem c m u item) else none := by
  have hprint := odsListPrint_eq bound (removeMem_shrunk hL).links
  have hdel := odsListDel_eq bound (r := .execList c) hL
  simp only [odsPostExecBody,if_pos h,hdel]
  by_cases hu : u.length ≤ bound
  · simp only [if_pos hu,Option.bind_eq_bind,Option.bind_some,if_true]
    rw [show ((unlinkMem m (.execList c) u item).modSch c fun x =>
      { x with odsNumTasks := x.odsNumTasks - 1 }) = removeMem c m u item from rfl,hprint]
    split <;> rfl
  · have hlt : ¬(u ++ v).length < bound := by
      rw [List.length_append]
      omega
    rw [if_neg hu,if_neg hlt]
    rfl

theorem Links.head_eq {next : TaskPtr → Option TaskPtr} (h : Links next p v) : p = v.head? := by
  cases v with
  | nil => exact h
  | cons a v => exact h.1

/-- One pass of `ods_post_exec`, standing on `a` with `u` behind it: the stale link of a
removed node still leads on. -/
theorem odsPostExecBody_pass {a : TaskPtr} (hL : Links m.next (m.sch c).odsExecList (u ++ a :: v))
    (h : odsPostExecBody bound c m a = some m') :
    Shrunk c m m' (u ++ a :: v) (u ++ if (m.task a).state = .del then v else a :: v) ∧
      (m'.task a).next = v.head? := by
  have hnext : m.next a = v.head? := Links.head_eq hL.suffix.2
  by_cases hs : (m.task a).state = .del
  · rw [odsPostExecBody_remove hL hs] at h
    split at h
    · cases h
      rw [if_pos hs]
      refine ⟨removeMem_shrunk hL,?_⟩
      have hau : a ∉ u := by
        intro hau
        exact (List.nodup_append.mp hL.nodup).2.2 a hau a List.mem_cons_self rfl
      rw [← hnext]
      exact congrArg TaskCtx.next (unlinkMem_task_of_not_mem hau)
    · cases h
  · rw [odsPostExecBody_keep hs] at h
    cases h
    rw [if_neg hs]
    exact ⟨Shrunk.refl hL,hnext⟩

theorem odsPostExecBody_total {a : TaskPtr} (hL : Links m.next (m.sch c).odsExecList (u ++ a :: v))
    (hb : (u ++ a :: v).length < bound) : ∃ m', odsPostExecBody bound c m a = some m' := by
  by_cases hs : (m.task a).state = .del
  · have hb' : (u ++ v).length < bound := by
      simp only [List.length_append,List.length_cons] at hb ⊢
      omega
    exact ⟨_,(odsPostExecBody_remove hL hs).trans (if_pos hb')⟩
  · exact ⟨m,odsPostExecBody_keep hs⟩

/-- The loop of `ods_post_exec`, standing on the head of `v` with `u` behind it. -/
theorem odsPostExecLoop_shrunk (hL : Links m.next (m.sch c).odsExecList (u ++ v))
    (h : odsPostExecLoop bound c fuel m v.head? = some m') :
    Shrunk c m m' (u ++ v) (u ++ v.filter fun t => (m.task t).state ≠ .del) := by
  induction v generalizing m u fuel with
  | nil =>
    cases fuel with
    | zero => cases h
    | succ fuel =>
      cases h
      simpa using Shrunk.refl hL
  | cons a v ih =>
    cases fuel with
    | zero => cases h
    | succ fuel =>
      obtain ⟨m₁,hb,hl⟩ := Option.bind_eq_some_iff.mp h
      obtain ⟨hr,hnext⟩ := odsPostExecBody_pass hL hb
      rw [hnext] at hl
      have hstate : ∀ t, (m₁.task t).state = (m.task t).state := fun t =>
        congrArg (fun d => (d.task t).state) hr.data
      by_cases hs : (m.task a).state = .del
      · rw [if_pos hs] at hr
        have ht := ih hr.links hl
        simp only [hstate] at ht
        rw [List.filter_cons_of_neg (by simp [hs])]
        refine hr.trans ht ?_
        exact (List.Sublist.append_left (List.sublist_cons_self a v) u).subset
      · rw [if_neg hs] at hr
        have hlinks := hr.links
        rw [List.append_cons] at hlinks
        have ht := ih hlinks hl
        simp only [hstate,List.append_assoc,List.singleton_append] at ht
        rw [List.filter_cons_of_pos (by simp [hs])]
        exact hr.trans ht (List.Subset.refl _)

theorem odsPostExecLoop_total (hL : Links m.next (m.sch c).odsExecList (u ++ v))
    (hb : (u ++ v).length < bound) (hf : v.length < fuel) :
    ∃ m', odsPostExecLoop bound c fuel m v.head? = some m' := by
  induction v generalizing m u fuel with
  | nil =>
    obtain ⟨fuel,rfl⟩ : ∃ n, fuel = n + 1 := ⟨fuel - 1,by simp at hf; omega⟩
    exact ⟨m,rfl⟩
  | cons a v ih =>
    obtain ⟨fuel,rfl⟩ : ∃ n, fuel = n + 1 := ⟨fuel - 1,by simp at hf; omega⟩
    simp only [List.length_cons,Nat.add_lt_add_iff_right] at hf
    obtain ⟨m₁,hbody⟩ := odsPostExecBody_total hL hb
    obtain ⟨hr,hnext⟩ := odsPostExecBody_pass hL hbody
    simp only [odsPostExecLoop,List.head?_cons,Option.bind_eq_bind,hbody,Option.bind_some,hnext]
    simp only [List.length_append,List.length_cons] at hb
    have hlinks := hr.links
    split at hlinks
    · refine ih hlinks ?_ hf
      rw [List.length_append]
      omega
    · rw [List.append_cons] at hlinks
      refine ih hlinks ?_ hf
      simp only [List.length_append,List.length_singleton]
      omega

theorem odsPostExec_rep (hR : Rep cs m l) (hc : c ∈ cs) (h : odsPostExec fuel m c = some m') :
    Rep cs m' (l.prune c fun t => (m.task t).state ≠ .del) ∧ m'.data = m.data := by
  have hE := hR.exec c hc
  rw [odsPostExec,Links.head_eq hE] at h
  have hs := odsPostExecLoop_shrunk (u := []) hE h
  simp only [List.nil_append] at hs
  have hctx : ∀ t, (m'.task t).ctx = (m.task t).ctx := fun t =>
    congrArg (fun d => (d.task t).ctx) hs.data
  refine ⟨hR.of_step hc (fun d hd => ?_) hs.sch ?_ ?_ ?_ ?_ ?_,hs.data⟩
  · exact ⟨Layout.prune_exec_of_ne _ _ _ _ hd,rfl⟩
  · intro d hd t ht
    refine hs.task t fun hm => hd ?_
    exact l.apart d c t ht (List.mem_append_left _ hm)
  · rw [Layout.prune_exec_self]
    exact hs.links
  · rw [Layout.prune_pend,hs.pend]
    exact Links.of_task (hR.pend c hc) fun t ht =>
      hs.task t fun hm => Layout.not_pend_of_exec hm ht
  · intro t ht
    rw [Layout.prune_exec_self,Layout.prune_pend] at ht
    rw [hctx]
    exact hR.owner c hc t ((List.filter_sublist.append_right _).subset ht)
  · rw [Layout.prune_exec_self]
    exact hs.count (hR.count c hc)

theorem odsPostExec_total (hE : Links m.next (m.sch c).odsExecList v) (hf : v.length < fuel) :
    ∃ m', odsPostExec fuel m c = some m' := by
  rw [odsPostExec,Links.head_eq hE]
  exact odsPostExecLoop_total (u := []) hE hf hf

end Ods
