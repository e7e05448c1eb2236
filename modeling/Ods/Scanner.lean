import Mathlib.Data.List.Basic
import Mathlib.Logic.Equiv.Defs

/-! Scanners that read one item from the front of a text, and when such a scanner is the inverse
of writing: it reads an item exactly where the item stands written and what follows does not
belong to it. Longest match, sequence and repetition keep this. -/
namespace Scanner
variable {α β γ : Type*} {cs rest : List α} {x : β} {xs : List β}

abbrev Scan (α β : Type*) := List α → Option (β × List α)

/-- The scanner reads what `write` writes, where what follows lets the item end. -/
def Reads (scan : Scan α β) (write : β → List α) (Ends : β → List α → Prop) : Prop :=
  ∀ cs x rest, scan cs = some (x,rest) ↔ cs = write x ++ rest ∧ Ends x rest

/-- A scanner that reads what was written, and nothing else. -/
theorem Reads.of_both {scan : Scan α β} {write : β → List α} {Ends : β → List α → Prop}
    (hwritten : ∀ x rest, Ends x rest → scan (write x ++ rest) = some (x,rest))
    (hread : ∀ cs x rest, scan cs = some (x,rest) → cs = write x ++ rest ∧ Ends x rest) :
    Reads scan write Ends := by
  intro cs x rest
  constructor
  · exact hread cs x rest
  · rintro ⟨rfl,hends⟩
    exact hwritten x rest hends

section Longest
variable {p : α → Bool} {as : List α}

def longest (p : α → Bool) : Scan α (List α)
  | [] => none
  | a :: cs => if p a then (longest p cs).map fun (as,rest) => (a :: as,rest) else some ([],a :: cs)

def Stops (p : α → Bool) (rest : List α) : Prop := ∃ a ∈ rest.head?, p a = false

theorem stops_cons {a : α} : Stops p (a :: rest) ↔ p a = false := by
  simp [Stops]

theorem Stops.exists_cons (h : Stops p rest) : ∃ a as, rest = a :: as ∧ p a = false := by
  obtain ⟨a,ha,hp⟩ := h
  cases rest with
  | nil => cases ha
  | cons b as =>
    cases ha
    exact ⟨a,as,rfl,hp⟩

/-- Where a run ends is seen on the first element. -/
theorem stops_append (h : cs ≠ []) : Stops p (cs ++ rest) ↔ Stops p cs := by
  obtain ⟨a,as,rfl⟩ := List.exists_cons_of_ne_nil h
  rw [List.cons_append,stops_cons,stops_cons]

theorem longest_cons {a : α} (h : p a = true) :
    longest p (a :: cs) = (longest p cs).map fun (as,rest) => (a :: as,rest) := if_pos h

theorem reads_longest :
    Reads (longest p) (fun as => as) fun as rest => (∀ a ∈ as, p a = true) ∧ Stops p rest := by
  refine .of_both (fun as rest h => ?_) fun cs => ?_
  · obtain ⟨hall,hs⟩ := h
    induction as with
    | nil =>
      obtain ⟨a,r,rfl,ha⟩ := hs.exists_cons
      rw [List.nil_append,longest,if_neg (by simp [ha])]
    | cons a as ih =>
      obtain ⟨ha,hall⟩ := List.forall_mem_cons.mp hall
      rw [List.cons_append,longest_cons ha,ih hall]
      rfl
  · induction cs with
    | nil =>
      intro as rest h
      cases h
    | cons a cs ih =>
      intro as rest h
      cases hp : p a with
      | true =>
        rw [longest_cons hp,Option.map_eq_some_iff] at h
        obtain ⟨⟨bs,r⟩,hr,he⟩ := h
        cases he
        obtain ⟨rfl,hall,hs⟩ := ih bs _ hr
        exact ⟨rfl,List.forall_mem_cons.mpr ⟨hp,hall⟩,hs⟩
      | false =>
        rw [longest,if_neg (by simp [hp])] at h
        cases h
        exact ⟨rfl,by simp,stops_cons.mpr hp⟩

end Longest

theorem Reads.congr {scan : Scan α β} {write : β → List α} {Ends Ends' : β → List α → Prop}
    (h : Reads scan write Ends) (he : ∀ x rest, Ends x rest ↔ Ends' x rest) :
    Reads scan write Ends' := fun cs x rest => by
  rw [h cs x rest,he]

def element : Scan α α
  | [] => none
  | a :: cs => some (a,cs)

theorem reads_element : Reads (element (α := α)) (fun a => [a]) fun _ _ => True := by
  intro cs a rest
  cases cs with
  | nil => simp [element]
  | cons b cs => simp [element]

section Sequence
variable {f : Scan α β} {g : Scan α γ} {writeF : β → List α} {writeG : γ → List α}
variable {EndsF : β → List α → Prop} {EndsG : γ → List α → Prop}

def andThen (f : Scan α β) (g : Scan α γ) : Scan α (β × γ) := fun cs =>
  (f cs).bind fun (x,cs) => (g cs).map fun (y,cs) => ((x,y),cs)

theorem Reads.andThen (hf : Reads f writeF EndsF) (hg : Reads g writeG EndsG) :
    Reads (andThen f g) (fun x => writeF x.1 ++ writeG x.2)
      fun x rest => EndsF x.1 (writeG x.2 ++ rest) ∧ EndsG x.2 rest := by
  intro cs ⟨x,y⟩ rest
  constructor
  · intro h
    obtain ⟨⟨x',r⟩,hx,hr⟩ := Option.bind_eq_some_iff.mp h
    obtain ⟨⟨y',r'⟩,hy,he⟩ := Option.map_eq_some_iff.mp hr
    cases he
    obtain ⟨rfl,hex⟩ := (hf _ _ _).mp hx
    obtain ⟨rfl,hey⟩ := (hg _ _ _).mp hy
    exact ⟨(List.append_assoc ..).symm,hex,hey⟩
  · rintro ⟨he,hex,hey⟩
    have hx := (hf _ _ _).mpr ⟨he.trans (List.append_assoc ..),hex⟩
    have hy := (hg _ _ _).mpr ⟨rfl,hey⟩
    simp [Scanner.andThen,hx,hy]

end Sequence

section Convert
variable {f : Scan α β} {write : β → List α} {Ends : β → List α → Prop}

/-- Another form of the items. -/
theorem Reads.convert (hf : Reads f write Ends) (e : β ≃ γ) :
    Reads (fun cs => (f cs).map fun (x,rest) => (e x,rest)) (fun y => write (e.symm y))
      fun y rest => Ends (e.symm y) rest := by
  intro cs y rest
  rw [← hf,Option.map_eq_some_iff]
  constructor
  · rintro ⟨⟨x,r⟩,hx,he⟩
    cases he
    rwa [e.symm_apply_apply]
  · intro h
    exact ⟨(e.symm y,rest),h,by simp⟩

end Convert

section Repetition
variable {stop : α → Bool} {item : Scan α β} {write : β → List α} {Ends : β → Prop} {n : Nat}

/-- Items up to an element that stops them; `n` bounds how many. -/
def items (stop : α → Bool) (item : Scan α β) : Nat → Scan α (List β)
  | 0, _ => none
  | _ + 1, [] => none
  | n + 1, a :: cs =>
    if stop a then some ([],a :: cs)
    else (item (a :: cs)).bind fun (x,cs) => (items stop item n cs).map fun (xs,cs) => (x :: xs,cs)

def Begins (stop : α → Bool) (write : β → List α) (x : β) : Prop :=
  ∃ a as, write x = a :: as ∧ stop a = false

/-- No more passes are needed than there are elements. -/
theorem reads_items (hitem : Reads item write fun x _ => Ends x) (hne : ∀ x, Ends x → write x ≠ [])
    (hn : cs.length ≤ n) : items stop item n cs = some (xs,rest) ↔
      cs = xs.flatMap write ++ rest ∧ (∀ x ∈ xs, Ends x ∧ Begins stop write x) ∧
        ∃ a ∈ rest.head?, stop a = true := by
  induction n generalizing cs xs with
  | zero =>
    obtain rfl := List.eq_nil_of_length_eq_zero (Nat.le_zero.mp hn)
    constructor
    · intro h
      cases h
    · rintro ⟨he,-,ha⟩
      obtain ⟨-,rfl⟩ := List.append_eq_nil_iff.mp he.symm
      simp at ha
  | succ n ih =>
    cases cs with
    | nil =>
      constructor
      · intro h
        cases h
      · rintro ⟨he,-,ha⟩
        obtain ⟨-,rfl⟩ := List.append_eq_nil_iff.mp he.symm
        simp at ha
    | cons a cs =>
      rw [List.length_cons] at hn
      cases hs : stop a with
      | true =>
        rw [items,if_pos hs]
        constructor
        · intro h
          obtain ⟨rfl,rfl⟩ := Prod.mk.inj (Option.some.inj h)
          exact ⟨rfl,by simp,a,rfl,hs⟩
        · rintro ⟨he,hall,-⟩
          cases xs with
          | nil => rw [he]; rfl
          | cons x xs =>
            obtain ⟨b,bs,hb,hsb⟩ := (hall x List.mem_cons_self).2
            rw [List.flatMap_cons,hb] at he
            obtain ⟨rfl,-⟩ := List.cons.inj he
            rw [hs] at hsb
            cases hsb
      | false =>
        rw [items,if_neg (by simp [hs])]
        constructor
        · intro h
          obtain ⟨⟨x,r⟩,hx,hr⟩ := Option.bind_eq_some_iff.mp h
          obtain ⟨⟨ys,r'⟩,hy,he⟩ := Option.map_eq_some_iff.mp hr
          cases he
          obtain ⟨hcs,hends⟩ := (hitem _ _ _).mp hx
          obtain ⟨b,bs,hb⟩ := List.exists_cons_of_ne_nil (hne x hends)
          rw [hb,List.cons_append] at hcs
          obtain ⟨rfl,rfl⟩ := List.cons.inj hcs
          rw [List.length_append] at hn
          obtain ⟨rfl,hall,ha⟩ := (ih (by omega)).mp hy
          refine ⟨?_,List.forall_mem_cons.mpr ⟨⟨hends,a,bs,hb,hs⟩,hall⟩,ha⟩
          rw [List.flatMap_cons,hb,List.append_assoc]
          rfl
        · rintro ⟨he,hall,ha⟩
          cases xs with
          | nil =>
            rw [← show a :: cs = rest from he] at ha
            obtain ⟨b,hb,hsb⟩ := ha
            cases hb
            rw [hs] at hsb
            cases hsb
          | cons x xs =>
            obtain ⟨⟨hends,b,bs,hb,-⟩,hrest⟩ := List.forall_mem_cons.mp hall
            rw [List.flatMap_cons,List.append_assoc] at he
            have hx := (hitem _ _ _).mpr ⟨he,hends⟩
            have hlen := congrArg List.length he
            rw [hb,List.length_cons,List.length_append,List.length_cons] at hlen
            have hy : items stop item n (xs.flatMap write ++ rest) = some (xs,rest) :=
              (ih (by omega)).mpr ⟨rfl,hrest,ha⟩
            simp [hx,hy]

/-- More passes make no difference. -/
theorem items_eq {m : Nat} (hitem : Reads item write fun x _ => Ends x)
    (hne : ∀ x, Ends x → write x ≠ []) (hn : cs.length ≤ n) (hm : cs.length ≤ m) :
    items stop item n cs = items stop item m cs := by
  refine Option.ext fun ⟨xs,rest⟩ => ?_
  rw [reads_items hitem hne hn,reads_items hitem hne hm]

end Repetition

section Terminated
variable {f : Scan α β} {g : Scan α γ} {a : α}

/-- The scanner always reads something, and the element at the end is left. -/
def Leaves (f : Scan α β) (a : α) : Prop := ∀ cs, ∃ x rest, f (cs ++ [a]) = some (x,rest ++ [a])

theorem leaves_longest {p : α → Bool} (ha : p a = false) : Leaves (longest p) a := by
  intro cs
  induction cs with
  | nil => exact ⟨[],[],if_neg (by simp [ha])⟩
  | cons b cs ih =>
    obtain ⟨as,rest,hread⟩ := ih
    cases hb : p b with
    | true => exact ⟨b :: as,rest,by rw [List.cons_append,longest_cons hb,hread]; rfl⟩
    | false => exact ⟨[],b :: cs,if_neg (by simp [hb])⟩

/-- A scanner after ones that leave the end to it. -/
theorem Leaves.andThen (hf : Leaves f a) (hg : ∀ cs, ∃ y rest, g (cs ++ [a]) = some (y,rest))
    (cs : List α) : ∃ x rest, andThen f g (cs ++ [a]) = some (x,rest) := by
  obtain ⟨x,rest,hx⟩ := hf cs
  obtain ⟨y,rest',hy⟩ := hg rest
  exact ⟨(x,y),rest',by simp [Scanner.andThen,hx,hy]⟩

theorem element_append (cs : List α) : ∃ b rest, element (cs ++ [a]) = some (b,rest) := by
  cases cs with
  | nil => exact ⟨a,[],rfl⟩
  | cons b cs => exact ⟨b,cs ++ [a],rfl⟩

end Terminated

end Scanner
