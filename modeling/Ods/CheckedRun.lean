import Ods.System

/-! Running the machine on given actions, with the client's contract checked on the way. -/
namespace Ods
open PointerChain LabelledRun

variable {cs : List CtxPtr} {m : Mem} {fuel : Nat} {s s' : Sys} {p : Option TaskPtr}
variable {ts : List TaskPtr} {t : TaskPtr} {acts : List Act}

theorem odsListPrint_links (h : odsListPrint m fuel p = some ts) : Links m.next p ts := by
  induction fuel generalizing p ts with
  | zero => cases h
  | succ fuel ih =>
    cases p with
    | none =>
      cases h
      exact rfl
    | some b =>
      obtain ⟨r,hr,rfl⟩ := Option.map_eq_some_iff.mp h
      exact ⟨rfl,ih hr⟩

def presentIn (fuel : Nat) (m : Mem) (p : Option TaskPtr) (t : TaskPtr) : Bool :=
  (odsListPrint m fuel p).any fun ts => t ∈ ts

theorem presentIn_meets (h : presentIn fuel m p t = true) : Meets m.next p t := by
  obtain ⟨ts,hts,ht⟩ := (Option.any_eq_true _ _).mp h
  exact ((odsListPrint_links hts).meets_iff t).mpr (by simpa using ht)

def absentIn (fuel : Nat) (m : Mem) (p : Option TaskPtr) (t : TaskPtr) : Bool :=
  (odsListPrint m fuel p).any fun ts => t ∉ ts

theorem absentIn_not_meets (h : absentIn fuel m p t = true) : ¬ Meets m.next p t := by
  obtain ⟨ts,hts,ht⟩ := (Option.any_eq_true _ _).mp h
  rw [(odsListPrint_links hts).meets_iff]
  simpa using ht

def unlinkedIn (cs : List CtxPtr) (fuel : Nat) (m : Mem) (t : TaskPtr) : Bool :=
  cs.all fun c => absentIn fuel m (m.sch c).odsExecList t &&
    absentIn fuel m (m.sch c).odsPreExecList t

theorem unlinkedIn_not_linked (h : unlinkedIn cs fuel m t = true) : ¬ Linked cs m t := by
  rintro ⟨c,hc,hl⟩
  have hcl := List.all_eq_true.mp h c hc
  rw [Bool.and_eq_true] at hcl
  rcases hl with he | hp
  · exact absentIn_not_meets hcl.1 he
  · exact absentIn_not_meets hcl.2 hp

def legalIn (cs : List CtxPtr) (fuel : Nat) (s : Sys) : Act → Bool
  | .call (.init _) => false
  | .call (.start c _ _) => c ∈ cs
  | .call (.stop c) => c ∈ cs
  | .call (.add c t) => c ∈ cs && unlinkedIn cs fuel s.mem t
  | .call (.task _ _) => true
  | .tick c => c ∈ cs
  | .visit | .ret | .finish => true

theorem legalIn_legal {a : Act} (h : legalIn cs fuel s a = true) : Legal cs s a := by
  cases a with
  | call op =>
    cases op with
    | init c => cases h
    | start c tickTimeMs id | stop c => simpa [legalIn,Legal] using h
    | add c t =>
      obtain ⟨hc,hu⟩ := Bool.and_eq_true_iff.mp h
      exact ⟨by simpa using hc,unlinkedIn_not_linked hu⟩
    | task t op => trivial
  | tick c => simpa [legalIn,Legal] using h
  | _ => trivial

def runChecked (check : Sys → Act → Bool) (fuel : Nat) (s : Sys) : List Act → Option Sys
  | [] => some s
  | a :: as => if check s a then (step fuel s a).bind fun s => runChecked check fuel s as else none

theorem runChecked_run {check : Sys → Act → Bool} {ok : Sys → Act → Prop}
    (hok : ∀ s a, check s a = true → ok s a) (h : runChecked check fuel s acts = some s') :
    Run (Step fuel) ok s acts s' := by
  induction acts generalizing s with
  | nil =>
    cases h
    exact .nil _
  | cons a as ih =>
    unfold runChecked at h
    split at h
    · rename_i hc
      obtain ⟨s₁,hs,hr⟩ := Option.bind_eq_some_iff.mp h
      exact .cons (hok _ _ hc) (step_iff.mp hs) (ih hr)
    · cases h

/-- A run that passes the check, and what a test says of its last state. -/
theorem runChecked_any (check : Sys → Act → Bool) (fuel : Nat) (s : Sys) (acts : List Act)
    (P : Sys → Bool) {ok : Sys → Act → Prop} (hok : ∀ s a, check s a = true → ok s a)
    (h : (runChecked check fuel s acts).any P = true) :
    ∃ s', Run (Step fuel) ok s acts s' ∧ P s' = true := by
  obtain ⟨s',hs,hP⟩ := (Option.any_eq_true _ _).mp h
  exact ⟨s',runChecked_run hok hs,hP⟩

def blank : Mem where
  task _ := ⟨.run,0,0,Event.zero,some 0,none,none⟩
  sch _ := ⟨none,none,0,0,⟨none,none⟩,0⟩
  timers := []

end Ods
