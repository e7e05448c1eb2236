import Ods.FormatMeaning

/-! Where a format ends. One whose last specification is complete is read up to its terminator and
no further; in any other one the terminator is taken for the specifier, and what lies behind it is
read as format. -/
namespace Ods
open Scanner

variable {f cs rest behind : List Char} {ds : List Directive} {d : Directive} {s : Specification}

section Terminator

theorem leaves_field : Leaves Field.scan nul := by
  intro cs
  cases cs with
  | nil => exact ⟨.absent,[],rfl⟩
  | cons c cs =>
    obtain ⟨ds,rest,hread⟩ := leaves_longest (p := isDigit) (a := nul) rfl (c :: cs)
    rw [List.cons_append] at hread ⊢
    rw [Field.scan]
    split
    · exact ⟨.digits ds,rest,by rw [hread]; rfl⟩
    split
    · exact ⟨.star,cs,rfl⟩
    · exact ⟨.absent,c :: cs,rfl⟩

theorem leaves_precision : Leaves scanPrecision nul := by
  intro cs
  cases cs with
  | nil => exact ⟨none,[],rfl⟩
  | cons c cs =>
    obtain ⟨f,rest,hread⟩ := leaves_field cs
    rw [List.cons_append,scanPrecision]
    split
    · exact ⟨some f,rest,by rw [hread]; rfl⟩
    · exact ⟨none,c :: cs,rfl⟩

theorem leaves_twice {c : Char} {once twice : LengthField} (hc : c ≠ nul) :
    Leaves (scanTwice c once twice) nul := by
  intro cs
  cases cs with
  | nil => exact ⟨once,[],if_neg hc.symm⟩
  | cons c' cs =>
    rw [List.cons_append,scanTwice]
    split
    · exact ⟨twice,cs,rfl⟩
    · exact ⟨once,c' :: cs,rfl⟩

theorem leaves_length : Leaves LengthField.scan nul := by
  intro cs
  cases cs with
  | nil => exact ⟨.absent,[],rfl⟩
  | cons c cs =>
    rw [List.cons_append,LengthField.scan]
    split
    · exact leaves_twice (by decide) cs
    split
    · exact leaves_twice (by decide) cs
    split
    · exact ⟨.t,cs,rfl⟩
    split
    · exact ⟨.j,cs,rfl⟩
    split
    · exact ⟨.z,cs,rfl⟩
    · exact ⟨.absent,c :: cs,rfl⟩

/-- Behind a `%` there is a specification, if need be one with the terminator for its specifier. -/
theorem exists_specification (cs : List Char) :
    ∃ s rest, Specification.WellFormed s ∧ cs ++ [nul] = s.chars ++ rest := by
  obtain ⟨x,rest,hread⟩ := (leaves_longest (p := isFlag) (a := nul) rfl).andThen
    (leaves_field.andThen (leaves_precision.andThen (leaves_length.andThen element_append))) cs
  have hscan : Specification.scan (cs ++ [nul]) = some (specificationFields x,rest) := by
    rw [Specification.scan,hread]
    rfl
  obtain ⟨he,hs⟩ := (reads_specification _ _ _).mp hscan
  exact ⟨_,rest,hs,he⟩

def Complete (f : List Char) : Prop := ∃ ds, (∀ d ∈ ds, Directive.Ends d) ∧ f = formatChars ds

/-- A format whose terminator is taken for the specifier of its last specification. -/
def Cut (f : List Char) : Prop := ∃ ds s, (∀ d ∈ ds, Directive.Ends d) ∧
  Specification.WellFormed s ∧ s.specifier = nul ∧
    f ++ [nul] = formatChars ds ++ (Directive.conversion s).chars

theorem complete_or_cut (f : List Char) : Complete f ∨ Cut f := by
  induction hn : f.length using Nat.strong_induction_on generalizing f with
  | _ n ih =>
    -- what is written after one more directive
    have hcons {d : Directive} {rest : List Char} (hd : d.Ends) (hlt : rest.length < f.length)
        (hf : f = d.chars ++ rest) : Complete f ∨ Cut f := by
      rcases ih _ (hn ▸ hlt) rest rfl with ⟨ds,hall,hr⟩ | ⟨ds,s,hall,hs,hnul,hr⟩
      · refine .inl ⟨d :: ds,List.forall_mem_cons.mpr ⟨hd,hall⟩,?_⟩
        rw [hf,hr]
        rfl
      · refine .inr ⟨d :: ds,s,List.forall_mem_cons.mpr ⟨hd,hall⟩,hs,hnul,?_⟩
        rw [hf,List.append_assoc,hr,← List.append_assoc]
        rfl
    cases f with
    | nil => exact .inl ⟨[],by simp,rfl⟩
    | cons c f =>
      by_cases hc : c = '%'
      · obtain ⟨s,rest,hs,hf⟩ := exists_specification f
        rcases List.eq_nil_or_concat rest with rfl | ⟨rest,a,rfl⟩
        · rw [List.append_nil] at hf
          refine .inr ⟨[],s,by simp,hs,?_,?_⟩
          · have hlast := congrArg List.getLast? hf
            simpa [Specification.chars] using hlast.symm
          · rw [hc,List.cons_append,hf]
            rfl
        · rw [List.concat_eq_append,← List.append_assoc] at hf
          obtain ⟨hf,-⟩ := List.append_inj' hf rfl
          refine hcons (d := .conversion s) hs ?_ (by rw [hc,hf]; rfl)
          rw [hf,List.length_cons,List.length_append]
          omega
      · exact hcons (d := .literal c) hc (Nat.lt_succ_self _) rfl

theorem directive_chars_ne_nil : d.chars ≠ [] := by
  cases d <;> exact List.cons_ne_nil _ _

/-- A format is read on behind what was read of it. -/
theorem parseFormat_cons (hd : d.WellFormed) :
    parseFormat (d.chars ++ rest) = (parseFormat rest).map (d :: ·) := by
  obtain ⟨hends,hlit⟩ := hd
  obtain ⟨c,cs,hc⟩ := List.exists_cons_of_ne_nil (directive_chars_ne_nil (d := d))
  have hstop : ¬ decide (c = nul) = true := by
    have hbegins := Directive.begins_iff.mpr hlit
    obtain ⟨a,as,ha,hstop⟩ := hbegins
    rw [hc] at ha
    cases ha
    exact Bool.eq_false_iff.mp hstop
  have hscan : Directive.scan (c :: (cs ++ rest)) = some (d,rest) := by
    rw [← List.cons_append,← hc]
    exact (reads_directive _ _ _).mpr ⟨rfl,hends⟩
  have hitems : items (· = nul) Directive.scan (cs ++ rest).length rest =
      items (· = nul) Directive.scan rest.length rest :=
    items_eq reads_directive (fun _ _ => directive_chars_ne_nil) (by simp) le_rfl
  unfold parseFormat
  rw [hc,List.cons_append,List.length_cons,items,if_neg hstop,hscan,Option.bind_some]
  dsimp only
  rw [hitems]
  simp [Function.comp_def]

theorem parseFormat_append (h : ∀ d ∈ ds, d.WellFormed) :
    parseFormat (formatChars ds ++ rest) = (parseFormat rest).map (ds ++ ·) := by
  induction ds with
  | nil => simp [formatChars]
  | cons d ds ih =>
    obtain ⟨hd,hall⟩ := List.forall_mem_cons.mp h
    have hchars : formatChars (d :: ds) ++ rest = d.chars ++ (formatChars ds ++ rest) := by
      simp [formatChars]
    rw [hchars,parseFormat_cons hd,ih hall,Option.map_map]
    rfl

theorem parseFormat_nul : parseFormat (nul :: behind) = some [] := rfl

/-- The directives of a format have no terminator among them. -/
theorem wellFormed_of_ends (h : ∀ d ∈ ds, Directive.Ends d) (hnul : nul ∉ formatChars ds) :
    ∀ d ∈ ds, d.WellFormed := by
  intro d hd
  refine ⟨h d hd,?_⟩
  rintro rfl
  exact hnul (List.mem_flatMap.mpr ⟨_,hd,List.mem_singleton_self _⟩)

theorem Complete.parseFormat (h : Complete f) (hnul : nul ∉ f) :
    ∃ ds, ∀ behind, parseFormat (f ++ nul :: behind) = some ds := by
  obtain ⟨ds,hall,rfl⟩ := h
  refine ⟨ds,fun behind => ?_⟩
  rw [parseFormat_append (wellFormed_of_ends hall hnul),parseFormat_nul]
  simp

theorem Cut.parseFormat (h : Cut f) (hnul : nul ∉ f) : ∃ ds s, Specification.specifier s = nul ∧
    f ++ [nul] = formatChars (ds ++ [.conversion s]) ∧ ∀ behind,
      parseFormat (f ++ nul :: behind) = (parseFormat behind).map (ds ++ .conversion s :: ·) := by
  obtain ⟨ds,s,hall,hs,hspec,hf⟩ := h
  have hchars : f ++ [nul] = formatChars (ds ++ [.conversion s]) := by
    simp [hf,formatChars]
  have hds : nul ∉ formatChars ds := by
    obtain ⟨cs,hcs⟩ : ∃ cs, (Directive.conversion s).chars = cs ++ [nul] :=
      ⟨'%' :: (s.flags ++ (s.width.chars ++ (precisionChars s.precision ++ s.length.chars))),by
        simp [Directive.chars,Specification.chars,hspec]⟩
    rw [hcs,← List.append_assoc] at hf
    obtain ⟨hf,-⟩ := List.append_inj' hf rfl
    intro hmem
    exact hnul (hf ▸ List.mem_append_left _ hmem)
  have hwell : ∀ d ∈ ds ++ [.conversion s], d.WellFormed := by
    intro d hd
    rcases List.mem_append.mp hd with hd | hd
    · exact wellFormed_of_ends hall hds d hd
    · rw [List.mem_singleton.mp hd]
      exact ⟨hs,by simp⟩
  refine ⟨ds,s,hspec,hchars,fun behind => ?_⟩
  have hsplit : f ++ nul :: behind = (f ++ [nul]) ++ behind := by simp
  rw [hsplit,hchars,parseFormat_append hwell]
  simp

variable {σ : Type} {float : FloatText} {port : Port} {out : OutFct σ} {maxlen : SizeT}
variable {buffer : σ} {va : List VaArg}

/-- `_vsnprintf` stops at the terminator of its format, whatever lies behind, if the last
specification is complete; otherwise the terminator is the specifier, and the format goes on behind
it. -/
theorem vsnprintf_terminated (hnul : nul ∉ f) :
    (Complete f → ∀ behind, vsnprintf float port out maxlen buffer (f ++ nul :: behind) va =
      vsnprintf float port out maxlen buffer (f ++ [nul]) va) ∧
    (¬ Complete f → ∃ ds s, Specification.specifier s = nul ∧
      f ++ [nul] = formatChars (ds ++ [.conversion s]) ∧ ∀ behind,
        vsnprintf float port out maxlen buffer (f ++ nul :: behind) va =
          ((parseFormat behind).bind fun es =>
            formatText float port (ds ++ .conversion s :: es) va).map
              (finish out maxlen buffer)) := by
  constructor
  · intro h behind
    obtain ⟨ds,hparse⟩ := h.parseFormat hnul
    rw [vsnprintf_finish,vsnprintf_finish,hparse,hparse]
  · intro h
    obtain ⟨ds,s,hspec,hchars,hparse⟩ := ((complete_or_cut f).resolve_left h).parseFormat hnul
    refine ⟨ds,s,hspec,hchars,fun behind => ?_⟩
    rw [vsnprintf_finish,hparse,Option.bind_map]
    rfl

/-- The format `"%-5"` is not complete. -/
theorem vsnprintf_terminated_cut : ∃ ds s, Specification.specifier s = nul ∧
    ['%','-','5'] ++ [nul] = formatChars (ds ++ [.conversion s]) ∧ ∀ behind,
      vsnprintf (fun _ _ _ _ _ => []) .linux outChar (-1) [] (['%','-','5'] ++ nul :: behind) [] =
        ((parseFormat behind).bind fun es =>
          formatText (fun _ _ _ _ _ => []) .linux (ds ++ .conversion s :: es) []).map
            (finish outChar (-1) []) := by
  refine (vsnprintf_terminated (by decide)).2 fun h => ?_
  obtain ⟨ds,hparse⟩ := h.parseFormat (by decide)
  have hnone : parseFormat (['%','-','5'] ++ [nul]) = none := by decide
  cases hnone.symm.trans (hparse [])

end Terminator

end Ods
