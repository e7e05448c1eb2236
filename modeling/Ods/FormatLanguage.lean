import Ods.PrintfText
import Ods.Scanner
import Mathlib.Data.List.TakeWhile

/-! The language of formats: literal characters and conversion specifications, as they are written
and as they are read. `_vsnprintf` reads a format exactly as its directives, and prints what they
mean one after the other. -/
namespace Ods
open Emission Scanner

inductive Field where
  | absent
  | digits (ds : List Char)
  | star
  deriving DecidableEq, Repr

inductive LengthField where
  | absent | l | ll | h | hh | t | j | z
  deriving DecidableEq, Repr

/-- `%[flags][width][.precision][length]specifier`; the outer `none` of the precision is a missing
point. -/
structure Specification where
  flags : List Char
  width : Field
  precision : Option Field
  length : LengthField
  specifier : Char
  deriving DecidableEq, Repr

inductive Directive where
  | literal (c : Char)
  | conversion (s : Specification)
  deriving DecidableEq, Repr

section Written

def Field.chars : Field → List Char
  | .absent => []
  | .digits ds => ds
  | .star => ['*']

def precisionChars : Option Field → List Char
  | none => []
  | some f => '.' :: f.chars

def LengthField.chars : LengthField → List Char
  | .absent => []
  | .l => ['l']
  | .ll => ['l','l']
  | .h => ['h']
  | .hh => ['h','h']
  | .t => ['t']
  | .j => ['j']
  | .z => ['z']

def Specification.chars (s : Specification) : List Char :=
  s.flags ++ (s.width.chars ++ (precisionChars s.precision ++ (s.length.chars ++ [s.specifier])))

def Directive.chars : Directive → List Char
  | .literal c => [c]
  | .conversion s => '%' :: s.chars

def formatChars (ds : List Directive) : List Char := ds.flatMap Directive.chars

end Written

section Read

def isFlag (c : Char) : Bool := c ∈ ['0','-','+',' ','#']

def Field.Ends (rest : List Char) : Field → Prop
  | .absent => Stops (fun c => isDigit c || c = '*') rest
  | .digits ds => ds ≠ [] ∧ (∀ d ∈ ds, isDigit d = true) ∧ Stops isDigit rest
  | .star => True

def PrecisionEnds (rest : List Char) : Option Field → Prop
  | none => Stops (· = '.') rest
  | some f => f.Ends rest

def LengthField.Ends (rest : List Char) : LengthField → Prop
  | .absent => Stops (· ∈ ['l','h','t','j','z']) rest
  | .l => Stops (· = 'l') rest
  | .h => Stops (· = 'h') rest
  | _ => True

/-- No field is continued by what is written after it. -/
structure Specification.WellFormed (s : Specification) : Prop where
  flags : (∀ c ∈ s.flags, isFlag c = true) ∧
    Stops isFlag (s.width.chars ++ (precisionChars s.precision ++ (s.length.chars ++ [s.specifier])))
  width : s.width.Ends (precisionChars s.precision ++ (s.length.chars ++ [s.specifier]))
  precision : PrecisionEnds (s.length.chars ++ [s.specifier]) s.precision
  length : s.length.Ends [s.specifier]

def Directive.Ends : Directive → Prop
  | .literal c => c ≠ '%'
  | .conversion s => s.WellFormed

def Directive.WellFormed (d : Directive) : Prop := d.Ends ∧ d ≠ .literal nul

def Field.scan : Scan Char Field
  | [] => none
  | c :: cs =>
    if isDigit c then (longest isDigit (c :: cs)).map fun (ds,rest) => (.digits ds,rest)
    else if c = '*' then some (.star,cs)
    else some (.absent,c :: cs)

def scanPrecision : Scan Char (Option Field)
  | [] => none
  | c :: cs =>
    if c = '.' then (Field.scan cs).map fun (f,rest) => (some f,rest) else some (none,c :: cs)

def scanTwice (c : Char) (once twice : LengthField) : Scan Char LengthField
  | [] => none
  | c' :: cs => if c' = c then some (twice,cs) else some (once,c' :: cs)

def LengthField.scan : Scan Char LengthField
  | [] => none
  | c :: cs =>
    if c = 'l' then scanTwice 'l' .l .ll cs
    else if c = 'h' then scanTwice 'h' .h .hh cs
    else if c = 't' then some (.t,cs)
    else if c = 'j' then some (.j,cs)
    else if c = 'z' then some (.z,cs)
    else some (.absent,c :: cs)

def specificationFields :
    List Char × Field × Option Field × LengthField × Char ≃ Specification where
  toFun x := ⟨x.1,x.2.1,x.2.2.1,x.2.2.2.1,x.2.2.2.2⟩
  invFun s := (s.flags,s.width,s.precision,s.length,s.specifier)
  left_inv _ := rfl
  right_inv _ := rfl

def Specification.scan : Scan Char Specification := fun cs =>
  (andThen (longest isFlag) (andThen Field.scan (andThen scanPrecision
    (andThen LengthField.scan element))) cs).map fun (x,rest) => (specificationFields x,rest)

def Directive.scan : Scan Char Directive
  | [] => none
  | c :: cs =>
    if c ≠ '%' then some (.literal c,cs)
    else (Specification.scan cs).map fun (s,rest) => (.conversion s,rest)

def parseFormat (format : List Char) : Option (List Directive) :=
  (items (· = nul) Directive.scan format.length format).map Prod.fst

theorem reads_field : Reads Field.scan Field.chars fun f rest => f.Ends rest := by
  refine .of_both (fun f rest h => ?_) fun cs f rest h => ?_
  · cases f with
    | absent =>
      obtain ⟨c,r,rfl,hc⟩ := h.exists_cons
      simp only [Bool.or_eq_false_iff,decide_eq_false_iff_not] at hc
      simp [Field.chars,Field.scan,hc]
    | digits ds =>
      obtain ⟨hne,hall,hs⟩ := h
      have hread := (reads_longest _ _ _).mpr ⟨rfl,hall,hs⟩
      obtain ⟨d,ds,rfl⟩ := List.exists_cons_of_ne_nil hne
      have hd := hall d List.mem_cons_self
      rw [Field.chars,List.cons_append,Field.scan,if_pos hd,← List.cons_append,hread]
      rfl
    | star => rfl
  · cases cs with
    | nil => cases h
    | cons c cs =>
      rw [Field.scan] at h
      split at h
      · rename_i hd
        obtain ⟨⟨ds,r⟩,hr,he⟩ := Option.map_eq_some_iff.mp h
        cases he
        obtain ⟨he,hall,hs⟩ := (reads_longest _ _ _).mp hr
        refine ⟨he,?_,hall,hs⟩
        rintro rfl
        rw [← show c :: cs = rest from he,stops_cons,hd] at hs
        cases hs
      · rename_i hd
        split at h
        · rename_i hc
          cases h
          exact ⟨by rw [hc]; rfl,trivial⟩
        · rename_i hc
          cases h
          exact ⟨rfl,stops_cons.mpr (by simp [hd,hc])⟩

theorem reads_precision : Reads scanPrecision precisionChars fun f rest => PrecisionEnds rest f := by
  refine .of_both (fun f rest h => ?_) fun cs f rest h => ?_
  · cases f with
    | none =>
      obtain ⟨c,r,rfl,hc⟩ := h.exists_cons
      simpa [precisionChars,scanPrecision] using hc
    | some f =>
      have hread := (reads_field _ _ _).mpr ⟨rfl,h⟩
      simp [precisionChars,scanPrecision,hread]
  · cases cs with
    | nil => cases h
    | cons c cs =>
      rw [scanPrecision] at h
      split at h
      · rename_i hc
        obtain ⟨⟨g,r⟩,hr,he⟩ := Option.map_eq_some_iff.mp h
        cases he
        obtain ⟨rfl,hends⟩ := (reads_field _ _ _).mp hr
        exact ⟨by rw [hc]; rfl,hends⟩
      · rename_i hc
        cases h
        exact ⟨rfl,stops_cons.mpr (by simp [hc])⟩

theorem scanTwice_eq_some {c : Char} {once twice x : LengthField} {cs rest : List Char}
    (h : scanTwice c once twice cs = some (x,rest)) :
    x = twice ∧ cs = c :: rest ∨ x = once ∧ cs = rest ∧ Stops (· = c) rest := by
  cases cs with
  | nil => cases h
  | cons c' cs =>
    rw [scanTwice] at h
    split at h
    · rename_i hc
      cases h
      exact .inl ⟨rfl,by rw [hc]⟩
    · rename_i hc
      cases h
      exact .inr ⟨rfl,rfl,stops_cons.mpr (by simp [hc])⟩

theorem reads_length : Reads LengthField.scan LengthField.chars fun f rest => f.Ends rest := by
  refine .of_both (fun f rest h => ?_) fun cs f rest h => ?_
  · cases f with
    | absent | l | h =>
      obtain ⟨c,r,rfl,hc⟩ := h.exists_cons
      simp at hc
      simp [LengthField.chars,LengthField.scan,scanTwice,hc]
    | _ => rfl
  · cases cs with
    | nil => cases h
    | cons c cs =>
      rw [LengthField.scan] at h
      split at h
      · rename_i hc
        subst hc
        rcases scanTwice_eq_some h with ⟨rfl,rfl⟩ | ⟨rfl,rfl,hs⟩
        · exact ⟨rfl,trivial⟩
        · exact ⟨rfl,hs⟩
      · split at h
        · rename_i hc
          subst hc
          rcases scanTwice_eq_some h with ⟨rfl,rfl⟩ | ⟨rfl,rfl,hs⟩
          · exact ⟨rfl,trivial⟩
          · exact ⟨rfl,hs⟩
        · repeat' split at h
          all_goals
            cases h
            refine ⟨by simp_all [LengthField.chars],?_⟩
            first
              | trivial
              | exact stops_cons.mpr (by simp_all)

theorem Field.ends_append {f : Field} {cs rest : List Char} (h : cs ≠ []) :
    f.Ends (cs ++ rest) ↔ f.Ends cs := by
  cases f <;> simp only [Field.Ends,stops_append h]

theorem precisionEnds_append {f : Option Field} {cs rest : List Char} (h : cs ≠ []) :
    PrecisionEnds (cs ++ rest) f ↔ PrecisionEnds cs f := by
  cases f <;> simp only [PrecisionEnds,stops_append h,Field.ends_append h]

theorem LengthField.ends_append {f : LengthField} {cs rest : List Char} (h : cs ≠ []) :
    f.Ends (cs ++ rest) ↔ f.Ends cs := by
  cases f <;> simp only [LengthField.Ends,stops_append h]

theorem reads_specification :
    Reads Specification.scan Specification.chars fun s _ => s.WellFormed := by
  have hfields := reads_longest (p := isFlag).andThen (reads_field.andThen
    (reads_precision.andThen (reads_length.andThen reads_element)))
  refine (hfields.convert specificationFields).congr fun s rest => ?_
  have hlast : s.length.chars ++ [s.specifier] ≠ [] := by simp
  have hprec : precisionChars s.precision ++ (s.length.chars ++ [s.specifier]) ≠ [] := by simp
  have hwidth : s.width.chars ++
      (precisionChars s.precision ++ (s.length.chars ++ [s.specifier])) ≠ [] := by simp
  simp only [specificationFields,Equiv.coe_fn_symm_mk,and_true,stops_append hwidth,
    Field.ends_append hprec,precisionEnds_append hlast,
    LengthField.ends_append (List.cons_ne_nil s.specifier [])]
  constructor
  · rintro ⟨hf,hw,hp,hl⟩
    exact ⟨hf,hw,hp,hl⟩
  · rintro ⟨hf,hw,hp,hl⟩
    exact ⟨hf,hw,hp,hl⟩

theorem reads_directive : Reads Directive.scan Directive.chars fun d _ => d.Ends := by
  refine .of_both (fun d rest h => ?_) fun cs d rest h => ?_
  · cases d with
    | literal c =>
      have hc : c ≠ '%' := h
      simp [Directive.chars,Directive.scan,hc]
    | conversion s =>
      have hs : s.WellFormed := h
      have hread := (reads_specification (s.chars ++ rest) s rest).mpr ⟨rfl,hs⟩
      simp [Directive.chars,Directive.scan,hread]
  · cases cs with
    | nil => cases h
    | cons c cs =>
      rw [Directive.scan] at h
      split at h
      · rename_i hc
        cases h
        exact ⟨rfl,hc⟩
      · rename_i hc
        obtain ⟨⟨s,r⟩,hr,he⟩ := Option.map_eq_some_iff.mp h
        cases he
        obtain ⟨rfl,hs⟩ := (reads_specification _ _ _).mp hr
        exact ⟨by rw [not_not.mp hc]; rfl,hs⟩

theorem Directive.begins_iff {d : Directive} :
    Begins (· = nul) Directive.chars d ↔ d ≠ .literal nul := by
  cases d with
  | literal c => simp [Begins,Directive.chars]
  | conversion s => simp [Begins,Directive.chars,nul]

/-- What lies behind the terminator does not matter. -/
theorem parseFormat_written {format : List Char} {ds : List Directive} :
    parseFormat format = some ds ↔
      (∀ d ∈ ds, d.WellFormed) ∧ ∃ behind, format = formatChars ds ++ nul :: behind := by
  have hne : ∀ d : Directive, d.chars ≠ [] := by
    intro d
    cases d <;> exact List.cons_ne_nil _ _
  have hread (rest : List Char) : items (· = nul) Directive.scan format.length format =
      some (ds,rest) ↔ format = formatChars ds ++ rest ∧ (∀ d ∈ ds, d.WellFormed) ∧
        ∃ c ∈ rest.head?, decide (c = nul) = true := by
    simp only [reads_items reads_directive (fun d _ => hne d) le_rfl,Directive.begins_iff,
      formatChars,Directive.WellFormed]
  unfold parseFormat
  rw [Option.map_eq_some_iff]
  constructor
  · rintro ⟨⟨ds',rest⟩,hr,rfl⟩
    obtain ⟨he,hall,c,hc,hnul⟩ := (hread rest).mp hr
    cases rest with
    | nil => cases hc
    | cons b behind =>
      cases hc
      refine ⟨hall,behind,?_⟩
      rw [he,of_decide_eq_true hnul]
  · rintro ⟨hall,behind,he⟩
    exact ⟨(ds,nul :: behind),(hread _).mpr ⟨he,hall,nul,rfl,by simp⟩,rfl⟩

end Read

section Terminated
variable {s t behind : List Char} {d : Directive} {ds : List Directive} {format : List Char}

def beforeNul (s : List Char) : List Char := s.takeWhile (· ≠ nul)

theorem beforeNul_cons {c : Char} (hc : c ≠ nul) : beforeNul (c :: s) = c :: beforeNul s :=
  List.takeWhile_cons_of_pos (decide_eq_true hc)

theorem beforeNul_nul : beforeNul (nul :: s) = [] := rfl

theorem ne_nul_of_mem_beforeNul {c : Char} (h : c ∈ beforeNul s) : c ≠ nul := by
  have hc : decide (c ≠ nul) = true := List.mem_takeWhile_imp (p := fun c => c ≠ nul) h
  exact of_decide_eq_true hc

theorem beforeNul_append : beforeNul (t ++ nul :: behind) = beforeNul t := by
  induction t with
  | nil => rfl
  | cons c t ih =>
    by_cases hc : c = nul
    · subst hc
      rfl
    · rw [List.cons_append,beforeNul_cons hc,beforeNul_cons hc,ih]

theorem beforeNul_of_not_mem (h : nul ∉ t) : beforeNul t = t := by
  refine List.takeWhile_eq_self_iff.mpr fun c hc => decide_eq_true ?_
  rintro rfl
  exact h hc

theorem exists_beforeNul (h : nul ∈ s) : ∃ behind, s = beforeNul s ++ nul :: behind := by
  induction s with
  | nil => simp at h
  | cons c s ih =>
    by_cases hc : c = nul
    · subst hc
      exact ⟨s,rfl⟩
    · obtain ⟨behind,hs⟩ := ih ((List.mem_cons.mp h).resolve_left (Ne.symm hc))
      refine ⟨behind,?_⟩
      rw [beforeNul_cons hc,List.cons_append,← hs]

/-- A conversion that takes the terminator for its specifier. -/
def Directive.CutOff : Directive → Prop
  | .literal _ => False
  | .conversion s => s.specifier = nul

theorem nul_not_mem_field {f : Field} {rest : List Char} (h : f.Ends rest) : nul ∉ f.chars := by
  cases f with
  | absent => simp [Field.chars]
  | digits ds =>
    intro hmem
    cases h.2.1 nul hmem
  | star => decide

theorem nul_not_mem_precision {f : Option Field} {rest : List Char} (h : PrecisionEnds rest f) :
    nul ∉ precisionChars f := by
  cases f with
  | none => simp [precisionChars]
  | some f =>
    have hf : nul ∉ f.chars := nul_not_mem_field h
    have hpoint : nul ≠ '.' := by decide
    simp [precisionChars,hf,hpoint]

theorem nul_not_mem_length {f : LengthField} : nul ∉ f.chars := by
  cases f <;> decide

/-- Of the fields of a specification only the specifier can be a NUL. -/
theorem Specification.nul_mem_chars {s : Specification} (h : s.WellFormed) :
    nul ∈ s.chars ↔ s.specifier = nul := by
  have hflags : nul ∉ s.flags := by
    intro hmem
    cases h.flags.1 nul hmem
  simp only [Specification.chars,List.mem_append,List.mem_singleton,hflags,
    nul_not_mem_field h.width,nul_not_mem_precision h.precision,nul_not_mem_length,false_or]
  exact eq_comm

theorem Directive.nul_mem_chars (h : d.WellFormed) : nul ∈ d.chars ↔ d.CutOff := by
  obtain ⟨hends,hlit⟩ := h
  cases d with
  | literal c =>
    have hc : nul ≠ c := by
      rintro rfl
      exact hlit rfl
    simp [Directive.chars,Directive.CutOff,hc]
  | conversion s =>
    have hpercent : nul ≠ '%' := by decide
    rw [Directive.chars,List.mem_cons,or_iff_right hpercent,Specification.nul_mem_chars hends]
    rfl

theorem nul_not_mem_formatChars (h : ∀ d ∈ ds, d.WellFormed) :
    nul ∉ formatChars ds ↔ ∀ d ∈ ds, ¬ d.CutOff := by
  simp only [formatChars,List.mem_flatMap,not_exists,not_and]
  refine forall₂_congr fun d hd => ?_
  rw [Directive.nul_mem_chars (h d hd)]

/-- A format is read as directives exactly where they stand written, each of them complete, with
the terminator after them. A conversion that is cut off takes a NUL for its specifier; without
one the directives are all that stands before the first NUL. -/
theorem parseFormat_eq_some_iff :
    (parseFormat format = some ds ↔
      (∀ d ∈ ds, d.WellFormed) ∧ ∃ behind, format = formatChars ds ++ nul :: behind) ∧
    (parseFormat format = some ds ∧ (∀ d ∈ ds, ¬ d.CutOff) ↔
      (∀ d ∈ ds, d.WellFormed) ∧ nul ∈ format ∧ formatChars ds = beforeNul format) := by
  refine ⟨parseFormat_written,?_⟩
  rw [parseFormat_written]
  constructor
  · rintro ⟨⟨hall,behind,rfl⟩,hcut⟩
    have hnul := (nul_not_mem_formatChars hall).mpr hcut
    exact ⟨hall,by simp,by rw [beforeNul_append,beforeNul_of_not_mem hnul]⟩
  · rintro ⟨hall,hmem,hchars⟩
    obtain ⟨behind,hformat⟩ := exists_beforeNul hmem
    refine ⟨⟨hall,behind,by rw [hchars,← hformat]⟩,(nul_not_mem_formatChars hall).mp ?_⟩
    rw [hchars]
    exact fun h => ne_nul_of_mem_beforeNul h rfl

end Terminated

end Ods
