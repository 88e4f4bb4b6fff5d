import StackCalc.Proofs.CommandLine.Arguments

/-!
# Where switches may stand

A switch may be put anywhere into an argument list, except behind an `-e` that waits for its expression, and any
number of times. It is set, and nothing else changes: the reading ends at the same argument, or at none.
-/

namespace StackCalc.CommandLine

section Halting

variable {arg text : String} {head args : List String} {inv inv' : Invocation} {stop : Stop}

def options : List String := ["--help", "-h", "--version", "-V", "-e"] ++ switches

theorem Argument.ofString_unknown (hpath : ¬IsPath arg) (harg : arg ∉ options) : ofString arg = .unknown arg := by
  cases h : ofString arg with
  | unknown text => rw [(spelling_of_ofString h).1]
  | file path => exact absurd (spelling_of_ofString h).2 hpath
  | help | version => rcases spelling_of_ofString h with rfl | rfl <;> exact absurd harg (by decide)
  | showCode | showListing | noColor | expression =>
    cases spelling_of_ofString h
    exact absurd harg (by decide)

theorem Argument.notMem_options (h : ofString arg = .unknown text) : arg ∉ options := by
  have hknown : ∀ s ∈ options, ofString s ≠ .unknown text := by simp [options, switches, ofString]
  exact fun hmem => hknown arg hmem h

/-- The argument `arg` ends the reading when it is reached with `args` behind it. The arguments in front of it
matter only in that they may have given an input. -/
inductive Halts (inv : Invocation) : String → List String → Stop → Prop where
  | help {arg : String} {args : List String} : arg = "--help" ∨ arg = "-h" → Halts inv arg args .help
  | version {arg : String} {args : List String} : arg = "--version" ∨ arg = "-V" → Halts inv arg args .version
  | missingExpression : Halts inv "-e" [] (.misuse .missingExpression)
  | unknownOption {arg : String} {args : List String} : ¬IsPath arg → arg ∉ options →
    Halts inv arg args (.misuse (.unknownOption arg))
  | tooManyInputs {path : String} {args : List String} : IsPath path → inv.input ≠ .session →
    Halts inv path args (.misuse .tooManyInputs)

theorem Halts.parse_eq (h : Halts inv arg args stop) : parse inv (arg :: args) = .error stop := by
  cases h with
  | help harg | version harg => rcases harg with rfl | rfl <;> simp [parse, Argument.ofString]
  | missingExpression => simp [parse, Argument.ofString]
  | unknownOption hpath harg => simp [parse, Argument.ofString_unknown hpath harg]
  | tooManyInputs hpath hinput => rw [parse_cons_path hpath, if_neg hinput]

theorem Halts.append (h : Halts inv arg args stop) (hwait : ¬(arg = "-e" ∧ args = [])) (more : List String) :
    Halts inv arg (args ++ more) stop := by
  cases h with
  | help harg => exact .help harg
  | version harg => exact .version harg
  | missingExpression => exact absurd ⟨rfl, rfl⟩ hwait
  | unknownOption hpath harg => exact .unknownOption hpath harg
  | tooManyInputs hpath hinput => exact .tooManyInputs hpath hinput

theorem parse_append (h : parse inv args = .ok inv') (more : List String) :
    parse inv (args ++ more) = parse inv' more := by
  fun_induction parse inv args
  case case1 =>
    cases h
    rfl
  case case4 harg ih | case5 harg ih | case6 harg ih | case8 harg ih =>
    simpa only [List.cons_append, parse, harg] using ih h
  case case10 harg hinput ih =>
    obtain ⟨rfl, hpath⟩ := Argument.spelling_of_ofString harg
    rw [List.cons_append, parse_cons_path hpath, if_pos hinput]
    exact ih h
  all_goals cases h

def HaltsWithin (inv : Invocation) (args : List String) (stop : Stop) : Prop :=
  ∃ before arg after inv', args = before ++ arg :: after ∧ parse inv before = .ok inv' ∧ Halts inv' arg after stop

theorem Halts.within (h : Halts inv arg args stop) : HaltsWithin inv (arg :: args) stop :=
  ⟨[], arg, args, inv, rfl, rfl, h⟩

theorem HaltsWithin.prepend (hhead : parse inv head = .ok inv') (h : HaltsWithin inv' args stop) :
    HaltsWithin inv (head ++ args) stop := by
  obtain ⟨before, arg, after, inv₁, rfl, hbefore, hhalts⟩ := h
  have hall : parse inv (head ++ before) = .ok inv₁ := (parse_append hhead before).trans hbefore
  exact ⟨head ++ before, arg, after, inv₁, (List.append_assoc ..).symm, hall, hhalts⟩

theorem haltsWithin_of_parse (h : parse inv args = .error stop) : HaltsWithin inv args stop := by
  fun_induction parse inv args
  case case1 => cases h
  case case2 inv arg args harg =>
    cases h
    exact Halts.within (.help (Argument.spelling_of_ofString harg))
  case case3 inv arg args harg =>
    cases h
    exact Halts.within (.version (Argument.spelling_of_ofString harg))
  case case4 inv arg args harg ih | case5 inv arg args harg ih | case6 inv arg args harg ih =>
    refine (ih h).prepend (?_ : parse inv [arg] = _)
    simp only [parse, harg]
  case case7 inv arg harg =>
    cases h
    cases Argument.spelling_of_ofString harg
    exact Halts.within .missingExpression
  case case8 inv arg source args harg ih =>
    cases Argument.spelling_of_ofString harg
    exact (ih h).prepend (parse_cons_expression inv source [])
  case case9 inv arg args text harg =>
    cases h
    obtain ⟨rfl, hpath⟩ := Argument.spelling_of_ofString harg
    exact Halts.within (.unknownOption hpath (Argument.notMem_options harg))
  case case10 inv arg path args harg hinput ih =>
    obtain ⟨rfl, hpath⟩ := Argument.spelling_of_ofString harg
    exact (ih h).prepend ((parse_cons_path hpath inv []).trans (if_pos hinput))
  case case11 inv arg path args harg hinput =>
    cases h
    obtain ⟨rfl, hpath⟩ := Argument.spelling_of_ofString harg
    exact Halts.within (.tooManyInputs hpath hinput)

theorem parse_eq_error_iff : parse inv args = .error stop ↔ HaltsWithin inv args stop := by
  constructor
  · exact haltsWithin_of_parse
  · rintro ⟨before, arg, after, inv', rfl, hbefore, hhalts⟩
    rw [parse_append hbefore, hhalts.parse_eq]

end Halting

section Insertion

variable {p q : List String} {flag : String} {inv inv' : Invocation} {stop : Stop}

/-- The arguments end in an `-e` that the reading gets to, and that has no expression yet. -/
def Waits (p : List String) : Prop := ∃ args inv, p = args ++ ["-e"] ∧ parse {} args = .ok inv

theorem Waits.parse_append (h : Waits p) : ∃ inv : Invocation,
    parse {} p = .error (.misuse .missingExpression) ∧
      ∀ source q, parse {} (p ++ source :: q) = parse (inv.select (.expression source)) q := by
  obtain ⟨args, inv, rfl, hargs⟩ := h
  refine ⟨inv, (parse_append hargs _).trans Halts.missingExpression.parse_eq, fun source q => ?_⟩
  rw [List.append_assoc, CommandLine.parse_append hargs]
  exact parse_cons_expression inv source q

theorem parse_append_of_error (hwait : ¬Waits p) (h : parse {} p = .error stop) (q : List String) :
    parse {} (p ++ q) = .error stop := by
  obtain ⟨before, arg, after, inv, rfl, hbefore, hhalts⟩ := haltsWithin_of_parse h
  have hvalue : ¬(arg = "-e" ∧ after = []) := by
    rintro ⟨rfl, rfl⟩
    exact hwait ⟨before, inv, rfl, hbefore⟩
  exact parse_eq_error_iff.mpr
    ⟨before, arg, after ++ q, inv, List.append_assoc .., hbefore, hhalts.append hvalue q⟩

theorem parse_switch (inv : Invocation) (flags args : List String) :
    parse (inv.switch flags) args = (parse inv args).map (·.switch flags) := by
  fun_induction parse inv args
  case case1 => rfl
  case case4 harg ih | case5 harg ih | case6 harg ih | case8 harg ih =>
    simp only [parse, harg]
    exact ih
  case case10 harg hinput ih =>
    obtain ⟨rfl, hpath⟩ := Argument.spelling_of_ofString harg
    exact (parse_cons_path hpath _ _).trans ((if_pos hinput).trans ih)
  case case11 harg hinput =>
    obtain ⟨rfl, hpath⟩ := Argument.spelling_of_ofString harg
    exact (parse_cons_path hpath _ _).trans (if_neg hinput)
  case case9 harg =>
    obtain ⟨rfl, hpath⟩ := Argument.spelling_of_ofString harg
    exact (Halts.unknownOption hpath (Argument.notMem_options harg)).parse_eq
  case case2 harg | case3 harg | case7 harg =>
    simp only [parse, harg]
    rfl

theorem parse_insert_switch (hwait : ¬Waits p) (hflag : flag ∈ switches) (q : List String) :
    parse {} (p ++ [flag] ++ q) = (parse {} (p ++ q)).map (·.switch [flag]) := by
  rw [List.append_assoc, List.singleton_append]
  cases h : parse {} p with
  | error stop =>
    rw [parse_append_of_error hwait h, parse_append_of_error hwait h]
    rfl
  | ok inv => rw [parse_append h, parse_append h, parse_cons_switch hflag, parse_switch]

theorem parsed_of_spells {words : List Word} (hwords : Spells words p) (h : parse {} p = .ok inv) :
    inv = { input := inv.input
            showCode := (flags words).contains "--bytecode"
            showListing := (flags words).contains "--disassemble"
            noColor := (flags words).contains "--no-color" } := by
  rw [parse_of_spells hwords] at h
  split at h
  · cases h
  · cases h
    simp only [Invocation.after, Invocation.select, Invocation.switch, Bool.false_or]

end Insertion

theorem switches_anywhere (colored : Bool) (readFile : String → Except ReadError (List UInt8))
    (stdin : List UInt8) :
    (∀ p flag q, ¬Waits p → flag ∈ switches →
      parse {} (p ++ [flag] ++ q) = (parse {} (p ++ q)).map (·.switch [flag]) ∧
        ∀ stop, parse {} (p ++ q) = .error stop → run colored readFile stdin (p ++ q) = stop.outcome ∧
          run colored readFile stdin (p ++ [flag] ++ q) = stop.outcome) ∧
    (∀ args inv, parse {} args = .ok inv → (∃ words, Spells words args) ∧ ∀ words, Spells words args →
      inv = { input := inv.input
              showCode := (flags words).contains "--bytecode"
              showListing := (flags words).contains "--disassemble"
              noColor := (flags words).contains "--no-color" }) ∧
    ∀ args stop, parse {} args = .error stop ↔ HaltsWithin {} args stop := by
  refine ⟨fun p flag q hwait hflag => ?_, fun args inv h => ?_, fun args stop => parse_eq_error_iff⟩
  · have hinsert := parse_insert_switch hwait hflag q
    refine ⟨hinsert, fun stop hstop => ?_⟩
    have hsame : parse {} (p ++ [flag] ++ q) = .error stop := by
      rw [hinsert, hstop]
      rfl
    exact ⟨by rw [run, hstop], by rw [run, hsame]⟩
  · exact ⟨exists_spells_of_parse h, fun words hwords => parsed_of_spells hwords h⟩

/-- The second `-e` is the expression of the first. -/
theorem switches_anywhere_expression : let p := ["-e", "-e"]
    let q := ["x", "--version"]
    ¬Waits p ∧ "--no-color" ∈ switches ∧
      parse {} (p ++ ["--no-color"]) = .ok ⟨.expression "-e", false, false, true⟩ ∧
      parse {} (p ++ ["--no-color"] ++ q) = .error (.misuse .tooManyInputs) ∧
      HaltsWithin {} (p ++ q) (.misuse .tooManyInputs) := by
  intro p q
  have hwait : ¬Waits p := by
    rintro ⟨args, inv, hp, hargs⟩
    obtain rfl : ["-e"] = args := List.append_cancel_right (show ["-e"] ++ ["-e"] = args ++ ["-e"] from hp)
    cases hargs.symm.trans Halts.missingExpression.parse_eq
  have hflag : "--no-color" ∈ switches := by decide
  have hread : parse {} p = .ok ⟨.expression "-e", false, false, false⟩ := parse_cons_expression {} "-e" []
  have hrefused : parse {} (p ++ q) = .error (.misuse .tooManyInputs) :=
    parse_eq_error_iff.mpr ⟨p, "x", ["--version"], _, rfl, hread, .tooManyInputs (by decide) nofun⟩
  obtain ⟨hinsert, -, hfirst⟩ := switches_anywhere true (fun _ => .error .notFound) []
  refine ⟨hwait, hflag, ?_, ?_, (hfirst _ _).mp hrefused⟩
  · have hparse := (hinsert p "--no-color" [] hwait hflag).1
    rw [List.append_nil, List.append_nil, hread] at hparse
    exact hparse
  · rw [(hinsert p "--no-color" q hwait hflag).1, hrefused]
    rfl

end StackCalc.CommandLine
