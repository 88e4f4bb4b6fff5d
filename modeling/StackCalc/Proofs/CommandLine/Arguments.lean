import StackCalc.CommandLine

namespace StackCalc.CommandLine

section Spellings

variable {path : String}

def IsPath (path : String) : Prop := path = "-" ∨ path.toList.head? ≠ some '-'

instance (path : String) : Decidable (IsPath path) := inferInstanceAs (Decidable (_ ∨ _))

def Argument.Spelling : Argument → String → Prop
  | help, s => s = "--help" ∨ s = "-h"
  | version, s => s = "--version" ∨ s = "-V"
  | showCode, s => s = "--bytecode"
  | showListing, s => s = "--disassemble"
  | noColor, s => s = "--no-color"
  | expression, s => s = "-e"
  | unknown text, s => s = text ∧ ¬IsPath s
  | file path, s => s = path ∧ IsPath s

theorem Argument.spelling_ofString (s : String) : (ofString s).Spelling s := by
  unfold ofString
  split
  case h_9 =>
    split
    · rename_i c cs hs
      have hdash : s ≠ "-" := by
        rintro rfl
        cases hs
      exact ⟨rfl, fun h => h.resolve_left hdash (by rw [hs]; rfl)⟩
    · rename_i hshort
      by_cases hhead : s.toList.head? = some '-'
      · obtain ⟨cs, hs⟩ := List.head?_eq_some_iff.mp hhead
        cases cs with
        | nil => exact ⟨rfl, .inl (String.toList_inj.mp hs)⟩
        | cons c cs => exact absurd hs (hshort c cs)
      · exact ⟨rfl, .inr hhead⟩
  all_goals simp [Spelling]

theorem Argument.spelling_of_ofString {s : String} {a : Argument} (h : ofString s = a) : a.Spelling s :=
  h ▸ spelling_ofString s

theorem Argument.ofString_path (h : IsPath path) : ofString path = .file path := by
  cases harg : ofString path with
  | file p => rw [(spelling_of_ofString harg).1]
  | unknown text => exact absurd h (spelling_of_ofString harg).2
  | help | version => rcases spelling_of_ofString harg with rfl | rfl <;> exact absurd h (by decide)
  | showCode | showListing | noColor | expression =>
    cases spelling_of_ofString harg
    exact absurd h (by decide)

end Spellings

section Switches

variable {flags : List String}

def switches : List String := ["--bytecode", "--disassemble", "--no-color"]

def Invocation.switch (inv : Invocation) (flags : List String) : Invocation :=
  { inv with
    showCode := inv.showCode || flags.contains "--bytecode"
    showListing := inv.showListing || flags.contains "--disassemble"
    noColor := inv.noColor || flags.contains "--no-color" }

theorem parse_cons_switch {flag : String} (hflag : flag ∈ switches) (inv : Invocation) (args : List String) :
    parse inv (flag :: args) = parse (inv.switch [flag]) args := by
  obtain rfl | rfl | rfl : flag = "--bytecode" ∨ flag = "--disassemble" ∨ flag = "--no-color" := by
    simpa [switches] using hflag
  all_goals simp [Invocation.switch, parse, Argument.ofString]

theorem parse_append_switches (hflags : ∀ flag ∈ flags, flag ∈ switches) (inv : Invocation) (args : List String) :
    parse inv (flags ++ args) = parse (inv.switch flags) args := by
  induction flags generalizing inv with
  | nil => simp [Invocation.switch]
  | cons flag flags ih =>
    obtain ⟨hflag, hflags⟩ := List.forall_mem_cons.mp hflags
    rw [List.cons_append, parse_cons_switch hflag, ih hflags]
    simp [Invocation.switch, Bool.or_assoc]

end Switches

section Words

inductive Word where
  | switch (flag : String)
  | expression (source : String)
  | file (path : String)

/-- Words in the order in which an argument list spells them. What stands behind `-e` is an expression, whatever
it looks like. A list with a request for help or the version, an unknown option, or an `-e` at its end spells
no words. -/
inductive Spells : List Word → List String → Prop where
  | nil : Spells [] []
  | switch {flag : String} {words : List Word} {args : List String} : flag ∈ switches →
    Spells words args → Spells (.switch flag :: words) (flag :: args)
  | expression {source : String} {words : List Word} {args : List String} :
    Spells words args → Spells (.expression source :: words) ("-e" :: source :: args)
  | file {path : String} {words : List Word} {args : List String} : IsPath path →
    Spells words args → Spells (.file path :: words) (path :: args)

def Word.input? : Word → Option Input
  | switch _ => none
  | expression source => some (.expression source)
  | file path => some (.file path)

def Word.flag? : Word → Option String
  | switch flag => some flag
  | _ => none

def inputs (words : List Word) : List Input := words.filterMap Word.input?

def flags (words : List Word) : List String := words.filterMap Word.flag?

def Input.isFile : Input → Bool
  | file _ => true
  | _ => false

namespace Invocation

def given (inv : Invocation) : List Input := if inv.input = .session then [] else [inv.input]

def select (inv : Invocation) (input : Input) : Invocation := { inv with input }

def after (inv : Invocation) (words : List Word) : Invocation :=
  (inv.switch (flags words)).select ((inputs words).getLastD inv.input)

end Invocation

variable {words : List Word} {args : List String} {inv inv' : Invocation} {input : Input} {w : Word}

theorem mem_switches_of_spelling {arg : String} {a : Argument} (h : Argument.ofString arg = a)
    (ha : a = .showCode ∨ a = .showListing ∨ a = .noColor) : arg ∈ switches := by
  rcases ha with rfl | rfl | rfl <;> cases Argument.spelling_of_ofString h <;> decide

theorem exists_spells_of_parse (h : parse inv args = .ok inv') : ∃ words, Spells words args := by
  fun_induction parse inv args
  case case1 => exact ⟨[], .nil⟩
  case case4 hflag ih | case5 hflag ih | case6 hflag ih =>
    obtain ⟨words, hwords⟩ := ih h
    exact ⟨_, .switch (mem_switches_of_spelling hflag (by simp)) hwords⟩
  case case8 arg source args harg ih =>
    obtain ⟨words, hwords⟩ := ih h
    cases Argument.spelling_of_ofString harg
    exact ⟨_, .expression hwords⟩
  case case10 arg path args harg _ ih =>
    obtain ⟨words, hwords⟩ := ih h
    exact ⟨_, .file (Argument.spelling_of_ofString harg).2 hwords⟩
  all_goals cases h

theorem parse_cons_expression (inv : Invocation) (source : String) (args : List String) :
    parse inv ("-e" :: source :: args) = parse (inv.select (.expression source)) args := by
  simp [parse, Argument.ofString, Invocation.select]

theorem parse_cons_path {path : String} (h : IsPath path) (inv : Invocation) (args : List String) :
    parse inv (path :: args) = if inv.input = .session then parse (inv.select (.file path)) args
      else .error (.misuse .tooManyInputs) := by
  simp [parse, Argument.ofString_path h, Invocation.select]

theorem given_select (h : w.input? = some input) : (inv.select input).given = [input] := by
  cases w <;> cases h <;> rfl

theorem inputs_cons (h : w.input? = some input) : inputs (w :: words) = input :: inputs words :=
  List.filterMap_cons_some h

theorem after_select (hinput : w.input? = some input) (hflag : w.flag? = none) :
    (inv.select input).after words = inv.after (w :: words) := by
  have hflags : flags (w :: words) = flags words := List.filterMap_cons_none hflag
  rw [Invocation.after, Invocation.after, inputs_cons hinput, hflags, List.getLastD_cons]
  rfl

theorem parse_of_spells (h : Spells words args) (inv : Invocation) : parse inv args =
    if (inv.given ++ inputs words).tail.any Input.isFile then .error (.misuse .tooManyInputs)
    else .ok (inv.after words) := by
  induction h generalizing inv with
  | nil =>
    have htail : (inv.given ++ inputs []).tail = [] := by
      unfold Invocation.given
      split <;> rfl
    rw [htail]
    simp [parse, Invocation.after, Invocation.select, Invocation.switch, flags, inputs]
  | @switch flag words args hflag _ ih =>
    have hafter : (inv.switch [flag]).after words = inv.after (.switch flag :: words) := by
      simp [Invocation.after, Invocation.select, Invocation.switch, flags, inputs, Word.flag?, Word.input?,
        Bool.or_assoc]
    rw [parse_cons_switch hflag, ih, hafter]
    rfl
  | @expression source words args _ ih =>
    -- Whatever has been given before, the files that are refused are those among the words behind it.
    have hfiles : (inv.given ++ inputs (.expression source :: words)).tail.any Input.isFile =
        (inputs words).any Input.isFile := by
      unfold Invocation.given
      split <;> rfl
    rw [parse_cons_expression, ih, given_select (w := .expression source) rfl, hfiles,
      after_select (w := .expression source) rfl rfl]
    rfl
  | @file path words args hpath _ ih =>
    rw [parse_cons_path hpath]
    split
    case isTrue hsession =>
      rw [ih, given_select (w := .file path) rfl, after_select (w := .file path) rfl rfl, Invocation.given,
        if_pos hsession]
      rfl
    case isFalse hinput =>
      rw [Invocation.given, if_neg hinput]
      rfl

section Files

variable {path : String}

theorem any_isFile_iff {is : List Input} : is.any Input.isFile = true ↔ ∃ path, .file path ∈ is := by
  rw [List.any_eq_true]
  constructor
  · rintro ⟨input, hmem, hfile⟩
    cases input with
    | file path => exact ⟨path, hmem⟩
    | _ => cases hfile
  · rintro ⟨path, hmem⟩
    exact ⟨_, hmem, rfl⟩

theorem parse_of_refused (h : Spells words args) (hfile : .file path ∈ (inputs words).tail) :
    parse {} args = .error (.misuse .tooManyInputs) := by
  rw [parse_of_spells h]
  exact if_pos (any_isFile_iff.mpr ⟨path, hfile⟩)

theorem parse_of_accepted (h : Spells words args) (hfile : ∀ path, .file path ∉ (inputs words).tail) :
    parse {} args = .ok (Invocation.after {} words) := by
  rw [parse_of_spells h]
  apply if_neg
  intro hany
  obtain ⟨path, hmem⟩ := any_isFile_iff.mp hany
  exact hfile path hmem

end Files

end Words

end StackCalc.CommandLine
