import StackCalc.Text.Blank

/-!
# Regular expressions

As many as the patterns of tokens need, and the search for a match at the front of a text. Where an expression
matches in more than one way, the left alternative is preferred, and the longest repetition.
-/

namespace StackCalc

inductive CharClass where
  | digit | blank | visible
deriving DecidableEq, Repr

namespace CharClass

def contains : CharClass → Char → Bool
  | digit, c => c.isDigit
  | blank, c => Text.isBlank c
  | visible, c => !Text.isBlank c

def print : CharClass → String
  | digit => "[0-9]"
  | blank => "\\s"
  | visible => "\\S"

end CharClass

/-- A match: its text, and what the groups have captured of that. -/
structure Capture where
  text : List Char
  groups : List (String × List Char) := []
deriving DecidableEq, Repr

namespace Capture

def append (m m' : Capture) : Capture := ⟨m.text ++ m'.text, m.groups ++ m'.groups⟩

def enclose (m : Capture) (name : String) : Capture := { m with groups := (name, m.text) :: m.groups }

def group? (m : Capture) (name : String) : Option (List Char) := m.groups.lookup name

end Capture

inductive Regex where
  | text (cs : List Char)
  | many (s : CharClass)
  | append (a b : Regex)
  | optional (a : Regex)
  | either (a b : Regex)
  | group (name : String) (a : Regex)
deriving Repr

namespace Regex

def alternatives : List Regex → Regex
  | [] => text []
  | [a] => a
  | a :: b :: as => either a (alternatives (b :: as))

def escape (c : Char) : List Char := if c ∈ "\\.+*?()|[]\x7b\x7d^$".toList then ['\\', c] else [c]

def print : Regex → String
  | text cs => .ofList (cs.flatMap escape)
  | many s => s.print ++ "+"
  | append a b => a.print ++ b.print
  | optional a => "(?:" ++ a.print ++ ")?"
  | either a b => "(?:" ++ a.print ++ "|" ++ b.print ++ ")"
  | group name a => "(?P<" ++ name ++ ">" ++ a.print ++ ")"

def searchMany {α : Type} (s : CharClass) : List Char → (List Char → List Char → Option α) → Option α
  | [], _ => none
  | c :: cs, accept =>
    if s.contains c then (searchMany s cs fun text rest => accept (c :: text) rest).or (accept [c] cs) else none

/-- The matches at the front of a text are offered to `accept` one after the other, each with the rest of the text,
until it accepts one. -/
def search {α : Type} : Regex → List Char → (Capture → List Char → Option α) → Option α
  | text t, cs, accept => if t.isPrefixOf cs then accept ⟨t, []⟩ (cs.drop t.length) else none
  | many s, cs, accept => searchMany s cs fun t rest => accept ⟨t, []⟩ rest
  | append a b, cs, accept =>
    a.search cs fun m rest => b.search rest fun m' rest' => accept (m.append m') rest'
  | optional a, cs, accept => (a.search cs accept).or (accept ⟨[], []⟩ cs)
  | either a b, cs, accept => (a.search cs accept).or (b.search cs accept)
  | group name a, cs, accept => a.search cs fun m rest => accept (m.enclose name) rest

def capture? (r : Regex) (cs : List Char) : Option Capture := r.search cs fun m _ => some m

def nullable : Regex → Bool
  | text cs => cs.isEmpty
  | many _ => false
  | append a b => a.nullable && b.nullable
  | optional _ => true
  | either a b => a.nullable || b.nullable
  | group _ a => a.nullable

section Search

variable {α : Type} {s : CharClass} {r : Regex} {cs : List Char} {x : α}

theorem searchMany_eq_some {accept : List Char → List Char → Option α} (h : searchMany s cs accept = some x) :
    ∃ text rest, text ≠ [] ∧ accept text rest = some x := by
  induction cs generalizing accept with
  | nil => cases h
  | cons c cs ih =>
    rw [searchMany] at h
    split at h
    case isFalse => cases h
    case isTrue =>
      rcases Option.or_eq_some_iff.mp h with h | ⟨-, h⟩
      · obtain ⟨text, rest, -, haccept⟩ := ih h
        exact ⟨c :: text, rest, List.cons_ne_nil c text, haccept⟩
      · exact ⟨[c], cs, List.cons_ne_nil c [], h⟩

theorem search_eq_some {accept : Capture → List Char → Option α} (h : r.search cs accept = some x) :
    ∃ m rest, (m.text = [] → r.nullable = true) ∧ accept m rest = some x := by
  induction r generalizing cs accept with
  | text t =>
    rw [search] at h
    split at h
    case isTrue => exact ⟨⟨t, []⟩, _, List.isEmpty_iff.mpr, h⟩
    case isFalse => cases h
  | many s =>
    obtain ⟨text, rest, hne, haccept⟩ := searchMany_eq_some h
    exact ⟨⟨text, []⟩, rest, fun hnil => absurd hnil hne, haccept⟩
  | append a b iha ihb =>
    obtain ⟨m, rest, hm, hb⟩ := iha h
    obtain ⟨m', rest', hm', haccept⟩ := ihb hb
    refine ⟨m.append m', rest', fun hnil => ?_, haccept⟩
    obtain ⟨htext, htext'⟩ := List.append_eq_nil_iff.mp hnil
    rw [nullable, hm htext, hm' htext', Bool.and_self]
  | optional a ih =>
    rcases Option.or_eq_some_iff.mp h with h | ⟨-, h⟩
    · obtain ⟨m, rest, -, haccept⟩ := ih h
      exact ⟨m, rest, fun _ => rfl, haccept⟩
    · exact ⟨⟨[], []⟩, cs, fun _ => rfl, h⟩
  | either a b iha ihb =>
    rcases Option.or_eq_some_iff.mp h with h | ⟨-, h⟩
    · obtain ⟨m, rest, hm, haccept⟩ := iha h
      exact ⟨m, rest, fun hnil => by rw [nullable, hm hnil, Bool.true_or], haccept⟩
    · obtain ⟨m, rest, hm, haccept⟩ := ihb h
      exact ⟨m, rest, fun hnil => by rw [nullable, hm hnil, Bool.or_true], haccept⟩
  | group name a ih =>
    obtain ⟨m, rest, hm, haccept⟩ := ih h
    exact ⟨m.enclose name, rest, hm, haccept⟩

theorem text_ne_nil {m : Capture} (hr : r.nullable = false) (h : r.capture? cs = some m) : m.text ≠ [] := by
  obtain ⟨m', rest, hnull, haccept⟩ := search_eq_some h
  cases haccept
  intro hnil
  exact Bool.false_ne_true (hr.symm.trans (hnull hnil))

end Search

end Regex

end StackCalc
