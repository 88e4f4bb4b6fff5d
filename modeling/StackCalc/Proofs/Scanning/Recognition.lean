import StackCalc.Proofs.Scanning.Choice

/-!
# What the recognizer finds

A search goes through the ways in which an expression matches, from the one that is preferred most. For the pattern
of a kind that one is the text that the kind finds. So the recognizer captures the text of the first kind that finds
one, in the group of that kind and in no other.
-/

namespace StackCalc

def Capture.ofText? (text : List Char) : Option Capture := if text = [] then none else some ⟨text, []⟩

namespace Regex

def runs (s : CharClass) : List Char → List (List Char × List Char)
  | [] => []
  | c :: cs => if s.contains c then (runs s cs).map (fun w => (c :: w.1, w.2)) ++ [([c], cs)] else []

/-- The ways to match at the front of a text, in the order of preference, each with the rest of the text. -/
def ways : Regex → List Char → List (Capture × List Char)
  | text t, cs => if t.isPrefixOf cs then [(⟨t, []⟩, cs.drop t.length)] else []
  | many s, cs => (runs s cs).map fun w => (⟨w.1, []⟩, w.2)
  | append a b, cs => (a.ways cs).flatMap fun w => (b.ways w.2).map fun w' => (w.1.append w'.1, w'.2)
  | optional a, cs => a.ways cs ++ [(⟨[], []⟩, cs)]
  | either a b, cs => a.ways cs ++ b.ways cs
  | group name a, cs => (a.ways cs).map fun w => (w.1.enclose name, w.2)

section Order

variable {α : Type} {s : CharClass} {r : Regex} {cs : List Char}

theorem searchMany_eq_findSome? (s : CharClass) (cs : List Char) (accept : List Char → List Char → Option α) :
    searchMany s cs accept = (runs s cs).findSome? fun w => accept w.1 w.2 := by
  induction cs generalizing accept with
  | nil => rfl
  | cons c cs ih =>
    rw [searchMany, runs]
    split
    case isFalse => rfl
    case isTrue =>
      rw [List.findSome?_append, List.findSome?_map, ih, List.findSome?_singleton]
      rfl

theorem findSome?_flatMap {β γ : Type} (f : β → List γ) (g : γ → Option α) (l : List β) :
    (l.flatMap f).findSome? g = l.findSome? fun x => (f x).findSome? g := by
  induction l with
  | nil => rfl
  | cons x l ih =>
    rw [List.flatMap_cons, List.findSome?_append, ih, List.findSome?_cons]
    cases (f x).findSome? g <;> rfl

theorem search_eq_findSome? (r : Regex) (cs : List Char) (accept : Capture → List Char → Option α) :
    r.search cs accept = (r.ways cs).findSome? fun w => accept w.1 w.2 := by
  induction r generalizing cs accept with
  | text t =>
    rw [search, ways]
    split
    case isTrue => exact (List.findSome?_singleton ..).symm
    case isFalse => rfl
  | many s =>
    rw [search, ways, searchMany_eq_findSome?, List.findSome?_map]
    rfl
  | append a b iha ihb =>
    simp only [search, ways, iha, ihb, findSome?_flatMap, List.findSome?_map]
    rfl
  | optional a ih => rw [search, ways, ih, List.findSome?_append, List.findSome?_singleton]
  | either a b iha ihb => rw [search, ways, iha, ihb, List.findSome?_append]
  | group name a ih =>
    rw [search, ways, ih, List.findSome?_map]
    rfl

theorem capture?_eq_head? (r : Regex) (cs : List Char) : r.capture? cs = (r.ways cs).head?.map Prod.fst := by
  rw [capture?, search_eq_findSome?]
  cases r.ways cs <;> rfl

theorem capture?_group (name : String) (r : Regex) (cs : List Char) :
    (group name r).capture? cs = (r.capture? cs).map (·.enclose name) := by
  rw [capture?_eq_head?, capture?_eq_head?, ways, List.head?_map, Option.map_map, Option.map_map]
  rfl

theorem capture?_alternatives {rs : List Regex} (h : rs ≠ []) (cs : List Char) :
    (alternatives rs).capture? cs = rs.findSome? (·.capture? cs) := by
  induction rs with
  | nil => exact absurd rfl h
  | cons r rs ih =>
    cases rs with
    | nil => exact (List.findSome?_singleton ..).symm
    | cons r' rs =>
      rw [List.findSome?_cons, ← ih (List.cons_ne_nil r' rs)]
      change (r.capture? cs).or ((alternatives (r' :: rs)).capture? cs) = _
      cases r.capture? cs <;> rfl

end Order

section First

variable {s : CharClass} {cs : List Char}

theorem head?_runs (s : CharClass) (cs : List Char) : (runs s cs).head? =
    if cs.takeWhile s.contains = [] then none else some (cs.takeWhile s.contains, cs.dropWhile s.contains) := by
  induction cs with
  | nil => rfl
  | cons c cs ih =>
    rw [runs]
    split
    case isFalse h => simp [h]
    case isTrue h =>
      rw [List.takeWhile_cons_of_pos h, List.dropWhile_cons_of_pos h, if_neg (List.cons_ne_nil c _), List.head?_append,
        List.head?_map, ih]
      split
      case isTrue hnil =>
        have hcs := List.takeWhile_append_dropWhile (p := s.contains) (l := cs)
        rw [hnil, List.nil_append] at hcs
        rw [hnil, hcs]
        rfl
      case isFalse => rfl

theorem capture?_many (s : CharClass) (cs : List Char) :
    (many s).capture? cs = Capture.ofText? (cs.takeWhile s.contains) := by
  rw [capture?_eq_head?, ways, List.head?_map, head?_runs, Capture.ofText?]
  split <;> rfl

theorem capture?_optional (r : Regex) (cs : List Char) :
    (optional r).capture? cs = some ((r.capture? cs).getD ⟨[], []⟩) := by
  change (r.capture? cs).or (some ⟨[], []⟩) = _
  cases r.capture? cs <;> rfl

theorem capture?_text_append (t : List Char) (r : Regex) (cs : List Char) : (append (text t) r).capture? cs =
    if t.isPrefixOf cs then (r.capture? (cs.drop t.length)).map (Capture.append ⟨t, []⟩) else none := by
  rw [capture?_eq_head?, ways, ways]
  split
  case isTrue =>
    rw [List.flatMap_singleton, List.head?_map, capture?_eq_head?, Option.map_map, Option.map_map]
    rfl
  case isFalse => rfl

theorem capture?_append_of_isSome {r : Regex} (hr : ∀ cs, (r.capture? cs).isSome = true) (a : Regex)
    (cs : List Char) :
    (append a r).capture? cs = (a.ways cs).head?.bind fun w => (r.capture? w.2).map w.1.append := by
  rw [capture?_eq_head?, ways, List.head?_flatMap]
  cases a.ways cs with
  | nil => rfl
  | cons w found =>
    -- The first way can be gone on with, so the search does not come back to `a`.
    have hnext := hr w.2
    rw [capture?_eq_head?] at hnext
    rw [List.findSome?_cons, List.head?_cons, Option.bind_some, capture?_eq_head?]
    cases hways : r.ways w.2 with
    | nil =>
      rw [hways] at hnext
      cases hnext
    | cons w' found' => rfl

end First

end Regex

namespace Kind

theorem capture?_text {t : List Char} (ht : t ≠ []) (cs : List Char) :
    (Regex.text t).capture? cs = Capture.ofText? (munchText t cs) := by
  change (if t.isPrefixOf cs then some _ else none) = _
  rw [munchText]
  split
  case isTrue => exact (if_neg ht).symm
  case isFalse => rfl

theorem capture?_fraction (cs : List Char) :
    (Regex.append (.text ['.']) (.many .digit)).capture? cs = Capture.ofText? (munchFraction cs) := by
  rw [Regex.capture?_text_append, Regex.capture?_many]
  split
  case isTrue h =>
    obtain ⟨rest, rfl⟩ := List.isPrefixOf_iff_prefix.mp h
    change (Capture.ofText? (rest.takeWhile Char.isDigit)).map _ =
      Capture.ofText? (if rest.takeWhile Char.isDigit = [] then [] else '.' :: rest.takeWhile Char.isDigit)
    cases rest.takeWhile Char.isDigit <;> rfl
  case isFalse h =>
    unfold munchFraction
    split
    case h_1 => exact absurd rfl h
    case h_2 => rfl

theorem capture?_number (cs : List Char) : number.regex.capture? cs = Capture.ofText? (munchNumber cs) := by
  have hdigit : CharClass.digit.contains = Char.isDigit := rfl
  have hoptional (r : Regex) (cs : List Char) : (r.optional.capture? cs).isSome = true := by
    rw [Regex.capture?_optional, Option.isSome_some]
  rw [regex, Regex.capture?_append_of_isSome (hoptional _), Regex.ways, List.head?_map, Regex.head?_runs, hdigit,
    munchNumber]
  split
  case isTrue => rfl
  case isFalse h =>
    have htext : Capture.ofText? (cs.takeWhile Char.isDigit ++ munchFraction (cs.dropWhile Char.isDigit)) = some _ :=
      if_neg (List.append_ne_nil_of_left_ne_nil h _)
    rw [htext, Option.map_some, Option.bind_some, Regex.capture?_optional, capture?_fraction]
    cases munchFraction (cs.dropWhile Char.isDigit) <;> rfl

theorem capture?_regex (k : Kind) (cs : List Char) : k.regex.capture? cs = Capture.ofText? (k.munch cs) := by
  cases k with
  | number => exact capture?_number cs
  | whitespace => exact Regex.capture?_many .blank cs
  | symbol => exact Regex.capture?_many .visible cs
  | _ => exact capture?_text (List.cons_ne_nil _ _) cs

theorem capture?_recognizer (cs : List Char) : recognizer.capture? cs =
    (first? cs).map fun found => ⟨found.2, [(found.1.group, found.2)]⟩ := by
  rw [recognizer, Regex.capture?_alternatives (by decide), List.findSome?_map, first?, List.map_findSome?]
  congr 1
  funext k
  rw [Function.comp_apply, Function.comp_apply, Regex.capture?_group, capture?_regex, found?, Capture.ofText?]
  cases k.munch cs <;> rfl

-- A third star is left for a match of its own.
example : recognizer.capture? ['*', '*', '*'] = some ⟨['*', '*'], [("star_star", ['*', '*'])]⟩ := by decide

end Kind

end StackCalc
