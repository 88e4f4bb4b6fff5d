import Mathlib.Data.List.Basic
import StackCalc.Proofs.Scanning.Patterns

/-!
# The choice among the kinds

The character with which a match begins tells its kind, but for the two kinds that begin with a star.
So the first kind that matches is the only one besides `symbol`, which comes last.
-/

namespace StackCalc.Kind

def sign : Char → Kind
  | '(' => leftParen
  | ')' => rightParen
  | '*' => star
  | '/' => slash
  | '%' => percent
  | '+' => plus
  | '-' => minus
  | _ => symbol

/-- The kind that is told by the character with which its matches begin. -/
def leader (c : Char) : Kind :=
  if c.isDigit then number else if Text.isBlank c then whitespace else sign c

def leading : Kind → Kind
  | starStar => star
  | k => k

variable {k k' : Kind} {text cs after : List Char} {c : Char}

theorem not_isDigit_of_isBlank (h : Text.isBlank c = true) : ¬c.isDigit = true := by
  intro hd
  have hdigit : 48 ≤ c.toNat ∧ c.toNat ≤ 57 := Char.isDigit_iff_toNat.mp hd
  simp only [Text.isBlank, Text.blankRanges, List.any_cons, List.any_nil, Bool.or_eq_true, Bool.and_eq_true,
    decide_eq_true_eq, Bool.false_eq_true, or_false] at h
  omega

theorem not_isBlank_of_isDigit (h : c.isDigit = true) : Text.isBlank c = false := by
  by_contra hb
  exact not_isDigit_of_isBlank (by simpa using hb) h

theorem not_isBlank_of_mem_display (k : Kind) : ∀ c ∈ k.display.toList, Text.isBlank c = false := by
  have hall : k.display.toList.all (!Text.isBlank ·) = true := by
    cases k <;> decide
  intro c hc
  simpa using List.all_eq_true.mp hall c hc

theorem Matches.not_blank (hw : k ≠ .whitespace) (hs : k ≠ .symbol) (hm : k.Matches text) :
    ∀ c ∈ text, Text.isBlank c = false := by
  have hdigits {text : List Char} (h : Digits text) : ∀ c ∈ text, Text.isBlank c = false :=
    fun c hc => not_isBlank_of_isDigit (h.2 c hc)
  cases k with
  | number =>
    rcases hm with hm | ⟨whole, fraction, hwhole, hfraction, rfl⟩
    · exact hdigits hm
    · exact List.forall_mem_append.mpr
        ⟨hdigits hwhole, List.forall_mem_cons.mpr ⟨by decide, hdigits hfraction⟩⟩
  | whitespace => exact absurd rfl hw
  | symbol => exact absurd rfl hs
  | _ =>
    cases hm
    exact not_isBlank_of_mem_display _

theorem Matches.leader_eq (hk : k ≠ symbol) (h : k.Matches (c :: cs)) : leader c = k.leading := by
  have digits {cs : List Char} (h : Digits cs) (after : List Char) (hc : (cs ++ after).head? = some c) :
      leader c = number := by
    obtain ⟨c', hc', hd⟩ : Next Char.isDigit (cs ++ after) := h.next
    cases Option.mem_unique hc hc'
    exact if_pos hd
  cases k with
  | number =>
    rcases h with h | ⟨whole, fraction, hw, -, htext⟩
    · exact digits h [] (by simp)
    · exact digits hw ('.' :: fraction) (by rw [← htext]; rfl)
  | whitespace =>
    have hb := h.2 c (List.mem_cons_self ..)
    rw [leader, if_neg (not_isDigit_of_isBlank hb), if_pos hb]
    rfl
  | symbol => exact absurd rfl hk
  | _ =>
    cases h
    decide

theorem munch_eq_nil (hk : k ≠ symbol) (h : leader c ≠ k.leading) : k.munch (c :: cs) = [] := by
  by_contra hne
  obtain ⟨hm, after, hafter, -⟩ := matches_of_munch rfl hne
  obtain ⟨c', text, htext⟩ := List.exists_cons_of_ne_nil hne
  rw [htext] at hm hafter
  cases hafter
  exact h (hm.leader_eq hk)

theorem munch_leader_ne_nil (c : Char) (cs : List Char) : (leader c).munch (c :: cs) ≠ [] := by
  rw [leader]
  split
  case isTrue hd =>
    have hnext : Next Char.isDigit (c :: cs) := ⟨c, rfl, hd⟩
    obtain ⟨text, after, htext, hm, he⟩ := exists_number hnext
    rw [htext, munch_of_matches hm he]
    exact hm.ne_nil
  case isFalse =>
    split
    case isTrue hb => exact takeWhile_ne_nil_iff.mpr ⟨c, rfl, hb⟩
    case isFalse hb =>
      have hsymbol : symbol.munch (c :: cs) ≠ [] := takeWhile_ne_nil_iff.mpr ⟨c, rfl, by simpa using hb⟩
      unfold sign
      split <;> first | exact hsymbol | simp [munch, munchText]

def found? (cs : List Char) (k : Kind) : Option (Kind × List Char) :=
  match k.munch cs with
  | [] => none
  | lexeme => some (k, lexeme)

def first? (cs : List Char) : Option (Kind × List Char) := all.findSome? (found? cs)

theorem found?_eq_none : found? cs k = none ↔ k.munch cs = [] := by
  unfold found?
  split <;> simp_all

theorem found?_eq_some : found? cs k' = some (k, text) ↔ k' = k ∧ k.munch cs = text ∧ text ≠ [] := by
  unfold found?
  split
  · rename_i hnil
    simp only [reduceCtorEq, false_iff, not_and, Decidable.not_not]
    rintro rfl rfl
    exact hnil
  · rename_i hne
    simp only [Option.some.injEq, Prod.mk.injEq]
    constructor
    · rintro ⟨rfl, rfl⟩
      exact ⟨rfl, rfl, hne⟩
    · rintro ⟨rfl, rfl, -⟩
      exact ⟨rfl, rfl⟩

theorem all_eq (k : Kind) : all = all.take k.priority ++ k :: all.drop (k.priority + 1) := by
  cases k <;> rfl

theorem mem_take_priority : k' ∈ all.take k.priority ↔ k'.priority < k.priority := by
  cases k <;> cases k' <;> decide

theorem first?_eq_some_iff : first? cs = some (k, text) ↔
    k.munch cs = text ∧ text ≠ [] ∧ ∀ k' : Kind, k'.priority < k.priority → k'.munch cs = [] := by
  rw [first?, List.findSome?_eq_some_iff]
  constructor
  · rintro ⟨before, k', after, hall, hfound, hnone⟩
    obtain ⟨rfl, htext, hne⟩ := found?_eq_some.mp hfound
    refine ⟨htext, hne, ?_⟩
    intro k hlt
    have hk' : k' ∉ before := fun hmem => by simp [hnone k' hmem] at hfound
    have hk : k ∈ before := by
      by_contra hk
      rw [priority, priority, hall, List.idxOf_append_of_notMem hk, List.idxOf_append_of_notMem hk'] at hlt
      rw [List.idxOf_cons_self] at hlt
      omega
    exact found?_eq_none.mp (hnone k hk)
  · rintro ⟨htext, hne, hnone⟩
    refine ⟨_, k, _, all_eq k, found?_eq_some.mpr ⟨rfl, htext, hne⟩, ?_⟩
    intro k' hk'
    exact found?_eq_none.mpr (hnone k' (mem_take_priority.mp hk'))

theorem first?_isSome (c : Char) (cs : List Char) : ∃ k text, first? (c :: cs) = some (k, text) := by
  cases h : first? (c :: cs) with
  | some found => exact ⟨found.1, found.2, rfl⟩
  | none =>
    have hnone : found? (c :: cs) (leader c) = none :=
      List.findSome?_eq_none_iff.mp h (leader c) (by cases leader c <;> decide)
    exact absurd (found?_eq_none.mp hnone) (munch_leader_ne_nil c cs)

theorem first?_of_matches (hk : k ≠ symbol) (h : k.Matches text) (he : ¬k.Extends text after) :
    first? (text ++ after) = some (k, text) := by
  refine first?_eq_some_iff.mpr ⟨munch_of_matches h he, h.ne_nil, ?_⟩
  intro k' hlt
  obtain ⟨c, rest, rfl⟩ := List.exists_cons_of_ne_nil h.ne_nil
  have hleader := h.leader_eq hk
  by_cases hstar : k = star ∧ k' = starStar
  · obtain ⟨rfl, rfl⟩ := hstar
    cases h
    have hnext : ¬after.head? = some '*' := fun hnext => he ⟨'*', hnext, by decide⟩
    cases after with
    | nil => rfl
    | cons c after =>
      have hc : '*' ≠ c := fun hc => hnext (hc ▸ rfl)
      simp [munch, munchText, hc]
  · apply munch_eq_nil
    · rintro rfl
      exact absurd hlt (by cases k <;> decide)
    · rw [hleader]
      revert hlt hstar
      cases k <;> cases k' <;> decide

theorem first?_of_symbol (h : leader c = symbol) :
    first? (c :: cs) = some (symbol, (c :: cs).takeWhile (!Text.isBlank ·)) := by
  have hne := munch_leader_ne_nil c cs
  rw [h] at hne
  refine first?_eq_some_iff.mpr ⟨rfl, hne, ?_⟩
  intro k hlt
  have hk : k ≠ symbol := by
    rintro rfl
    exact Nat.lt_irrefl _ hlt
  apply munch_eq_nil hk
  rw [h]
  revert hk
  cases k <;> decide

theorem matches_of_first? (h : first? cs = some (k, text)) :
    k.Matches text ∧ ∃ after, cs = text ++ after ∧ ¬k.Extends text after := by
  obtain ⟨hmunch, hne, hnone⟩ := first?_eq_some_iff.mp h
  obtain ⟨hm, after, rfl, he⟩ := matches_of_munch hmunch hne
  refine ⟨hm, after, rfl, ?_⟩
  by_cases hstar : k = star
  · subst hstar
    cases hm
    rintro ⟨c, hc, hd⟩
    obtain ⟨rest, rfl⟩ := List.head?_eq_some_iff.mp hc
    cases of_decide_eq_true hd
    have := hnone starStar (by decide)
    simp [munch, munchText, display] at this
  · exact he hstar

theorem leader_of_first?_symbol (h : first? (c :: cs) = some (symbol, text)) : leader c = symbol := by
  obtain ⟨-, -, hnone⟩ := first?_eq_some_iff.mp h
  by_contra hc
  apply munch_leader_ne_nil c cs
  apply hnone
  revert hc
  cases leader c <;> decide

end StackCalc.Kind
