import StackCalc.Cell.Text
import StackCalc.Proofs.Decimal.Reading
import StackCalc.Proofs.Decimal.Shortest

namespace StackCalc

open Numeral

section Values

variable {digits : List Char}

theorem digits_toDigits (n : Nat) : Digits (Nat.toDigits 10 n) :=
  ⟨Nat.toDigits_ne_nil, fun _ => Nat.isDigit_of_mem_toDigits (by decide) (by decide)⟩

theorem value_toDigits (n : Nat) : value (Nat.toDigits 10 n) = n :=
  Nat.ofDigitChars_toDigits (by decide) (by decide)

theorem value_zeros_append (k : Nat) (digits : List Char) : value (.replicate k '0' ++ digits) = value digits := by
  induction k with
  | zero => rfl
  | succ k ih => exact ih

theorem value_append_zeros (digits : List Char) (k : Nat) :
    value (digits ++ .replicate k '0') = value digits * 10 ^ k := by
  induction k with
  | zero => simp
  | succ k ih =>
    have hzero (digits : List Char) : value (digits ++ ['0']) = 10 * value digits := by
      simp [value]
    rw [List.replicate_succ', ← List.append_assoc, hzero, ih]
    ring

theorem Digits.append {digits' : List Char} (h : Digits digits) (h' : ∀ c ∈ digits', c.isDigit = true) :
    Digits (digits ++ digits') :=
  ⟨by simp [h.1], List.forall_mem_append.mpr ⟨h.2, h'⟩⟩

theorem isDigit_of_mem_zeros {k : Nat} {c : Char} (h : c ∈ List.replicate k '0') : c.isDigit = true := by
  rw [List.eq_of_mem_replicate h]
  rfl

end Values

/-- A text that the scanner takes for a number and that is read as the decimal `d`. -/
structure Spells (cs : List Char) (d : Decimal) : Prop where
  isNumber : Kind.number.Matches cs
  decimal : decimal? cs = some d

namespace Spells

variable {digits : List Char}

theorem read?_eq {cs : List Char} {d : Decimal} (h : Spells cs d) : read? (.ofList cs) = some d.toCell := by
  rw [read?_of_matches h.isNumber, h.decimal]
  rfl

theorem below_one (h : Digits digits) (k : Nat) :
    Spells ('0' :: '.' :: (.replicate k '0' ++ digits)) ⟨value digits, -(k + digits.length : Nat)⟩ := by
  have hw : Digits ['0'] := ⟨by simp, by simp⟩
  have hf : Digits (.replicate k '0' ++ digits) :=
    ⟨by simp [h.1], List.forall_mem_append.mpr ⟨fun _ => isDigit_of_mem_zeros, h.2⟩⟩
  have hvalue : value (['0'] ++ (.replicate k '0' ++ digits)) = value digits := value_zeros_append (k + 1) digits
  refine ⟨.inr ⟨_, _, hw, hf, rfl⟩, ?_⟩
  have hdecimal := decimal?_fraction hw hf
  rw [hvalue, List.length_append, List.length_replicate] at hdecimal
  exact hdecimal

theorem whole (h : Digits digits) (k : Nat) :
    Spells (digits ++ .replicate k '0') ⟨value digits * 10 ^ k, 0⟩ := by
  have hw := h.append fun _ hc => isDigit_of_mem_zeros (k := k) hc
  exact ⟨.inl hw, by rw [decimal?_whole hw, value_append_zeros]⟩

theorem point (h : Digits digits) {k : Nat} (hk : 0 < k) (hlt : k < digits.length) :
    Spells (digits.take k ++ '.' :: digits.drop k) ⟨value digits, -(digits.length - k : Nat)⟩ := by
  have hw : Digits (digits.take k) := by
    refine ⟨?_, fun c hc => h.2 c (List.mem_of_mem_take hc)⟩
    rw [← List.length_pos_iff, List.length_take]
    omega
  have hf : Digits (digits.drop k) := by
    refine ⟨?_, fun c hc => h.2 c (List.mem_of_mem_drop hc)⟩
    rw [← List.length_pos_iff, List.length_drop]
    omega
  refine ⟨.inr ⟨_, _, hw, hf, rfl⟩, ?_⟩
  rw [decimal?_fraction hw hf, List.take_append_drop, List.length_drop]

end Spells

namespace Cell

theorem layOut_result {n : Nat} (hn : n ≠ 0) (e : Int) : layOut .result ⟨n, e⟩ =
    positional (Nat.toDigits 10 n) ((Nat.toDigits 10 n).length + e) false := by
  simp only [layOut, Layout.result, if_neg hn, ↓reduceIte]

theorem positional_spells {digits : List Char} (h : Digits digits) {e : Int}
    (he : e ≤ 308) : ∃ d, Spells (positional digits (digits.length + e) false) d ∧
      d.toCell = Decimal.toCell ⟨value digits, e⟩ := by
  have hlength := List.length_pos_iff.mpr h.1
  rw [positional]
  split
  case isTrue hplace =>
    have hexponent : e = -((-(digits.length + e)).toNat + digits.length : Nat) := by omega
    refine ⟨_, .below_one h _, ?_⟩
    rw [← hexponent]
  case isFalse hplace =>
    split
    case isTrue hle =>
      have hzeros : (digits.length + e).toNat - digits.length = e.toNat := by omega
      have hexponent : (e.toNat : Int) = e := by omega
      simp only [Bool.false_eq_true, ↓reduceIte, List.append_nil]
      refine ⟨_, .whole h _, ?_⟩
      rw [hzeros, Decimal.toCell_mul_pow _ (by omega), hexponent]
    case isFalse hlt =>
      have hexponent : e = -(digits.length - (digits.length + e).toNat : Nat) := by omega
      refine ⟨_, .point h (by omega) (by omega), ?_⟩
      rw [← hexponent]

theorem layOut_spells {d : Decimal} (hd : d.digits ≠ 0 → d.exponent ≤ 308) :
    ∃ d', Spells (layOut .result d) d' ∧ d'.toCell = d.toCell := by
  obtain ⟨n, e⟩ := d
  by_cases hn : n = 0
  · subst hn
    have hdigits : Digits ['0'] := ⟨by simp, by simp⟩
    have htext : layOut .result ⟨0, e⟩ = ['0'] ++ .replicate 0 '0' := rfl
    have hzero (e : Int) : Decimal.toCell ⟨0, e⟩ = zero := if_pos rfl
    rw [htext, hzero]
    exact ⟨_, .whole hdigits 0, hzero 0⟩
  · rw [layOut_result hn]
    obtain ⟨d', hspells, hd'⟩ := positional_spells (digits_toDigits n) (hd hn)
    rw [value_toDigits] at hd'
    exact ⟨d', hspells, hd'⟩

theorem exponent_le_of_toCell {x : Cell} (hx : x.isFinite = true) {d : Decimal} (h : d.toCell = x)
    (hn : d.digits ≠ 0) : d.exponent ≤ 308 := by
  by_contra hlarge
  rw [Decimal.toCell, if_neg hn, if_pos (by omega)] at h
  subst h
  exact absurd hx (by decide)

theorem exists_display {x : Cell} (hx : x.isFinite = true) :
    ∃ cs, Kind.number.Matches cs ∧ read? (.ofList cs) = some x.abs ∧
      x.display = .ofList (if x.isNegative then '-' :: cs else cs) := by
  have hshortest := Decimal.shortest_toCell hx
  have habs : x.abs.isFinite = true := by rwa [isFinite_abs]
  obtain ⟨d, hspells, hd⟩ := layOut_spells fun hn => exponent_le_of_toCell habs hshortest hn
  refine ⟨_, hspells.isNumber, by rw [hspells.read?_eq, hd, hshortest], ?_⟩
  have hlt : x.magnitudeBits < infinityBits := of_decide_eq_true hx
  have hnan : x.isNaN = false := decide_eq_false (by omega)
  have hinf : x.isInf = false := decide_eq_false (by omega)
  rw [display, write, hnan, hinf]
  cases x.isNegative
  · rfl
  · simp [String.ofList_cons]

end Cell

end StackCalc
