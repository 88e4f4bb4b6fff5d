import StackCalc.Machine

/-!
# One machine for many programs

A machine keeps nothing of the programs that it has executed but a stack, and that is gone with the next
program that has any cells.
-/

namespace StackCalc.Machine

variable {code : List Cell}

theorem execute_of_nil (m : Machine) : m.execute [] = (.error .emptyCode, m) := rfl

theorem execute_eq_fresh (h : code ≠ []) (m : Machine) : m.execute code = ({} : Machine).execute code := by
  cases code with
  | nil => exact absurd rfl h
  | cons => rfl

theorem execute_result (m : Machine) (code : List Cell) : (m.execute code).1 = StackCalc.execute code := by
  by_cases h : code = []
  · rw [h, execute_of_nil]
    rfl
  · rw [execute_eq_fresh h m]
    rfl

def executeAll (m : Machine) : List (List Cell) → List (Except RuntimeError Cell) × Machine
  | [] => ([], m)
  | code :: programs =>
    let (result, m) := m.execute code
    let (results, m) := m.executeAll programs
    (result :: results, m)

theorem executeAll_cons (m : Machine) (code : List Cell) (programs : List (List Cell)) :
    m.executeAll (code :: programs) = ((m.execute code).1 :: ((m.execute code).2.executeAll programs).1,
      ((m.execute code).2.executeAll programs).2) := rfl

theorem executeAll_results (m : Machine) (programs : List (List Cell)) :
    (m.executeAll programs).1 = programs.map StackCalc.execute := by
  induction programs generalizing m with
  | nil => rfl
  | cons code programs ih => rw [executeAll_cons, ih, execute_result, List.map_cons]

theorem executeAll_concat (m : Machine) (programs : List (List Cell)) (code : List Cell) :
    (m.executeAll (programs ++ [code])).2 = ((m.executeAll programs).2.execute code).2 := by
  induction programs generalizing m with
  | nil => rfl
  | cons first programs ih => rw [List.cons_append, executeAll_cons, ih, executeAll_cons]

theorem executeAll_forgets (m : Machine) :
    (∀ programs, (m.executeAll programs).1 = programs.map StackCalc.execute) ∧
      ∀ earlier code, (m.executeAll (earlier ++ [code])).2 =
        if code = [] then (m.executeAll earlier).2 else (({} : Machine).execute code).2 := by
  refine ⟨m.executeAll_results, ?_⟩
  intro earlier code
  rw [executeAll_concat]
  split
  case isTrue h => rw [h, execute_of_nil]
  case isFalse h => rw [execute_eq_fresh h]

end StackCalc.Machine
