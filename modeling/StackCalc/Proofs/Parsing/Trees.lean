import StackCalc.Expr.Grammar
import StackCalc.Proofs.Parsing.Runs

namespace StackCalc

theorem Token.mark_token {t : Token} {k : Kind} (h : t.kind = k) : t.mark.token k = t := by
  subst h
  rfl

def Chunk.extend (c : Chunk) (cells : List (Cell × Nat)) : Chunk :=
  ⟨c.code ++ (cells.map Prod.fst).toArray, c.lines ++ (cells.map Prod.snd).toArray⟩

namespace Chunk

theorem extend_nil (c : Chunk) : c.extend [] = c := by
  simp [extend]

theorem extend_append (c : Chunk) (xs ys : List (Cell × Nat)) :
    c.extend (xs ++ ys) = (c.extend xs).extend ys := by
  simp [extend, Array.append_assoc]

theorem extend_singleton (c : Chunk) (op : Opcode) (line : Nat) :
    c.extend [(op.cell, line)] = c.push op line := by
  simp [extend, push, append]

theorem extend_pair (c : Chunk) (x : Cell) (line : Nat) :
    c.extend [(Opcode.pushNumber.cell, line), (x, line)] = c.pushNumber x line := by
  rw [← List.singleton_append, extend_append, extend_singleton]
  simp [extend, pushNumber, append]

end Chunk

theorem Parser.rest_eq {p : Parser} {t : Token} (h : t ∈ p.rest.head?) : p.rest = t :: p.skip.rest := by
  obtain ⟨ts, hts⟩ := List.head?_eq_some_iff.mp h
  simp [Parser.skip, hts]

namespace Compiler

def Goal.tokens : Goal → List Token
  | .operators _ l => l.tokens
  | _ => []

def Goal.cells : Goal → List (Cell × Nat)
  | .operators _ l => l.cells
  | _ => []

variable {limit : Option Nat} {lastLine : Nat} {g : Goal} {p q : Parser} {e : Expr}

theorem Reads.depth_eq (h : Reads limit g p e q) : q.depth = p.depth := by
  induction h with
  | expression _ _ _ iho ihl => simp [ihl, iho]
  | number => rfl
  | group _ _ _ _ _ ih => exact ih
  | negation _ _ _ ih => exact ih
  | stop => rfl
  | operator _ _ _ _ _ ihr ih => exact ih.trans ihr

theorem Reads.tokens_eq (h : Reads limit g p e q) : g.tokens ++ p.rest = e.tokens ++ q.rest := by
  induction h with
  | expression _ _ _ iho ihl => exact iho.trans ihl
  | number hp ht _ =>
    rw [Expr.tokens, Token.mark_token ht]
    exact Parser.rest_eq hp
  | group hp ht _ hq ht' ih =>
    rw [Parser.rest_eq hq] at ih
    rw [Expr.tokens, Token.mark_token ht, Token.mark_token ht', Parser.rest_eq hp]
    simpa [Goal.tokens] using ih
  | negation hp ht _ ih =>
    rw [Expr.tokens, Token.mark_token ht, Parser.rest_eq hp]
    simpa [Goal.tokens] using ih
  | stop => rfl
  | operator hp ht _ _ _ ihr ih =>
    simp only [Goal.tokens, List.nil_append] at ihr
    rw [← ih, Parser.rest_eq hp, ihr]
    simp [Goal.tokens, Expr.tokens, Token.mark_token ht]

theorem Reads.chunk_eq (h : Reads limit g p e q) :
    ∃ cells, g.cells ++ cells = e.cells ∧ q.chunk = p.chunk.extend cells := by
  induction h with
  | expression _ _ _ iho ihl =>
    obtain ⟨xs, hxs, hq⟩ := iho
    obtain ⟨ys, hys, hq'⟩ := ihl
    refine ⟨xs ++ ys, ?_, ?_⟩
    · rw [← hys, Goal.cells, ← hxs]
      rfl
    · rw [Parser.chunk_leave, hq', hq, Chunk.extend_append, Parser.chunk_enter]
  | number _ _ _ => exact ⟨_, rfl, (Chunk.extend_pair ..).symm⟩
  | group _ _ _ _ _ ih => exact ih
  | @negation _ t _ _ _ _ _ ih =>
    obtain ⟨xs, hxs, hq⟩ := ih
    refine ⟨xs ++ [(Opcode.negate.cell, t.line)], ?_, ?_⟩
    · rw [Expr.cells, ← hxs]
      rfl
    · rw [Parser.chunk_write, hq, Chunk.extend_append, Chunk.extend_singleton, Parser.chunk_skip]
  | stop => exact ⟨[], List.append_nil _, (Chunk.extend_nil _).symm⟩
  | @operator _ l _ t op r _ _ _ _ _ _ _ _ ihr ih =>
    obtain ⟨xs, hxs, hq⟩ := ihr
    obtain ⟨ys, hys, hq'⟩ := ih
    refine ⟨xs ++ [((Opcode.operate op).cell, t.line)] ++ ys, ?_, ?_⟩
    · simp only [Goal.cells, List.nil_append] at hxs
      rw [← hys, Goal.cells, Goal.cells, Expr.cells, hxs]
      simp [Token.mark]
    · rw [hq', Parser.chunk_write, hq, Parser.chunk_skip, Chunk.extend_append, Chunk.extend_append,
        Chunk.extend_singleton]

/-- What is known of the depth of a tree read from the depth `d` on, where `n` is the limit. -/
def Goal.Fits (n d : Nat) : Goal → Expr → Prop
  | .expression _, e => d + e.need ≤ n
  | .operand, e => d ≤ n → d + e.need ≤ n + 1
  | .operators _ l, e => d + l.need ≤ n + 1 → d + e.need ≤ n + 1

theorem Reads.fits {n : Nat} (h : Reads limit g p e q) (hn : n ∈ limit) : g.Fits n p.depth e := by
  induction h with
  | @expression _ p l q e _ hd ho _ iho ihl =>
    simp only [Goal.Fits, ho.depth_eq, Parser.depth_enter] at iho ihl ⊢
    have : ¬n ≤ p.depth := fun h => hd (by simp_all)
    have := ihl (iho (by omega))
    omega
  | number =>
    intro hd
    simpa [Expr.need] using hd
  | group _ _ _ _ _ ih =>
    intro hd
    simp only [Goal.Fits, Parser.depth_skip, Expr.need] at ih ⊢
    omega
  | negation _ _ _ ih =>
    intro hd
    simp only [Goal.Fits, Parser.depth_skip, Expr.need] at ih ⊢
    omega
  | stop => exact fun hd => hd
  | operator _ _ _ hr _ ihr ih =>
    intro hd
    simp only [Goal.Fits, Parser.depth_skip, Parser.depth_write, hr.depth_eq, Expr.need] at ihr ih
    exact ih (by omega)

section Unseen

variable {t : Token} {ts ts' read : List Token}

def EndsLike (ts ts' : List Token) : Prop := ∀ least, Stops least ts → Stops least ts'

theorem endsLike_of_head?_eq (h : ts.head? = ts'.head?) : EndsLike ts ts' := by
  intro least hs t ht
  rw [← h] at ht
  exact hs t ht

theorem EndsLike.append (h : EndsLike ts ts') (read : List Token) : EndsLike (read ++ ts) (read ++ ts') := by
  cases read with
  | nil => exact h
  | cons => exact endsLike_of_head?_eq rfl

theorem rest_eq_cons_append (h : t ∈ p.rest.head?) (hp : p.skip.rest = read ++ ts) :
    p.rest = t :: read ++ ts := by
  rw [Parser.rest_eq h, hp]
  rfl

theorem Reads.exists_read (h : Reads limit g p e q) : ∃ read, p.rest = read ++ q.rest ∧
    ∀ ts, EndsLike q.rest ts → Reads limit g { p with rest := read ++ ts } e { q with rest := ts } := by
  -- What is read first ends in front of what is read next, which begins with the same token in both runs.
  induction h with
  | @expression least p l q e q' hd _ _ iho ihl =>
    obtain ⟨read, hread, ho⟩ := iho
    obtain ⟨read', hread', hl⟩ := ihl
    refine ⟨read ++ read', by simpa [hread'] using hread, ?_⟩
    intro ts hts
    have hoperand := ho (read' ++ ts) (by rw [hread']; exact hts.append read')
    rw [List.append_assoc]
    exact .expression (p := { p with rest := read ++ (read' ++ ts) }) hd hoperand (hl ts hts)
  | @number p t _ hp ht hx =>
    refine ⟨[t], Parser.rest_eq hp, ?_⟩
    intro ts _
    exact .number (p := { p with rest := t :: ts }) rfl ht hx
  | @group p t e q t' hp ht _ hq ht' ih =>
    obtain ⟨read, hread, he⟩ := ih
    refine ⟨t :: read ++ [t'], ?_, ?_⟩
    · rw [rest_eq_cons_append hp hread, Parser.rest_eq hq]
      simp
    · intro ts _
      have hinner := he (t' :: ts) (endsLike_of_head?_eq hq)
      rw [List.append_assoc]
      exact .group (p := { p with rest := t :: (read ++ t' :: ts) }) (q := { q with rest := t' :: ts })
        rfl ht hinner rfl ht'
  | @negation p t e q hp ht _ ih =>
    obtain ⟨read, hread, he⟩ := ih
    refine ⟨t :: read, rest_eq_cons_append hp hread, ?_⟩
    intro ts hts
    exact .negation (p := { p with rest := t :: (read ++ ts) }) rfl ht (he ts hts)
  | stop hs => exact ⟨[], rfl, fun ts hts => .stop (hts _ hs)⟩
  | @operator least l p t op r q e q' hp ht hle _ _ ihr ih =>
    obtain ⟨read, hread, hr⟩ := ihr
    obtain ⟨read', hread', hl⟩ := ih
    rw [Parser.rest_write] at hread'
    refine ⟨t :: read ++ read', ?_, ?_⟩
    · rw [rest_eq_cons_append hp hread, hread', List.append_assoc]
    · intro ts hts
      have hright := hr (read' ++ ts) (by rw [hread']; exact hts.append read')
      rw [List.append_assoc]
      exact .operator (p := { p with rest := t :: (read ++ (read' ++ ts)) }) rfl ht hle hright (hl ts hts)

theorem Reads.exists_read_before (h : Reads limit g p e q) (hq : q.rest = read ++ ts) (hread : read ≠ []) :
    ∃ read', p.rest = read' ++ read ++ ts ∧
      ∀ ts', Reads limit g { p with rest := read' ++ read ++ ts' } e { q with rest := read ++ ts' } := by
  obtain ⟨read', hread', he⟩ := h.exists_read
  refine ⟨read', by rw [hread', hq, List.append_assoc], ?_⟩
  intro ts'
  rw [List.append_assoc]
  apply he
  rw [hq]
  obtain ⟨first, read, rfl⟩ := List.exists_cons_of_ne_nil hread
  exact endsLike_of_head?_eq rfl

theorem Reads.rest_suffix (h : Reads limit g p e q) : q.rest <:+ p.rest := by
  obtain ⟨read, hread, -⟩ := h.exists_read
  exact ⟨read, hread.symm⟩

end Unseen

end Compiler

end StackCalc
