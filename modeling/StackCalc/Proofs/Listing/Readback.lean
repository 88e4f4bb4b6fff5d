import StackCalc.Proofs.Listing.Reading
import StackCalc.Proofs.Machine.Opcodes
import StackCalc.Proofs.Outcomes
import StackCalc.Proofs.Parsing.Emission

/-!
# What a listing keeps

Chunks with the same listing have the same lines, as far as instructions begin there, and code that is the
same but for what no listing shows. Compiled chunks with the same listing are the same.
-/

namespace StackCalc

def Cell.Alike (x y : Cell) : Prop := x = y ∨ x.isNaN = true ∧ y.isNaN = true

/-- Code that is equal but for the sign of a zero that is a push, and but for which NaN a cell is. -/
inductive CodeAlike : List Cell → List Cell → Prop where
  | nil : CodeAlike [] []
  | push {x x' value value' : Cell} {cells cells' : List Cell} : x.isZero = true → x'.isZero = true →
    value.Alike value' → CodeAlike cells cells' → CodeAlike (x :: value :: cells) (x' :: value' :: cells')
  | truncated {x x' : Cell} : x.isZero = true → x'.isZero = true → CodeAlike [x] [x']
  | other {x x' : Cell} {cells cells' : List Cell} : x.isZero = false → x.Alike x' →
    CodeAlike cells cells' → CodeAlike (x :: cells) (x' :: cells')

namespace Instruction

section Alike

variable {x x' : Cell} {cells cells' rest rest' : List Cell} {i i' : Instruction}

theorem codeAlike_of_fetch (h : fetch x cells = (i, rest)) (h' : fetch x' cells' = (i', rest'))
    (hi : i.plain = i'.plain) (hrest : CodeAlike rest rest') : CodeAlike (x :: cells) (x' :: cells') := by
  have hpush {y : Cell} (hy : Opcode.ofCell? y = some .pushNumber) := Opcode.ofCell?_eq_pushNumber.mp hy
  have hother {op : Opcode} (hx : Opcode.ofCell? x = some op) (hx' : Opcode.ofCell? x' = some op)
      (hop : op ≠ .pushNumber) (hrest : CodeAlike rest rest') : CodeAlike (x :: rest) (x' :: rest') := by
    have hzero : Opcode.ofCell? x ≠ some .pushNumber := by
      rw [hx]
      exact fun h => hop (Option.some.inj h)
    refine .other (Opcode.isZero_eq_false hzero) (.inl ?_) hrest
    rw [Opcode.eq_cell_of_ne_pushNumber hx hop, Opcode.eq_cell_of_ne_pushNumber hx' hop]
  unfold fetch at h h'
  split at h <;> split at h' <;> cases h <;> cases h' <;>
    simp only [plain, push.injEq, operate.injEq, unknown.injEq, reduceCtorEq] at hi
  -- What is left is both cells saying the same: push, truncated, negate, operate, halt, unknown.
  · rename_i hx _ _ _ hx'
    exact .push (hpush hx) (hpush hx') (Cell.eq_or_isNaN_of_plain_eq hi) hrest
  · rename_i hx _ _ hx'
    exact .truncated (hpush hx) (hpush hx')
  · rename_i hx _ _ hx'
    exact hother hx hx' nofun hrest
  · rename_i hx _ _ _ hx'
    subst hi
    exact hother hx hx' nofun hrest
  · rename_i hx _ _ hx'
    exact hother hx hx' nofun hrest
  · rename_i hx _ _ hx'
    have hzero : Opcode.ofCell? x ≠ some .pushNumber := by
      rw [hx]
      nofun
    exact .other (Opcode.isZero_eq_false hzero) (Cell.eq_or_isNaN_of_plain_eq hi) hrest

theorem codeAlike_of_decode {start start' : Nat}
    (h : (decode start cells).map (·.2.plain) = (decode start' cells').map (·.2.plain)) :
    CodeAlike cells cells' := by
  fun_induction decode start cells generalizing start' cells' with
  | case1 =>
    cases cells' with
    | nil => exact .nil
    | cons x' cells' =>
      rw [decode] at h
      cases h
  | case2 =>
    rename_i x cells next ih
    cases cells' with
    | nil =>
      rw [decode] at h
      cases h
    | cons x' cells' =>
      rw [decode, List.map_cons, List.map_cons, List.cons.injEq] at h
      exact codeAlike_of_fetch rfl rfl h.1 (ih h.2)

end Alike

end Instruction

section Compiled

variable {e : Expr} {x : Cell} {line : Nat} {s : Phrase} {source : String} {chunk : Chunk}

theorem Expr.Derives.exists_numeral (h : e.Derives s) (hx : (.push x, line) ∈ e.instructions) :
    ∃ t ∈ e.tokens, t.kind = .number ∧ Numeral.read? t.lexeme = some x := by
  induction e generalizing s with
  | number m y =>
    cases List.mem_singleton.mp hx
    exact ⟨_, List.mem_singleton_self _, rfl, derives_number_iff.mp h⟩
  | group opening e closing ih =>
    obtain ⟨t, ht, hnumeral⟩ := ih (derives_group_iff.mp h) hx
    exact ⟨t, List.mem_cons_of_mem _ (List.mem_append_left _ ht), hnumeral⟩
  | negation m e ih =>
    have he : (.push x, line) ∈ e.instructions := (List.mem_append.mp hx).resolve_right (by simp)
    obtain ⟨t, ht, hnumeral⟩ := ih (derives_negation_iff.mp h) he
    exact ⟨t, List.mem_cons_of_mem _ ht, hnumeral⟩
  | binary op m l r ihl ihr =>
    obtain ⟨-, hl, hr⟩ := derives_binary_iff.mp h
    have hlr := (List.mem_append.mp hx).resolve_right (by simp)
    rcases List.mem_append.mp hlr with hx | hx
    · obtain ⟨t, ht, hnumeral⟩ := ihl hl hx
      exact ⟨t, List.mem_append_left _ ht, hnumeral⟩
    · obtain ⟨t, ht, hnumeral⟩ := ihr hr hx
      exact ⟨t, List.mem_append_right _ (List.mem_cons_of_mem _ ht), hnumeral⟩

theorem Expr.Derives.plain_of_mem (h : e.Derives s) {ts : List Token} (hsource : tokenize source = .ok ts)
    (htokens : ∀ t ∈ e.tokens, t ∈ ts) {p : Instruction × Nat} (hp : p ∈ e.instructions) : p.1.plain = p.1 := by
  obtain ⟨i, line⟩ := p
  cases i with
  | push x =>
    obtain ⟨t, ht, hk, hread⟩ := h.exists_numeral hp
    obtain ⟨cs, hlexeme, hm⟩ := matches_of_tokenize hsource (htokens t ht)
    rw [hk] at hm
    rw [hlexeme] at hread
    exact congrArg Instruction.push (Cell.plain_of_not_isNaN (Numeral.isNaN_of_read? hm hread))
  | unknown x => cases whole_of_mem hp
  | _ => rfl

theorem exists_lay_of_compile (h : compile source = .ok chunk) : ∃ written : List (Instruction × Nat),
    chunk = Chunk.extend {} (Instruction.lay written) ∧ ∀ p ∈ written, p.1.Whole ∧ p.1.plain = p.1 := by
  obtain ⟨ts, e, ht, he, -⟩ := exists_heads_of_compile h
  rw [compile, ht] at h
  obtain ⟨rest, hrest, -⟩ := he.tokens_append
  have htokens : ∀ t ∈ e.tokens, t ∈ ts := by
    intro t hmem
    rw [hrest]
    exact List.mem_append_left _ hmem
  refine ⟨e.program (Compiler.lastLineOf ts), Compiler.chunk_of_compileWithin he h, ?_⟩
  intro p hp
  refine ⟨Expr.whole_of_mem_program hp, ?_⟩
  rcases List.mem_append.mp hp with hp | hp
  · exact he.derives.plain_of_mem ht htokens hp
  · cases List.mem_singleton.mp hp
    rfl

-- Both cells of a push are on one line, so the line at its offset is the line of the whole.
theorem decode_extend {written : List (Instruction × Nat)} (h : ∀ p ∈ written, p.1.Whole ∧ p.1.plain = p.1)
    (hchunk : chunk = Chunk.extend {} (Instruction.lay written)) :
    ((Instruction.decode 0 chunk.code.toList).map fun p => (p.2.plain, chunk.lineAt p.1)) =
      written.map fun p => (p.1, some p.2) := by
  let cells := (Instruction.lay written).map Prod.fst
  let lines := (Instruction.lay written).map Prod.snd
  have hdecode : ((Instruction.decode 0 cells).map fun p => (p.2, lines[p.1]?)) =
      written.map fun p => (p.1, some p.2) := Instruction.decode_lay fun p hp => (h p hp).1
  have hcode : chunk.code.toList = cells := by rw [hchunk, Chunk.code_extend]
  have hline : chunk.lineAt = fun offset => lines[offset]? := by
    funext offset
    rw [hchunk, Chunk.lineAt, ← Array.getElem?_toList, Chunk.lines_extend]
  calc ((Instruction.decode 0 chunk.code.toList).map fun p => (p.2.plain, chunk.lineAt p.1)) =
      ((Instruction.decode 0 cells).map fun p => (p.2, lines[p.1]?)).map (Prod.map Instruction.plain id) := by
        rw [hcode, hline, List.map_map]
        rfl
    _ = (written.map fun p => (p.1, some p.2)).map (Prod.map Instruction.plain id) := by rw [hdecode]
    _ = written.map fun p => (p.1, some p.2) := by
        rw [List.map_map]
        exact List.map_congr_left fun p hp => congrArg (·, some p.2) (h p hp).2

end Compiled

namespace Listing

variable {c c' : Chunk}

theorem entries_eq (h : c.listing = c'.listing) :
    ((Instruction.decode 0 c.code.toList).map fun p => (⟨p.1, c.lineAt p.1, p.2.plain⟩ : Entry)) =
      (Instruction.decode 0 c'.code.toList).map fun p => ⟨p.1, c'.lineAt p.1, p.2.plain⟩ := by
  have hread := read?_listing c
  rw [h, read?_listing c'] at hread
  exact (Option.some.inj hread).symm

theorem codeAlike_of_listing_eq (h : c.listing = c'.listing) : CodeAlike c.code.toList c'.code.toList := by
  have hinstructions := congrArg (List.map Entry.instruction) (entries_eq h)
  rw [List.map_map, List.map_map] at hinstructions
  exact Instruction.codeAlike_of_decode hinstructions

theorem lineAt_of_listing_eq (h : c.listing = c'.listing) {p : Nat × Instruction}
    (hp : p ∈ Instruction.decode 0 c.code.toList) : c.lineAt p.1 = c'.lineAt p.1 := by
  have hentry := List.mem_map_of_mem (f := fun p => (⟨p.1, c.lineAt p.1, p.2.plain⟩ : Entry)) hp
  rw [entries_eq h] at hentry
  obtain ⟨q, -, hq⟩ := List.mem_map.mp hentry
  have hoffset : q.1 = p.1 := congrArg Entry.offset hq
  have hline : c'.lineAt q.1 = c.lineAt p.1 := congrArg Entry.line? hq
  rw [← hline, hoffset]

theorem eq_of_listing_eq {s s' : String} (hs : compile s = .ok c) (hs' : compile s' = .ok c')
    (h : c.listing = c'.listing) : c = c' := by
  obtain ⟨written, hc, hwritten⟩ := exists_lay_of_compile hs
  obtain ⟨written', hc', hwritten'⟩ := exists_lay_of_compile hs'
  have hentries := congrArg (List.map fun e => (e.instruction, e.line?)) (entries_eq h)
  rw [List.map_map, List.map_map] at hentries
  have hmap : (written.map fun p => (p.1, some p.2)) = written'.map fun p => (p.1, some p.2) :=
    (decode_extend hwritten hc).symm.trans (hentries.trans (decode_extend hwritten' hc'))
  have hinjective : Function.Injective fun p : Instruction × Nat => (p.1, some p.2) := by
    rintro ⟨i, line⟩ ⟨i', line'⟩ hp
    cases hp
    rfl
  rw [hc, hc', List.map_injective_iff.mpr hinjective hmap]

theorem mark_eq_question_iff (shown line? : Option Nat) : mark shown line? = ['?'] ↔ line? = none := by
  constructor
  · intro h
    have hread := readLine?_mark shown line?
    rw [h] at hread
    exact (Option.some.inj hread).symm
  · rintro rfl
    rfl

theorem Row.line?_of_mem {lineAt : Nat → Option Nat} {shown : Option Nat} {placed : List (Nat × Instruction)} {r : Row}
    (h : r ∈ place lineAt shown placed) : r.line? = lineAt r.offset := by
  induction placed generalizing shown with
  | nil => cases h
  | cons p placed ih =>
    rcases List.mem_cons.mp h with rfl | h
    · rfl
    · exact ih h

theorem line_eq_question_iff {r : Columns} (h : r ∈ table c.listing) :
    r.line = ['?'] ↔ c.lines.size ≤ Numeral.value r.offset := by
  rw [table_listing] at h
  obtain ⟨row, hrow, rfl⟩ := List.mem_map.mp h
  have hmark : row.columns.line = mark row.shown row.line? := rfl
  have hoffset : Numeral.value row.columns.offset = row.offset := value_offset row.offset
  rw [hmark, mark_eq_question_iff, hoffset, Row.line?_of_mem hrow, Chunk.lineAt, Array.getElem?_eq_none_iff]

theorem Row.place_columns (lineAt : Nat → Option Nat) (shown : Option Nat) (placed : List (Nat × Instruction)) :
    (((place lineAt shown placed).map Row.columns).map fun r => (r.offset, r.text)) =
      placed.map fun p => ((column '0' p.1).toList, p.2.text.toList) := by
  induction placed generalizing shown with
  | nil => rfl
  | cons p placed ih =>
    rw [place, List.map_cons, List.map_cons, ih]
    rfl

theorem columns_eq (c : Chunk) : ((table c.listing).map fun r => (r.offset, r.text)) =
    (table (ofCells c.code.toList)).map fun r => (r.offset, r.text) := by
  rw [table_listing, table_ofCells, Row.place_columns, Row.place_columns]

end Listing

theorem listing_lossless :
    (∀ c : Chunk,
      Listing.read? c.listing =
        some ((Instruction.decode 0 c.code.toList).map fun p => ⟨p.1, c.lines[p.1]?, p.2.plain⟩) ∧
      (∀ r ∈ Listing.table c.listing, r.line = ['?'] ↔ c.lines.size ≤ Numeral.value r.offset) ∧
      ((Listing.table c.listing).map fun r => (r.offset, r.text)) =
        (Listing.table (Listing.ofCells c.code.toList)).map fun r => (r.offset, r.text)) ∧
    (∀ c c' : Chunk, c.listing = c'.listing → CodeAlike c.code.toList c'.code.toList ∧
      ∀ p ∈ Instruction.decode 0 c.code.toList, c.lines[p.1]? = c'.lines[p.1]?) ∧
    ∀ s s' c c', compile s = .ok c → compile s' = .ok c' → c.listing = c'.listing → c = c' := by
  refine ⟨?_, ?_, ?_⟩
  · intro c
    exact ⟨Listing.read?_listing c, fun r hr => Listing.line_eq_question_iff hr, Listing.columns_eq c⟩
  · intro c c' h
    exact ⟨Listing.codeAlike_of_listing_eq h, fun p hp => Listing.lineAt_of_listing_eq h hp⟩
  · intro s s' c c' hs hs' h
    exact Listing.eq_of_listing_eq hs hs' h

theorem listing_lossless_nan :
    let c : Chunk := ⟨#[Cell.zero, Cell.nan, Opcode.halt.cell], #[1, 1]⟩
    let c' : Chunk := ⟨#[-Cell.zero, -Cell.nan, Opcode.halt.cell], #[1, 7]⟩
    let two : Chunk := ⟨#[Opcode.pushNumber.cell, Cell.ofNat 2, Opcode.halt.cell], #[2, 2, 2]⟩
    let two' : Chunk := ⟨#[Cell.zero, Cell.ofNat 2, Opcode.halt.cell], #[2, 2, 2]⟩
    c ≠ c' ∧ c.listing = c'.listing ∧ CodeAlike c.code.toList c'.code.toList ∧
      compile "\n2" = .ok two ∧ compile "\n (2.0)" = .ok two' ∧ two.listing = two'.listing ∧ two = two' := by
  intro c c' two two'
  obtain ⟨-, hchunks, hcompiled⟩ := listing_lossless
  have hne : c ≠ c' := by decide +kernel
  have hsame : c.listing = c'.listing := by decide +kernel
  have htwo : compile "\n2" = .ok two := by decide +kernel
  have htwo' : compile "\n (2.0)" = .ok two' := by decide +kernel
  have hlisting : two.listing = two'.listing := by decide +kernel
  exact ⟨hne, hsame, (hchunks c c' hsame).1, htwo, htwo', hlisting, hcompiled _ _ _ _ htwo htwo' hlisting⟩

end StackCalc
