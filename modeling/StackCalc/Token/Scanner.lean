import StackCalc.Error
import StackCalc.Text.Lines

/-!
# Scanning

A scan splits a source text into tokens and drops the blanks between them. A scanner can scan its
text again; its line counter goes forward only, so later scans report the furthest line reached.
-/

namespace StackCalc

/-- How far the line feeds of a text have been counted: up to the byte at `offset`, which is on
`line`. -/
structure Reach where
  offset : Nat := 0
  line : Nat := 1
deriving DecidableEq, Repr

namespace Reach

def lineFeeds (bytes : ByteArray) (start stop : Nat) : Nat :=
  (bytes.extract start stop).data.count Text.lineFeed

def extend (bytes : ByteArray) (r : Reach) (offset : Nat) : Reach :=
  let stop := min offset bytes.size
  if r.offset < stop then ⟨stop, r.line + lineFeeds bytes r.offset stop⟩ else r

end Reach

def byteLength : List Char → Nat
  | [] => 0
  | c :: cs => c.utf8Size + byteLength cs

namespace Capture

def captured (m : Capture) : List (Kind × List Char) :=
  Kind.all.filterMap fun k => (m.group? k.group).map fun text => (k, text)

def classify (bytes : ByteArray) (reach : Reach) (offset : Nat) (m : Capture) :
    Except LexError (Kind × List Char) × Reach :=
  match m.captured with
  | [] => (.error (.noMatch offset), reach)
  | [found] => (.ok found, reach)
  | _ :: _ :: _ =>
    let reach := reach.extend bytes offset
    (.error (.ambiguousMatch reach.line), reach)

end Capture

theorem Kind.drop_text_length {cs : List Char} {m : Capture} (h : recognizer.capture? cs = some m) (hcs : cs ≠ []) :
    (cs.drop m.text.length).length < cs.length := by
  have htext := List.length_pos_iff.mpr (Regex.text_ne_nil (by decide) h)
  have hlength := List.length_pos_iff.mpr hcs
  rw [List.length_drop]
  omega

/-- The tokens of `cs`, which begins at the byte `offset` of its text. A character at which nothing
matches is passed over. -/
def Token.scan (bytes : ByteArray) (reach : Reach) (offset : Nat) (cs : List Char) :
    Except LexError (List Token) × Reach :=
  match cs with
  | [] => (.ok [], reach)
  | c :: rest =>
    match _h : Kind.recognizer.capture? (c :: rest) with
    | none => scan bytes reach (offset + c.utf8Size) rest
    | some m =>
      let after := (c :: rest).drop m.text.length
      let next := offset + byteLength m.text
      match m.classify bytes reach offset with
      | (.error e, reach) => (.error e, reach)
      | (.ok (.whitespace, _), reach) => scan bytes reach next after
      | (.ok (.symbol, lexeme), reach) =>
        let reach := reach.extend bytes offset
        (.error (.unexpectedSymbol (.ofList lexeme) reach.line), reach)
      | (.ok (kind, lexeme), reach) =>
        let reach := reach.extend bytes offset
        let (tokens, furthest) := scan bytes reach next after
        (tokens.map (⟨kind, .ofList lexeme, reach.line⟩ :: ·), furthest)
termination_by cs.length
decreasing_by
  · simp
  all_goals exact Kind.drop_text_length _h (List.cons_ne_nil c rest)

structure Scanner where
  source : String
  reach : Reach := {}

def Scanner.scan (s : Scanner) : Except LexError (List Token) × Scanner :=
  let (tokens, reach) := Token.scan s.source.toByteArray s.reach 0 s.source.toList
  (tokens, { s with reach })

def tokenize (source : String) : Except LexError (List Token) := (Scanner.mk source {}).scan.1

end StackCalc
