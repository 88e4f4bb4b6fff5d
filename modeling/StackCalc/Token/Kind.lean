import StackCalc.Text.Regex

/-!
# Token kinds

Each kind has a pattern. The patterns are joined into one recognizer, so where several of them match, the first in
`Kind.all` wins.
-/

namespace StackCalc

/-- `whitespace` is dropped between tokens and `symbol` is refused, so neither reaches a parser. -/
inductive Kind where
  | number | starStar | leftParen | rightParen | star | slash | percent | plus | minus
  | whitespace | symbol
deriving DecidableEq, Repr

namespace Kind

/-- All kinds in the order in which they are tried: `**` before `*`, so that a power is never two
products, and `symbol` last. -/
def all : List Kind :=
  [number, starStar, leftParen, rightParen, star, slash, percent, plus, minus, whitespace, symbol]

def priority (k : Kind) : Nat := all.idxOf k

def group : Kind → String
  | number => "number"
  | starStar => "star_star"
  | leftParen => "left_paren"
  | rightParen => "right_paren"
  | star => "star"
  | slash => "slash"
  | percent => "percent"
  | plus => "plus"
  | minus => "minus"
  | whitespace => "whitespace"
  | symbol => "anything_else"

def regex : Kind → Regex
  | number => .append (.many .digit) (.optional (.append (.text ['.']) (.many .digit)))
  | starStar => .text ['*', '*']
  | leftParen => .text ['(']
  | rightParen => .text [')']
  | star => .text ['*']
  | slash => .text ['/']
  | percent => .text ['%']
  | plus => .text ['+']
  | minus => .text ['-']
  | whitespace => .many .blank
  | symbol => .many .visible

def pattern (k : Kind) : String := k.regex.print

example : number.pattern = "[0-9]+(?:\\.[0-9]+)?" := by decide

def recognizer : Regex := .alternatives (all.map fun k => .group k.group k.regex)

def display : Kind → String
  | number => "number"
  | starStar => "**"
  | leftParen => "("
  | rightParen => ")"
  | star => "*"
  | slash => "/"
  | percent => "%"
  | plus => "+"
  | minus => "-"
  | whitespace => "whitespace"
  | symbol => "symbol"

end Kind

structure Token where
  kind : Kind
  lexeme : String
  line : Nat
deriving DecidableEq, Repr

end StackCalc
