import Allman.Bytes

/-! The two layout rules, and what a break of one of them looks like. -/

namespace Allman

inductive Rule where
  /-- The stars of a declarator stand against the name. -/
  | pointerSpacing
  /-- The brace of a block stands on a line of its own. -/
  | bracePlacement
deriving DecidableEq

namespace Rule

def all : List Rule := [pointerSpacing, bracePlacement]

/-- Rules are numbered in the order of `all`; every other number is read as the first rule. -/
def ofNumber (n : Nat) : Rule := all[n]?.getD pointerSpacing

def name : Rule → Bytes
  | pointerSpacing => ascii "pointer-spacing"
  | bracePlacement => ascii "brace-placement"

def ofName? (name : Bytes) : Option Rule := all.find? (·.name == name)

def message : Rule → Bytes
  | pointerSpacing => ascii "put '*' next to the variable name"
  | bracePlacement => ascii "'\x7b' must be on a new line"

/-- What the fix of a violation does. -/
def advice : Rule → Bytes
  | pointerSpacing => ascii "attach '*' to the name"
  | bracePlacement => ascii "move '\x7b' to its own line"

end Rule

/-- A stretch of text to be replaced. -/
structure Edit where
  start : Nat
  stop : Nat
  replacement : Bytes
deriving DecidableEq

/-- A break of a rule. The star or brace at fault stands at the offset `site`, in
the given line and column; the text from `start` to `stop` is `current`, and
`suggested` should stand there. -/
structure Violation where
  rule : Rule := .pointerSpacing
  site : Nat := 0
  line : Nat := 1
  column : Nat := 1
  start : Nat := 0
  stop : Nat := 0
  current : Bytes := []
  suggested : Bytes := []
deriving DecidableEq

namespace Violation

def toEdit (violation : Violation) : Edit :=
  ⟨violation.start, violation.stop, violation.suggested⟩

/-- Document order; of two that start together, the one that ends first. -/
def precedes (a b : Violation) : Bool :=
  if a.start ≠ b.start then a.start < b.start else a.stop < b.stop

end Violation
end Allman
