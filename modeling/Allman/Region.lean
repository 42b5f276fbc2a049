import Allman.Bytes

/-! A C text is cut into regions: stretches of code, string and character
literals, and comments. The cut is complete. Each region starts where the one
before it stops, so classification loses no byte. -/

namespace Allman

inductive RegionKind where
  | code
  | string
  | character
  | lineComment
  | blockComment
deriving DecidableEq

namespace RegionKind

def all : List RegionKind := [code, string, character, lineComment, blockComment]

/-- Kinds are numbered in the order of `all`; every other number is read as code. -/
def ofNumber (n : Nat) : RegionKind := all[n]?.getD code

def name : RegionKind → Bytes
  | code => ascii "code"
  | string => ascii "string"
  | character => ascii "char"
  | lineComment => ascii "line-comment"
  | blockComment => ascii "block-comment"

def ofName? (name : Bytes) : Option RegionKind :=
  all.find? (·.name == name)

end RegionKind

structure Region where
  kind : RegionKind
  start : Nat
  stop : Nat
deriving DecidableEq

namespace Region

/-- The region lies inside a text of the given length. -/
def Within (length : Nat) (region : Region) : Prop :=
  region.start ≤ region.stop ∧ region.stop ≤ length

instance (length : Nat) (region : Region) : Decidable (region.Within length) :=
  inferInstanceAs (Decidable (_ ∧ _))

/-- The two bytes that open a comment stand first, with the kind of comment they open. -/
def opensComment? : Bytes → Option RegionKind
  | c :: d :: _ =>
    if c ≠ Byte.slash then none
    else if d = Byte.slash then some .lineComment
    else if d = Byte.star then some .blockComment
    else none
  | _ => none

/-- The literal that a quote opens. -/
def opensLiteral? (c : UInt8) : Option RegionKind :=
  if c = Byte.doubleQuote then some .string
  else if c = Byte.singleQuote then some .character
  else none

/-- Code runs up to the next quote or comment. -/
def codeLength : Bytes → Nat
  | [] => 0
  | c :: rest =>
    if (opensLiteral? c).isSome || (opensComment? (c :: rest)).isSome then 0
    else codeLength rest + 1

/-- The length of what follows the opening quote of a literal. A backslash hides
the byte after it, and both bytes of a carriage return and newline. A line break
that is not hidden ends the literal and is not part of it. -/
def literalLength (quote : UInt8) (hidden : Bool) : Bytes → Nat
  | [] => 0
  | c :: rest =>
    if hidden then literalLength quote (startsCrLf (c :: rest)) rest + 1
    else if c = Byte.backslash then literalLength quote true rest + 1
    else if startsLineBreak (c :: rest) then 0
    else if c = quote then 1
    else literalLength quote false rest + 1

/-- The length of what follows the two slashes of a line comment. A backslash
directly before a line break hides it; the first line break that is not hidden
ends the comment and is not part of it. -/
def lineCommentLength (hidden : Bool) : Bytes → Nat
  | [] => 0
  | c :: rest =>
    if hidden then lineCommentLength (startsCrLf (c :: rest)) rest + 1
    else if c = Byte.backslash then lineCommentLength (startsLineBreak rest) rest + 1
    else if startsLineBreak (c :: rest) then 0
    else lineCommentLength false rest + 1

/-- The length of what follows the opening of a block comment, the closing star
and slash included. A comment that is never closed runs to the end of the text. -/
def blockCommentLength : Bytes → Nat
  | [] => 0
  | c :: rest =>
    if c = Byte.star && rest.head? == some Byte.slash then 2
    else blockCommentLength rest + 1

/-- The kind and the length of the region that starts with the first byte of a
text that is not empty. -/
def first (c : UInt8) (rest : Bytes) : RegionKind × Nat :=
  match opensLiteral? c with
  | some kind => (kind, literalLength c false rest + 1)
  | none =>
    match opensComment? (c :: rest) with
    | some .lineComment => (.lineComment, lineCommentLength false (rest.drop 1) + 2)
    | some kind => (kind, blockCommentLength (rest.drop 1) + 2)
    | none => (.code, codeLength rest + 1)

theorem first_pos (c : UInt8) (rest : Bytes) : 0 < (first c rest).2 := by
  unfold first
  split
  · simp
  · split <;> simp

/-- The regions of a text whose first byte has offset `offset`. -/
def classifyFrom (offset : Nat) : Bytes → List Region
  | [] => []
  | c :: rest =>
    let (kind, length) := first c rest
    ⟨kind, offset, offset + length⟩ :: classifyFrom (offset + length) (rest.drop (length - 1))
termination_by text => text.length
decreasing_by
  rw [List.length_drop]
  exact Nat.lt_succ_of_le (Nat.sub_le _ _)

def classify (text : Bytes) : List Region := classifyFrom 0 text

/-- The region that starts at an offset, or none at the end of the text. -/
def next? (text : Bytes) (offset : Nat) : Option Region :=
  match text.drop offset with
  | [] => none
  | c :: rest =>
    let (kind, length) := first c rest
    some ⟨kind, offset, offset + length⟩

end Region
end Allman
