import Allman.Proofs.StrictStars

/-! The rule for braces, read strictly, and both rules together. Whatever regions a text
is cut into, no test and no search of the rules reads outside of the tokens, of their
links and roles, or of the text, and all of them end after no more rounds than there
are tokens and bytes. What they find is then what the rules find. -/

namespace Allman
namespace Strict

section Texts

def codeBefore? (text : Bytes) (rounds offset : Nat) : Strict (Option Nat) := do
  let stop ← trimBack text Byte.isBlank 0 rounds offset
  if stop = 0 then return none
  let c ← present text[← before stop]?
  return if c = Byte.newline then none else some stop

def absorbBlanks (text : Bytes) (rounds offset : Nat) : Strict Nat := do
  let rest ← skipBlanks text rounds offset
  if rest = text.length then return rest
  let c ← present text[rest]?
  if c = Byte.newline then return rest
  if c = Byte.carriageReturn && rest + 1 < text.length then
    let d ← present text[rest + 1]?
    return if d = Byte.newline then rest else offset
  return offset

def lineBreakAfter (text : Bytes) (offset : Nat) : Strict Bytes := do
  match nextNewline? text offset with
  | none => return [Byte.newline]
  | some place =>
    if place = 0 then return [Byte.newline]
    let c ← present text[← before place]?
    return if c = Byte.carriageReturn then [Byte.carriageReturn, Byte.newline] else [Byte.newline]

def indentation (lines : Lines) (rounds number : Nat) : Strict Bytes := do
  let content ← line lines rounds number
  cut content 0 (← skipBlanks content rounds 0)

variable {text : Bytes} {offset rounds : Nat}

private theorem codeBefore?_eq (inside : offset ≤ text.length) (enough : offset < rounds) :
    codeBefore? text rounds offset =
      .ok (if startsLine text offset then none else some (trimEnd Byte.isBlank (text.take offset)).length) := by
  have here : slice text 0 offset = text.take offset := rfl
  have upto (place : Nat) (below : place < (trimEnd Byte.isBlank (text.take offset)).length) :
      (trimEnd Byte.isBlank (text.take offset))[place]? = text[place]? := by
    have short := length_trimEnd_le Byte.isBlank (text.take offset)
    rw [List.length_take] at short
    rw [getElem?_trimEnd Byte.isBlank _ below, List.getElem?_take_of_lt (by omega)]
  rw [codeBefore?, trimBack_eq (Nat.zero_le offset) inside enough, ok_bind, here, Nat.zero_add, startsLine_eq_getLast?]
  generalize trimEnd Byte.isBlank (text.take offset) = trimmed at upto
  rcases trimmed.eq_nil_or_concat with rfl | ⟨front, c, rfl⟩
  · rfl
  · rw [List.concat_eq_append] at upto ⊢
    have there : text[front.length]? = some c := by
      rw [← upto front.length (by simp), List.getElem?_concat_length]
    rw [List.length_append, List.length_singleton, if_neg (Nat.succ_ne_zero _), before_succ, ok_bind, there, present_some,
      ok_bind, List.getLast?_concat, Option.all_some]
    by_cases newline : c = Byte.newline <;> simp [newline]

private theorem add_blanks_le (inside : offset ≤ text.length) :
    offset + ((text.drop offset).takeWhile Byte.isBlank).length ≤ text.length := by
  have short := (List.takeWhile_prefix (l := text.drop offset) Byte.isBlank).length_le
  rw [List.length_drop] at short
  omega

private theorem absorbBlanks_le (inside : offset ≤ text.length) :
    Outline.absorbBlanks text offset ≤ text.length := by
  rw [Outline.absorbBlanks]
  split
  · exact add_blanks_le inside
  · exact inside

theorem absorbBlanks_eq (inside : offset ≤ text.length) (enough : text.length < rounds) :
    absorbBlanks text rounds offset = .ok (Outline.absorbBlanks text offset) := by
  have within := add_blanks_le inside
  rw [absorbBlanks, skipBlanks_eq inside enough, ok_bind, Outline.absorbBlanks, dropWhile_drop]
  generalize offset + ((text.drop offset).takeWhile Byte.isBlank).length = rest at within
  rcases Nat.eq_or_lt_of_le within with rfl | below
  · rw [if_pos rfl, List.drop_length]
    rfl
  · have there : text[rest]? = some text[rest] := List.getElem?_eq_getElem below
    rw [if_neg (Nat.ne_of_lt below), there, present_some, ok_bind, List.drop_eq_getElem_cons below]
    generalize text[rest] = c
    rcases Nat.lt_or_ge (rest + 1) text.length with more | last
    · have there' : text[rest + 1]? = some text[rest + 1] := List.getElem?_eq_getElem more
      rw [there', present_some, ok_bind, List.drop_eq_getElem_cons more]
      generalize text[rest + 1] = d
      by_cases newline : c = Byte.newline
      · simp [startsLineBreak, newline]
      · by_cases returns : c = Byte.carriageReturn <;> by_cases closes : d = Byte.newline <;>
          simp +decide [startsLineBreak, startsCrLf, newline, returns, closes, more]
    · rw [List.drop_eq_nil_of_le last]
      by_cases newline : c = Byte.newline <;> simp [startsLineBreak, startsCrLf, newline, Nat.not_lt.mpr last]

theorem lineBreakAfter_eq (text : Bytes) (offset : Nat) :
    lineBreakAfter text offset = .ok (Outline.lineBreakAfter text offset) := by
  rw [lineBreakAfter, Outline.lineBreakAfter]
  cases found : nextNewline? text offset with
  | none => rfl
  | some place =>
    cases place with
    | zero => rfl
    | succ last =>
      have below : last < text.length := by
        obtain ⟨distance, newline, here⟩ := Option.map_eq_some_iff.mp found
        have bound := (List.findIdx?_eq_some_iff_getElem.mp newline).1
        rw [List.length_drop] at bound
        omega
      have there : text[last]? = some text[last] := List.getElem?_eq_getElem below
      simp only [Nat.succ_ne_zero, if_false, before_succ, ok_bind, there, present_some, Option.some_inj]
      split <;> rfl

private theorem length_line_le (lines : Lines) (number : Nat) : (lines.line number).length ≤ lines.text.length := by
  cases number with
  | zero => exact Nat.zero_le _
  | succ index =>
    rw [Lines.line]
    split
    next => exact Nat.zero_le _
    next start _ =>
      apply Nat.le_trans (length_trimEnd_le Byte.isLineEnd _)
      rw [slice, List.length_take, List.length_drop]
      omega

private theorem indentation_eq (text : Bytes) (number : Nat) (enough : text.length < rounds) :
    indentation (Lines.ofText text) rounds number = .ok (((Lines.ofText text).line number).takeWhile Byte.isBlank) := by
  have short := length_line_le (Lines.ofText text) number
  have front := List.takeWhile_prefix (l := (Lines.ofText text).line number) Byte.isBlank
  rw [indentation, line_eq text number enough, ok_bind]
  generalize (Lines.ofText text).line number = content at *
  rw [skipBlanks_eq (Nat.zero_le _) (Nat.lt_of_le_of_lt short enough), ok_bind, Nat.zero_add, List.drop_zero,
    cut_eq (Nat.zero_le _) front.length_le]
  exact congrArg _ (List.prefix_iff_eq_take.mp front).symm

end Texts

section Braces
variable (outline : Outline)

def owningLine (rounds index : Nat) : Strict Nat := do
  let brace ← token outline index
  let own := (outline.position brace).line
  match ← previousCode outline rounds index with
  | none => return own
  | some close =>
    if !outline.is close .rightParen then return own
    match ← partner outline close with
    | none => return own
    | some first =>
      if let some word ← previousCode outline rounds first then
        if outline.is word .identifier then return (outline.position (← token outline word)).line
      return (outline.position (← token outline first)).line

def checkBrace (rounds index : Nat) : Strict (Option Violation) := do
  if !outline.is index .leftBrace then return none
  if (← role outline index) ≠ some .block then return none
  let brace ← token outline index
  match ← codeBefore? outline.text rounds brace.start with
  | none => return none
  | some start =>
    match ← previousCode outline rounds index with
    | none => return none
    | some previous =>
      if hasNewline (← gap outline previous index) then return none
      let stop ← absorbBlanks outline.text rounds brace.stop
      let indent ← indentation outline.lines rounds (← owningLine outline rounds index)
      let ending ← lineBreakAfter outline.text brace.start
      let current ← cut outline.text start stop
      let position := outline.position brace
      return some {
        rule := .bracePlacement
        site := brace.start
        line := position.line
        column := position.column
        start
        stop
        current
        suggested := ending ++ indent ++ [Byte.leftBrace] }

def braceViolations (rounds : Nat) : Strict (List Violation) :=
  (List.range outline.size).filterMapM (checkBrace outline rounds)

end Braces

section Agreement
variable {outline : Outline} {index rounds : Nat}

theorem owningLine_eq (legible : outline.Legible) (enough : outline.size ≤ rounds) {brace : Token}
    (found : outline.tokens[index]? = some brace) :
    owningLine outline rounds index = .ok (outline.owningLine index brace) := by
  have inside : index < outline.size := (Array.getElem?_eq_some_iff.mp found).1
  simp only [owningLine, token, found, present_some, ok_bind, Outline.owningLine,
    previousCode_eq (Nat.le_of_lt inside) (Nat.lt_of_lt_of_le inside enough)]
  cases precedes : outline.previousCode? index with
  | none => rfl
  | some close =>
    obtain ⟨earlier, last, there⟩ := previousCode?_some precedes
    have inside' := Nat.lt_trans earlier inside
    by_cases closes : outline.is close .rightParen
    · have opens := partner_of_closes legible there (kind_of_is there closes ▸ rfl)
      simp only [closes, Bool.not_true, Bool.false_eq_true, if_false, if_true, opens, ok_bind]
      cases opened : outline.brackets.opener? close with
      | none => rfl
      | some first =>
        have before := Nat.lt_trans (Brackets.opener?_lt opened) inside'
        obtain ⟨paren, here⟩ := exists_token before
        simp only [previousCode_eq (Nat.le_of_lt before) (Nat.lt_of_lt_of_le before enough), ok_bind, here, present_some]
        cases leads : outline.previousCode? first with
        | none => rfl
        | some named =>
          obtain ⟨-, word, there'⟩ := previousCode?_some leads
          simp only [is_of_token there', there', present_some, ok_bind, Option.bind_some, decide_eq_true_eq]
          split <;> rfl
    · simp only [closes]
      rfl

private theorem cut_brace (legible : outline.Legible) {brace : Token} (found : outline.tokens[index]? = some brace)
    (kind : brace.kind = .leftBrace) :
    let start := (trimEnd Byte.isBlank (outline.text.take brace.start)).length
    let stop := Outline.absorbBlanks outline.text brace.stop
    cut outline.text start stop = .ok (slice outline.text start stop) := by
  have within := legible.inside index brace found
  have trimmed := length_trimEnd_le Byte.isBlank (outline.text.take brace.start)
  have forward : brace.start < brace.stop := by
    apply within.forward
    rw [kind]
    rfl
  have behind := (absorbBlanks_spaces outline.text brace.stop).1
  rw [List.length_take] at trimmed
  apply cut_eq
  · omega
  · exact absorbBlanks_le within.stop_le

private theorem checkBrace_eq (legible : outline.Legible) (enough : outline.size + outline.text.length < rounds)
    (inside : index < outline.size) : checkBrace outline rounds index = .ok (outline.checkBrace? index) := by
  obtain ⟨brace, found⟩ := exists_token inside
  have within := legible.inside index brace found
  have few : outline.text.length < rounds := by omega
  have margin (number : Nat) : indentation outline.lines rounds number = _ :=
    legible.lines ▸ indentation_eq outline.text number few
  simp only [checkBrace, Outline.checkBrace?, role_eq legible inside, token, found, present_some, ok_bind,
    is_of_token found, codeBefore?_eq within.start_le (Nat.lt_of_le_of_lt within.start_le few),
    previousCode_eq (Nat.le_of_lt inside) (show index < rounds by omega)]
  cases precedes : outline.previousCode? index with
  | none =>
    by_cases kind : brace.kind = .leftBrace <;> by_cases role : outline.role? index = some .block <;>
      cases startsLine outline.text brace.start <;> simp [kind, role]
  | some previous =>
    have earlier := (previousCode?_some precedes).1
    by_cases kind : brace.kind = .leftBrace
    · have whole := cut_brace legible found kind
      simp only [gap_eq legible (Nat.lt_trans earlier inside) inside, ok_bind, absorbBlanks_eq within.stop_le few,
        owningLine_eq legible (show outline.size ≤ rounds by omega) found, lineBreakAfter_eq, margin]
      cases startsLine outline.text brace.start with
      | true => simp [kind]
      | false =>
        simp only [Bool.false_eq_true, if_false, whole, ok_bind]
        by_cases role : outline.role? index = some .block <;> cases hasNewline (outline.gap previous index) <;>
          simp [kind, role]
    · simp [kind]

theorem braceViolations_eq (legible : outline.Legible) (enough : outline.size + outline.text.length < rounds) :
    braceViolations outline rounds = .ok outline.braceViolations := by
  apply filterMapM_eq
  intro index member
  exact checkBrace_eq legible enough (List.mem_range.mp member)

/-- The tests and searches of both rules, read strictly, give what they give otherwise:
none of them faults, no loop takes more than `rounds` rounds, and no recursion goes deeper. -/
structure Faultless (outline : Outline) (rounds : Nat) : Prop where
  startsDeclaration : ∀ index ≤ outline.size,
    startsDeclaration outline rounds index = .ok (outline.startsDeclaration index)
  isParameterList : ∀ index, isParameterList outline rounds index = .ok (outline.isParameterList index)
  isTypePosition : ∀ index, isTypePosition outline rounds index = .ok (outline.isTypePosition index)
  endsDeclarator : ∀ index, endsDeclarator outline rounds index = .ok (outline.endsDeclarator index)
  inDeclaration : ∀ index < outline.size, inDeclaration outline rounds index = .ok (outline.inDeclaration index)
  isGroupedDeclarator : ∀ first next, outline.is first .leftParen = true →
    isGroupedDeclarator outline rounds first next = .ok (outline.isGroupedDeclarator first next)
  isDeclarator : ∀ previous < outline.size, ∀ next,
    isDeclarator outline rounds previous next = .ok (outline.isDeclarator previous next)
  starChains : starChains outline rounds = .ok (outline.starRuns.map Outline.runBounds)
  pointerViolations : pointerViolations outline rounds = .ok outline.pointerViolations
  owningLine : ∀ index brace, outline.tokens[index]? = some brace →
    owningLine outline rounds index = .ok (outline.owningLine index brace)
  braceViolations : braceViolations outline rounds = .ok outline.braceViolations

end Agreement
end Strict

/-- Both rules may be run on the tokens of any regions of a text. -/
theorem rules_faultless (text : Bytes) (regions : List Region) (within : ∀ region ∈ regions, region.Within text.length)
    (rounds : Nat) (enough : (Outline.ofRegions text regions).size + text.length < rounds) :
    Strict.Faultless (Outline.ofRegions text regions) rounds := by
  have legible := Outline.legible_ofRegions within
  have tokens : (Outline.ofRegions text regions).size < rounds := by omega
  have upto := Nat.le_of_lt tokens
  constructor
  · exact fun index inside => Strict.startsDeclaration_eq legible inside (Nat.lt_of_le_of_lt inside tokens)
  · exact Strict.isParameterList_eq legible upto (Nat.zero_lt_of_lt tokens)
  · exact Strict.isTypePosition_eq legible upto
  · exact Strict.endsDeclarator_eq legible tokens
  · exact fun index inside => Strict.inDeclaration_eq legible inside (Nat.lt_trans inside tokens)
  · exact fun first next paren => Strict.isGroupedDeclarator_eq legible upto paren next
  · exact fun previous inside next => Strict.isDeclarator_eq legible tokens inside next
  · exact Strict.starChains_eq legible tokens
  · exact Strict.pointerViolations_eq legible tokens
  · exact fun index brace found => Strict.owningLine_eq legible upto found
  · exact Strict.braceViolations_eq legible enough

def oneLine : Bytes := ascii "int* f(int* p)\x7b"

/-- Two regions that overlap, with an empty one between them, and one that lies in front of where they end. -/
def jumbled : List Region := [⟨.code, 0, 8⟩, ⟨.blockComment, 9, 9⟩, ⟨.code, 7, 15⟩, ⟨.string, 4, 6⟩]

/-- The empty region takes a letter out of the second type, so the second star follows two words. -/
theorem rules_faultless_jumbled :
    (∀ region ∈ jumbled, region.Within oneLine.length) ∧
    (Outline.ofRegions oneLine jumbled).size + oneLine.length < 26 ∧
    Strict.pointerViolations (Outline.ofRegions oneLine jumbled) 26 =
      .ok [{ site := 3, column := 4, start := 3, stop := 5, current := ascii "* ", suggested := ascii " *" }] ∧
    Strict.braceViolations (Outline.ofRegions oneLine jumbled) 26 =
      .ok [{ rule := .bracePlacement, site := 14, column := 15, start := 14, stop := 15,
             current := ascii "\x7b", suggested := ascii "\n\x7b" }] := by
  have within : ∀ region ∈ jumbled, region.Within oneLine.length := by decide +kernel
  have enough : (Outline.ofRegions oneLine jumbled).size + oneLine.length < 26 := by decide +kernel
  have faultless := rules_faultless oneLine jumbled within 26 enough
  refine ⟨within, enough, ?_, ?_⟩
  · exact faultless.pointerViolations.trans (congrArg Except.ok (by decide +kernel))
  · exact faultless.braceViolations.trans (congrArg Except.ok (by decide +kernel))

end Allman
