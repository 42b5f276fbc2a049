import Allman.Outline

/-! Telling declarations from expressions without a symbol table. A sequence of
tokens counts as a declaration when it has the shape that C would read as one if
every leading identifier named a type. Each test looks only at tokens before its
own, or jumps forward over paired brackets, so all of them end. -/

namespace Allman.Outline

/-- The nearest token at or before `index` that is no star; the first token ends the search. -/
def skipStars (outline : Outline) : Nat → Nat
  | 0 => 0
  | index + 1 => if outline.is (index + 1) .star then outline.skipStars index else index + 1

theorem skipStars_le (outline : Outline) (index : Nat) : outline.skipStars index ≤ index := by
  induction index with
  | zero => exact Nat.le_refl _
  | succ index ih =>
    unfold skipStars
    split
    · exact Nat.le_succ_of_le ih
    · exact Nat.le_refl _

/-- The parenthesis at `index` opens the header of a `for` statement. -/
def opensForHeader (outline : Outline) (index : Nat) : Bool :=
  match (outline.previousCode? index).bind (outline.tokens[·]?) with
  | some token => token.kind == .identifier && token.lexeme == ascii "for"
  | none => false

mutual

/-- A declaration may start at `index`, going by the token before it. -/
def startsDeclaration (outline : Outline) (index : Nat) : Bool :=
  match index with
  | 0 => true
  | before + 1 =>
    match outline.tokens[before]? with
    | none => false
    | some token =>
      match token.kind with
      | .semicolon | .directive => true
      | .leftBrace | .rightBrace => outline.role? before == some .block
      | .identifier =>
        match KeywordClass.ofWord? token.lexeme with
        | some .storage | some .qualifier | some .tag => true
        | _ => false
      | .leftParen => outline.opensForHeader before || outline.isParameterList before
      | .comma =>
        match _ : outline.brackets.parent? before with
        | some outer => outline.isParameterList outer
        | none => false
      | _ => false
termination_by index
decreasing_by
  · omega
  · have := Brackets.parent?_lt (by assumption)
    omega

/-- The parenthesis at `index` opens the parameters of a function that is being
declared: a name with a type before it stands there, or a declarator in
parentheses that starts with a star. -/
def isParameterList (outline : Outline) (index : Nat) : Bool :=
  match index with
  | 0 => false
  | before + 1 =>
    if !outline.is (before + 1) .leftParen then false
    else
      match outline.tokens[before]? with
      | none => false
      | some token =>
        if token.kind = .rightParen then
          match outline.brackets.opener? before with
          | some first => first + 1 < before && outline.is (first + 1) .star
          | none => false
        else if !token.isPlain then false
        else
          match before with
          | 0 => false
          | last + 1 =>
            let type := outline.skipStars last
            match outline.tokens[type]? with
            | none => false
            | some word =>
              word.isSpecifier || (word.isPlain && outline.startsDeclaration type)
termination_by index
decreasing_by
  have := skipStars_le outline last
  omega

end

/-- The token names a type: it is a type keyword or a qualifier, or a plain name
where a declaration may start. -/
def isTypePosition (outline : Outline) (index : Nat) : Bool :=
  match outline.tokens[index]? with
  | none => false
  | some token =>
    token.kind == .identifier &&
      match KeywordClass.ofWord? token.lexeme with
      | some .type | some .qualifier => true
      | some _ => false
      | none => outline.startsDeclaration index

/-- Goes over paired parentheses and square brackets that follow one another
before `limit`. The flag tells whether one of them, or `parameters`, was a
parenthesis. -/
def skipSuffixes (outline : Outline) (limit index : Nat) (parameters : Bool) : Nat × Bool :=
  if _ : index < limit then
    if outline.is index .leftBracket || outline.is index .leftParen then
      match _ : outline.brackets.closer? index with
      | some last =>
        outline.skipSuffixes limit (last + 1) (parameters || outline.is index .leftParen)
      | none => (index, parameters)
    else (index, parameters)
  else (index, parameters)
termination_by limit - index
decreasing_by
  have := Brackets.lt_closer? (by assumption)
  omega

/-- What follows the name at `index` can follow a declarator. A brace can do so
only after parameters, as the body of a function. -/
def endsDeclarator (outline : Outline) (index : Nat) : Bool :=
  let (next, parameters) := outline.skipSuffixes outline.size (index + 1) false
  match outline.kind? next with
  | some .semicolon | some .comma | some .assign | some .rightParen | some .colon => true
  | some .leftBrace => parameters
  | _ => false

/-- The first token of the statement that reaches up to `index`, where `outer` is
the bracket around it. Paired brackets are passed over as a whole. -/
def statementStart (outline : Outline) (outer : Option Nat) (index : Nat) : Nat :=
  match index with
  | 0 => 0
  | last + 1 =>
    if outline.is last .semicolon || outline.is last .directive || outer == some last
        || (outline.is last .rightBrace && outline.role? last == some .block) then last + 1
    else
      match _ : outline.brackets.opener? last with
      | some first => outline.statementStart outer first
      | none => outline.statementStart outer last
termination_by index
decreasing_by
  · have := Brackets.opener?_lt (by assumption)
    omega
  · omega

/-- The statement that holds the token at `index` starts as a declaration does:
with a specifier, or with a name, perhaps some stars, and another name. -/
def inDeclaration (outline : Outline) (index : Nat) : Bool :=
  let outer := outline.brackets.parent? index
  let first := outline.statementStart outer index
  if outer.any (outline.role? · ≠ some .block) || index ≤ first then false
  else
    match outline.tokens[first]? with
    | none => false
    | some word =>
      word.isSpecifier ||
        (word.isPlain &&
          let name := first + 1 +
            ((List.range' (first + 1) (index - (first + 1))).takeWhile (outline.is · .star)).length
          name < index && outline.tokens[name]?.any Token.isPlain)

end Allman.Outline
