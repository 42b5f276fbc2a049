import Allman.Report

/-! What the rules see of a token is its kind and, where it is an identifier, its
lexeme. Two texts whose tokens look the same in the same order have the same
brackets and roles, and every question about declarations has the same answer in
both; only offsets, gaps and the content of literals tell the two outlines apart. -/

namespace Allman

/-- A token without its place. -/
def Token.word (token : Token) : TokenKind × Bytes := (token.kind, token.lexeme)

/-- What the rules see of a token. -/
def Token.sight (token : Token) : TokenKind × Bytes :=
  (token.kind, if token.kind = .identifier then token.lexeme else [])

section Sight
variable {token other : Token}

private theorem Token.sight_inj (same : token.sight = other.sight) :
    token.kind = other.kind ∧ (other.kind = .identifier → token.lexeme = other.lexeme) := by
  obtain ⟨kind, lexeme⟩ := Prod.mk.inj same
  refine ⟨kind, ?_⟩
  intro identifier
  rw [if_pos identifier, if_pos (kind.trans identifier)] at lexeme
  exact lexeme

private theorem Token.keyword?_congr (kind : token.kind = other.kind)
    (lexeme : other.kind = .identifier → token.lexeme = other.lexeme) : token.keyword? = other.keyword? := by
  rw [keyword?, keyword?, kind]
  exact ite_congr rfl (fun identifier => congrArg KeywordClass.ofWord? (lexeme identifier)) fun _ => rfl

private theorem Token.isPlain_congr (kind : token.kind = other.kind)
    (lexeme : other.kind = .identifier → token.lexeme = other.lexeme) : token.isPlain = other.isPlain := by
  rw [isPlain, isPlain, kind]
  by_cases identifier : other.kind = .identifier
  · rw [lexeme identifier]
  · rw [beq_eq_false_iff_ne.mpr identifier, Bool.false_and, Bool.false_and]

private theorem Token.isSpecifier_congr (kind : token.kind = other.kind)
    (lexeme : other.kind = .identifier → token.lexeme = other.lexeme) : token.isSpecifier = other.isSpecifier := by
  rw [isSpecifier, isSpecifier, keyword?_congr kind lexeme]

end Sight

def SameWords (tokens other : Array Token) : Prop := tokens.map Token.sight = other.map Token.sight

section Tokens
variable {tokens other : Array Token}

theorem SameWords.token (same : SameWords tokens other) (index : Nat) :
    (tokens[index]? = none ∧ other[index]? = none) ∨ ∃ first second, tokens[index]? = some first ∧
      other[index]? = some second ∧ first.kind = second.kind ∧
        (second.kind = .identifier → first.lexeme = second.lexeme) := by
  have found : tokens[index]?.map Token.sight = other[index]?.map Token.sight := by
    rw [← Array.getElem?_map, ← Array.getElem?_map, same]
  cases first : tokens[index]? <;> cases second : other[index]? <;> rw [first, second] at found
  · exact .inl ⟨rfl, rfl⟩
  · cases found
  · cases found
  · obtain ⟨kind, lexeme⟩ := Token.sight_inj (Option.some.inj found)
    exact .inr ⟨_, _, rfl, rfl, kind, lexeme⟩

theorem SameWords.size (same : SameWords tokens other) : tokens.size = other.size := by
  simpa using congrArg Array.size same

theorem SameWords.kind (same : SameWords tokens other) (index : Nat) :
    tokens[index]?.map Token.kind = other[index]?.map Token.kind := by
  rcases same.token index with ⟨absent, absent'⟩ | ⟨first, second, found, found', kind, -⟩
  · rw [absent, absent']
  · rw [found, found', Option.map_some, Option.map_some, kind]

private theorem previousCode?_congr (same : SameWords tokens other) (index : Nat) :
    previousCode? tokens index = previousCode? other index := by
  induction index with
  | zero => rfl
  | succ index ih =>
    rw [previousCode?, previousCode?]
    rcases same.token index with ⟨absent, absent'⟩ | ⟨first, second, found, found', kind, -⟩
    · simp only [absent, absent']
    · simp only [found, found', kind, ih]

namespace BraceRole

private theorem afterParentheses_congr (same : SameWords tokens other) (brackets : Brackets) (close : Nat) :
    afterParentheses tokens brackets close = afterParentheses other brackets close := by
  unfold afterParentheses
  cases brackets.opener? close with
  | none => rfl
  | some first =>
    simp only [Option.bind_some, previousCode?_congr same]
    cases previousCode? other first with
    | none => rfl
    | some before =>
      rw [Option.bind_some, Option.bind_some]
      rcases same.token before with ⟨absent, absent'⟩ | ⟨first, second, found, found', kind, lexeme⟩
      · simp only [absent, absent']
      · simp only [found, found', kind]
        split
        next identifier => rw [lexeme identifier]
        all_goals rfl

private theorem afterToken_congr (same : SameWords tokens other) (brackets : Brackets) (index : Nat) :
    afterToken tokens brackets index = afterToken other brackets index := by
  simp only [afterToken, previousCode?_congr same, same.kind, afterParentheses_congr same]

private theorem ofToken?_congr (same : SameWords tokens other) (brackets : Brackets)
    (roles : Array (Option BraceRole))
    (index : Nat) : ofToken? tokens brackets roles index = ofToken? other brackets roles index := by
  simp only [ofToken?, ofBrace, same.kind, afterToken_congr same]

private theorem assign_congr (same : SameWords tokens other) (brackets : Brackets) :
    assign tokens brackets = assign other brackets := by
  have size := same.size
  unfold assign
  simp only [ofToken?_congr same]
  revert size
  generalize tokens.size = count
  rintro rfl
  rfl

end BraceRole
end Tokens

namespace Outline

/-- Two outlines that differ in nothing but offsets and gaps. -/
structure Agrees (outline other : Outline) : Prop where
  words : SameWords outline.tokens other.tokens
  brackets : outline.brackets = other.brackets
  roles : outline.roles = other.roles

theorem Agrees.of_sights {text other : Bytes}
    (same : (Token.scan text (Region.classify text)).map Token.sight =
      (Token.scan other (Region.classify other)).map Token.sight) : Agrees (ofText text) (ofText other) := by
  have words : SameWords (ofText text).tokens (ofText other).tokens := by
    simp only [SameWords, ofText, ofRegions, List.map_toArray, same]
  have brackets : (ofText text).brackets = (ofText other).brackets := by
    have kinds := congrArg (List.map Prod.fst) same
    simp only [List.map_map] at kinds
    exact congrArg Brackets.ofKinds kinds
  refine ⟨words, brackets, ?_⟩
  have roles : (ofText text).roles = BraceRole.assign (ofText text).tokens (ofText text).brackets := rfl
  rw [roles, BraceRole.assign_congr words, brackets]
  rfl

theorem Agrees.of_words {text other : Bytes}
    (same : (Token.scan text (Region.classify text)).map Token.word =
      (Token.scan other (Region.classify other)).map Token.word) : Agrees (ofText text) (ofText other) := by
  have seen := congrArg (List.map fun word => (word.1, if word.1 = .identifier then word.2 else [])) same
  simp only [List.map_map] at seen
  exact of_sights seen

section Decisions
variable {outline other : Outline}

theorem Agrees.symm (agrees : Agrees outline other) : Agrees other outline :=
  ⟨agrees.words.symm, agrees.brackets.symm, agrees.roles.symm⟩

theorem Agrees.kind? (agrees : Agrees outline other) (index : Nat) : outline.kind? index = other.kind? index :=
  agrees.words.kind index

theorem Agrees.is (agrees : Agrees outline other) (index : Nat) (kind : TokenKind) :
    outline.is index kind = other.is index kind := by
  rw [Outline.is, Outline.is, agrees.kind?]

theorem Agrees.role? (agrees : Agrees outline other) (index : Nat) : outline.role? index = other.role? index := by
  rw [Outline.role?, Outline.role?, agrees.roles]

theorem Agrees.size (agrees : Agrees outline other) : outline.size = other.size := agrees.words.size

theorem Agrees.previousCode? (agrees : Agrees outline other) (index : Nat) :
    outline.previousCode? index = other.previousCode? index :=
  previousCode?_congr agrees.words index

private theorem Agrees.isPlain_at (agrees : Agrees outline other) (index : Nat) :
    outline.tokens[index]?.any Token.isPlain = other.tokens[index]?.any Token.isPlain := by
  rcases agrees.words.token index with ⟨absent, absent'⟩ | ⟨first, second, found, found', kind, lexeme⟩
  · rw [absent, absent']
  · simp only [found, found', Option.any_some, Token.isPlain_congr kind lexeme]

theorem Agrees.skipStars (agrees : Agrees outline other) (index : Nat) :
    outline.skipStars index = other.skipStars index := by
  induction index with
  | zero => rfl
  | succ index ih => simp only [Outline.skipStars, agrees.is, ih]

theorem Agrees.opensForHeader (agrees : Agrees outline other) (index : Nat) :
    outline.opensForHeader index = other.opensForHeader index := by
  rw [Outline.opensForHeader, Outline.opensForHeader, agrees.previousCode?]
  cases other.previousCode? index with
  | none => rfl
  | some before =>
    rw [Option.bind_some, Option.bind_some]
    rcases agrees.words.token before with ⟨absent, absent'⟩ | ⟨first, second, found, found', kind, lexeme⟩
    · simp only [absent, absent']
    · simp only [found, found', kind]
      by_cases identifier : second.kind = .identifier
      · rw [lexeme identifier]
      · rw [beq_eq_false_iff_ne.mpr identifier, Bool.false_and, Bool.false_and]

/-- The two tests call each other on earlier tokens, so both are settled by one induction. -/
theorem Agrees.startsDeclaration_isParameterList (agrees : Agrees outline other) (index : Nat) :
    outline.startsDeclaration index = other.startsDeclaration index ∧
    outline.isParameterList index = other.isParameterList index := by
  induction index using Nat.strongRecOn with
  | ind index ih =>
  cases index with
  | zero => simp only [Outline.startsDeclaration, Outline.isParameterList, and_self]
  | succ before =>
  constructor
  · rw [Outline.startsDeclaration, Outline.startsDeclaration]
    rcases agrees.words.token before with ⟨absent, absent'⟩ | ⟨first, second, found, found', kind, lexeme⟩
    · simp only [absent, absent']
    · simp only [found, found', kind, agrees.role?, agrees.opensForHeader, (ih before (Nat.lt_succ_self _)).2]
      -- Only an identifier shows its lexeme, and only a comma looks at the parenthesis around it.
      split <;> try rfl
      next identifier => rw [lexeme identifier]
      next =>
        rw [agrees.brackets]
        cases around : other.brackets.parent? before with
        | none => rfl
        | some outer => exact (ih outer (Nat.lt_succ_of_lt (Brackets.parent?_lt around))).2
  · rw [Outline.isParameterList.eq_def, Outline.isParameterList.eq_def]
    simp only [agrees.is]
    rcases agrees.words.token before with ⟨absent, absent'⟩ | ⟨first, second, found, found', kind, lexeme⟩
    · simp only [absent, absent']
    · simp only [found, found', kind, Token.isPlain_congr kind lexeme, agrees.brackets]
      cases before with
      | zero => rfl
      | succ last =>
        have earlier := (ih (other.skipStars last) (by have := other.skipStars_le last; omega)).1
        simp only [agrees.skipStars, earlier]
        rcases agrees.words.token (other.skipStars last) with ⟨absent, absent'⟩ | ⟨word, word', at_, at', kind, lexeme⟩
        · simp only [absent, absent']
        · simp only [at_, at', Token.isSpecifier_congr kind lexeme, Token.isPlain_congr kind lexeme]

theorem Agrees.startsDeclaration (agrees : Agrees outline other) (index : Nat) :
    outline.startsDeclaration index = other.startsDeclaration index :=
  (agrees.startsDeclaration_isParameterList index).1

theorem Agrees.isTypePosition (agrees : Agrees outline other) (index : Nat) :
    outline.isTypePosition index = other.isTypePosition index := by
  rw [Outline.isTypePosition, Outline.isTypePosition]
  rcases agrees.words.token index with ⟨absent, absent'⟩ | ⟨first, second, found, found', kind, lexeme⟩
  · simp only [absent, absent']
  · simp only [found, found', kind, agrees.startsDeclaration]
    by_cases identifier : second.kind = .identifier
    · rw [lexeme identifier]
    · rw [beq_eq_false_iff_ne.mpr identifier, Bool.false_and, Bool.false_and]

theorem Agrees.skipSuffixes (agrees : Agrees outline other) (limit index : Nat) (parameters : Bool) :
    outline.skipSuffixes limit index parameters = other.skipSuffixes limit index parameters := by
  induction left : limit - index using Nat.strongRecOn generalizing index parameters with
  | ind left ih =>
  subst left
  rw [Outline.skipSuffixes, Outline.skipSuffixes, agrees.brackets]
  simp only [agrees.is]
  split
  next before =>
    split
    next =>
      cases closed : other.brackets.closer? index with
      | none => rfl
      | some last =>
        have further := Brackets.lt_closer? closed
        exact ih _ (by omega) _ _ rfl
    next => rfl
  next => rfl

theorem Agrees.endsDeclarator (agrees : Agrees outline other) (index : Nat) :
    outline.endsDeclarator index = other.endsDeclarator index := by
  simp only [Outline.endsDeclarator, agrees.size, agrees.skipSuffixes, agrees.kind?]

theorem Agrees.statementStart (agrees : Agrees outline other) (outer : Option Nat) (index : Nat) :
    outline.statementStart outer index = other.statementStart outer index := by
  induction index using Nat.strongRecOn with
  | ind index ih =>
  cases index with
  | zero => rw [Outline.statementStart, Outline.statementStart]
  | succ last =>
    rw [Outline.statementStart, Outline.statementStart, agrees.brackets]
    simp only [agrees.is, agrees.role?]
    split
    · rfl
    · cases opened : other.brackets.opener? last with
      | none => exact ih last (Nat.lt_succ_self _)
      | some first => exact ih first (Nat.lt_succ_of_lt (Brackets.opener?_lt opened))

theorem Agrees.inDeclaration (agrees : Agrees outline other) (index : Nat) :
    outline.inDeclaration index = other.inDeclaration index := by
  rw [Outline.inDeclaration, Outline.inDeclaration, agrees.brackets]
  simp only [agrees.statementStart, agrees.role?, agrees.is, agrees.isPlain_at]
  split
  · rfl
  · rcases agrees.words.token (other.statementStart (other.brackets.parent? index) index) with
      ⟨absent, absent'⟩ | ⟨first, second, found, found', kind, lexeme⟩
    · simp only [absent, absent']
    · simp only [found, found', Token.isSpecifier_congr kind lexeme, Token.isPlain_congr kind lexeme]

theorem Agrees.isGroupedDeclarator (agrees : Agrees outline other) (first next : Nat) :
    outline.isGroupedDeclarator first next = other.isGroupedDeclarator first next := by
  simp only [Outline.isGroupedDeclarator, agrees.brackets, agrees.isPlain_at, agrees.skipSuffixes,
    agrees.isTypePosition, agrees.is]

/-- Whether stars belong to a declarator does not depend on the layout. -/
theorem Agrees.isDeclarator (agrees : Agrees outline other) (previous next : Nat) :
    outline.isDeclarator previous next = other.isDeclarator previous next := by
  rw [Outline.isDeclarator, Outline.isDeclarator]
  rcases agrees.words.token previous with ⟨absent, absent'⟩ | ⟨before, before', found, found', kind, lexeme⟩
  · simp only [absent, absent']
  rcases agrees.words.token next with ⟨absent, absent'⟩ | ⟨after, after', at_, at', kind', lexeme'⟩
  · simp only [absent, absent', found, found']
  simp only [found, found', at_, at', kind, Outline.declaresAfterType, Outline.declaresAfterName,
    Outline.canFollowStars, Token.isPlain_congr kind' lexeme', Token.keyword?_congr kind' lexeme', kind',
    agrees.startsDeclaration, agrees.endsDeclarator, agrees.inDeclaration, agrees.isGroupedDeclarator]
  split
  next identifier => rw [lexeme identifier]
  all_goals rfl

end Decisions
end Outline
end Allman
