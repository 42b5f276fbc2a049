import Allman.Proofs.StrictReading

/-! The tests for declarations, read strictly. They call one another for tokens further
and further in front, and they jump from bracket to bracket, so each of them ends after
no more rounds than there are tokens: a bracket around a token stands before it, and so
does the bracket that a token closes, while the one that closes it stands behind. -/

namespace Allman

namespace Brackets
variable {kinds : List TokenKind} {brackets : Brackets} {kind : TokenKind} {index : Nat}

private theorem Consistent.partner?_of_opens (consistent : Consistent kinds brackets)
    (found : kinds[index]? = some kind)
    (opens : kind.isOpener = true) : brackets.partner? index = brackets.closer? index := by
  cases opened : brackets.opener? index with
  | none => rw [partner?, opened, Option.none_or]
  | some first =>
    have pairs := consistent.pairs first index ((consistent.closed first index).mpr opened)
    rw [(pairs.last_closes found).1] at opens
    cases opens

private theorem Consistent.partner?_of_closes (consistent : Consistent kinds brackets)
    (found : kinds[index]? = some kind)
    (closes : kind.opener?.isSome = true) : brackets.partner? index = brackets.opener? index := by
  cases closed : brackets.closer? index with
  | none => rw [partner?, closed, Option.or_none]
  | some last =>
    have opens := (consistent.pairs index last closed).first_opens found
    rw [TokenKind.opener?_of_isOpener opens] at closes
    cases closes

/-- Only a closing bracket closes another. -/
theorem Consistent.opener?_of_other (consistent : Consistent kinds brackets) (found : kinds[index]? = some kind)
    (other : kind.opener?.isSome = false) : brackets.opener? index = none := by
  cases opened : brackets.opener? index with
  | none => rfl
  | some first =>
    have pairs := consistent.pairs first index ((consistent.closed first index).mpr opened)
    rw [(pairs.last_closes found).2] at other
    obtain ⟨opening, -, opens, -, -⟩ := pairs
    rw [opens] at other
    cases other

end Brackets

namespace Outline

def leadsDeclaration (outline : Outline) (first index : Nat) : Bool :=
  first < index && outline.tokens[first]?.any fun word =>
    word.isSpecifier || (word.isPlain &&
      let name := first + 1 + ((List.range' (first + 1) (index - (first + 1))).takeWhile (outline.is · .star)).length
      name < index && outline.tokens[name]?.any Token.isPlain)

/-- A declaration lies in a block or outside of all brackets. -/
theorem inDeclaration_eq_leads (outline : Outline) (index : Nat) : outline.inDeclaration index =
    ((outline.brackets.parent? index).all (outline.role? · == some .block) &&
      outline.leadsDeclaration (outline.statementStart (outline.brackets.parent? index) index) index) := by
  have around (outer : Option Nat) :
      outer.any (outline.role? · ≠ some .block) = !outer.all (outline.role? · == some .block) := by
    cases outer with
    | none => rfl
    | some outer => simp [beq_eq_decide]
  simp only [inDeclaration, leadsDeclaration, around]
  generalize outline.statementStart _ index = first
  cases (outline.brackets.parent? index).all (outline.role? · == some .block) with
  | false => rfl
  | true =>
    rcases Nat.lt_or_ge first index with before | behind
    · cases outline.tokens[first]? <;> simp [before, Nat.not_le.mpr before]
    · simp [behind, Nat.not_lt.mpr behind]

end Outline

section Kinds
variable {outline : Outline} {index : Nat} {token : Token}

private theorem kinds_of_token (found : outline.tokens[index]? = some token) :
    outline.kinds[index]? = some token.kind := by
  rw [outline.getElem?_kinds, Outline.kind?, found]
  rfl

theorem is_of_token (found : outline.tokens[index]? = some token) (kind : TokenKind) :
    outline.is index kind = decide (token.kind = kind) := by
  rw [Outline.is, Outline.kind?, found, Option.map_some, Option.some_beq_some, beq_eq_decide]

theorem kind_of_is {kind : TokenKind} (found : outline.tokens[index]? = some token)
    (same : outline.is index kind = true) : token.kind = kind := by
  rw [is_of_token found] at same
  exact of_decide_eq_true same

end Kinds

namespace Strict

section Declarations
variable (outline : Outline)

def skipStars (rounds index : Nat) : Strict Nat :=
  loop (fun index => do
    if index = 0 || !outline.is index .star then return .inr index
    return .inl (← before index)) rounds index

def opensForHeader (rounds index : Nat) : Strict Bool := do
  match ← previousCode outline rounds index with
  | none => return false
  | some last =>
    let token ← token outline last
    return token.kind == .identifier && token.lexeme == ascii "for"

mutual

def startsDeclaration : Nat → Nat → Strict Bool
  | 0, _ => .error .outOfRounds
  | rounds + 1, index => do
    if index = 0 then return true
    let last ← before index
    let token ← token outline last
    match token.kind with
    | .semicolon | .directive => return true
    | .leftBrace | .rightBrace => return (← role outline last) == some .block
    | .identifier =>
      match KeywordClass.ofWord? token.lexeme with
      | some .storage | some .qualifier | some .tag => return true
      | _ => return false
    | .leftParen =>
      if ← opensForHeader outline rounds last then return true
      isParameterList rounds last
    | .comma =>
      match ← parent outline last with
      | none => return false
      | some outer => if outline.is outer .leftParen then isParameterList rounds outer else return false
    | _ => return false

def isParameterList : Nat → Nat → Strict Bool
  | 0, _ => .error .outOfRounds
  | rounds + 1, index => do
    if !outline.is index .leftParen || index = 0 then return false
    let last ← before index
    let name ← token outline last
    if name.kind = .rightParen then
      match ← partner outline last with
      | none => return false
      | some first => return first + 1 < last && outline.is (first + 1) .star
    else if !name.isPlain || last = 0 then return false
    else
      let type ← skipStars outline rounds (← before last)
      let word ← token outline type
      if word.kind = .star then return false
      else if word.isSpecifier then return true
      else if word.isPlain then startsDeclaration rounds type
      else return false

end

def isTypePosition (rounds index : Nat) : Strict Bool := do
  if outline.size ≤ index then return false
  let token ← token outline index
  if token.kind ≠ .identifier then return false
  match KeywordClass.ofWord? token.lexeme with
  | some .type | some .qualifier => return true
  | some _ => return false
  | none => startsDeclaration outline rounds index

def skipSuffixes (limit rounds : Nat) (place : Nat × Bool) : Strict (Nat × Bool) :=
  loop (fun (index, parameters) => do
    if limit ≤ index || !(outline.is index .leftBracket || outline.is index .leftParen) then
      return .inr (index, parameters)
    match ← partner outline index with
    | none => return .inr (index, parameters)
    | some last => return .inl (last + 1, parameters || outline.is index .leftParen)) rounds place

def endsDeclarator (rounds index : Nat) : Strict Bool := do
  let (next, parameters) ← skipSuffixes outline outline.size rounds (index + 1, false)
  if outline.size ≤ next then return false
  let token ← token outline next
  match token.kind with
  | .semicolon | .comma | .assign | .rightParen | .colon => return true
  | .leftBrace => return parameters
  | _ => return false

def endsStatement (outer : Option Nat) (last : Nat) (token : Token) : Strict Bool := do
  if token.kind = .semicolon || token.kind = .directive || outer == some last then return true
  if token.kind = .rightBrace then return (← role outline last) == some .block
  return false

def stepBack (last : Nat) (token : Token) : Strict Nat := do
  if token.kind.opener?.isSome then return (← partner outline last).getD last
  return last

def statementStart (outer : Option Nat) (rounds index : Nat) : Strict Nat :=
  loop (fun index => do
    if index = 0 then return .inr index
    let last ← before index
    let token ← token outline last
    if ← endsStatement outline outer last token then return .inr index
    return .inl (← stepBack outline last token)) rounds index

def passStars (limit rounds index : Nat) : Strict Nat :=
  loop (fun index => do
    if limit ≤ index || !outline.is index .star then return .inr index
    return .inl (index + 1)) rounds index

def leadsDeclaration (rounds first index : Nat) : Strict Bool := do
  if index ≤ first then return false
  let word ← token outline first
  if word.isSpecifier then return true
  if !word.isPlain then return false
  let name ← passStars outline index rounds (first + 1)
  if index ≤ name then return false
  let token ← token outline name
  return token.isPlain

def inDeclaration (rounds index : Nat) : Strict Bool := do
  let outer ← parent outline index
  if let some outer := outer then
    if (← role outline outer) ≠ some .block then return false
  leadsDeclaration outline rounds (← statementStart outline outer rounds index) index

end Declarations

section Partners
variable {outline : Outline} {index : Nat} {found : Token}

theorem partner_of_opens (legible : outline.Legible) (there : outline.tokens[index]? = some found)
    (opens : found.kind.isOpener = true) : partner outline index = .ok (outline.brackets.closer? index) := by
  rw [partner_eq legible (Array.getElem?_eq_some_iff.mp there).1]
  exact congrArg Except.ok (legible.consistent.partner?_of_opens (kinds_of_token there) opens)

theorem partner_of_closes (legible : outline.Legible) (there : outline.tokens[index]? = some found)
    (closes : found.kind.opener?.isSome = true) : partner outline index = .ok (outline.brackets.opener? index) := by
  rw [partner_eq legible (Array.getElem?_eq_some_iff.mp there).1]
  exact congrArg Except.ok (legible.consistent.partner?_of_closes (kinds_of_token there) closes)

end Partners

section Agreement
variable {outline : Outline} {index rounds : Nat}

private theorem skipStars_eq (enough : index < rounds) :
    skipStars outline rounds index = .ok (outline.skipStars index) := by
  apply loop_eq (fun _ => True) (fun index => index) outline.skipStars
  · intro index _
    cases index with
    | zero => exact .inl rfl
    | succ last =>
      by_cases star : outline.is (last + 1) .star
      · refine .inr ⟨last, ?_, trivial, Nat.lt_succ_self last, ?_⟩
        · simp [star]
        · rw [Outline.skipStars, if_pos star]
      · left
        rw [Outline.skipStars, if_neg star]
        simp [star]
  · trivial
  · exact enough

private theorem opensForHeader_eq (inside : index ≤ outline.size) (enough : index < rounds) :
    opensForHeader outline rounds index = .ok (outline.opensForHeader index) := by
  rw [opensForHeader, previousCode_eq inside enough, ok_bind, Outline.opensForHeader]
  cases precedes : outline.previousCode? index with
  | none => rfl
  | some last =>
    obtain ⟨-, found, there⟩ := previousCode?_some precedes
    simp only [token, there, Option.bind_some, present_some, ok_bind]
    rfl

private theorem isParameterList_of_other (other : outline.is index .leftParen = false) :
    outline.isParameterList index = false := by
  cases index with
  | zero => rw [Outline.isParameterList]
  | succ last =>
    rw [Outline.isParameterList.eq_def]
    simp only [other]
    rfl

/-- One round of the first test, if the second gives its answers with one round less. -/
theorem startsDeclaration_succ (legible : outline.Legible) (inside : index ≤ outline.size) (enough : index ≤ rounds)
    (lists : ∀ first, first < rounds → isParameterList outline rounds first = .ok (outline.isParameterList first)) :
    startsDeclaration outline (rounds + 1) index = .ok (outline.startsDeclaration index) := by
  cases index with
  | zero => simp only [startsDeclaration, Outline.startsDeclaration, if_true, pure_eq]
  | succ last =>
    obtain ⟨found, there⟩ := exists_token inside
    have header := opensForHeader_eq (Nat.le_of_lt inside) enough
    rw [startsDeclaration, Outline.startsDeclaration]
    simp only [Nat.succ_ne_zero, if_false, before_succ, ok_bind, token, there, present_some]
    cases found.kind with
    | leftBrace | rightBrace =>
      simp only [role_eq legible inside, ok_bind]
      rfl
    | identifier =>
      rcases KeywordClass.ofWord? found.lexeme with _ | ⟨⟨⟩⟩ <;> rfl
    | leftParen =>
      simp only [header, ok_bind, lists last enough]
      cases outline.opensForHeader last <;> rfl
    | comma =>
      simp only [parent_eq legible inside, ok_bind]
      cases around : outline.brackets.parent? last with
      | none => rfl
      | some outer =>
        have earlier := Brackets.parent?_lt around
        dsimp only
        split
        next => exact lists outer (by omega)
        next other =>
          rw [isParameterList_of_other (Bool.eq_false_iff.mpr other)]
          rfl
    | _ => rfl

/-- One round of the second test, if the first gives its answers with one round less. -/
theorem isParameterList_succ (legible : outline.Legible) (enough : index ≤ rounds)
    (starts : ∀ first, first ≤ outline.size → first < rounds →
      startsDeclaration outline rounds first = .ok (outline.startsDeclaration first)) :
    isParameterList outline (rounds + 1) index = .ok (outline.isParameterList index) := by
  cases index with
  | zero => simp [isParameterList, Outline.isParameterList]
  | succ last =>
    by_cases paren : outline.is (last + 1) .leftParen
    · have inside := lt_size_of_is paren
      obtain ⟨name, there⟩ := exists_token (Nat.lt_of_succ_lt inside)
      rw [isParameterList, Outline.isParameterList.eq_def]
      simp only [paren, Nat.succ_ne_zero, Bool.not_true, decide_false, Bool.or_false, Bool.false_eq_true, if_false,
        before_succ, ok_bind, token, there, present_some]
      split
      next closes =>
        rw [partner_of_closes legible there (closes ▸ rfl), ok_bind]
        cases outline.brackets.opener? last <;> rfl
      next =>
        cases last with
        | zero => simp
        | succ prior =>
          have near := outline.skipStars_le prior
          obtain ⟨word, here⟩ := exists_token (show outline.skipStars prior < outline.size by omega)
          have earlier := starts (outline.skipStars prior) (by omega) (by omega)
          simp only [Nat.succ_ne_zero, decide_false, Bool.or_false, before_succ, ok_bind,
            skipStars_eq (show prior < rounds by omega), here, present_some, earlier]
          split
          next => rfl
          next =>
            split
            next star => simp [Token.isSpecifier, Token.keyword?, Token.isPlain, star]
            next => cases word.isSpecifier <;> cases word.isPlain <;> rfl
    · rw [isParameterList_of_other (Bool.eq_false_iff.mpr paren)]
      simp [isParameterList, paren]

/-- The two tests call each other, each for a token further in front. -/
theorem startsDeclaration_isParameterList_eq (legible : outline.Legible) (rounds : Nat) :
    (∀ index, index ≤ outline.size → index < rounds →
      startsDeclaration outline rounds index = .ok (outline.startsDeclaration index)) ∧
    ∀ index, index < rounds → isParameterList outline rounds index = .ok (outline.isParameterList index) := by
  induction rounds with
  | zero => exact ⟨fun _ _ none => absurd none (Nat.not_lt_zero _), fun _ none => absurd none (Nat.not_lt_zero _)⟩
  | succ rounds ih =>
    obtain ⟨starts, lists⟩ := ih
    constructor
    · intro index inside enough
      exact startsDeclaration_succ legible inside (Nat.le_of_lt_succ enough) lists
    · intro index enough
      exact isParameterList_succ legible (Nat.le_of_lt_succ enough) starts

theorem startsDeclaration_eq (legible : outline.Legible) (inside : index ≤ outline.size) (enough : index < rounds) :
    startsDeclaration outline rounds index = .ok (outline.startsDeclaration index) :=
  (startsDeclaration_isParameterList_eq legible rounds).1 index inside enough

theorem isParameterList_eq (legible : outline.Legible) (enough : outline.size ≤ rounds) (some : 0 < rounds) (index : Nat) :
    isParameterList outline rounds index = .ok (outline.isParameterList index) := by
  rcases Nat.lt_or_ge index rounds with early | late
  · exact (startsDeclaration_isParameterList_eq legible rounds).2 index early
  · have other : outline.is index .leftParen = false := by
      apply Bool.eq_false_iff.mpr
      intro paren
      have inside := lt_size_of_is paren
      omega
    obtain ⟨fewer, rfl⟩ := Nat.exists_eq_succ_of_ne_zero (Nat.ne_of_gt some)
    rw [isParameterList, isParameterList_of_other other, other]
    rfl

theorem isTypePosition_eq (legible : outline.Legible) (enough : outline.size ≤ rounds) (index : Nat) :
    isTypePosition outline rounds index = .ok (outline.isTypePosition index) := by
  rw [isTypePosition, Outline.isTypePosition]
  split
  next beyond =>
    rw [Array.getElem?_eq_none beyond]
    rfl
  next within =>
    have inside := Nat.lt_of_not_le within
    obtain ⟨found, there⟩ := exists_token inside
    simp only [token, there, present_some, ok_bind]
    split
    next other => simp [other]
    next word =>
      rw [startsDeclaration_eq legible (Nat.le_of_lt inside) (Nat.lt_of_lt_of_le inside enough)]
      simp only [ne_eq, Decidable.not_not] at word
      rw [word]
      rcases KeywordClass.ofWord? found.lexeme with _ | ⟨⟨⟩⟩ <;> rfl

theorem skipSuffixes_eq (legible : outline.Legible) {limit : Nat} (within : limit ≤ outline.size) (enough : limit < rounds)
    (index : Nat) (parameters : Bool) : skipSuffixes outline limit rounds (index, parameters) =
      .ok (outline.skipSuffixes limit index parameters) := by
  apply loop_eq (fun _ => True) (fun place : Nat × Bool => limit - place.1)
    (fun place => outline.skipSuffixes limit place.1 place.2)
  · rintro ⟨index, parameters⟩ _
    dsimp only
    rw [Outline.skipSuffixes]
    by_cases before : index < limit
    · by_cases bracket : outline.is index .leftBracket || outline.is index .leftParen
      · have inside := Nat.lt_of_lt_of_le before within
        obtain ⟨found, there⟩ := exists_token inside
        have closes : partner outline index = .ok (outline.brackets.closer? index) := by
          apply partner_of_opens legible there
          simp only [is_of_token there, Bool.or_eq_true, decide_eq_true_eq] at bracket
          rcases bracket with square | round
          · rw [square]
            rfl
          · rw [round]
            rfl
        simp only [before, bracket, Nat.not_le.mpr before, dite_true, if_true, decide_false, Bool.not_true, Bool.or_false,
          Bool.false_eq_true, if_false, closes, ok_bind]
        cases closed : outline.brackets.closer? index with
        | none => exact .inl rfl
        | some last =>
          have behind := Brackets.lt_closer? closed
          exact .inr ⟨(last + 1, _), rfl, trivial, by dsimp only; omega, rfl⟩
      · left
        simp [before, bracket]
    · left
      simp [before, Nat.le_of_not_lt before]
  · trivial
  · dsimp only
    omega

theorem endsDeclarator_eq (legible : outline.Legible) (enough : outline.size < rounds) (index : Nat) :
    endsDeclarator outline rounds index = .ok (outline.endsDeclarator index) := by
  rw [endsDeclarator, skipSuffixes_eq legible (Nat.le_refl _) enough, ok_bind, Outline.endsDeclarator]
  generalize outline.skipSuffixes outline.size (index + 1) false = place
  obtain ⟨next, parameters⟩ := place
  dsimp only
  split
  next beyond =>
    rw [Outline.kind?, Array.getElem?_eq_none beyond]
    rfl
  next within =>
    obtain ⟨found, there⟩ := exists_token (Nat.lt_of_not_le within)
    simp only [token, Outline.kind?, there, present_some, ok_bind, Option.map_some]
    cases found.kind <;> rfl

private theorem endsStatement_eq (legible : outline.Legible) (outer : Option Nat) {last : Nat} {found : Token}
    (there : outline.tokens[last]? = some found) : endsStatement outline outer last found =
      .ok (outline.is last .semicolon || outline.is last .directive || outer == some last ||
        (outline.is last .rightBrace && outline.role? last == some .block)) := by
  have inside : last < outline.size := (Array.getElem?_eq_some_iff.mp there).1
  simp only [endsStatement, is_of_token there, role_eq legible inside, ok_bind]
  split
  next ends => rw [ends]; rfl
  next goes =>
    simp only [Bool.not_eq_true] at goes
    rw [goes]
    split
    next brace => simp [brace]
    next other => simp [other]

private theorem stepBack_eq (legible : outline.Legible) {last : Nat} {found : Token}
    (there : outline.tokens[last]? = some found) :
    stepBack outline last found = .ok ((outline.brackets.opener? last).getD last) := by
  rw [stepBack]
  split
  next closes =>
    rw [partner_of_closes legible there closes]
    rfl
  next other =>
    rw [legible.consistent.opener?_of_other (kinds_of_token there) (Bool.eq_false_iff.mpr other)]
    rfl

private theorem statementStart_eq (legible : outline.Legible) (outer : Option Nat) (inside : index ≤ outline.size)
    (enough : index < rounds) :
    statementStart outline outer rounds index = .ok (outline.statementStart outer index) := by
  apply loop_eq (fun index => index ≤ outline.size) (fun index => index) (outline.statementStart outer)
  · intro index inside
    cases index with
    | zero =>
      left
      rw [Outline.statementStart]
      rfl
    | succ last =>
      obtain ⟨found, there⟩ := exists_token inside
      have whole := endsStatement_eq legible outer there
      rw [Outline.statementStart, if_neg (Nat.succ_ne_zero last), before_succ, ok_bind, token, there, present_some,
        ok_bind, whole, ok_bind, stepBack_eq legible there]
      split
      next => exact .inl rfl
      next =>
        cases opened : outline.brackets.opener? last with
        | none => exact .inr ⟨last, rfl, Nat.le_of_lt inside, Nat.lt_succ_self last, rfl⟩
        | some first =>
          have before := Brackets.opener?_lt opened
          exact .inr ⟨first, rfl, by omega, Nat.lt_succ_of_lt before, rfl⟩
  · exact inside
  · exact enough

private theorem passStars_eq {limit : Nat} (enough : limit < rounds) (index : Nat) :
    passStars outline limit rounds index =
    .ok (index + ((List.range' index (limit - index)).takeWhile (outline.is · .star)).length) := by
  apply loop_eq (fun _ => True) (fun index => limit - index)
    (fun index => index + ((List.range' index (limit - index)).takeWhile (outline.is · .star)).length)
  · intro index _
    rcases Nat.lt_or_ge index limit with before | behind
    · have more : limit - index = limit - (index + 1) + 1 := by omega
      rw [more, List.range'_succ, List.takeWhile_cons]
      by_cases star : outline.is index .star
      · refine .inr ⟨index + 1, ?_, trivial, by omega, ?_⟩
        · simp [star, Nat.not_le.mpr before]
        · rw [if_pos star, List.length_cons]
          omega
      · left
        simp [star]
    · left
      rw [Nat.sub_eq_zero_of_le behind]
      simp [behind]
  · trivial
  · omega

private theorem leadsDeclaration_eq (inside : index < outline.size) (enough : index < rounds) (first : Nat) :
    leadsDeclaration outline rounds first index = .ok (outline.leadsDeclaration first index) := by
  rw [leadsDeclaration, Outline.leadsDeclaration]
  split
  next behind => simp [Nat.not_lt.mpr behind]
  next before =>
    have before := Nat.lt_of_not_le before
    obtain ⟨word, there⟩ := exists_token (Nat.lt_trans before inside)
    simp only [token, there, present_some, ok_bind, passStars_eq enough, Option.any_some, before, decide_true,
      Bool.true_and]
    generalize first + 1 + _ = name
    cases word.isSpecifier with
    | true => rfl
    | false =>
    cases word.isPlain with
    | false => rfl
    | true =>
      rcases Nat.lt_or_ge name index with closer | beyond
      · obtain ⟨second, there'⟩ := exists_token (Nat.lt_trans closer inside)
        simp [there', Nat.not_le.mpr closer, closer]
      · simp [beyond, Nat.not_lt.mpr beyond]

theorem inDeclaration_eq (legible : outline.Legible) (inside : index < outline.size) (enough : index < rounds) :
    inDeclaration outline rounds index = .ok (outline.inDeclaration index) := by
  have start (outer : Option Nat) : statementStart outline outer rounds index = _ :=
    statementStart_eq legible outer (Nat.le_of_lt inside) enough
  rw [inDeclaration, parent_eq legible inside, ok_bind, outline.inDeclaration_eq_leads]
  simp only [start, ok_bind, leadsDeclaration_eq inside enough]
  cases around : outline.brackets.parent? index with
  | none => rfl
  | some outer =>
    have earlier : outer < outline.size := Nat.lt_trans (Brackets.parent?_lt around) inside
    simp only [role_eq legible earlier, ok_bind, Option.all_some]
    split
    next other => simp [other]
    next block => simp [Decidable.not_not.mp block]

end Agreement
end Strict
end Allman
