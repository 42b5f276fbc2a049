import Allman.Proofs.MovedBraces
import Allman.Proofs.NestedBrackets

/-! Roles are handed down. They are found in one pass that looks at the role of the
bracket directly around a brace and at no other, but that bracket stands before the
brace, so its role was found before and stands for all that is around it in turn. A
brace of a block therefore has nothing but blocks around it, however deep it stands. -/

namespace Allman

/-- The bracket `outer` is open around a token: it is the innermost bracket around it,
or one around that. -/
inductive Brackets.Encloses (brackets : Brackets) (outer : Nat) : Nat → Prop
  | direct {index : Nat} (parent : brackets.parent? index = some outer) : brackets.Encloses outer index
  | further {index inner : Nat} (parent : brackets.parent? index = some inner) (around : brackets.Encloses outer inner) :
      brackets.Encloses outer index

private theorem TokenKind.eq_rightBrace {kind : TokenKind} (closes : kind.opener? = some .leftBrace) :
    kind = .rightBrace := by
  revert closes
  cases kind <;> decide

namespace BraceRole
variable {tokens : Array Token} {brackets : Brackets} {roles roles' : Array (Option BraceRole)} {index count : Nat}

/-- The brace of a block stands neither in parentheses nor in square brackets nor in an initializer. -/
theorem around_block {outer : Nat} (role : ofBrace tokens brackets roles index = .block)
    (parent : brackets.parent? index = some outer) :
    tokens[outer]?.map Token.kind ≠ some .leftParen ∧ tokens[outer]?.map Token.kind ≠ some .leftBracket ∧
      (tokens[outer]?.map Token.kind = some .leftBrace → roles[outer]?.join ≠ some .initializer) := by
  rw [ofBrace, parent] at role
  dsimp only at role
  split at role
  · cases role
  · cases role
  · cases role
  next notParen notBracket notValues => exact ⟨notParen, notBracket, notValues⟩

/-- A role hangs on the roles of the tokens before it only. -/
theorem ofToken?_before (same : ∀ earlier < index, roles[earlier]? = roles'[earlier]?) :
    ofToken? tokens brackets roles index = ofToken? tokens brackets roles' index := by
  have outer : ofBrace tokens brackets roles index = ofBrace tokens brackets roles' index := by
    unfold ofBrace
    split
    · rfl
    next outer parent => rw [same outer (Brackets.parent?_lt parent)]
  have opening : (brackets.opener? index).bind (roles[·]?.join) = (brackets.opener? index).bind (roles'[·]?.join) := by
    cases opener : brackets.opener? index with
    | none => rfl
    | some first => simp only [Option.bind_some, same first (Brackets.opener?_lt opener)]
  rw [ofToken?, ofToken?, outer, opening]

def assignFirst (tokens : Array Token) (brackets : Brackets) (count : Nat) : Array (Option BraceRole) :=
  count.fold (fun index _ roles => roles.push (ofToken? tokens brackets roles index)) #[]

theorem size_assignFirst (tokens : Array Token) (brackets : Brackets) (count : Nat) :
    (assignFirst tokens brackets count).size = count := by
  induction count with
  | zero => rfl
  | succ count ih => rw [assignFirst, Nat.fold_succ, Array.size_push]; exact congrArg Nat.succ ih

private theorem getElem?_assignFirst (below : index < count) : (assignFirst tokens brackets count)[index]? =
    some (ofToken? tokens brackets (assignFirst tokens brackets index) index) := by
  induction count with
  | zero => cases below
  | succ count ih =>
    have next : assignFirst tokens brackets (count + 1) = (assignFirst tokens brackets count).push
        (ofToken? tokens brackets (assignFirst tokens brackets count) count) := by
      rw [assignFirst, Nat.fold_succ]
      rfl
    rw [next, Array.getElem?_push, size_assignFirst]
    split
    next same => rw [same]
    next other => exact ih (Nat.lt_of_le_of_ne (Nat.le_of_lt_succ below) other)

/-- All roles together answer for each of them. -/
theorem getElem?_assign (below : index < tokens.size) :
    (assign tokens brackets)[index]? = some (ofToken? tokens brackets (assign tokens brackets) index) := by
  refine (getElem?_assignFirst below).trans (congrArg some (ofToken?_before fun earlier before => ?_))
  exact (getElem?_assignFirst before).trans (getElem?_assignFirst (Nat.lt_trans before below)).symm

end BraceRole

namespace Outline

section Roles
variable {text : Bytes} {regions : List Region} {index outer first last : Nat}

private theorem role?_ofRegions (text : Bytes) (regions : List Region) (index : Nat) :
    let outline := ofRegions text regions
    outline.role? index = BraceRole.ofToken? outline.tokens outline.brackets outline.roles index := by
  intro outline
  rcases Nat.lt_or_ge index outline.tokens.size with below | beyond
  · exact congrArg Option.join (BraceRole.getElem?_assign below)
  · have absent : outline.tokens[index]? = none := Array.getElem?_eq_none beyond
    have size : outline.roles.size = outline.tokens.size := BraceRole.size_assignFirst ..
    rw [role?, Array.getElem?_eq_none (size ▸ beyond), BraceRole.ofToken?, absent]
    rfl

private theorem role?_leftBrace (brace : (ofRegions text regions).kind? index = some .leftBrace) :
    let outline := ofRegions text regions
    outline.role? index = some (BraceRole.ofBrace outline.tokens outline.brackets outline.roles index) := by
  intro outline
  unfold kind? at brace
  rw [role?_ofRegions, BraceRole.ofToken?, brace]

private theorem role?_rightBrace (brace : (ofRegions text regions).kind? index = some .rightBrace) :
    let outline := ofRegions text regions
    outline.role? index = (outline.brackets.opener? index).bind outline.role? := by
  intro outline
  unfold kind? at brace
  rw [role?_ofRegions, BraceRole.ofToken?, brace]
  rfl

private theorem role?_other (left : (ofRegions text regions).kind? index ≠ some .leftBrace)
    (right : (ofRegions text regions).kind? index ≠ some .rightBrace) :
    (ofRegions text regions).role? index = none := by
  unfold kind? at left right
  rw [role?_ofRegions, BraceRole.ofToken?]
  split
  next brace => exact absurd brace left
  next brace => exact absurd brace right
  next => rfl

/-- A paired brace is closed, or closes, another brace. -/
theorem opener?_of_leftBrace (brace : (ofRegions text regions).kind? first = some .leftBrace)
    (pair : (ofRegions text regions).brackets.partner? first = some last) :
    (ofRegions text regions).brackets.opener? last = some first ∧
      (ofRegions text regions).kind? last = some .rightBrace := by
  have consistent := consistent_ofRegions text regions
  rw [← getElem?_kinds] at brace ⊢
  rcases consistent.partner?_iff.mp pair with closed | closed
  · refine ⟨(consistent.closed first last).mp closed, ?_⟩
    have pairs := consistent.pairs first last closed
    obtain ⟨_, kind, -, found, -⟩ := id pairs
    have closes := (pairs.last_closes found).2
    rw [brace] at closes
    rw [found, TokenKind.eq_rightBrace closes]
  · cases ((consistent.pairs last first closed).last_closes brace).1

private theorem opener?_of_rightBrace (brace : (ofRegions text regions).kind? last = some .rightBrace)
    (pair : (ofRegions text regions).brackets.partner? last = some first) :
    (ofRegions text regions).brackets.opener? last = some first ∧
      (ofRegions text regions).kind? first = some .leftBrace := by
  have consistent := consistent_ofRegions text regions
  rw [← getElem?_kinds] at brace ⊢
  rcases consistent.partner?_iff.mp pair with closed | closed
  · cases (consistent.pairs last first closed).first_opens brace
  · exact ⟨(consistent.closed first last).mp closed, ((consistent.pairs first last closed).last_closes brace).2.symm⟩

/-- Exactly the opening braces and the closing braces with a partner have a role. -/
theorem isSome_role?_iff (text : Bytes) (regions : List Region) (index : Nat) :
    let outline := ofRegions text regions
    (outline.role? index).isSome = true ↔ outline.kind? index = some .leftBrace ∨
      outline.kind? index = some .rightBrace ∧ (outline.brackets.partner? index).isSome = true := by
  intro outline
  by_cases left : outline.kind? index = some .leftBrace
  · exact iff_of_true (by rw [role?_leftBrace left]; rfl) (.inl left)
  by_cases right : outline.kind? index = some .rightBrace
  · rw [role?_rightBrace right]
    constructor
    · intro present
      cases opener : outline.brackets.opener? index with
      | none =>
        rw [opener] at present
        cases present
      | some first => exact .inr ⟨right, by rw [Brackets.partner?, opener]; rfl⟩
    · rintro (left' | ⟨-, paired⟩)
      · exact absurd left' left
      · obtain ⟨first, pair⟩ := Option.isSome_iff_exists.mp paired
        obtain ⟨opener, brace⟩ := opener?_of_rightBrace right pair
        rw [opener, Option.bind_some, role?_leftBrace brace]
        rfl
  · rw [role?_other left right]
    simp [left, right]

private theorem role?_partner (brace : (ofRegions text regions).kind? first = some .leftBrace)
    (pair : (ofRegions text regions).brackets.partner? first = some last) :
    (ofRegions text regions).role? first = (ofRegions text regions).role? last := by
  obtain ⟨opener, right⟩ := opener?_of_leftBrace brace pair
  rw [role?_rightBrace right, opener, Option.bind_some]

/-- The bracket directly around the brace of a block is the brace of a block. -/
theorem block_of_parent (brace : (ofRegions text regions).kind? index = some .leftBrace)
    (role : (ofRegions text regions).role? index = some .block)
    (parent : (ofRegions text regions).brackets.parent? index = some outer) :
    (ofRegions text regions).kind? outer = some .leftBrace ∧ (ofRegions text regions).role? outer = some .block := by
  obtain ⟨kind, found, opens⟩ := (consistent_ofRegions text regions).opens index outer parent
  rw [getElem?_kinds] at found
  rw [role?_leftBrace brace, Option.some_inj] at role
  obtain ⟨paren, bracket, values⟩ := BraceRole.around_block role parent
  have braced : kind = .leftBrace := by
    unfold kind? at found
    rw [found] at paren bracket
    revert opens paren bracket
    cases kind <;> simp [TokenKind.isOpener]
  subst braced
  refine ⟨found, ?_⟩
  rw [role?_leftBrace found, Option.some_inj]
  cases of : BraceRole.ofBrace _ _ _ outer with
  | block => rfl
  | initializer => exact absurd ((role?_leftBrace found).trans (congrArg some of)) (values found)

private theorem block_of_encloses (brace : (ofRegions text regions).kind? index = some .leftBrace)
    (role : (ofRegions text regions).role? index = some .block)
    (around : (ofRegions text regions).brackets.Encloses outer index) :
    (ofRegions text regions).kind? outer = some .leftBrace ∧ (ofRegions text regions).role? outer = some .block := by
  induction around with
  | direct parent => exact block_of_parent brace role parent
  | further parent _ ih =>
    obtain ⟨brace, role⟩ := block_of_parent brace role parent
    exact ih brace role

private theorem block_of_checkBrace? {outline : Outline} {violation : Violation}
    (violates : outline.checkBrace? index = some violation) :
    outline.kind? index = some .leftBrace ∧ outline.role? index = some .block := by
  unfold checkBrace? at violates
  split at violates
  next brace previous found _ =>
    split at violates
    · cases violates
    next held =>
      simp only [Bool.or_eq_true, decide_eq_true_eq, not_or, ne_eq, Decidable.not_not] at held
      exact ⟨by rw [kind?, found, Option.map_some, held.1.1.1], held.1.1.2⟩
  next => cases violates

end Roles
end Outline

/-- However a text is cut into regions, the braces with a role are the opening ones and
the closing ones with a partner, and partners have the same role. Around the brace of a
block there are only braces of blocks, up to the outermost, so a brace that stands at
any depth in parentheses, square brackets or an initializer is never reported. -/
theorem roles_inherited (text : Bytes) (regions : List Region) :
    let outline := Outline.ofRegions text regions
    (∀ index, (outline.role? index).isSome = true ↔ outline.kind? index = some .leftBrace ∨
      outline.kind? index = some .rightBrace ∧ (outline.brackets.partner? index).isSome = true) ∧
    (∀ first last, outline.kind? first = some .leftBrace → outline.brackets.partner? first = some last →
      outline.role? first = outline.role? last) ∧
    (∀ index outer, outline.kind? index = some .leftBrace → outline.role? index = some .block →
      outline.brackets.Encloses outer index →
        outline.kind? outer = some .leftBrace ∧ outline.role? outer = some .block) ∧
    (∀ index outer, outline.brackets.Encloses outer index →
      outline.kind? outer = some .leftParen ∨ outline.kind? outer = some .leftBracket ∨
        outline.role? outer = some .initializer → outline.checkBrace? index = none) ∧
    ∀ violation ∈ outline.braceViolations, ∃ index, outline.checkBrace? index = some violation ∧
      outline.tokens[index]?.map Token.start = some violation.site ∧ ∀ outer, outline.brackets.Encloses outer index →
        outline.kind? outer = some .leftBrace ∧ outline.role? outer = some .block := by
  intro outline
  have blocks : ∀ index violation, outline.checkBrace? index = some violation → ∀ outer,
      outline.brackets.Encloses outer index →
        outline.kind? outer = some .leftBrace ∧ outline.role? outer = some .block := by
    intro index violation violates outer around
    obtain ⟨brace, role⟩ := Outline.block_of_checkBrace? violates
    exact Outline.block_of_encloses brace role around
  refine ⟨Outline.isSome_role?_iff text regions, fun _ _ => Outline.role?_partner, fun _ _ => Outline.block_of_encloses,
    ?_, ?_⟩
  · intro index outer around nested
    cases checked : outline.checkBrace? index with
    | none => rfl
    | some violation =>
      obtain ⟨brace, role⟩ := blocks index violation checked outer around
      rw [brace, role] at nested
      simp at nested
  · intro violation member
    obtain ⟨index, -, violates⟩ := List.mem_filterMap.mp member
    obtain ⟨brace, found, site, -⟩ := Outline.checkBrace?_eq_some violates
    refine ⟨index, violates, ?_, blocks index violation violates⟩
    rw [found, site]
    rfl

/-- The body of a statement stands in the body of its function, and a list of values
stands two braces deep in an argument. -/
theorem roles_inherited_samples :
    let body := Outline.ofText (ascii "f() \x7b if (a) \x7b \x7d \x7d")
    let values := Outline.ofText (ascii "g((T) \x7b \x7b 1 \x7d \x7d)")
    body.role? 3 = some .block ∧ values.checkBrace? 6 = none := by
  intro body values
  obtain ⟨-, -, blocks, -⟩ := roles_inherited (ascii "f() \x7b if (a) \x7b \x7d \x7d")
    (Region.classify (ascii "f() \x7b if (a) \x7b \x7d \x7d"))
  obtain ⟨-, -, -, spared, -⟩ := roles_inherited (ascii "g((T) \x7b \x7b 1 \x7d \x7d)")
    (Region.classify (ascii "g((T) \x7b \x7b 1 \x7d \x7d)"))
  constructor
  · exact (blocks 8 3 (by decide +kernel) (by decide +kernel) (.direct (by decide +kernel))).2
  · have outermost : values.brackets.Encloses 1 5 := .direct (by decide +kernel)
    exact spared 6 1 (.further (by decide +kernel) outermost) (.inl (by decide +kernel))

end Allman
