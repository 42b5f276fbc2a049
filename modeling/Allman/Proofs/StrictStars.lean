import Allman.Proofs.StrictDeclarations

/-! The rule for stars, read strictly. The search for runs of stars goes on behind the
run that it has found, and the stretch that a violation replaces does not end before it
starts: the stars follow the token before them, and what follows the stars of a
declarator is no literal, the one kind of token that may stand further in front. -/

namespace Allman

namespace Outline

def runsFrom (outline : Outline) (index : Nat) : List (List Nat) :=
  ((List.range' index (outline.size - index)).filter (outline.is · .star)).splitBy outline.linkedStars

def runBounds (run : List Nat) : Nat × Nat := (run.headD 0, run.getLastD 0)

section Runs
variable {outline : Outline} {index count : Nat}

private theorem runsFrom_zero (outline : Outline) : outline.runsFrom 0 = outline.starRuns := by
  rw [runsFrom, starRuns, List.range_eq_range', Nat.sub_zero]

private theorem runsFrom_of_size_le (beyond : outline.size ≤ index) : outline.runsFrom index = [] := by
  rw [runsFrom, Nat.sub_eq_zero_of_le beyond]
  rfl

private theorem runsFrom_of_other (below : index < outline.size) (other : outline.is index .star = false) :
    outline.runsFrom index = outline.runsFrom (index + 1) := by
  have more : outline.size - index = outline.size - (index + 1) + 1 := by omega
  rw [runsFrom, runsFrom, more, List.range'_succ, List.filter_cons, other]
  rfl

private theorem runBounds_range' (first count : Nat) :
    runBounds (List.range' first (count + 1)) = (first, first + count) := by
  have last : (List.range' first (count + 1)).getLastD 0 = first + count := by
    rw [List.range'_concat, List.getLastD_concat, Nat.one_mul]
  rw [runBounds, last]
  rfl

private theorem isRun_single (star : outline.is index .star = true) : outline.IsRun index 0 where
  star place after before := by
    obtain rfl : place = index := by omega
    exact star
  linked place after before := absurd before (Nat.not_lt.mpr after)

theorem IsRun.cons (star : outline.is index .star = true) (linked : outline.linkedStars index (index + 1) = true)
    (run : outline.IsRun (index + 1) count) : outline.IsRun index (count + 1) where
  star place after before := by
    rcases Nat.eq_or_lt_of_le after with rfl | behind
    · exact star
    · exact run.star place behind (by omega)
  linked place after before := by
    rcases Nat.eq_or_lt_of_le after with rfl | behind
    · exact linked
    · exact run.linked place behind (by omega)

private theorem IsRun.isChain (run : outline.IsRun index count) :
    (List.range' index (count + 1)).IsChain fun a b => outline.linkedStars a b = true := by
  rw [List.isChain_iff_getElem]
  intro place below
  rw [List.length_range'] at below
  simpa [Nat.add_assoc] using run.linked (index + place) (by omega) (by omega)

/-- A run that goes no further is the first one from its first star on. -/
theorem runsFrom_of_isRun (run : outline.IsRun index count)
    (ended : outline.linkedStars (index + count) (index + count + 1) = false ∨
      outline.is (index + count + 1) .star = false) :
    outline.runsFrom index = List.range' index (count + 1) :: outline.runsFrom (index + count + 1) := by
  have below : index + count < outline.size :=
    Strict.lt_size_of_is (run.star (index + count) (Nat.le_add_right _ _) (Nat.le_refl _))
  have parts : List.range' index (outline.size - index) =
      List.range' index (count + 1) ++ List.range' (index + count + 1) (outline.size - (index + count + 1)) := by
    have whole : outline.size - index = (count + 1) + (outline.size - (index + count + 1)) := by omega
    rw [whole, ← List.range'_append_1, Nat.add_assoc]
  have stars : (List.range' index (count + 1)).filter (outline.is · .star) = List.range' index (count + 1) := by
    rw [List.filter_eq_self]
    intro place member
    rw [List.mem_range'_1] at member
    exact run.star place member.1 (by omega)
  rw [runsFrom, parts, List.filter_append, stars, List.splitBy_append, List.splitBy_of_isChain (by simp) run.isChain]
  · rfl
  · intro first last second head
    rw [List.range'_concat, List.getLast?_concat, Nat.one_mul, Option.mem_some_iff] at last
    subst last
    obtain ⟨member, star⟩ := List.mem_filter.mp (List.mem_of_mem_head? head)
    rw [List.mem_range'_1] at member
    rcases Nat.eq_or_lt_of_le member.1 with rfl | behind
    · rcases ended with broken | other
      · exact broken
      · rw [other] at star
        cases star
    · have apart : second ≠ index + count + 1 := Nat.ne_of_gt behind
      simp [linkedStars, apart]

end Runs
end Outline

namespace Strict

section Stars
variable (outline : Outline)

def passName (rounds last next : Nat) : Strict Nat := do
  if last ≤ next then return next
  let name ← token outline next
  if !name.isPlain then return next
  return (← skipSuffixes outline last rounds (next + 1, false)).1

def isGroupedDeclarator (rounds first next : Nat) : Strict Bool := do
  match ← partner outline first with
  | none => return false
  | some last =>
    if first = 0 then return false
    if !(← isTypePosition outline rounds (← before first)) then return false
    if (← passName outline rounds last next) ≠ last then return false
    return outline.is (last + 1) .leftParen || outline.is (last + 1) .leftBracket

def declaresAfterName (rounds previous next : Nat) (after : Token) : Strict Bool := do
  match after.kind with
  | .rightParen | .comma => return true
  | _ =>
    if !Outline.canFollowStars after then return false
    if !(← startsDeclaration outline rounds previous) then return false
    if after.keyword? == some .qualifier then return true
    endsDeclarator outline rounds next

def isDeclarator (rounds previous next : Nat) : Strict Bool := do
  if outline.size ≤ next then return false
  let before ← token outline previous
  let after ← token outline next
  match before.kind with
  | .identifier =>
    match KeywordClass.ofWord? before.lexeme with
    | some .type | some .qualifier => return Outline.declaresAfterType after
    | some _ => return false
    | none => declaresAfterName outline rounds previous next after
  | .leftParen => isGroupedDeclarator outline rounds previous next
  | .comma =>
    if !after.isPlain then return false
    if !(← endsDeclarator outline rounds next) then return false
    inDeclaration outline rounds previous
  | _ => return false

def runEnd (rounds index : Nat) : Strict Nat :=
  loop (fun last => do
    if !outline.is (last + 1) .star then return .inr last
    let between ← gap outline last (last + 1)
    return if allSpaces between && !hasNewline between then .inl (last + 1) else .inr last) rounds index

def starChains (rounds : Nat) : Strict (List (Nat × Nat)) :=
  loop (fun (index, chains) => do
    if outline.size ≤ index then return .inr chains
    if !outline.is index .star then return .inl (index + 1, chains)
    let last ← runEnd outline rounds index
    return .inl (last + 1, chains ++ [(index, last)])) rounds (0, [])

def checkStars (rounds first last : Nat) : Strict (Option Violation) := do
  if first = 0 then return none
  let previous ← before first
  let next := last + 1
  if !(← isDeclarator outline rounds previous next) then return none
  let ahead ← gap outline previous first
  let behind ← gap outline last next
  if !(allSpaces ahead && allSpaces behind) then return none
  let suggested := outline.starLayout previous ahead behind (last - first + 1)
  let left ← token outline previous
  let right ← token outline next
  let current ← cut outline.text left.stop right.start
  if current = suggested then return none
  let star ← token outline first
  let position := outline.position star
  return some {
    rule := .pointerSpacing
    site := star.start
    line := position.line
    column := position.column
    start := left.stop
    stop := right.start
    current
    suggested }

def pointerViolations (rounds : Nat) : Strict (List Violation) := do
  let chains ← starChains outline rounds
  chains.filterMapM fun chain => checkStars outline rounds chain.1 chain.2

end Stars

section Declarators
variable {outline : Outline} {first previous next last rounds : Nat} {after : Token}

private theorem passName_eq (legible : outline.Legible) (inside : last < outline.size)
    (enough : outline.size ≤ rounds)
    (next : Nat) : passName outline rounds last next =
      .ok (if next < last && outline.tokens[next]?.any Token.isPlain then
        (outline.skipSuffixes last (next + 1) false).1 else next) := by
  rw [passName]
  split
  next behind => simp [Nat.not_lt.mpr behind]
  next before =>
    have before := Nat.lt_of_not_le before
    obtain ⟨name, there⟩ := exists_token (Nat.lt_trans before inside)
    simp only [token, there, present_some, ok_bind, before, decide_true, Bool.true_and, Option.any_some,
      skipSuffixes_eq legible (Nat.le_of_lt inside) (Nat.lt_of_lt_of_le inside enough)]
    cases name.isPlain <;> rfl

theorem isGroupedDeclarator_eq (legible : outline.Legible) (enough : outline.size ≤ rounds)
    (paren : outline.is first .leftParen = true) (next : Nat) :
    isGroupedDeclarator outline rounds first next = .ok (outline.isGroupedDeclarator first next) := by
  have inside := lt_size_of_is paren
  obtain ⟨found, there⟩ := exists_token inside
  have closed := partner_of_opens legible there (kind_of_is there paren ▸ rfl)
  rw [isGroupedDeclarator, closed, ok_bind, Outline.isGroupedDeclarator.eq_def]
  cases closed : outline.brackets.closer? first with
  | none => cases first <;> rfl
  | some last =>
    have behind : last < outline.size := by
      have bound := (legible.consistent.pairs first last closed).lt_length
      simpa [Outline.kinds, Outline.size] using bound
    cases first with
    | zero => rfl
    | succ type =>
      simp only [Nat.succ_ne_zero, if_false, before_succ, ok_bind, isTypePosition_eq legible enough,
        passName_eq legible behind enough]
      generalize (if next < last && outline.tokens[next]?.any Token.isPlain then _ else next) = stop
      cases outline.isTypePosition type with
      | false => rfl
      | true =>
        by_cases whole : stop = last <;> simp [whole]

private theorem declaresAfterName_eq (legible : outline.Legible) (enough : outline.size < rounds)
    (inside : previous < outline.size) (next : Nat) (after : Token) :
    declaresAfterName outline rounds previous next after = .ok (outline.declaresAfterName previous next after) := by
  rw [declaresAfterName, Outline.declaresAfterName, endsDeclarator_eq legible enough,
    startsDeclaration_eq legible (Nat.le_of_lt inside) (Nat.lt_trans inside enough)]
  simp only [ok_bind]
  cases after.kind with
  | rightParen | comma => rfl
  | _ =>
    cases Outline.canFollowStars after <;> cases outline.startsDeclaration previous <;>
      cases after.keyword? == some .qualifier <;> rfl

theorem isDeclarator_eq (legible : outline.Legible) (enough : outline.size < rounds) (inside : previous < outline.size)
    (next : Nat) : isDeclarator outline rounds previous next = .ok (outline.isDeclarator previous next) := by
  obtain ⟨before, there⟩ := exists_token inside
  rw [isDeclarator, Outline.isDeclarator, there]
  split
  next beyond =>
    rw [Array.getElem?_eq_none beyond]
    rfl
  next within =>
    obtain ⟨after, there'⟩ := exists_token (Nat.lt_of_not_le within)
    simp only [token, there, there', present_some, ok_bind]
    cases kind : before.kind with
    | identifier =>
      simp only [declaresAfterName_eq legible enough inside]
      rcases KeywordClass.ofWord? before.lexeme with _ | ⟨⟨⟩⟩ <;> rfl
    | leftParen =>
      apply isGroupedDeclarator_eq legible (Nat.le_of_lt enough)
      rw [is_of_token there, kind]
      rfl
    | comma =>
      simp only [endsDeclarator_eq legible enough, inDeclaration_eq legible inside (Nat.lt_trans inside enough), ok_bind]
      cases after.isPlain <;> cases outline.endsDeclarator next <;> rfl
    | _ => rfl

end Declarators

section Runs
variable {outline : Outline} {index rounds : Nat}

/-- The search for the end of a run stops where the run does. -/
theorem exists_runEnd (legible : outline.Legible) (enough : outline.size < rounds)
    (star : outline.is index .star = true) : ∃ last, runEnd outline rounds index = .ok last ∧
      ∃ count, last = index + count ∧ outline.IsRun index count ∧
        (outline.linkedStars last (last + 1) = false ∨ outline.is (last + 1) .star = false) := by
  apply loop_meets (fun last => outline.is last .star = true) (fun last => outline.size - last)
    (fun index last => ∃ count, last = index + count ∧ outline.IsRun index count ∧
      (outline.linkedStars last (last + 1) = false ∨ outline.is (last + 1) .star = false))
  · intro last star
    by_cases more : outline.is (last + 1) .star
    · have inside := lt_size_of_is more
      have link : outline.linkedStars last (last + 1) =
          (allSpaces (outline.gap last (last + 1)) && !hasNewline (outline.gap last (last + 1))) := by
        simp [Outline.linkedStars]
      simp only [more, Bool.not_true, Bool.false_eq_true, if_false, gap_eq legible (Nat.lt_of_succ_lt inside) inside,
        ok_bind, ← link]
      cases linked : outline.linkedStars last (last + 1) with
      | true =>
        refine .inr ⟨last + 1, rfl, more, by omega, ?_⟩
        rintro _ ⟨count, rfl, run, ended⟩
        exact ⟨count + 1, by omega, run.cons star linked, ended⟩
      | false => exact .inl ⟨last, rfl, 0, rfl, Outline.isRun_single star, .inl linked⟩
    · refine .inl ⟨last, ?_, 0, rfl, Outline.isRun_single star, .inr (Bool.eq_false_iff.mpr more)⟩
      simp [more]
  · exact star
  · omega

theorem starChains_eq (legible : outline.Legible) (enough : outline.size < rounds) :
    starChains outline rounds = .ok (outline.starRuns.map Outline.runBounds) := by
  rw [← outline.runsFrom_zero]
  apply loop_eq (fun _ => True) (fun place : Nat × List (Nat × Nat) => outline.size - place.1)
    (fun place => place.2 ++ (outline.runsFrom place.1).map Outline.runBounds)
  · rintro ⟨index, chains⟩ _
    dsimp only
    rcases Nat.lt_or_ge index outline.size with below | beyond
    · by_cases star : outline.is index .star
      · obtain ⟨_, ends, count, rfl, run, ended⟩ := exists_runEnd legible enough star
        refine .inr ⟨(index + count + 1, chains ++ [(index, index + count)]), ?_, trivial, ?_, ?_⟩
        · simp [Nat.not_le.mpr below, star, ends]
        · dsimp only
          omega
        · rw [Outline.runsFrom_of_isRun run ended, List.map_cons, Outline.runBounds_range', List.append_assoc]
          rfl
      · refine .inr ⟨(index + 1, chains), ?_, trivial, by dsimp only; omega, ?_⟩
        · simp [Nat.not_le.mpr below, star]
        · rw [Outline.runsFrom_of_other below (Bool.eq_false_iff.mpr star)]
    · left
      rw [Outline.runsFrom_of_size_le beyond]
      simp [beyond]
  · trivial
  · exact enough

end Runs

section Violations
variable {outline : Outline} {first last count rounds : Nat}

/-- Stars do not overlap what stands around them, unless a literal follows. -/
theorem stop_le_start (legible : outline.Legible) {left right : Token} (found : outline.tokens[first]? = some left)
    (upto : first ≤ last) (stars : ∀ index, first < index → index ≤ last → outline.is index .star = true)
    (found' : outline.tokens[last + 1]? = some right) (solid : right.kind.isLiteral = false) :
    left.stop ≤ right.start := by
  induction last, upto using Nat.le_induction generalizing right with
  | base =>
    apply (legible.follows first left right found found').resolve_left
    rw [solid]
    exact Bool.false_ne_true
  | succ last upto ih =>
    have star := stars (last + 1) (Nat.lt_succ_of_le upto) (Nat.le_refl _)
    obtain ⟨middle, there⟩ := exists_token (lt_size_of_is star)
    have kind := kind_of_is there star
    have before : left.stop ≤ middle.start := by
      apply ih (fun index after within => stars index after (Nat.le_succ_of_le within)) there
      rw [kind]
      rfl
    have forward : middle.start < middle.stop := by
      apply (legible.inside _ middle there).forward
      rw [kind]
      rfl
    have after : middle.stop ≤ right.start := by
      apply (legible.follows _ middle right there found').resolve_left
      rw [solid]
      exact Bool.false_ne_true
    omega

private theorem isLiteral_of_endsStars {kind : TokenKind} (ends : Outline.endsStars kind = true) :
    kind.isLiteral = false := by
  revert ends
  cases kind <;> decide

private theorem cut_stars (legible : outline.Legible) (run : outline.IsRun (first + 1) count) {left right : Token}
    (found : outline.tokens[first]? = some left) (found' : outline.tokens[first + 1 + count + 1]? = some right)
    (ends : Outline.endsStars right.kind = true) :
    cut outline.text left.stop right.start = .ok (slice outline.text left.stop right.start) := by
  apply cut_eq
  · apply stop_le_start legible found _ _ found' (isLiteral_of_endsStars ends)
    · omega
    · exact fun index after upto => run.star index after upto
  · exact (legible.inside _ right found').start_le

private theorem checkStars_eq (legible : outline.Legible) (enough : outline.size < rounds)
    (run : outline.IsRun first count) :
    checkStars outline rounds first (first + count) = .ok (outline.checkStars? (List.range' first (count + 1))) := by
  cases first with
  | zero => rfl
  | succ previous =>
    have inside := lt_size_of_is (run.star (previous + 1) (Nat.le_refl _) (Nat.le_add_right _ _))
    rw [List.range'_succ, Outline.checkStars?]
    simp only [checkStars, Nat.succ_ne_zero, if_false, before_succ, ok_bind,
      isDeclarator_eq legible enough (Nat.lt_of_succ_lt inside), getLastD_range', List.length_range']
    -- Only the stars of a declarator are cut out, so only they need a token behind them that is no literal.
    cases declarator : outline.isDeclarator previous (previous + 1 + count + 1) with
    | false =>
      simp only [Bool.not_false, if_true, Bool.false_and, Bool.false_eq_true, if_false]
      split <;> rfl
    | true =>
      obtain ⟨left, right, found, found', -, ends⟩ := Outline.neighbours_of_isDeclarator declarator legible.consistent
      obtain ⟨star, there⟩ := exists_token inside
      have beyond := (Array.getElem?_eq_some_iff.mp found').1
      have last : previous + 1 + count < outline.size := Nat.lt_of_succ_lt beyond
      have size : previous + 1 + count - (previous + 1) + 1 = count + 1 := by omega
      simp only [Bool.not_true, Bool.true_and, Bool.false_eq_true, if_false, ok_bind, token, found, found', there,
        present_some, size, gap_eq legible (Nat.lt_of_succ_lt inside) inside, gap_eq legible last beyond,
        cut_stars legible run found found' ends]
      generalize outline.gap previous (previous + 1) = ahead
      generalize outline.gap (previous + 1 + count) _ = behind
      cases allSpaces ahead && allSpaces behind with
      | false => rfl
      | true =>
        by_cases same : slice outline.text left.stop right.start = outline.starLayout previous ahead behind (count + 1)
        · simp [same]
        · simp [same]

theorem pointerViolations_eq (legible : outline.Legible) (enough : outline.size < rounds) :
    pointerViolations outline rounds = .ok outline.pointerViolations := by
  have each : ∀ chain ∈ outline.starRuns.map Outline.runBounds, checkStars outline rounds chain.1 chain.2 =
      .ok (outline.checkStars? (List.range' chain.1 (chain.2 - chain.1 + 1))) := by
    intro chain member
    obtain ⟨run, listed, rfl⟩ := List.mem_map.mp member
    obtain ⟨first, count, rfl, stars⟩ := Outline.exists_range_of_mem listed
    rw [Outline.runBounds_range', Nat.add_sub_cancel_left]
    exact checkStars_eq legible enough stars
  rw [pointerViolations, starChains_eq legible enough, ok_bind, filterMapM_eq each, List.filterMap_map,
    Outline.pointerViolations]
  congr 1
  apply List.filterMap_congr
  intro run member
  obtain ⟨first, count, rfl, -⟩ := Outline.exists_range_of_mem member
  rw [Function.comp_apply, Outline.runBounds_range', Nat.add_sub_cancel_left]

end Violations
end Strict
end Allman
