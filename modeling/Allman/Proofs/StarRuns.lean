import Mathlib.Data.List.SplitBy
import Allman.Proofs.NestedBrackets
import Allman.Proofs.SameWords

/-! The runs of stars, and what stands around a run that belongs to a declarator. A
run is a stretch of consecutive tokens, and two runs have no token in common. The
token before the stars of a declarator is a word, a parenthesis or a comma, and
the one behind them can be neither a star nor an opening brace. -/

namespace Allman

private theorem eq_range'_of_isChain {first : Nat} {others : List Nat}
    (chain : (first :: others).IsChain fun a b => b = a + 1) :
    first :: others = List.range' first (others.length + 1) := by
  induction others generalizing first with
  | nil => rfl
  | cons second others ih =>
    obtain ⟨rfl, chain⟩ := List.isChain_cons_cons.mp chain
    rw [List.length_cons, List.range'_succ, ← ih chain]

private theorem splitBy_congr {numbers : List Nat} {linked linked' : Nat → Nat → Bool}
    (same : ∀ a ∈ numbers, ∀ b ∈ numbers, linked a b = linked' a b) :
    numbers.splitBy linked = numbers.splitBy linked' := by
  have inside : ∀ run ∈ numbers.splitBy linked', ∀ a ∈ run, a ∈ numbers := by
    intro run member a listed
    rw [← List.flatten_splitBy linked' numbers]
    exact List.mem_flatten.mpr ⟨run, member, listed⟩
  refine List.splitBy_eq_iff.mpr ⟨(List.flatten_splitBy linked' numbers).symm, List.nil_notMem_splitBy _ _, ?_, ?_⟩
  · intro run member
    refine (List.isChain_of_mem_splitBy member).imp_of_mem_imp fun a b first second related => ?_
    rw [same a (inside run member a first) b (inside run member b second)]
    exact related
  · refine (List.isChain_getLast_head_splitBy linked' numbers).imp_of_mem_imp ?_
    rintro run run' member member' ⟨nonempty, nonempty', broken⟩
    refine ⟨nonempty, nonempty', ?_⟩
    rw [same _ (inside run member _ (List.getLast_mem _)) _ (inside run' member' _ (List.head_mem _))]
    exact broken

namespace Outline

/-- A run of stars: `count + 1` tokens from `first` on, each linked to the one before. -/
structure IsRun (outline : Outline) (first count : Nat) : Prop where
  star : ∀ index, first ≤ index → index ≤ first + count → outline.is index .star = true
  linked : ∀ index, first ≤ index → index < first + count → outline.linkedStars index (index + 1) = true

section Runs
variable {outline other : Outline} {run run' : List Nat} {index : Nat}

theorem flatten_starRuns (outline : Outline) :
    outline.starRuns.flatten = (List.range outline.size).filter (outline.is · .star) :=
  List.flatten_splitBy _ _

private theorem is_star_of_mem (member : run ∈ outline.starRuns) (inside : index ∈ run) :
    outline.is index .star = true := by
  have listed : index ∈ outline.starRuns.flatten := List.mem_flatten.mpr ⟨run, member, inside⟩
  rw [flatten_starRuns] at listed
  exact (List.mem_filter.mp listed).2

theorem exists_range_of_mem (member : run ∈ outline.starRuns) :
    ∃ first count, run = List.range' first (count + 1) ∧ outline.IsRun first count := by
  have chain := List.isChain_of_mem_splitBy member
  match run, List.ne_nil_of_mem_splitBy member with
  | first :: others, _ =>
    have steps : (first :: others).IsChain fun a b => b = a + 1 := by
      refine chain.imp fun a b linked => ?_
      simp only [linkedStars, Bool.and_eq_true, beq_iff_eq] at linked
      exact linked.1.1
    have range := eq_range'_of_isChain steps
    refine ⟨first, others.length, range, ?_, ?_⟩
    · intro index after before
      refine is_star_of_mem member ?_
      rw [range, List.mem_range'_1]
      omega
    · intro index after before
      rw [range, List.isChain_iff_getElem] at chain
      have link := chain (index - first) (by simp; omega)
      simpa [Nat.add_sub_cancel' after, ← Nat.add_assoc] using link

theorem pairwise_starRuns (outline : Outline) :
    outline.starRuns.Pairwise fun run run' => ∀ a ∈ run, ∀ b ∈ run', a < b := by
  have increasing : outline.starRuns.flatten.Pairwise (· < ·) := by
    rw [flatten_starRuns]
    exact List.pairwise_lt_range.filter _
  exact (List.pairwise_flatten.mp increasing).2

theorem run_unique (member : run ∈ outline.starRuns) (member' : run' ∈ outline.starRuns) (inside : index ∈ run)
    (inside' : index ∈ run') : run = run' := by
  have apart := List.pairwise_iff_getElem.mp outline.pairwise_starRuns
  obtain ⟨i, below, rfl⟩ := List.getElem_of_mem member
  obtain ⟨j, below', rfl⟩ := List.getElem_of_mem member'
  rcases Nat.lt_trichotomy i j with before | rfl | after
  · exact absurd (apart i j below below' before index inside index inside') (Nat.lt_irrefl _)
  · rfl
  · exact absurd (apart j i below' below after index inside' index inside) (Nat.lt_irrefl _)

/-- Outlines that link the same stars have the same runs. -/
theorem Agrees.starRuns (agrees : Agrees outline other)
    (linked : ∀ a b, outline.is a .star = true → outline.is b .star = true →
      outline.linkedStars a b = other.linkedStars a b) : outline.starRuns = other.starRuns := by
  have stars : (List.range outline.size).filter (outline.is · .star) =
      (List.range other.size).filter (other.is · .star) := by
    simp only [agrees.size, agrees.is]
  rw [Outline.starRuns, Outline.starRuns, ← stars]
  exact splitBy_congr fun a first b second => linked a b (List.mem_filter.mp first).2 (List.mem_filter.mp second).2

end Runs

def leadsStars : TokenKind → Bool
  | .identifier | .leftParen | .comma => true
  | _ => false

def endsStars : TokenKind → Bool
  | .identifier | .leftParen | .rightParen | .leftBracket | .rightBracket | .rightBrace | .comma => true
  | _ => false

theorem kind_of_isPlain {token : Token} (plain : token.isPlain = true) : token.kind = .identifier := by
  simp only [Token.isPlain, Bool.and_eq_true, beq_iff_eq] at plain
  exact plain.1

private theorem kind_of_canFollowStars {token : Token} (follows : canFollowStars token = true) :
    token.kind = .identifier := by
  simp only [canFollowStars, Bool.or_eq_true, beq_iff_eq] at follows
  rcases follows with plain | qualifier
  · exact kind_of_isPlain plain
  · unfold Token.keyword? at qualifier
    split at qualifier
    next name => exact name
    next => cases qualifier

private theorem endsStars_of_declaresAfterType {after : Token} (declares : declaresAfterType after = true) :
    endsStars after.kind = true := by
  unfold declaresAfterType at declares
  split at declares
  next kind => rw [kind]; rfl
  next kind => rw [kind]; rfl
  next kind => rw [kind]; rfl
  next kind => rw [kind]; rfl
  next => rw [kind_of_canFollowStars declares]; rfl

private theorem endsStars_of_declaresAfterName {outline : Outline} {previous next : Nat} {after : Token}
    (declares : outline.declaresAfterName previous next after = true) : endsStars after.kind = true := by
  unfold declaresAfterName at declares
  split at declares
  next kind => rw [kind]; rfl
  next kind => rw [kind]; rfl
  next =>
    simp only [Bool.and_eq_true] at declares
    rw [kind_of_canFollowStars declares.1.1]
    rfl

section Neighbours
variable {outline : Outline} {first previous next last : Nat} {after : Token}

private theorem kind?_closer (consistent : outline.brackets.Consistent outline.kinds)
    (closed : outline.brackets.closer? first = some last) :
    ∃ kind, outline.kind? last = some kind ∧ kind.opener?.isSome = true := by
  obtain ⟨_, kind, -, found, closes⟩ := consistent.pairs first last closed
  rw [getElem?_kinds] at found
  exact ⟨kind, found, Option.isSome_of_eq_some closes⟩

private theorem endsStars_of_isGroupedDeclarator (consistent : outline.brackets.Consistent outline.kinds)
    (found : outline.tokens[next]? = some after)
    (grouped : outline.isGroupedDeclarator first next = true) : endsStars after.kind = true := by
  unfold isGroupedDeclarator at grouped
  split at grouped
  next type last closed =>
    simp only [Bool.and_eq_true, beq_iff_eq] at grouped
    obtain ⟨⟨-, stop⟩, -⟩ := grouped
    split at stop
    next name =>
      rw [found] at name
      simp only [Option.any_some] at name
      rw [kind_of_isPlain name.2]
      rfl
    next =>
      subst stop
      obtain ⟨kind, at_, closing⟩ := kind?_closer consistent closed
      obtain rfl : after.kind = kind := by simpa [kind?, found] using at_
      revert closing
      cases after.kind <;> decide
  next => cases grouped

/-- What stands around the stars of a declarator. -/
theorem neighbours_of_isDeclarator (declarator : outline.isDeclarator previous next = true)
    (consistent : outline.brackets.Consistent outline.kinds) :
    ∃ before after, outline.tokens[previous]? = some before ∧ outline.tokens[next]? = some after ∧
      leadsStars before.kind = true ∧ endsStars after.kind = true := by
  unfold isDeclarator at declarator
  split at declarator
  next before after found found' =>
    refine ⟨before, after, found, found', ?_⟩
    split at declarator
    next kind =>
      refine ⟨by rw [kind]; rfl, ?_⟩
      split at declarator
      · exact endsStars_of_declaresAfterType declarator
      · exact endsStars_of_declaresAfterType declarator
      · cases declarator
      · exact endsStars_of_declaresAfterName declarator
    next kind => exact ⟨by rw [kind]; rfl, endsStars_of_isGroupedDeclarator consistent found' declarator⟩
    next kind =>
      simp only [Bool.and_eq_true] at declarator
      refine ⟨by rw [kind]; rfl, ?_⟩
      rw [kind_of_isPlain declarator.1.1]
      rfl
    next => cases declarator
  next => cases declarator

end Neighbours
end Outline
end Allman
