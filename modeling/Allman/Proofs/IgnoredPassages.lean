import Mathlib.Data.List.Forall2
import Allman.Proofs.CleanText
import Allman.Proofs.SameCode

/-! Literals and comments have no influence on a report. Two texts that differ only
inside them have the same tokens at the same places, so brackets, roles and
declarators are judged alike; gaps of spaces are the same, and what reaches into a
comment is no gap of spaces in either text. Only the line that a moved brace takes
its indentation from may show a comment, so the text suggested for it is left out. -/

namespace Allman
open Region

structure Violation.SameFault (violation other : Violation) : Prop where
  rule : violation.rule = other.rule
  site : violation.site = other.site
  line : violation.line = other.line
  column : violation.column = other.column
  start : violation.start = other.start
  stop : violation.stop = other.stop
  current : violation.current = other.current
  suggested : violation.rule = .pointerSpacing → violation.suggested = other.suggested

def TokenKind.isBare (kind : TokenKind) : Bool := kind ∉ [TokenKind.string, .character, .directive]

section Tokens
variable {text other : Bytes} {region : Region} {token : Token} {index first second : Nat}

theorem Token.Within.codeAt (within : token.Within text region) (member : region ∈ classify text) :
    CodeAt text token.start :=
  ⟨within.solid, region, member, within.code, within.start, Nat.lt_of_lt_of_le within.forward within.stop⟩

theorem Token.Within.seam (within : token.Within text region) (member : region ∈ classify text) :
    Seam text token.stop := by
  intro passage listed kind earlier
  have forward := within.forward
  have after := within.start
  have before := within.stop
  rcases (classify_contiguous text).apart listed member with rfl | apart | apart
  · exact absurd within.code kind
  · omega
  · omega

private theorem token_within (found : (Outline.ofText text).tokens[index]? = some token) :
    token = token.recast text ∧ (token.kind.isBare = true → ∃ region ∈ classify text, token.Within text region) := by
  have member : token ∈ Token.scan text (classify text) := by
    apply List.mem_of_getElem?
    rwa [← List.getElem?_toArray]
  obtain ⟨covers, within⟩ := scanFrom_within ⟨classify text, 0⟩ (fun region member => member) member
  refine ⟨covers, ?_⟩
  intro bare
  apply within.resolve_left
  simpa [TokenKind.isBare] using bare

private theorem SameCode.token_eq (same : SameCode text other) (index : Nat) :
    (Outline.ofText other).tokens[index]? =
    (Outline.ofText text).tokens[index]?.map (Token.recast other) := by
  have tokens : (Outline.ofText other).tokens = (Outline.ofText text).tokens.map (Token.recast other) := by
    simp only [Outline.ofText, Outline.ofRegions, same.scan, List.map_toArray]
  rw [tokens, Array.getElem?_map]

theorem SameCode.agrees (same : SameCode text other) : (Outline.ofText text).Agrees (Outline.ofText other) := by
  apply Outline.Agrees.of_sights
  rw [same.scan, List.map_map]
  apply List.map_congr_left
  intro token member
  obtain ⟨covers, within⟩ := scanFrom_within ⟨classify text, 0⟩ (fun region member => member) member
  by_cases identifier : token.kind = .identifier
  · obtain ⟨region, listed, within⟩ := within.resolve_left (by simp [identifier])
    rw [covers]
    simp only [Function.comp, Token.sight, Token.recast, Token.covering,
      same.slice_code listed within.code within.start within.stop]
  · simp [Token.sight, Token.recast, Token.covering, identifier]

theorem SameCode.hasNewline_gap (same : SameCode text other) (first second : Nat) :
    hasNewline ((Outline.ofText text).gap first second) = hasNewline ((Outline.ofText other).gap first second) := by
  simp only [Outline.gap, same.token_eq]
  cases (Outline.ofText text).tokens[first]? with
  | none => rfl
  | some left =>
    cases (Outline.ofText text).tokens[second]? with
    | none => rfl
    | some right => exact same.hasNewline_slice left.stop right.start

/-- A gap of spaces behind a token of code is the same in both texts. -/
theorem SameCode.gap_eq (same : SameCode text other)
    (bare : ((Outline.ofText text).kind? first).all TokenKind.isBare = true)
    (spaces : allSpaces ((Outline.ofText text).gap first second) = true) :
    (Outline.ofText text).gap first second = (Outline.ofText other).gap first second := by
  simp only [Outline.gap, Outline.kind?, same.token_eq] at bare spaces ⊢
  cases found : (Outline.ofText text).tokens[first]? with
  | none => rfl
  | some left =>
    rw [found] at bare spaces
    obtain ⟨region, member, within⟩ := (token_within found).2 bare
    cases found' : (Outline.ofText text).tokens[second]? with
    | none => rfl
    | some right =>
      rw [found'] at spaces
      exact same.slice_spaces (within.seam member) spaces

theorem SameCode.allSpaces_gap (same : SameCode text other)
    (bare : ((Outline.ofText text).kind? first).all TokenKind.isBare = true) (second : Nat) :
    allSpaces ((Outline.ofText text).gap first second) = allSpaces ((Outline.ofText other).gap first second) := by
  rw [Bool.eq_iff_iff]
  constructor
  · intro spaces
    rwa [← same.gap_eq bare spaces]
  · intro spaces
    rw [same.agrees.kind?] at bare
    rwa [← same.symm.gap_eq bare spaces]

end Tokens

/-- A violation without the text suggested for a brace. -/
def Violation.veiled (violation : Violation) : Violation :=
  { violation with suggested := if violation.rule = .pointerSpacing then violation.suggested else [] }

private theorem Violation.sameFault_of_veiled {violation other : Violation}
    (same : violation.veiled = other.veiled) : violation.SameFault other := by
  obtain ⟨rule, site, line, column, start, stop, current, suggested⟩ := violation
  simp only [veiled, Violation.mk.injEq] at same
  obtain ⟨rfl, rfl, rfl, rfl, rfl, rfl, rfl, shown⟩ := same
  refine ⟨rfl, rfl, rfl, rfl, rfl, rfl, rfl, ?_⟩
  intro pointer
  rw [if_pos pointer, if_pos pointer] at shown
  exact shown

section Braces
variable {text other : Bytes} {region : Region} {brace : Token}

/-- The stretch that a moved brace covers is the same in both texts. -/
theorem SameCode.slice_brace (same : SameCode text other) (within : brace.Within text region)
    (member : region ∈ classify text) :
    slice text (trimEnd Byte.isBlank (text.take brace.start)).length (Outline.absorbBlanks text brace.stop) =
      slice other (trimEnd Byte.isBlank (text.take brace.start)).length (Outline.absorbBlanks text brace.stop) := by
  obtain ⟨before, blanks⟩ := trimEnd_blanks text brace.start
  obtain ⟨after, spaces⟩ := absorbBlanks_spaces text brace.stop
  have forward := Nat.le_of_lt within.forward
  have parts : ∀ bytes, slice bytes (trimEnd Byte.isBlank (text.take brace.start)).length
        (Outline.absorbBlanks text brace.stop) =
      slice bytes (trimEnd Byte.isBlank (text.take brace.start)).length brace.start ++
        (slice bytes brace.start brace.stop ++ slice bytes brace.stop (Outline.absorbBlanks text brace.stop)) := by
    intro bytes
    rw [slice_append_slice bytes forward after, slice_append_slice bytes before (Nat.le_trans forward after)]
  rw [parts, parts, same.slice_blanks (within.codeAt member) blanks,
    same.slice_code member within.code within.start within.stop, same.slice_spaces (within.seam member) spaces]

theorem SameCode.checkBrace? (same : SameCode text other) (index : Nat) :
    ((Outline.ofText text).checkBrace? index).map Violation.veiled =
      ((Outline.ofText other).checkBrace? index).map Violation.veiled := by
  have agrees := same.agrees
  simp only [Outline.checkBrace?, same.token_eq, ← agrees.previousCode?, ← agrees.role?, ← same.hasNewline_gap]
  cases found : (Outline.ofText text).tokens[index]? with
  | none => rfl
  | some brace =>
    cases (Outline.ofText text).previousCode? index with
    | none => rfl
    | some previous =>
      by_cases kind : brace.kind = .leftBrace
      · obtain ⟨region, member, within⟩ := (token_within found).2 (by rw [kind]; rfl)
        have line := same.startsLine (within.codeAt member)
        have trimmed := same.length_trimEnd (within.codeAt member)
        have absorbed := same.absorbBlanks (within.seam member)
        have place : (Outline.ofText other).position (brace.recast other) = (Outline.ofText text).position brace :=
          (same.position brace.start).symm
        have whole : ∀ bytes, (Outline.ofText bytes).text = bytes := fun _ => rfl
        have moved : (brace.recast other).kind = brace.kind ∧ (brace.recast other).start = brace.start ∧
            (brace.recast other).stop = brace.stop := ⟨rfl, rfl, rfl⟩
        simp only [Option.map_some, place, whole, moved, ← line, ← trimmed, ← absorbed,
          ← same.slice_brace within member]
        -- What is left to differ is the indentation, which the veil hides.
        split
        · rfl
        · simp [Violation.veiled]
      · simp [kind, Token.recast, Token.covering]

end Braces

/-- What stands between the tokens around a run of stars is its gaps and stars. -/
theorem Outline.IsRun.slice_eq {text : Bytes} {previous count : Nat} {left right : Token}
    (run : (ofText text).IsRun (previous + 1) count) (found : (ofText text).tokens[previous]? = some left)
    (found' : (ofText text).tokens[previous + 1 + count + 1]? = some right) : slice text left.stop right.start =
      starText (fun index => (ofText text).gap (index - 1) index) (previous + 1) (count + 1) := by
  obtain ⟨items, last, rfl, reads⟩ := exists_reads true text
  rw [reads.token, Option.map_eq_some_iff] at found found'
  obtain ⟨word, found, rfl⟩ := found
  obtain ⟨next, found', rfl⟩ := found'
  have below := (List.getElem?_eq_some_iff.mp found').1
  have stop : (word.token (reach items previous)).stop = reach items (previous + 1) := (reach_succ found).symm
  have start : (next.token (reach items (previous + 1 + count + 1))).start =
      reach items (previous + 1 + count + 1) + (gapAt items last (previous + 1 + count + 1)).length := by
    rw [gapAt_eq found']
    rfl
  have whole := @slice_stars items last (previous + 1) (count + 1)
    (fun index after before => run.item reads after (Nat.le_of_lt_succ before)) below
  rw [stop, start]
  apply whole.trans
  apply starText_congr
  intro index after before
  obtain ⟨index, rfl⟩ := Nat.exists_eq_succ_of_ne_zero (Nat.ne_of_gt (Nat.zero_lt_of_lt after))
  have here := List.getElem?_eq_getElem (show index < items.length by omega)
  have next := List.getElem?_eq_getElem (show index + 1 < items.length by omega)
  exact (reads.gap_eq here next).symm

section Stars
variable {text other : Bytes} {first previous count : Nat}

private theorem isBare_star (star : (Outline.ofText text).is first .star = true) :
    ((Outline.ofText text).kind? first).all TokenKind.isBare = true := by
  rw [Outline.is, beq_iff_eq] at star
  rw [star]
  rfl

private theorem isBare_before (declarator : (Outline.ofText text).isDeclarator first previous = true) :
    ((Outline.ofText text).kind? first).all TokenKind.isBare = true := by
  obtain ⟨before, -, found, -, leads, -⟩ := Outline.neighbours_of_isDeclarator declarator (Outline.consistent_ofRegions _ _)
  rw [Outline.kind?, found, Option.map_some, Option.all_some]
  revert leads
  cases before.kind <;> decide

theorem SameCode.linkedStars (same : SameCode text other) (star : (Outline.ofText text).is first .star = true)
    (second : Nat) :
    (Outline.ofText text).linkedStars first second = (Outline.ofText other).linkedStars first second := by
  rw [Outline.linkedStars, Outline.linkedStars, same.allSpaces_gap (isBare_star star), same.hasNewline_gap]

theorem SameCode.starRuns (same : SameCode text other) :
    (Outline.ofText text).starRuns = (Outline.ofText other).starRuns := by
  apply same.agrees.starRuns
  intro first second star _
  exact same.linkedStars star second

/-- Around and inside a run of stars of a declarator that has only spaces around it,
the gaps are the same in both texts. -/
theorem SameCode.gaps_eq (same : SameCode text other) (run : (Outline.ofText text).IsRun (previous + 1) count)
    (bare : ((Outline.ofText text).kind? previous).all TokenKind.isBare = true)
    (before : allSpaces ((Outline.ofText text).gap previous (previous + 1)) = true)
    (after : allSpaces ((Outline.ofText text).gap (previous + 1 + count) (previous + 1 + count + 1)) = true)
    {index : Nat} (past : previous ≤ index) (inside : index ≤ previous + 1 + count) :
    (Outline.ofText text).gap index (index + 1) = (Outline.ofText other).gap index (index + 1) := by
  by_cases leads : index = previous
  · subst leads
    exact same.gap_eq bare before
  · have star := run.star index (by omega) inside
    apply same.gap_eq (isBare_star star)
    by_cases ends : index = previous + 1 + count
    · subst ends
      exact after
    · have linked := run.linked index (by omega) (by omega)
      simp only [Outline.linkedStars, Bool.and_eq_true] at linked
      exact linked.1.2

private theorem starText_gap_congr (gaps : ∀ {index}, previous ≤ index → index ≤ previous + 1 + count →
      (Outline.ofText text).gap index (index + 1) = (Outline.ofText other).gap index (index + 1)) :
    starText (fun index => (Outline.ofText text).gap (index - 1) index) (previous + 1) (count + 1) =
      starText (fun index => (Outline.ofText other).gap (index - 1) index) (previous + 1) (count + 1) := by
  apply starText_congr
  intro index after before
  obtain ⟨index, rfl⟩ := Nat.exists_eq_succ_of_ne_zero (Nat.ne_of_gt (Nat.zero_lt_of_lt after))
  exact @gaps index (by omega) (by omega)

theorem SameCode.checkStars? (same : SameCode text other) {run : List Nat}
    (member : run ∈ (Outline.ofText text).starRuns) :
    (Outline.ofText text).checkStars? run = (Outline.ofText other).checkStars? run := by
  have again := member
  rw [same.starRuns] at again
  obtain ⟨first, count, rfl, isRun⟩ := Outline.exists_range_of_mem member
  obtain ⟨first', count', equal, isRun'⟩ := Outline.exists_range_of_mem again
  obtain ⟨rfl, rfl⟩ := range'_inj equal
  rw [List.range'_succ]
  cases first with
  | zero => rfl
  | succ previous =>
    have agrees := same.agrees
    have left' := same.token_eq previous
    have right' := same.token_eq (previous + 1 + count + 1)
    simp only [Outline.checkStars?, getLastD_range', List.length_range', same.token_eq, ← agrees.isDeclarator,
      ← agrees.starLayout]
    cases left : (Outline.ofText text).tokens[previous]? with
    | none => rfl
    | some word =>
    cases (Outline.ofText text).tokens[previous + 1]? with
    | none => rfl
    | some star =>
    cases right : (Outline.ofText text).tokens[previous + 1 + count + 1]? with
    | none => rfl
    | some next =>
    rw [left] at left'
    rw [right] at right'
    have current := isRun.slice_eq left right
    have current' := isRun'.slice_eq left' right'
    have place : (Outline.ofText other).position (star.recast other) = (Outline.ofText text).position star :=
      (same.position star.start).symm
    have whole : ∀ bytes, (Outline.ofText bytes).text = bytes := fun _ => rfl
    simp only [Option.map_some, whole, current, current', place]
    -- Only around a declarator do the gaps decide, and there they are code in both texts.
    by_cases declarator : (Outline.ofText text).isDeclarator previous (previous + 1 + count + 1) = true
    · have bare := isBare_before declarator
      have bare' := isBare_star (isRun.star (previous + 1 + count) (by omega) (Nat.le_refl _))
      rw [← same.allSpaces_gap bare, ← same.allSpaces_gap bare']
      by_cases spaces : allSpaces ((Outline.ofText text).gap previous (previous + 1)) = true ∧
          allSpaces ((Outline.ofText text).gap (previous + 1 + count) (previous + 1 + count + 1)) = true
      · have gaps := @SameCode.gaps_eq text other previous count same isRun bare spaces.1 spaces.2
        rw [starText_gap_congr gaps, gaps (Nat.le_refl previous) (by omega), gaps (by omega) (Nat.le_refl (previous + 1 + count))]
        rfl
      · rw [not_and_or, Bool.not_eq_true, Bool.not_eq_true] at spaces
        rcases spaces with before | after
        · simp [before]
        · simp [after]
    · simp [declarator]

end Stars

/-- The reports on two texts that differ only inside literals and comments list the
same faults. -/
theorem scan_ignores_passages {text other : Bytes} (same : SameCode text other) :
    List.Forall₂ Violation.SameFault (scan text).violations (scan other).violations := by
  have pointers : (Outline.ofText text).pointerViolations = (Outline.ofText other).pointerViolations := by
    rw [Outline.pointerViolations, Outline.pointerViolations, ← same.starRuns]
    exact List.filterMap_congr fun run member => same.checkStars? member
  have braces : (Outline.ofText text).braceViolations.map Violation.veiled =
      (Outline.ofText other).braceViolations.map Violation.veiled := by
    rw [Outline.braceViolations, Outline.braceViolations, same.agrees.size, List.map_filterMap, List.map_filterMap]
    exact List.filterMap_congr fun index _ => same.checkBrace? index
  have veiled : (scan text).violations.map Violation.veiled = (scan other).violations.map Violation.veiled := by
    have order : ∀ a b : Violation, (!b.precedes a) = (!b.veiled.precedes a.veiled) := fun _ _ => rfl
    simp only [scan]
    rw [List.map_mergeSort (s := fun a b => !b.precedes a) (fun a _ b _ => order a b),
      List.map_mergeSort (s := fun a b => !b.precedes a) (fun a _ b _ => order a b),
      List.map_append, List.map_append, pointers, braces]
  rw [← List.forall₂_eq_eq_eq, List.forall₂_map_left_iff, List.forall₂_map_right_iff] at veiled
  exact veiled.imp fun _ _ => Violation.sameFault_of_veiled

/-- A brace in a string changes nothing about the brace before it. -/
theorem scan_ignores_quoted_brace :
    (scan (ascii "f() \x7b \"a\"")).violations.length = 1 ∧
    List.Forall₂ Violation.SameFault (scan (ascii "f() \x7b \"a\"")).violations
      (scan (ascii "f() \x7b \"\x7b\"")).violations := by
  have regions : classify (ascii "f() \x7b \"a\"") = [⟨.code, 0, 6⟩, ⟨.string, 6, 9⟩] := by decide +kernel
  have regions' : classify (ascii "f() \x7b \"\x7b\"") = [⟨.code, 0, 6⟩, ⟨.string, 6, 9⟩] := by decide +kernel
  have inLine : ∀ text : Bytes, Byte.newline ∉ text → ∀ offset : Nat, ¬ text[offset]? = some Byte.newline :=
    fun _ absent _ found => absent (List.mem_of_getElem? found)
  have code : ∀ place < 6, (ascii "f() \x7b \"a\"")[place]? = (ascii "f() \x7b \"\x7b\"")[place]? := by decide
  have same : SameCode (ascii "f() \x7b \"a\"") (ascii "f() \x7b \"\x7b\"") := by
    refine ⟨by decide, regions.trans regions'.symm, ?_, ?_⟩
    · intro region member kind offset after before
      rw [regions] at member
      rcases List.mem_cons.mp member with first | second
      · rw [first] at before
        exact code offset before
      · rw [List.mem_singleton.mp second] at kind
        cases kind
    · intro offset
      exact iff_of_false (inLine _ (by decide) offset) (inLine _ (by decide) offset)
  exact ⟨by decide +kernel, scan_ignores_passages same⟩

end Allman
