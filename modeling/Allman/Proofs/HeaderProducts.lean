import Allman.Proofs.ReportedStars

/-! Products in headers. A name right behind a semicolon counts as the start of a
declaration, and the bracket around the semicolon is not asked for. So the stars
between two names are judged alike in a block, where a declaration may stand, and in
the later clauses of a `for` header, where none can: what follows the second name
decides, and a product that ends with its clause is taken for a declarator. -/

namespace Allman
open Region

namespace Outline

/-- Stars between two plain names, the first of them at `name` and right behind a semicolon: `; a * b`. -/
structure NamesAfterSemicolon (outline : Outline) (name count : Nat) : Prop where
  member : List.range' (name + 1) (count + 1) ∈ outline.starRuns
  semicolon : ∃ before, name = before + 1 ∧ outline.is before .semicolon = true
  left : outline.tokens[name]?.any Token.isPlain = true
  right : outline.tokens[name + count + 2]?.any Token.isPlain = true

/-- Such stars where the semicolon stands in parentheses, as it does in the header of a `for` statement. -/
structure HeaderProduct (outline : Outline) (name count : Nat) : Prop
    extends NamesAfterSemicolon outline name count where
  header : ∃ outer, outline.brackets.parent? (name - 1) = some outer ∧ outline.is outer .leftParen = true

section Names
variable {outline : Outline} {name count : Nat} {token : Token}

private theorem ofWord?_of_isPlain (plain : token.isPlain = true) : KeywordClass.ofWord? token.lexeme = none := by
  simp only [Token.isPlain, Bool.and_eq_true, Option.isNone_iff_eq_none] at plain
  exact plain.2

/-- A declaration may start behind any semicolon. -/
theorem NamesAfterSemicolon.startsDeclaration (names : outline.NamesAfterSemicolon name count) :
    outline.startsDeclaration name = true := by
  obtain ⟨before, rfl, semicolon⟩ := names.semicolon
  rw [Outline.is, beq_iff_eq, kind?, Option.map_eq_some_iff] at semicolon
  obtain ⟨token, found, kind⟩ := semicolon
  rw [Outline.startsDeclaration]
  simp only [found, kind]

/-- Between two names behind a semicolon, what follows the second one tells a declarator from a product. -/
theorem NamesAfterSemicolon.isDeclarator_eq (names : outline.NamesAfterSemicolon name count) :
    outline.isDeclarator name (name + count + 2) = outline.endsDeclarator (name + count + 2) := by
  obtain ⟨before, found, plain⟩ := (Option.any_eq_true _ _).mp names.left
  obtain ⟨after, found', plain'⟩ := (Option.any_eq_true _ _).mp names.right
  have kind := kind_of_isPlain plain
  have kind' := kind_of_isPlain plain'
  have unqualified : (after.keyword? == some .qualifier) = false := by
    rw [Token.keyword?, if_pos kind', ofWord?_of_isPlain plain']
    rfl
  have follows : canFollowStars after = true := by
    rw [canFollowStars, plain']
    rfl
  simp only [isDeclarator, found, found', kind, ofWord?_of_isPlain plain, declaresAfterName, kind', follows,
    names.startsDeclaration, unqualified, Bool.true_and, Bool.false_or]

end Names
end Outline

section Reported
variable {items : List Item} {last : Bytes} {first count : Nat}

/-- A run of stars is reported, at its first star, exactly if it is misset. -/
theorem Reads.reported_iff (reads : Reads true items last)
    (member : List.range' first (count + 1) ∈ (outlineOf items last).starRuns) :
    (∃ violation ∈ (outlineOf items last).pointerViolations,
        (outlineOf items last).tokens[first]?.map Token.start = some violation.site) ↔
      (outlineOf items last).missetStars (List.range' first (count + 1)) = true := by
  rw [← reads.isSome_checkStars? member, Option.isSome_iff_exists]
  constructor
  · rintro ⟨violation, listed, site⟩
    obtain ⟨run, member', violates⟩ := List.mem_filterMap.mp listed
    obtain ⟨first', count', rfl, stars⟩ := reads.misplacedStars member' violates
    have star := stars.run.item reads (Nat.le_refl _) (Nat.le_add_right _ _)
    rw [reads.token, Option.map_map, Option.map_eq_some_iff] at site
    obtain ⟨item, found, site⟩ := site
    -- Two runs that start at one offset are one run.
    have same : first = first' := by
      rw [stars.site] at site
      rcases Nat.lt_trichotomy first first' with before | here | after
      · have apart := reads.start_lt_reach found before
        simp only [Function.comp_apply] at site
        omega
      · exact here
      · have apart := reads.start_lt_reach star after
        simp only [Function.comp_apply, Item.token] at site apart
        omega
    subst same
    have inside : ∀ length, first ∈ List.range' first (length + 1) := fun length => by simp [List.mem_range'_1]
    rw [Outline.run_unique member member' (inside count) (inside count')]
    exact ⟨violation, violates⟩
  · rintro ⟨violation, violates⟩
    refine ⟨violation, List.mem_filterMap.mpr ⟨_, member, violates⟩, ?_⟩
    obtain ⟨_, _, same, stars⟩ := reads.misplacedStars member violates
    obtain ⟨rfl, rfl⟩ := range'_inj same
    have site := stars.site_eq reads
    rw [List.range'_succ] at site
    exact site

end Reported

/-- Stars between two names behind a semicolon are reported, in whatever bracket the semicolon
stands, exactly if what follows the second name can end a declarator, only spaces stand
around the stars, and they do not stand as they should. -/
theorem product_reported_iff {text : Bytes} {name count : Nat}
    (names : (Outline.ofText text).NamesAfterSemicolon name count) :
    let outline := Outline.ofText text
    (∃ violation ∈ outline.pointerViolations, outline.tokens[name + 1]?.map Token.start = some violation.site) ↔
      outline.endsDeclarator (name + count + 2) = true ∧ allSpaces (outline.gap name (name + 1)) = true ∧
        allSpaces (outline.gap (name + count + 1) (name + count + 2)) = true ∧
        outline.tidyStars (name + 1) (name + count + 1) = false := by
  obtain ⟨items, last, rfl, reads⟩ := exists_reads true text
  intro outline
  rw [reads.reported_iff names.member, List.range'_succ]
  simp only [Outline.missetStars, getLastD_range', Bool.and_eq_true, Bool.not_eq_true', and_assoc]
  have place : name + 1 + count = name + count + 1 := by omega
  rw [place, names.isDeclarator_eq]

/-- A loop whose condition is a product. -/
def productLoop : Bytes := ascii "for (; a * b;);"

private theorem headerProduct_productLoop : (Outline.ofText productLoop).HeaderProduct 3 0 := by
  refine ⟨⟨?_, ⟨2, rfl, ?_⟩, ?_, ?_⟩, ⟨1, ?_, ?_⟩⟩
  all_goals decide +kernel

/-- The condition of the loop is reported, since it ends with a semicolon as a declarator does. -/
theorem productLoop_reported :
    (Outline.ofText productLoop).NamesAfterSemicolon 3 0 ∧
      ∃ violation ∈ (Outline.ofText productLoop).pointerViolations,
        (Outline.ofText productLoop).tokens[4]?.map Token.start = some violation.site := by
  have names := headerProduct_productLoop.toNamesAfterSemicolon
  refine ⟨names, (product_reported_iff names).mpr ⟨?_, ?_, ?_, ?_⟩⟩
  all_goals decide +kernel

/-- Parentheses around the semicolon do not keep a product from being reported. -/
theorem headers_hold_reported_products :
    ¬ ∀ text name count, (Outline.ofText text).HeaderProduct name count →
      ∀ violation ∈ (Outline.ofText text).pointerViolations,
        (Outline.ofText text).tokens[name + 1]?.map Token.start ≠ some violation.site := by
  intro spared
  have unreported := spared productLoop 3 0 headerProduct_productLoop
  revert unreported
  decide +kernel

end Allman
