import Allman.Proofs.Respacing
import Allman.Proofs.ScannedLayout

/-! The lexical grammar of regions, stated without scanning. Each form of region is
described by its own bytes and the text behind it, and a cut of a text is a chain
of such regions from its start to its end. Every text has exactly one cut, which is
the one that classification finds. -/

namespace Allman.Region

def OpensPassage (text : Bytes) : Prop :=
  [Byte.doubleQuote] <+: text ∨ [Byte.singleQuote] <+: text ∨
  [Byte.slash, Byte.slash] <+: text ∨ [Byte.slash, Byte.star] <+: text

/-- Code holds no place where a literal or comment starts, and ends at one or with the text. -/
structure IsCode (bytes after : Bytes) : Prop where
  inside : ∀ offset < bytes.length, ¬ OpensPassage ((bytes ++ after).drop offset)
  ends : after = [] ∨ OpensPassage after

def BreaksLine (text : Bytes) : Prop :=
  [Byte.newline] <+: text ∨ [Byte.carriageReturn, Byte.newline] <+: text

/-- The items between the quotes of a literal. A backslash goes together with what
follows it: a carriage return and newline, or one byte, or the end of the text. -/
inductive Items (quote : UInt8) (after : Bytes) : Bytes → Prop where
  | nil : Items quote after []
  | escapedBreak {rest : Bytes} (more : Items quote after rest) :
      Items quote after (Byte.backslash :: Byte.carriageReturn :: Byte.newline :: rest)
  | escaped {c : UInt8} {rest : Bytes} (single : ¬ [Byte.carriageReturn, Byte.newline] <+: c :: (rest ++ after))
      (more : Items quote after rest) : Items quote after (Byte.backslash :: c :: rest)
  | lastBackslash (finished : after = []) : Items quote after [Byte.backslash]
  | plain {c : UInt8} {rest : Bytes} (inside : c ≠ quote) (bare : c ≠ Byte.backslash)
      (inLine : ¬ BreaksLine (c :: (rest ++ after))) (more : Items quote after rest) :
      Items quote after (c :: rest)

/-- A literal is closed by its quote, or is left open at a line break or at the end of the text. -/
inductive IsLiteral (quote : UInt8) (after : Bytes) : Bytes → Prop where
  | closed {items : Bytes} (between : Items quote (quote :: after) items) :
      IsLiteral quote after (quote :: (items ++ [quote]))
  | leftOpen {items : Bytes} (between : Items quote after items) (ends : after = [] ∨ BreaksLine after) :
      IsLiteral quote after (quote :: items)

/-- A line break starts at an offset of a comment. The newline of a pair does not start one. -/
def BreakAt (text : Bytes) (offset : Nat) : Prop :=
  [Byte.carriageReturn, Byte.newline] <+: text.drop offset ∨
  [Byte.newline] <+: text.drop offset ∧ ¬ [Byte.carriageReturn] <:+ text.take offset

def FreeBreakAt (text : Bytes) (offset : Nat) : Prop :=
  BreakAt text offset ∧ ¬ [Byte.backslash] <:+ text.take offset

/-- A line comment extends to the first line break behind the slashes that is not hidden. -/
structure IsLineComment (body after : Bytes) : Prop where
  inside : ∀ offset < body.length, ¬ FreeBreakAt (body ++ after) offset
  ends : after = [] ∨ FreeBreakAt (body ++ after) body.length

/-- A block comment extends over the first star and slash behind its opening, or to
the end of the text if there are none. -/
inductive IsBlockComment (after : Bytes) : Bytes → Prop where
  | closed {inner : Bytes}
      (inside : ∀ offset < inner.length,
        ¬ [Byte.star, Byte.slash] <+: (inner ++ [Byte.star, Byte.slash]).drop offset) :
      IsBlockComment after (inner ++ [Byte.star, Byte.slash])
  | leftOpen {body : Bytes} (inside : ∀ offset, ¬ [Byte.star, Byte.slash] <+: body.drop offset)
      (finished : after = []) : IsBlockComment after body

def Spelled : RegionKind → (bytes after : Bytes) → Prop
  | .code, bytes, after => IsCode bytes after
  | .string, bytes, after => IsLiteral Byte.doubleQuote after bytes
  | .character, bytes, after => IsLiteral Byte.singleQuote after bytes
  | .lineComment, bytes, after => ∃ body, bytes = Byte.slash :: Byte.slash :: body ∧ IsLineComment body after
  | .blockComment, bytes, after => ∃ body, bytes = Byte.slash :: Byte.star :: body ∧ IsBlockComment after body

def Contiguous : (start stop : Nat) → List Region → Prop
  | start, stop, [] => start = stop
  | start, stop, region :: rest =>
    region.start = start ∧ region.start < region.stop ∧ Contiguous region.stop stop rest

/-- The regions cut the text according to the grammar. -/
structure IsCut (text : Bytes) (regions : List Region) : Prop where
  contiguous : Contiguous 0 text.length regions
  spelled : ∀ region ∈ regions, Spelled region.kind (slice text region.start region.stop) (text.drop region.stop)

section Code
variable {c : UInt8} {rest body after : Bytes}

private theorem opensPassage_iff : OpensPassage (c :: rest) ↔
    ((opensLiteral? c).isSome || (opensComment? (c :: rest)).isSome) = true := by
  cases rest with
  | nil =>
    simp only [OpensPassage, opensLiteral?, opensComment?, List.cons_prefix_cons, List.prefix_nil]
    grind
  | cons d rest =>
    simp only [OpensPassage, opensLiteral?, opensComment?, List.cons_prefix_cons, List.nil_prefix]
    grind

private theorem codeLength_eq_zero_iff : codeLength after = 0 ↔ after = [] ∨ OpensPassage after := by
  cases after with
  | nil => simp [codeLength]
  | cons c rest =>
    rw [opensPassage_iff, codeLength]
    split <;> simp_all

private theorem codeLength_eq_iff : codeLength (body ++ after) = body.length ↔ IsCode body after := by
  induction body with
  | nil =>
    rw [List.nil_append, List.length_nil, codeLength_eq_zero_iff]
    exact ⟨fun ends => ⟨by simp, ends⟩, fun code => code.ends⟩
  | cons c body ih =>
    rw [List.cons_append, codeLength]
    split
    next opens =>
      constructor
      · intro length
        cases length
      · intro code
        exact absurd (opensPassage_iff.mpr opens) (code.inside 0 (by simp))
    next plain =>
      rw [← opensPassage_iff] at plain
      rw [List.length_cons, Nat.add_right_cancel_iff, ih]
      constructor
      · intro code
        exact ⟨Nat.forall_lt_succ_left.mpr ⟨plain, code.inside⟩, code.ends⟩
      · intro code
        exact ⟨(Nat.forall_lt_succ_left.mp code.inside).2, code.ends⟩

end Code

section Literal
variable {quote c : UInt8} {items body after rest : Bytes}

private theorem startsCrLf_iff : startsCrLf after = true ↔ [Byte.carriageReturn, Byte.newline] <+: after := by
  cases after with
  | nil => simp [startsCrLf]
  | cons c rest =>
    cases rest with
    | nil => simp [startsCrLf, List.cons_prefix_cons]
    | cons d rest =>
      simp only [startsCrLf, Bool.and_eq_true, beq_iff_eq, List.cons_prefix_cons, List.nil_prefix, and_true]
      exact ⟨fun both => ⟨both.1.symm, both.2.symm⟩, fun both => ⟨both.1.symm, both.2.symm⟩⟩

theorem startsLineBreak_iff : startsLineBreak after = true ↔ BreaksLine after := by
  cases after with
  | nil => simp [startsLineBreak, BreaksLine]
  | cons c rest =>
    simp only [startsLineBreak, Bool.or_eq_true, beq_iff_eq, startsCrLf_iff, BreaksLine]
    apply or_congr_left
    simp only [List.cons_prefix_cons, List.nil_prefix, and_true]
    exact eq_comm

private theorem startsCrLf_newline (rest : Bytes) : startsCrLf (Byte.newline :: rest) = false := by
  cases rest <;> rfl

/-- Items are passed over one by one, up to what follows them. -/
theorem Items.literalLength_append (between : Items quote after items) :
    literalLength quote false (items ++ after) = items.length + literalLength quote false after := by
  induction between with
  | nil => simp
  | @escapedBreak rest _ ih =>
    have pair : startsCrLf (Byte.carriageReturn :: Byte.newline :: (rest ++ after)) = true := rfl
    simp only [List.cons_append, literalLength, pair, startsCrLf_newline, ih]
    simp
    omega
  | escaped single _ ih =>
    rw [← startsCrLf_iff, Bool.not_eq_true] at single
    simp only [List.cons_append, literalLength, single, ih]
    simp
    omega
  | lastBackslash finished => simp [literalLength, finished]
  | plain inside bare inLine _ ih =>
    rw [← startsLineBreak_iff] at inLine
    simp only [List.cons_append, literalLength, if_neg inside, if_neg bare, if_neg inLine, ih]
    simp
    omega

private theorem IsLiteral.literalLength_eq (literal : IsLiteral quote after (quote :: body))
    (printable : Byte.isSpace quote = false) (visible : quote ≠ Byte.backslash) :
    literalLength quote false (body ++ after) = body.length := by
  cases literal with
  | @closed items between =>
    have length := between.literalLength_append
    rw [List.append_assoc, List.singleton_append, length]
    simp [literalLength, visible, startsLineBreak_solid printable]
  | leftOpen between ends =>
    rw [between.literalLength_append]
    rcases ends with rfl | broken
    · rfl
    · have bare := startsLineBreak_iff.mpr broken
      cases after with
      | nil => rfl
      | cons c rest =>
        have plain : c ≠ Byte.backslash := by
          rintro rfl
          rw [startsLineBreak_solid (by decide)] at bare
          cases bare
        simp [literalLength, plain, bare]

theorem IsLiteral.prepend {front : Bytes} (literal : IsLiteral quote after (quote :: body))
    (joins : ∀ after' items, Items quote after' items → items ++ after' = body ++ after →
      Items quote after' (front ++ items)) : IsLiteral quote after (quote :: (front ++ body)) := by
  cases literal with
  | @closed items between =>
    have longer := joins _ _ between (by simp)
    rw [← List.append_assoc]
    exact .closed longer
  | leftOpen between ends => exact .leftOpen (joins _ _ between rfl) ends

/-- Behind a quote there is always a literal. -/
theorem exists_isLiteral (quote : UInt8) (text : Bytes) :
    ∃ body after, text = body ++ after ∧ IsLiteral quote after (quote :: body) := by
  induction size : text.length using Nat.strongRecOn generalizing text with
  | ind size ih =>
  subst size
  match text with
  | [] => exact ⟨[], [], rfl, .leftOpen .nil (.inl rfl)⟩
  | c :: rest =>
    by_cases escape : c = Byte.backslash
    · subst escape
      match rest with
      | [] => exact ⟨[Byte.backslash], [], rfl, .leftOpen (.lastBackslash rfl) (.inl rfl)⟩
      | c :: rest =>
        by_cases pair : [Byte.carriageReturn, Byte.newline] <+: c :: rest
        · obtain ⟨rest, same⟩ := pair
          obtain ⟨body, after, rfl, literal⟩ := ih rest.length (by rw [← same]; simp; omega) rest rfl
          refine ⟨[Byte.backslash, Byte.carriageReturn, Byte.newline] ++ body, after, by simp [← same], ?_⟩
          apply literal.prepend
          intro after' items between _
          exact .escapedBreak between
        · obtain ⟨body, after, rfl, literal⟩ := ih rest.length (by simp only [List.length_cons]; omega) rest rfl
          refine ⟨[Byte.backslash, c] ++ body, after, by simp, ?_⟩
          apply literal.prepend
          intro after' items between same
          exact .escaped (same ▸ pair) between
    by_cases broken : BreaksLine (c :: rest)
    · exact ⟨[], _, rfl, .leftOpen .nil (.inr broken)⟩
    by_cases closing : c = quote
    · subst closing
      exact ⟨[c], rest, rfl, .closed .nil⟩
    · obtain ⟨body, after, rfl, literal⟩ := ih rest.length (by simp) rest rfl
      refine ⟨[c] ++ body, after, rfl, ?_⟩
      apply literal.prepend
      intro after' items between same
      exact .plain closing escape (same ▸ broken) between

private theorem literalLength_eq_iff (printable : Byte.isSpace quote = false) (visible : quote ≠ Byte.backslash) :
    literalLength quote false (body ++ after) = body.length ↔ IsLiteral quote after (quote :: body) := by
  constructor
  · intro length
    obtain ⟨body', after', same, literal⟩ := exists_isLiteral quote (body ++ after)
    have length' := literal.literalLength_eq printable visible
    rw [← same, length] at length'
    obtain ⟨rfl, rfl⟩ := List.append_inj same length'
    exact literal
  · intro literal
    exact literal.literalLength_eq printable visible

end Literal

section LineComment
variable {hidden : Bool} {c : UInt8} {front body after rest : Bytes}

/-- Between the bytes `front` of a line comment and `rest`, the flag tells whether a
line break that starts or goes on there is hidden. -/
structure Hides (hidden : Bool) (front rest : Bytes) : Prop where
  of_true : hidden = true →
    [Byte.backslash] <:+ front ∧ BreaksLine rest ∨ [Byte.carriageReturn] <:+ front ∧ [Byte.newline] <+: rest
  of_false : hidden = false → BreaksLine rest →
    ¬ [Byte.backslash] <:+ front ∧ ([Byte.newline] <+: rest → ¬ [Byte.carriageReturn] <:+ front)

private theorem singleton_suffix_concat {d : UInt8} : [d] <:+ front ++ [c] ↔ d = c := by
  rw [← List.reverse_prefix, List.reverse_append]
  simp [List.cons_prefix_cons]

private theorem breaksLine_cons : BreaksLine (c :: rest) ↔
    c = Byte.newline ∨ c = Byte.carriageReturn ∧ [Byte.newline] <+: rest := by
  simp only [BreaksLine, List.cons_prefix_cons, List.nil_prefix, and_true, eq_comm (a := c)]

private theorem Hides.freeBreakAt_iff (hides : Hides hidden front rest) :
    FreeBreakAt (front ++ rest) front.length ↔ hidden = false ∧ startsLineBreak rest = true := by
  rw [startsLineBreak_iff, FreeBreakAt, BreakAt, List.drop_left, List.take_left]
  cases hidden with
  | false =>
    have visible := hides.of_false rfl
    unfold BreaksLine at visible ⊢
    grind
  | true =>
    have apart : [Byte.newline] <+: rest → ¬ [Byte.carriageReturn, Byte.newline] <+: rest := by
      rintro ⟨tail, rfl⟩ pair
      cases (List.cons_prefix_cons.mp pair).1
    have covered := hides.of_true rfl
    grind

private theorem lineCommentLength_cons (hidden : Bool) (c : UInt8) (rest : Bytes) :
    lineCommentLength hidden (c :: rest) =
      if hidden = false ∧ startsLineBreak (c :: rest) = true then 0
      else lineCommentLength
        (if hidden then startsCrLf (c :: rest) else c == Byte.backslash && startsLineBreak rest) rest + 1 := by
  rw [lineCommentLength]
  cases hidden with
  | true => simp
  | false =>
    by_cases escape : c = Byte.backslash
    · subst escape
      simp [startsLineBreak_solid (show Byte.isSpace Byte.backslash = false by decide)]
    · simp [escape, beq_eq_false_iff_ne.mpr escape]

theorem Hides.step (hides : Hides hidden front (c :: rest))
    (goesOn : ¬ (hidden = false ∧ startsLineBreak (c :: rest) = true)) :
    Hides (if hidden then startsCrLf (c :: rest) else c == Byte.backslash && startsLineBreak rest)
      (front ++ [c]) rest := by
  have pair : startsCrLf (c :: rest) = true ↔ c = Byte.carriageReturn ∧ [Byte.newline] <+: rest := by
    rw [startsCrLf_iff, List.cons_prefix_cons, eq_comm]
  rw [startsLineBreak_iff, breaksLine_cons] at goesOn
  constructor
  · intro next
    simp only [singleton_suffix_concat]
    cases hidden with
    | true =>
      obtain ⟨return_, follows⟩ := pair.mp next
      exact .inr ⟨return_.symm, follows⟩
    | false =>
      simp only [Bool.false_eq_true, if_false, Bool.and_eq_true, beq_iff_eq, startsLineBreak_iff] at next
      exact .inl ⟨next.1.symm, next.2⟩
  · intro next breaks
    simp only [singleton_suffix_concat]
    cases hidden with
    | true =>
      -- What is hidden is a line break, so the byte is its newline or the first byte of a pair.
      have single : ¬ (c = Byte.carriageReturn ∧ [Byte.newline] <+: rest) := by
        intro both
        rw [if_pos rfl, pair.mpr both] at next
        cases next
      have newline : c = Byte.newline := by
        rcases hides.of_true rfl with ⟨-, broken⟩ | ⟨-, follows⟩
        · exact (breaksLine_cons.mp broken).resolve_right single
        · exact (List.cons_prefix_cons.mp follows).1.symm
      subst newline
      exact ⟨by decide, fun _ => by decide⟩
    | false =>
      have plain : c ≠ Byte.backslash := by
        rintro rfl
        simp [startsLineBreak_iff.mpr breaks] at next
      exact ⟨fun same => plain same.symm, fun follows same => goesOn ⟨rfl, .inr ⟨same.symm, follows⟩⟩⟩

/-- The scan of a line comment goes on to the first line break that is not hidden. -/
theorem Hides.lineCommentLength_eq_iff (hides : Hides hidden front (body ++ after)) :
    lineCommentLength hidden (body ++ after) = body.length ↔
      (∀ offset < body.length, ¬ FreeBreakAt (front ++ (body ++ after)) (front.length + offset)) ∧
      (after = [] ∨ FreeBreakAt (front ++ (body ++ after)) (front.length + body.length)) := by
  induction body generalizing hidden front with
  | nil =>
    have here := hides.freeBreakAt_iff
    simp only [List.nil_append, List.length_nil, Nat.add_zero, Nat.not_lt_zero, false_imp_iff, implies_true,
      true_and] at here ⊢
    rw [here]
    cases after with
    | nil => simp [lineCommentLength]
    | cons c rest =>
      rw [lineCommentLength_cons]
      split
      next broken => simp [broken]
      next goesOn => simp [goesOn]
  | cons c body ih =>
    rw [List.cons_append] at hides ⊢
    rw [lineCommentLength_cons]
    split
    next broken =>
      constructor
      · intro length
        cases length
      · rintro ⟨inside, -⟩
        exact absurd (hides.freeBreakAt_iff.mpr broken) (inside 0 (by simp))
    next goesOn =>
      have first := mt hides.freeBreakAt_iff.mp goesOn
      have later := ih (hides.step goesOn)
      simp only [List.append_assoc, List.singleton_append, List.length_append, List.length_singleton,
        Nat.add_assoc, Nat.add_comm 1] at later
      rw [List.length_cons, Nat.add_right_cancel_iff, later]
      apply and_congr_left'
      exact ⟨fun inside => Nat.forall_lt_succ_left.mpr ⟨first, inside⟩,
        fun inside => (Nat.forall_lt_succ_left.mp inside).2⟩

private theorem lineCommentLength_eq_iff :
    lineCommentLength false (body ++ after) = body.length ↔ IsLineComment body after := by
  have start : Hides false [] (body ++ after) := ⟨nofun, fun _ _ => by simp⟩
  have first := start.lineCommentLength_eq_iff
  simp only [List.nil_append, List.length_nil, Nat.zero_add] at first
  rw [first]
  exact ⟨fun ⟨inside, ends⟩ => ⟨inside, ends⟩, fun ⟨inside, ends⟩ => ⟨inside, ends⟩⟩

end LineComment

section BlockComment
variable {c : UInt8} {body after : Bytes}

theorem IsBlockComment.cons (inside : ¬ [Byte.star, Byte.slash] <+: c :: body) (comment : IsBlockComment after body) :
    IsBlockComment after (c :: body) := by
  cases comment with
  | @closed inner before =>
    exact @IsBlockComment.closed after (c :: inner) (Nat.forall_lt_succ_left.mpr ⟨inside, before⟩)
  | leftOpen before finished =>
    refine .leftOpen ?_ finished
    intro offset
    cases offset with
    | zero => exact inside
    | succ offset => exact before offset

private theorem IsBlockComment.uncons (inside : ¬ [Byte.star, Byte.slash] <+: c :: body)
    (comment : IsBlockComment after (c :: body)) : IsBlockComment after body := by
  generalize whole : c :: body = bytes at comment
  cases comment with
  | @closed inner before =>
    cases inner with
    | nil =>
      cases whole
      exact absurd (List.prefix_refl _) inside
    | cons d inner =>
      obtain ⟨rfl, rfl⟩ := List.cons.inj whole
      exact .closed (Nat.forall_lt_succ_left.mp before).2
  | leftOpen before finished =>
    subst whole
    exact .leftOpen (fun offset => before (offset + 1)) finished

/-- Where a star and a slash stand first, the comment ends behind them. -/
theorem isBlockComment_closing : IsBlockComment after (Byte.star :: Byte.slash :: body) ↔ body = [] := by
  have here : [Byte.star, Byte.slash] <+: Byte.star :: Byte.slash :: body := ⟨body, rfl⟩
  constructor
  · intro comment
    generalize whole : Byte.star :: Byte.slash :: body = bytes at comment here
    cases comment with
    | @closed inner before =>
      cases inner with
      | nil => exact (List.cons.inj (List.cons.inj whole).2).2
      | cons d inner => exact absurd here (before 0 (by simp))
    | leftOpen before => exact absurd here (before 0)
  · rintro rfl
    exact @IsBlockComment.closed after [] (by simp)

private theorem blockCommentLength_eq_iff :
    blockCommentLength (body ++ after) = body.length ↔ IsBlockComment after body := by
  induction body with
  | nil =>
    constructor
    · intro length
      refine .leftOpen (by simp) ?_
      cases after with
      | nil => rfl
      | cons c rest =>
        rw [List.nil_append, blockCommentLength] at length
        split at length <;> cases length
    · intro comment
      generalize empty : ([] : Bytes) = bytes at comment
      cases comment with
      | closed => simp at empty
      | leftOpen _ finished => simp [← empty, finished, blockCommentLength]
  | cons c body ih =>
    rw [List.cons_append, blockCommentLength]
    split
    next closing =>
      simp only [Bool.and_eq_true, decide_eq_true_eq, beq_iff_eq] at closing
      obtain ⟨rfl, follows⟩ := closing
      cases body with
      | nil =>
        constructor
        · intro length
          cases length
        · intro comment
          generalize alone : [Byte.star] = bytes at comment
          cases comment with
          | @closed inner _ => simpa using congrArg List.length alone
          | leftOpen _ finished => simp [finished] at follows
      | cons d body =>
        obtain rfl : d = Byte.slash := by simpa using follows
        rw [isBlockComment_closing, List.length_cons, List.length_cons]
        exact ⟨fun length => List.eq_nil_of_length_eq_zero (by omega), fun empty => by simp [empty]⟩
    next goesOn =>
      have inside : ¬ [Byte.star, Byte.slash] <+: c :: body := by
        rintro ⟨rest, same⟩
        obtain ⟨rfl, rfl⟩ := List.cons.inj same
        simp at goesOn
      rw [List.length_cons, Nat.add_right_cancel_iff, ih]
      exact ⟨.cons inside, .uncons inside⟩

end BlockComment

section Region
variable {kind : RegionKind} {c : UInt8} {rest bytes after : Bytes}

private theorem opensLiteral?_eq_some_iff : opensLiteral? c = some kind ↔
    c = Byte.doubleQuote ∧ kind = .string ∨ c = Byte.singleQuote ∧ kind = .character := by
  unfold opensLiteral?
  split
  next double => grind
  next =>
    split
    next single => grind
    next => simp [*]

private theorem quote_ne_backslash (opening : opensLiteral? c = some kind) : c ≠ Byte.backslash := by
  rintro rfl
  cases opening

theorem IsLiteral.opens {quote : UInt8} (literal : IsLiteral quote after bytes)
    (opening : opensLiteral? quote = some kind) : Opens kind bytes after := by
  obtain ⟨body, rfl⟩ : ∃ body, bytes = quote :: body := by
    cases literal with
    | closed => exact ⟨_, rfl⟩
    | leftOpen => exact ⟨_, rfl⟩
  have length := literal.literalLength_eq (isSpace_quote opening) (quote_ne_backslash opening)
  exact (first_literal opening).trans (Prod.ext rfl (congrArg (· + 1) length))

private theorem opensComment?_eq_line_iff {d : UInt8} : opensComment? (c :: d :: rest) = some .lineComment ↔
    c = Byte.slash ∧ d = Byte.slash := by
  simp only [opensComment?]
  grind

private theorem opensComment?_eq_block_iff {d : UInt8} : opensComment? (c :: d :: rest) = some .blockComment ↔
    c = Byte.slash ∧ d = Byte.star := by
  simp only [opensComment?]
  grind

theorem Opens.spelled (opens : Opens kind bytes after) : Spelled kind bytes after := by
  match bytes with
  | c :: rest =>
    change first c (rest ++ after) = (kind, rest.length + 1) at opens
    cases literal : opensLiteral? c with
    | some quoted =>
      rw [first_literal literal] at opens
      obtain ⟨rfl, length⟩ := Prod.mk.inj opens
      have spelled :=
        (literalLength_eq_iff (isSpace_quote literal) (quote_ne_backslash literal)).mp (Nat.succ.inj length)
      rcases opensLiteral?_eq_some_iff.mp literal with ⟨rfl, rfl⟩ | ⟨rfl, rfl⟩
      · exact spelled
      · exact spelled
    | none =>
      rcases opensComment?_cases (c :: (rest ++ after)) with code | line | block
      · rw [first_code literal code] at opens
        obtain ⟨rfl, length⟩ := Prod.mk.inj opens
        apply codeLength_eq_iff.mp
        rw [List.cons_append, codeLength, literal, code]
        exact length
      · rw [first_lineComment literal line] at opens
        obtain ⟨rfl, length⟩ := Prod.mk.inj opens
        cases rest with
        | nil => cases length
        | cons d rest =>
          obtain ⟨rfl, rfl⟩ := opensComment?_eq_line_iff.mp line
          exact ⟨rest, rfl, lineCommentLength_eq_iff.mp (Nat.add_right_cancel length)⟩
      · rw [first_blockComment literal block] at opens
        obtain ⟨rfl, length⟩ := Prod.mk.inj opens
        cases rest with
        | nil => cases length
        | cons d rest =>
          obtain ⟨rfl, rfl⟩ := opensComment?_eq_block_iff.mp block
          exact ⟨rest, rfl, blockCommentLength_eq_iff.mp (Nat.add_right_cancel length)⟩

theorem Spelled.opens (spelled : Spelled kind bytes after) (nonempty : bytes ≠ []) : Opens kind bytes after := by
  cases kind with
  | code =>
    match bytes with
    | c :: rest =>
      have plain : ¬ OpensPassage (c :: (rest ++ after)) := spelled.inside 0 (by simp)
      have length := codeLength_eq_iff.mpr spelled
      simp only [opensPassage_iff, Bool.or_eq_true, not_or, Option.not_isSome_iff_eq_none] at plain
      rw [List.cons_append, codeLength, plain.1, plain.2] at length
      exact (first_code plain.1 plain.2).trans (Prod.ext rfl length)
  | string => exact IsLiteral.opens spelled rfl
  | character => exact IsLiteral.opens spelled rfl
  | lineComment =>
    obtain ⟨body, rfl, comment⟩ := spelled
    have length := lineCommentLength_eq_iff.mpr comment
    change first Byte.slash (Byte.slash :: (body ++ after)) = _
    rw [first_lineComment rfl rfl]
    exact Prod.ext rfl (by simpa using length)
  | blockComment =>
    obtain ⟨body, rfl, comment⟩ := spelled
    have length := blockCommentLength_eq_iff.mpr comment
    change first Byte.slash (Byte.star :: (body ++ after)) = _
    rw [first_blockComment rfl rfl]
    exact Prod.ext rfl (by simpa using length)

private theorem exists_opens (c : UInt8) (rest : Bytes) :
    ∃ kind bytes after, c :: rest = bytes ++ after ∧ Opens kind bytes after := by
  obtain ⟨length, same⟩ := Nat.exists_eq_succ_of_ne_zero (Nat.ne_of_gt (first_pos c rest))
  have room := first_le c rest
  rw [same] at room
  refine ⟨(first c rest).1, c :: rest.take length, rest.drop length, by simp, ?_⟩
  simp only [Opens, List.take_append_drop, List.length_take, Nat.min_eq_left (Nat.le_of_succ_le_succ room)]
  exact Prod.ext rfl same

end Region

section Cut
variable {before ahead : Bytes} {regions : List Region}

theorem Contiguous.le {start stop : Nat} (chain : Contiguous start stop regions) : start ≤ stop := by
  induction regions generalizing start with
  | nil => exact Nat.le_of_eq chain
  | cons region rest ih =>
    obtain ⟨rfl, before, later⟩ := chain
    exact Nat.le_trans (Nat.le_of_lt before) (ih later)

/-- Regions that follow the grammar from some point of a text on are those that
classification finds there. -/
theorem eq_classifyFrom (chain : Contiguous before.length (before ++ ahead).length regions)
    (spelled : ∀ region ∈ regions, Spelled region.kind (slice (before ++ ahead) region.start region.stop)
      ((before ++ ahead).drop region.stop)) : regions = classifyFrom before.length ahead := by
  induction regions generalizing before ahead with
  | nil =>
    obtain rfl : ahead = [] := by simpa [Contiguous] using chain
    simp [classifyFrom]
  | cons region rest ih =>
    obtain ⟨kind, start, stop⟩ := region
    obtain ⟨rfl, forward, later⟩ := chain
    simp only at forward later
    obtain ⟨size, rfl⟩ := Nat.exists_eq_add_of_lt forward
    have room := later.le
    have first := spelled _ List.mem_cons_self
    simp only [Nat.add_assoc, slice_append_left, List.drop_length_add_append, List.length_append] at first later room
    have taken : (ahead.take (size + 1)).length = size + 1 := by simp; omega
    have opens := first.opens (by intro empty; simp [empty] at taken)
    have whole := List.take_append_drop (size + 1) ahead
    rw [← whole, classifyFrom_opens opens, taken, Nat.add_assoc]
    congr 1
    have shifted := @ih (before ++ ahead.take (size + 1)) (ahead.drop (size + 1))
    simp only [List.append_assoc, whole, List.length_append, taken] at shifted
    exact shifted later fun region member => by simpa using spelled region (by simp [member])

private theorem classifyFrom_cuts (before ahead : Bytes) :
    Contiguous before.length (before ++ ahead).length (classifyFrom before.length ahead) ∧
    ∀ region ∈ classifyFrom before.length ahead, Opens region.kind
      (slice (before ++ ahead) region.start region.stop) ((before ++ ahead).drop region.stop) := by
  induction size : ahead.length using Nat.strongRecOn generalizing before ahead with
  | ind size ih =>
  subst size
  match ahead with
  | [] => simp [classifyFrom, Contiguous]
  | c :: rest =>
    obtain ⟨kind, bytes, after, same, opens⟩ := exists_opens c rest
    rw [same, classifyFrom_opens opens]
    have shorter := opens.length_lt
    have later := ih after.length (by rw [same]; exact shorter) (before ++ bytes) after rfl
    rw [List.append_assoc, List.length_append] at later
    refine ⟨⟨rfl, ?_, later.1⟩, ?_⟩
    · simp only [List.length_append] at shorter ⊢
      omega
    · intro region member
      rcases List.mem_cons.mp member with rfl | member
      · simp only [slice_append_left, List.take_left, List.drop_length_add_append, List.drop_left]
        exact opens
      · exact later.2 region member

theorem classify_contiguous (text : Bytes) : Contiguous 0 text.length (classify text) :=
  (classifyFrom_cuts [] text).1

theorem opens_of_mem_classify {text : Bytes} {region : Region} (member : region ∈ classify text) :
    Opens region.kind (slice text region.start region.stop) (text.drop region.stop) :=
  (classifyFrom_cuts [] text).2 region member

end Cut

/-- A list of regions cuts a text according to the grammar if and only if it is the
one that classification finds. -/
theorem isCut_iff_eq_classify (text : Bytes) (regions : List Region) :
    IsCut text regions ↔ regions = classify text := by
  constructor
  · intro cut
    exact @eq_classifyFrom [] text regions cut.contiguous cut.spelled
  · rintro rfl
    refine ⟨classify_contiguous text, ?_⟩
    intro region member
    exact (opens_of_mem_classify member).spelled

end Allman.Region
