import Allman.Proofs.Layout

/-! The tokens that scanning finds in a text are those of its layout. The cursor
walks over offsets into the whole text, region by region; the layout knows only
what stands ahead. Each step of the cursor is one step of the layout, so a scan
from any point of a text gives the items that follow. -/

namespace Allman
open Region

def placed (offset : Nat) : List Item → List Token
  | [] => []
  | item :: rest =>
    let start := offset + item.gap.length
    let stop := start + item.bytes.length
    ⟨item.kind, start, stop, item.bytes⟩ :: placed stop rest

/-- The regions that are left once `before` has been read and `ahead` has not: those
of `ahead` itself, or the rest of a code region that starts before it. -/
def Remaining (before ahead : Bytes) (regions : List Region) : Prop :=
  regions = classifyFrom before.length ahead ∨
  ∃ start, start ≤ before.length ∧
    regions = ⟨.code, start, before.length + codeLength ahead⟩ ::
      classifyFrom (before.length + codeLength ahead) (ahead.drop (codeLength ahead))

theorem slice_append_left (before ahead : Bytes) (size : Nat) :
    slice (before ++ ahead) before.length (before.length + size) = ahead.take size := by
  simp [slice]

theorem Remaining.code {before ahead : Bytes} {c : UInt8} {regions : List Region}
    (remaining : Remaining before (c :: ahead) regions) (code : StartsCode (c :: ahead)) :
    ∃ start, start ≤ before.length ∧
      regions = ⟨.code, start, before.length + (codeLength ahead + 1)⟩ ::
        classifyFrom (before.length + (codeLength ahead + 1)) (ahead.drop (codeLength ahead)) := by
  rcases remaining with rfl | ⟨start, early, rfl⟩
  · refine ⟨before.length, Nat.le_refl _, ?_⟩
    rw [classifyFrom, code.first_eq]
    rfl
  · refine ⟨start, early, ?_⟩
    rw [code.codeLength_eq]
    rfl

private theorem Remaining.of_code {before ahead : Bytes} {size start : Nat} (early : start ≤ before.length)
    (covered : codeLength ahead = size) :
    Remaining before ahead (⟨.code, start, before.length + size⟩ ::
      classifyFrom (before.length + size) (ahead.drop size)) := by
  subst covered
  exact .inr ⟨start, early, rfl⟩

theorem Remaining.step {before ahead : Bytes} {c : UInt8} {regions : List Region}
    (remaining : Remaining before (c :: ahead) regions) (code : StartsCode (c :: ahead)) :
    Remaining (before ++ [c]) ahead regions := by
  obtain ⟨start, early, rfl⟩ := remaining.code code
  have length : before.length + (codeLength ahead + 1) = (before ++ [c]).length + codeLength ahead := by
    simp only [List.length_append, List.length_singleton]
    omega
  rw [length]
  exact .of_code (by simp only [List.length_append]; omega) rfl

/-- Code that has been used up makes no difference to the next token. -/
theorem Remaining.nextFrom_eq {before ahead : Bytes} {regions : List Region}
    (remaining : Remaining before ahead regions) (ended : codeLength ahead = 0) (text : Bytes) :
    Cursor.nextFrom text regions before.length =
      Cursor.nextFrom text (classifyFrom before.length ahead) before.length := by
  rcases remaining with rfl | ⟨start, early, rfl⟩
  · rfl
  · rw [ended, Cursor.nextFrom, if_pos (by simp)]
    rfl

private theorem Remaining.readDirective_eq {before ahead : Bytes} {regions : List Region}
    (remaining : Remaining before ahead regions) (ended : codeLength ahead = 0) (text : Bytes) (start stop : Nat) :
    Cursor.readDirective text start regions before.length stop =
      Cursor.readDirective text start (classifyFrom before.length ahead) before.length stop := by
  rcases remaining with rfl | ⟨first, early, rfl⟩
  · rfl
  · have here : max before.length first = before.length := Nat.max_eq_left early
    rw [ended, Cursor.readDirective]
    simp [here, slice, directiveEnd]

theorem classifyFrom_opens {kind : RegionKind} {bytes after : Bytes} (opens : Opens kind bytes after) (offset : Nat) :
    classifyFrom offset (bytes ++ after) =
      ⟨kind, offset, offset + bytes.length⟩ :: classifyFrom (offset + bytes.length) after := by
  match bytes with
  | c :: rest =>
    change first c (rest ++ after) = (kind, rest.length + 1) at opens
    rw [List.cons_append, classifyFrom, opens]
    simp

section Cursor
variable {before ahead : Bytes} {c : UInt8} {regions : List Region}

private theorem slice_append_cons (size : Nat) :
    slice (before ++ c :: ahead) (before.length + 1) (before.length + (size + 1)) = ahead.take size := by
  have shifted := slice_append_left (before ++ [c]) ahead size
  simp only [List.length_append, List.length_singleton, List.append_assoc, List.singleton_append] at shifted
  rw [← shifted]
  congr 1
  omega

private theorem nextFrom_space (remaining : Remaining before (c :: ahead) regions) (space : Byte.isSpace c = true) :
    Cursor.nextFrom (before ++ c :: ahead) regions before.length =
      Cursor.nextFrom (before ++ c :: ahead) regions (before.length + 1) := by
  obtain ⟨start, early, rfl⟩ := remaining.code (StartsCode.of_isSpace space ahead)
  have here : max before.length start = before.length := Nat.max_eq_left early
  have next : max (before.length + 1) start = before.length + 1 := Nat.max_eq_left (by omega)
  have shift : before.length + (((ahead.take (codeLength ahead)).takeWhile Byte.isSpace).length + 1) =
      before.length + 1 + ((ahead.take (codeLength ahead)).takeWhile Byte.isSpace).length := by omega
  rw [Cursor.nextFrom, if_neg (by simp only; omega), Cursor.nextFrom]
  simp only [here, next, slice_append_left, slice_append_cons, List.take_succ_cons, List.dropWhile_cons, space,
    if_true, List.takeWhile_cons, List.length_cons]
  by_cases ended : codeLength ahead = 0
  · rw [ended]
    simp
  · rw [if_neg (by omega), shift]

private theorem nextFrom_comment {kind : RegionKind} {bytes : Bytes}
    (remaining : Remaining before (bytes ++ ahead) regions)
    (comment : kind = .lineComment ∨ kind = .blockComment) (opens : Opens kind bytes ahead) (text : Bytes) :
    Cursor.nextFrom text regions before.length =
      Cursor.nextFrom text (classifyFrom (before.length + bytes.length) ahead) (before.length + bytes.length) := by
  have passage : kind ≠ .code := by rcases comment with rfl | rfl <;> decide
  have room := opens.length_lt
  rw [List.length_append] at room
  rw [remaining.nextFrom_eq (opens.codeLength_eq passage), classifyFrom_opens opens, Cursor.nextFrom,
    if_neg (by simp only; omega)]
  rcases comment with rfl | rfl <;> rfl

/-- A gap is passed over, whatever region of it the cursor is in. -/
theorem nextFrom_gap {gap : Bytes} (isGap : Gap ahead gap) : ∀ {before : Bytes} {regions : List Region},
    Remaining before (gap ++ ahead) regions → ∃ regions', Remaining (before ++ gap) ahead regions' ∧
      Cursor.nextFrom (before ++ gap ++ ahead) regions before.length =
        Cursor.nextFrom (before ++ gap ++ ahead) regions' (before ++ gap).length := by
  induction isGap with
  | nil => exact fun remaining => ⟨_, by simpa using remaining, by simp⟩
  | @space c gap space rest ih =>
    intro before regions remaining
    obtain ⟨regions', later, same⟩ := ih (remaining.step (StartsCode.of_isSpace space _))
    have first : Cursor.nextFrom (before ++ (c :: gap ++ ahead)) regions before.length =
        Cursor.nextFrom (before ++ (c :: gap ++ ahead)) regions (before.length + 1) :=
      nextFrom_space remaining space
    simp only [List.append_assoc, List.singleton_append, List.length_append, List.length_singleton] at later same
    refine ⟨regions', by simpa using later, ?_⟩
    simp only [List.append_assoc, List.length_append]
    exact first.trans same
  | @comment kind bytes gap comment opens rest ih =>
    intro before regions remaining
    rw [List.append_assoc] at remaining
    obtain ⟨regions', later, same⟩ := @ih (before ++ bytes) _ (.inl rfl)
    have first := nextFrom_comment remaining comment opens (before ++ (bytes ++ gap) ++ ahead)
    simp only [List.append_assoc, List.length_append] at later same first ⊢
    exact ⟨regions', later, first.trans same⟩

private theorem nextFrom_string {bytes : Bytes} (remaining : Remaining before (bytes ++ ahead) regions)
    (opens : Opens .string bytes ahead) (text : Bytes) :
    Cursor.nextFrom text regions before.length =
      (Token.covering text .string before.length (before.length + bytes.length),
        ⟨classifyFrom (before.length + bytes.length) ahead, before.length + bytes.length⟩) := by
  have room := opens.length_lt
  rw [List.length_append] at room
  rw [remaining.nextFrom_eq (opens.codeLength_eq (by decide)), classifyFrom_opens opens, Cursor.nextFrom,
    if_neg (by simp only; omega)]

private theorem nextFrom_character {bytes : Bytes} (remaining : Remaining before (bytes ++ ahead) regions)
    (opens : Opens .character bytes ahead) (text : Bytes) :
    Cursor.nextFrom text regions before.length =
      (Token.covering text .character before.length (before.length + bytes.length),
        ⟨classifyFrom (before.length + bytes.length) ahead, before.length + bytes.length⟩) := by
  have room := opens.length_lt
  rw [List.length_append] at room
  rw [remaining.nextFrom_eq (opens.codeLength_eq (by decide)), classifyFrom_opens opens, Cursor.nextFrom,
    if_neg (by simp only; omega)]

private theorem nextFrom_code (remaining : Remaining before (c :: ahead) regions) (code : StartsCode (c :: ahead))
    (solid : Byte.isSpace c = false) :
    Cursor.nextFrom (before ++ c :: ahead) regions before.length =
      if c = Byte.hash && lineAfter true before then
        Cursor.readDirective (before ++ c :: ahead) before.length regions (before.length + 1) (before.length + 1)
      else
        let token := readToken c (ahead.take (codeLength ahead))
        (Token.covering (before ++ c :: ahead) token.1 before.length (before.length + token.2),
          ⟨regions, before.length + token.2⟩) := by
  obtain ⟨start, early, rfl⟩ := remaining.code code
  have here : max before.length start = before.length := Nat.max_eq_left early
  have first : startsLine (before ++ c :: ahead) before.length = lineAfter true before := by
    rw [startsLine_eq, List.take_left']
    rfl
  rw [Cursor.nextFrom, if_neg (by simp only; omega)]
  simp [here, slice_append_left, solid, first]

theorem Remaining.plain {rest : Bytes} {kind : TokenKind}
    (remaining : Remaining before (c :: (rest ++ ahead)) regions) (code : StartsCode (c :: (rest ++ ahead)))
    (spells : Spells kind (c :: rest) ahead) : Remaining (before ++ c :: rest) ahead regions := by
  have covered := codeLength_append_goesOn spells.goesOn ahead
  obtain ⟨start, early, rfl⟩ := remaining.code code
  have length : before.length + (codeLength (rest ++ ahead) + 1) =
      (before ++ c :: rest).length + codeLength ahead := by
    simp only [covered, List.length_append, List.length_cons]
    omega
  have dropped : (rest ++ ahead).drop (codeLength (rest ++ ahead)) = ahead.drop (codeLength ahead) := by
    rw [covered, List.drop_length_add_append]
  rw [dropped, length]
  exact .of_code (by simp only [List.length_append]; omega) rfl

private theorem nextFrom_plain {rest : Bytes} {kind : TokenKind}
    (remaining : Remaining before (c :: (rest ++ ahead)) regions) (code : StartsCode (c :: (rest ++ ahead)))
    (solid : Byte.isSpace c = false) (noDirective : c = Byte.hash → lineAfter true before = false)
    (spells : Spells kind (c :: rest) ahead) :
    Cursor.nextFrom (before ++ c :: (rest ++ ahead)) regions before.length =
      (Token.covering (before ++ c :: (rest ++ ahead)) kind before.length (before.length + (rest.length + 1)),
        ⟨regions, before.length + (rest.length + 1)⟩) := by
  have covered := codeLength_append_goesOn spells.goesOn ahead
  have token : readToken c ((rest ++ ahead).take (codeLength (rest ++ ahead))) = (kind, rest.length + 1) := by
    rw [covered, List.take_length_add_append]
    exact spells.alike (.take _ _ _)
  have noDirective : (c = Byte.hash && lineAfter true before) = false := by simpa using noDirective
  rw [nextFrom_code remaining code solid, noDirective, token]
  rfl

end Cursor

private theorem start_of_classifyFrom {offset : Nat} {ahead : Bytes} {region : Region} {rest : List Region}
    (same : classifyFrom offset ahead = region :: rest) : region.start = offset := by
  cases ahead with
  | nil => simp [classifyFrom] at same
  | cons c ahead =>
    rw [classifyFrom] at same
    cases same
    rfl

/-- What a directive has to remember of its region: the bytes before `before.length`
tell of a hidden newline what `prior` tells. -/
def Recalls (prior before : Bytes) (regions : List Region) : Prop :=
  ∀ region rest, regions = region :: rest → region.kind = .code → region.start ≤ before.length →
    ∀ front, joinsLines (front ++ prior) = joinsLines (front ++ (before.drop region.start).reverse)

section Directive
variable {before ahead prior : Bytes} {c : UInt8} {regions : List Region}

theorem Recalls.step (recalls : Recalls prior before regions) (remaining : Remaining before (c :: ahead) regions)
    (code : StartsCode (c :: ahead)) : Recalls (c :: prior) (before ++ [c]) regions := by
  obtain ⟨first, early, rfl⟩ := remaining.code code
  rintro region rest ⟨⟩ - - front
  have recalled := recalls _ _ rfl rfl early (front ++ [c])
  rw [List.append_assoc, List.append_assoc] at recalled
  rw [List.drop_append_of_le_length early, List.reverse_append]
  exact recalled

theorem Recalls.hash (remaining : Remaining before (Byte.hash :: ahead) regions) :
    Recalls [Byte.hash] (before ++ [Byte.hash]) regions := by
  obtain ⟨first, early, rfl⟩ := remaining.code ⟨rfl, by cases ahead <;> rfl⟩
  rintro region rest ⟨⟩ - - front
  rw [List.drop_append_of_le_length early, List.reverse_append, List.reverse_singleton, List.singleton_append]
  match front with
  | [] => cases (before.drop first).reverse <;> rfl
  | [c] => rfl
  | c :: d :: front => rfl

/-- A region that starts here has nothing before it to recall. -/
theorem Recalls.fresh (before ahead : Bytes) : Recalls [] before (classifyFrom before.length ahead) := by
  intro region rest same _ _ front
  rw [start_of_classifyFrom same, List.drop_length, List.reverse_nil]

private theorem readDirective_code (text : Bytes) (start : Nat) {first last : Nat} (rest : List Region)
    {offset : Nat}
    (early : first ≤ offset) (stop : Nat) :
    Cursor.readDirective text start (⟨.code, first, last⟩ :: rest) offset stop =
      let reached := directiveEnd (slice text first offset).reverse offset stop (slice text offset last)
      if reached.2.2 then (Token.covering text .directive start reached.2.1, ⟨⟨.code, first, last⟩ :: rest, reached.1⟩)
      else Cursor.readDirective text start rest (max offset last) reached.2.1 := by
  have here : max offset first = offset := Nat.max_eq_left early
  rw [Cursor.readDirective]
  simp only [here, ne_eq, not_true_eq_false, if_false]

private theorem readDirective_cons (remaining : Remaining before (c :: ahead) regions)
    (code : StartsCode (c :: ahead))
    (recalls : Recalls prior before regions) (start stop : Nat) :
    Cursor.readDirective (before ++ c :: ahead) start regions before.length stop =
      if c = Byte.newline && !joinsLines prior then
        (Token.covering (before ++ c :: ahead) .directive start stop, ⟨regions, before.length⟩)
      else
        Cursor.readDirective (before ++ c :: ahead) start regions (before.length + 1)
          (if Byte.isSpace c then stop else before.length + 1) := by
  obtain ⟨first, early, rfl⟩ := remaining.code code
  have recalled : joinsLines prior = joinsLines (before.drop first).reverse := recalls _ _ rfl rfl early []
  have earlier : slice (before ++ c :: ahead) first before.length = before.drop first := by
    rw [slice, List.drop_append_of_le_length early, List.take_left' (by simp)]
  have later : slice (before ++ c :: ahead) first (before.length + 1) = before.drop first ++ [c] := by
    rw [slice, List.drop_append_of_le_length early, List.take_append, List.take_of_length_le (by simp; omega)]
    simp [Nat.sub_add_comm early]
  have length : max (before.length + 1) (before.length + (codeLength ahead + 1)) =
      max before.length (before.length + (codeLength ahead + 1)) := by omega
  rw [readDirective_code _ _ _ early, readDirective_code _ _ _ (Nat.le_succ_of_le early)]
  simp only [slice_append_left, slice_append_cons, List.take_succ_cons, earlier, later, List.reverse_append,
    List.reverse_singleton, List.singleton_append, directiveEnd, ← recalled, length]
  by_cases ends : (c = Byte.newline && !joinsLines prior) = true
  · simp only [if_pos ends, if_true]
  · simp only [if_neg ends]

private theorem readDirective_passage {kind : RegionKind} {bytes : Bytes}
    (remaining : Remaining before (bytes ++ ahead) regions)
    (passage : kind ≠ .code) (opens : Opens kind bytes ahead) (start stop : Nat) :
    Cursor.readDirective (before ++ (bytes ++ ahead)) start regions before.length stop =
      Cursor.readDirective (before ++ bytes ++ ahead) start (classifyFrom (before ++ bytes).length ahead)
        (before ++ bytes).length (before ++ bytes).length := by
  rw [remaining.readDirective_eq (opens.codeLength_eq passage), classifyFrom_opens opens, Cursor.readDirective,
    if_pos passage, List.append_assoc, List.length_append]

/-- From every place that has `body` and `spaces` ahead of it and recalls `prior`, the
cursor goes on to the end of `spaces`, and the directive ends with `body`. An empty body
leaves its end where it was. -/
def Cursor.Follows (prior body spaces after : Bytes) : Prop :=
  ∀ (start stop : Nat) {before : Bytes} {regions : List Region},
    Remaining before (body ++ spaces ++ after) regions → Recalls prior before regions →
    ∃ regions', Remaining (before ++ body ++ spaces) after regions' ∧
      Cursor.readDirective (before ++ (body ++ spaces ++ after)) start regions before.length stop =
        (Token.covering (before ++ (body ++ spaces ++ after)) .directive start
          (if body = [] then stop else before.length + body.length),
          ⟨regions', (before ++ body ++ spaces).length⟩)

namespace Cursor.Follows
variable {body spaces after : Bytes}

theorem text (prior : Bytes) : Follows prior [] [] [] := by
  intro start stop before regions remaining recalls
  refine ⟨[], .inl (by simp [classifyFrom]), ?_⟩
  rw [Remaining.readDirective_eq remaining rfl]
  simp [classifyFrom, Cursor.readDirective]

theorem line (visible : joinsLines prior = false) (after : Bytes) : Follows prior [] [] (Byte.newline :: after) := by
  intro start stop before regions remaining recalls
  refine ⟨regions, by simpa using remaining, ?_⟩
  have ends := readDirective_cons remaining ⟨rfl, by cases after <;> rfl⟩ recalls start stop
  simpa [visible] using ends

theorem space (follows : Follows (c :: prior) [] spaces after) (space : Byte.isSpace c = true)
    (hidden : c = Byte.newline → joinsLines prior = true) : Follows prior [] (c :: spaces) after := by
  intro start stop before regions remaining recalls
  replace remaining : Remaining before (c :: (spaces ++ after)) regions := remaining
  have code := StartsCode.of_isSpace space (spaces ++ after)
  have goesOn : ¬ (c = Byte.newline && !joinsLines prior) = true := by simpa using hidden
  have first := readDirective_cons remaining code recalls start stop
  obtain ⟨regions', later, same⟩ := follows start stop (remaining.step code) (recalls.step remaining code)
  rw [if_neg goesOn, if_pos space] at first
  refine ⟨regions', by simpa using later, ?_⟩
  simp only [List.append_assoc, List.nil_append, List.cons_append, List.length_append, List.length_cons,
    List.length_nil, if_true] at first same ⊢
  rw [first, same]

theorem code (follows : Follows (c :: prior) body spaces after) (code : StartsCode (c :: (body ++ spaces ++ after)))
    (hidden : c = Byte.newline → joinsLines prior = true) (solid : body ≠ [] ∨ Byte.isSpace c = false) :
    Follows prior (c :: body) spaces after := by
  intro start stop before regions remaining recalls
  replace remaining : Remaining before (c :: (body ++ spaces ++ after)) regions := remaining
  have goesOn : ¬ (c = Byte.newline && !joinsLines prior) = true := by simpa using hidden
  have first := readDirective_cons remaining code recalls start stop
  obtain ⟨regions', later, same⟩ := follows start (if Byte.isSpace c then stop else before.length + 1)
    (remaining.step code) (recalls.step remaining code)
  have ended : (if body = [] then (if Byte.isSpace c then stop else before.length + 1)
      else before.length + 1 + body.length) = before.length + (body.length + 1) := by
    split
    next empty =>
      subst empty
      rw [solid.resolve_left (by simp)]
      rfl
    next => omega
  rw [if_neg goesOn] at first
  refine ⟨regions', by simpa using later, ?_⟩
  simp only [List.append_assoc, List.nil_append, List.cons_append, List.length_append, List.length_cons,
    List.length_nil, Nat.zero_add, reduceCtorEq, if_false] at first same ⊢
  rw [first, same, ended]

theorem passage {bytes : Bytes} {kind : RegionKind} (follows : Follows [] body spaces after) (passage : kind ≠ .code)
    (opens : Opens kind bytes (body ++ spaces ++ after)) (prior : Bytes) :
    Follows prior (bytes ++ body) spaces after := by
  intro start stop before regions remaining recalls
  replace remaining : Remaining before (bytes ++ (body ++ spaces ++ after)) regions := by simpa using remaining
  have first := readDirective_passage remaining passage opens start stop
  obtain ⟨regions', later, same⟩ := follows start (before ++ bytes).length (.inl rfl) (.fresh _ _)
  have nonempty : bytes ++ body ≠ [] := by
    cases bytes with
    | nil => exact opens.elim
    | cons _ _ => simp
  have ended : (if body = [] then (before ++ bytes).length else (before ++ bytes).length + body.length) =
      before.length + (bytes ++ body).length := by
    split
    next empty => simp [empty]
    next => simp only [List.length_append, Nat.add_assoc]
  rw [ended] at same
  refine ⟨regions', by simpa using later, ?_⟩
  rw [if_neg nonempty]
  simp only [List.append_assoc, List.length_append] at first same ⊢
  rw [first, same]

end Cursor.Follows

/-- The cursor follows a directive to the newline that ends it. -/
theorem Directive.follows {body spaces after : Bytes} (directive : Directive prior body spaces after) :
    Cursor.Follows prior body spaces after := by
  induction directive with
  | text => exact .text _
  | line visible => exact .line visible _
  | space space hidden _ ih => exact ih.space space hidden
  | code code hidden solid _ ih => exact ih.code code hidden solid
  | passage passage opens _ ih => exact ih.passage passage opens _

end Directive

private theorem covering_append (before bytes after : Bytes) (kind : TokenKind) :
    Token.covering (before ++ (bytes ++ after)) kind before.length (before.length + bytes.length) =
      ⟨kind, before.length, before.length + bytes.length, bytes⟩ := by
  rw [Token.covering, slice_append_left, List.take_left]

/-- The next token is the one that stands first. Behind a directive the cursor is
already past the spaces that end its line. -/
theorem nextFrom_stands {before bytes after : Bytes} {kind : TokenKind} {regions : List Region}
    (stands : Stands (lineAfter true before) kind bytes after)
    (remaining : Remaining before (bytes ++ after) regions) :
    ∃ spaces ahead regions', allSpaces spaces = true ∧ after = spaces ++ ahead ∧
      Remaining (before ++ bytes ++ spaces) ahead regions' ∧ kind ≠ .endOfText ∧
      Cursor.nextFrom (before ++ (bytes ++ after)) regions before.length =
        (⟨kind, before.length, before.length + bytes.length, bytes⟩,
          ⟨regions', (before ++ bytes ++ spaces).length⟩) := by
  cases stands with
  | string opens =>
    refine ⟨[], after, _, rfl, rfl, .inl rfl, by decide, ?_⟩
    rw [nextFrom_string remaining opens, covering_append]
    simp
  | character opens =>
    refine ⟨[], after, _, rfl, rfl, .inl rfl, by decide, ?_⟩
    rw [nextFrom_character remaining opens, covering_append]
    simp
  | @directive body spaces after first rest =>
    have code : StartsCode (Byte.hash :: (body ++ spaces ++ after)) :=
      ⟨rfl, by cases body ++ spaces ++ after <;> rfl⟩
    replace remaining : Remaining before (Byte.hash :: (body ++ spaces ++ after)) regions := by simpa using remaining
    obtain ⟨regions', later, same⟩ :=
      rest.follows before.length (before.length + 1) (remaining.step code) (.hash remaining)
    refine ⟨spaces, after, regions', rest.allSpaces_spaces, rfl, by simpa using later, by decide, ?_⟩
    have next := nextFrom_code remaining code (by decide)
    rw [first, Bool.and_true, if_pos (by decide)] at next
    have stop : (if body = [] then before.length + 1 else (before ++ [Byte.hash]).length + body.length) =
        before.length + (Byte.hash :: body).length := by
      split
      next empty => simp [empty]
      next => simp only [List.length_append, List.length_cons, List.length_nil]; omega
    rw [stop] at same
    have covering := covering_append before (Byte.hash :: body) (spaces ++ after) .directive
    simp only [List.append_assoc, List.cons_append, List.nil_append, List.length_append, List.length_cons,
      List.length_nil, Nat.zero_add] at next same covering ⊢
    rw [next, same, covering]
  | @plain kind c rest after solid code noDirective spells =>
    replace remaining : Remaining before (c :: (rest ++ after)) regions := remaining
    have same := nextFrom_plain remaining code solid noDirective spells
    refine ⟨[], after, regions, rfl, rfl, by simpa using remaining.plain code spells, ?_, ?_⟩
    · rintro rfl
      exact spells.kind_ne (by decide)
    · have covering := covering_append before (c :: rest) after kind
      simp only [List.cons_append, List.length_cons] at same covering ⊢
      rw [same, covering]
      simp

/-- Scanning on from any point of a text gives the items that follow. `skipped` are
spaces that a directive before them has already been read over. -/
theorem scanFrom_reads {last : Bytes} : ∀ {items : List Item} {before skipped ahead : Bytes} {regions : List Region},
    allSpaces skipped = true → woven items last = skipped ++ ahead → Reads (lineAfter true before) items last →
    Remaining (before ++ skipped) ahead regions →
    Token.scanFrom (before ++ woven items last) ⟨regions, (before ++ skipped).length⟩ = placed before.length items := by
  intro items
  induction items with
  | nil =>
    intro before skipped ahead regions blank same reads remaining
    obtain rfl : last = skipped ++ ahead := same
    have isGap : Gap [] ahead := Gap.strip reads blank
    have remaining : Remaining (before ++ skipped) (ahead ++ []) regions := by simpa using remaining
    obtain ⟨regions', later, next⟩ := nextFrom_gap isGap remaining
    rw [later.nextFrom_eq rfl] at next
    simp only [List.append_nil, List.append_assoc, classifyFrom, Cursor.nextFrom] at next
    rw [Token.scanFrom, Cursor.next, woven]
    simp only [next, Token.covering, ne_eq, not_true_eq_false, dite_false, placed]
  | cons item rest ih =>
    intro before skipped ahead regions blank same reads remaining
    obtain ⟨isGap, stands, reads⟩ := reads
    obtain ⟨c, more, bytes, solid⟩ := stands.solid
    rw [woven, bytes, List.append_assoc, List.cons_append] at same
    obtain ⟨gap, split, ahead_eq⟩ := exists_gap_of_spaces blank solid same.symm
    rw [← List.cons_append, ← bytes] at ahead_eq
    subst ahead_eq
    rw [split] at isGap
    obtain ⟨regions', later, next⟩ := nextFrom_gap (isGap.strip blank) remaining
    rw [List.append_assoc before, ← split] at later next
    rw [← lineAfter_append] at stands
    obtain ⟨spaces, ahead, regions'', blank', after, remaining', kind, token⟩ := nextFrom_stands stands later
    rw [lineAfter_append, ← lineAfter_append true before, ← lineAfter_append] at reads
    have tail := ih blank' after reads (by simpa using remaining')
    rw [Token.scanFrom]
    have step : Cursor.next (before ++ woven (item :: rest) last) ⟨regions, (before ++ skipped).length⟩ =
        (⟨item.kind, before.length + item.gap.length, before.length + item.gap.length + item.bytes.length, item.bytes⟩,
          ⟨regions'', (before ++ item.gap ++ item.bytes ++ spaces).length⟩) := by
      simp only [List.append_assoc, List.length_append] at next token ⊢
      rw [Cursor.next, woven]
      simp only [List.append_assoc]
      rw [next, token]
    rw [step]
    simp only [ne_eq, kind, not_false_eq_true, dite_true, placed]
    congr 1
    simpa [woven, Nat.add_assoc] using tail

/-- The tokens of a text are those of its layout. -/
theorem Reads.scan_eq {items : List Item} {last : Bytes} (reads : Reads true items last) :
    Token.scan (woven items last) (classify (woven items last)) = placed 0 items :=
  @scanFrom_reads last items [] [] _ _ rfl rfl reads (.inl rfl)

end Allman
