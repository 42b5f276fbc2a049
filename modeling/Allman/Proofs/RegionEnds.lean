import Allman.Region

/-! Where a region ends is decided by its own bytes and at most a line break after
it. A literal or comment is closed, and then nothing behind it matters; or a line
break ends it, and then only that line break matters; or it runs to the end of the
text. A change of the text behind a region that keeps to this leaves it alone. -/

namespace Allman

structure SameBreak (after other : Bytes) : Prop where
  first : startsLineBreak after = true
  second : startsLineBreak other = true
  head : after.head? = other.head?

private theorem startsCrLf_cons_congr {after other : Bytes} (c : UInt8) (same : after.head? = other.head?) :
    startsCrLf (c :: after) = startsCrLf (c :: other) := by
  cases after <;> cases other <;> simp_all [startsCrLf]

private theorem startsLineBreak_cons_congr {after other : Bytes} (c : UInt8) (same : after.head? = other.head?) :
    startsLineBreak (c :: after) = startsLineBreak (c :: other) := by
  simp only [startsLineBreak, startsCrLf_cons_congr c same]

theorem head?_append_congr {after other : Bytes} (body : Bytes) (same : body ≠ [] ∨ after.head? = other.head?) :
    (body ++ after).head? = (body ++ other).head? := by
  cases body with
  | nil => simpa using same
  | cons c body => rfl

theorem SameBreak.startsLineBreak_append {after other : Bytes} (same : SameBreak after other) (body : Bytes) :
    startsLineBreak (body ++ after) = startsLineBreak (body ++ other) := by
  cases body with
  | nil => exact same.first.trans same.second.symm
  | cons c body => exact startsLineBreak_cons_congr c (head?_append_congr body (.inr same.head))

theorem startsLineBreak_append {bytes : Bytes} (starts : startsLineBreak bytes = true) (more : Bytes) :
    startsLineBreak (bytes ++ more) = true := by
  match bytes with
  | [c] => simp_all [startsLineBreak, startsCrLf]
  | c :: d :: _ => simpa [startsLineBreak, startsCrLf] using starts

theorem startsLineBreak_of_append {bytes more : Bytes} (starts : startsLineBreak (bytes ++ more) = true)
    (none : startsLineBreak more = false) : startsLineBreak bytes = true := by
  match bytes with
  | [] => simp_all
  | [c] =>
    cases more with
    | nil => simpa using starts
    | cons d more => simp_all [startsLineBreak, startsCrLf]
  | c :: d :: _ => simpa [startsLineBreak, startsCrLf] using starts

theorem hasNewline_of_startsLineBreak {bytes : Bytes} (starts : startsLineBreak bytes = true) :
    hasNewline bytes = true := by
  match bytes with
  | [c] => simp_all [startsLineBreak, startsCrLf, hasNewline]
  | c :: d :: _ =>
    simp only [startsLineBreak, startsCrLf, Bool.or_eq_true, beq_iff_eq, Bool.and_eq_true] at starts
    rcases starts with rfl | ⟨-, rfl⟩ <;> simp [hasNewline]

namespace Region

/-- A stretch of a length measured by `length` ends where `body` does in the text
`body ++ after`, for one of the three reasons there are. -/
inductive Ending (length : Bytes → Nat) (last : UInt8) (body after : Bytes) : Prop where
  | text (finished : after = [])
  | closed (any : ∀ other, length (body ++ other) = body.length) (closing : body.getLast? = some last)
  | line (starts : startsLineBreak after = true)
      (same : ∀ other, SameBreak after other → length (body ++ other) = body.length)

/-- One more byte in front changes nothing about the end, as long as how that byte
is read depends on no more than the byte behind it. -/
theorem Ending.cons {length inner : Bytes → Nat} {last c : UInt8} {body after : Bytes}
    (ending : Ending inner last body after)
    (step : ∀ other, (body ++ other).head? = (body ++ after).head? →
      length (c :: (body ++ other)) = inner (body ++ other) + 1) :
    Ending length last (c :: body) after := by
  rcases ending with finished | ⟨any, closing⟩ | ⟨starts, same⟩
  · exact .text finished
  · have nonempty : body ≠ [] := fun empty => by simp [empty] at closing
    refine .closed (fun other => ?_) (by rw [List.getLast?_cons, closing]; rfl)
    rw [List.cons_append, step other (head?_append_congr body (.inl nonempty)), any other, List.length_cons]
  · refine .line starts fun other equal => ?_
    rw [List.cons_append, step other (head?_append_congr body (.inr equal.head.symm)), same other equal,
      List.length_cons]

private theorem literalLength_ending {quote : UInt8} (printable : Byte.isSpace quote = false) {hidden : Bool}
    {body after : Bytes} (ends : literalLength quote hidden (body ++ after) = body.length) :
    Ending (literalLength quote hidden) quote body after := by
  induction body generalizing hidden with
  | nil =>
    cases after with
    | nil => exact .text rfl
    | cons c rest =>
      simp only [List.nil_append, List.length_nil, literalLength] at ends
      split at ends
      · cases ends
      next visible =>
      split at ends
      · cases ends
      next plain =>
      split at ends
      next starts =>
        refine .line starts fun other same => ?_
        cases other with
        | nil => cases same.second
        | cons d rest =>
          obtain rfl : c = d := by simpa using same.head
          simp only [List.nil_append, literalLength, if_neg visible, if_neg plain, if_pos same.second,
            List.length_nil]
      next => split at ends <;> cases ends
  | cons c body ih =>
    simp only [List.cons_append, literalLength, List.length_cons] at ends
    split at ends
    next invisible =>
      apply (ih (Nat.succ.inj ends)).cons
      intro other same
      simp only [literalLength, if_pos invisible, startsCrLf_cons_congr c same]
    next visible =>
    split at ends
    next escape =>
      apply (ih (Nat.succ.inj ends)).cons
      intro other same
      simp only [literalLength, if_neg visible, if_pos escape]
    next plain =>
    split at ends
    · cases ends
    next inLine =>
    split at ends
    next closing =>
      obtain rfl : body = [] := by simpa using ends
      subst closing
      refine .closed (fun other => ?_) rfl
      have notBreak : startsLineBreak (c :: other) = false := by
        simp only [Byte.isSpace, Bool.or_eq_false_iff, beq_eq_false_iff_ne] at printable
        cases other <;> simp [startsLineBreak, startsCrLf, printable.2, printable.1.2]
      simp [literalLength, visible, plain, notBreak]
    next inside =>
      apply (ih (Nat.succ.inj ends)).cons
      intro other same
      rw [startsLineBreak_cons_congr c same.symm] at inLine
      simp only [literalLength, if_neg visible, if_neg plain, if_neg inLine, if_neg inside]

private theorem lineCommentLength_ending {hidden : Bool} {body after : Bytes}
    (ends : lineCommentLength hidden (body ++ after) = body.length) :
    after = [] ∨ startsLineBreak after = true ∧
      ∀ other, SameBreak after other → lineCommentLength hidden (body ++ other) = body.length := by
  induction body generalizing hidden with
  | nil =>
    cases after with
    | nil => exact .inl rfl
    | cons c rest =>
      simp only [List.nil_append, List.length_nil, lineCommentLength] at ends
      split at ends
      · cases ends
      next visible =>
      split at ends
      · cases ends
      next plain =>
      split at ends
      next starts =>
        refine .inr ⟨starts, fun other same => ?_⟩
        cases other with
        | nil => cases same.second
        | cons d rest =>
          obtain rfl : c = d := by simpa using same.head
          simp only [List.nil_append, lineCommentLength, if_neg visible, if_neg plain, if_pos same.second,
            List.length_nil]
      next => cases ends
  | cons c body ih =>
    simp only [List.cons_append, lineCommentLength, List.length_cons] at ends
    split at ends
    next invisible =>
      refine (ih (Nat.succ.inj ends)).imp id fun ⟨starts, same⟩ => ⟨starts, fun other equal => ?_⟩
      have head := head?_append_congr body (.inr equal.head)
      rw [List.cons_append, lineCommentLength, if_pos invisible, ← startsCrLf_cons_congr c head, same other equal,
        List.length_cons]
    next visible =>
    split at ends
    next escape =>
      refine (ih (Nat.succ.inj ends)).imp id fun ⟨starts, same⟩ => ⟨starts, fun other equal => ?_⟩
      rw [List.cons_append, lineCommentLength, if_neg visible, if_pos escape, ← equal.startsLineBreak_append,
        same other equal, List.length_cons]
    next plain =>
    split at ends
    · cases ends
    next inLine =>
      refine (ih (Nat.succ.inj ends)).imp id fun ⟨starts, same⟩ => ⟨starts, fun other equal => ?_⟩
      rw [startsLineBreak_cons_congr c (head?_append_congr body (.inr equal.head))] at inLine
      rw [List.cons_append, lineCommentLength, if_neg visible, if_neg plain, if_neg inLine, same other equal,
        List.length_cons]

private theorem blockCommentLength_ending {body after : Bytes}
    (ends : blockCommentLength (body ++ after) = body.length) :
    Ending blockCommentLength Byte.slash body after := by
  induction body with
  | nil =>
    cases after with
    | nil => exact .text rfl
    | cons c rest =>
      simp only [List.nil_append, List.length_nil, blockCommentLength] at ends
      split at ends <;> cases ends
  | cons c body ih =>
    simp only [List.cons_append, blockCommentLength, List.length_cons] at ends
    split at ends
    next closing =>
      match body with
      | [d] =>
        obtain ⟨rfl, rfl⟩ : c = Byte.star ∧ d = Byte.slash := by simpa using closing
        exact .closed (fun other => by simp [blockCommentLength]) rfl
      | [] => cases ends
      | _ :: _ :: _ => cases ends
    next inside =>
      apply (ih (Nat.succ.inj ends)).cons
      intro other same
      rw [← same] at inside
      simp only [blockCommentLength, if_neg inside]

/-- The first region of the text `bytes ++ after` is of the given kind and ends where `bytes` does. -/
def Opens (kind : RegionKind) (bytes after : Bytes) : Prop :=
  match bytes with
  | [] => False
  | c :: rest => first c (rest ++ after) = (kind, rest.length + 1)

/-- Why a literal or comment ends where it does, and which texts could stand behind it as well. -/
inductive Opens.Ending (kind : RegionKind) (bytes after : Bytes) : Prop where
  | text (finished : after = [])
  | closed (any : ∀ other, Opens kind bytes other)
      (solid : ∃ c, bytes.getLast? = some c ∧ Byte.isSpace c = false)
  | line (starts : startsLineBreak after = true) (same : ∀ other, SameBreak after other → Opens kind bytes other)

theorem Ending.opens {length : Bytes → Nat} {last c : UInt8} {kind : RegionKind} (lead : Bytes) {body after : Bytes}
    (ending : Ending length last body after) (printable : Byte.isSpace last = false)
    (reads : ∀ other, length (body ++ other) = body.length → Opens kind (c :: lead ++ body) other) :
    Opens.Ending kind (c :: lead ++ body) after := by
  rcases ending with finished | ⟨any, closing⟩ | ⟨starts, same⟩
  · exact .text finished
  · refine .closed (fun other => reads other (any other)) ⟨last, ?_, printable⟩
    rw [List.getLast?_append, closing]
    rfl
  · exact .line starts fun other equal => reads other (same other equal)

theorem isSpace_quote {c : UInt8} {kind : RegionKind} (opening : opensLiteral? c = some kind) :
    Byte.isSpace c = false := by
  unfold opensLiteral? at opening
  split at opening
  next quote => subst quote; decide
  next =>
    split at opening
    next quote => subst quote; decide
    next => cases opening

section First
variable {c : UInt8} {rest : Bytes}

theorem first_literal {kind : RegionKind} (literal : opensLiteral? c = some kind) :
    first c rest = (kind, literalLength c false rest + 1) := by
  simp only [first, literal]

theorem first_lineComment (plain : opensLiteral? c = none)
    (comment : opensComment? (c :: rest) = some .lineComment) :
    first c rest = (.lineComment, lineCommentLength false (rest.drop 1) + 2) := by
  simp only [first, plain, comment]

theorem first_blockComment (plain : opensLiteral? c = none)
    (comment : opensComment? (c :: rest) = some .blockComment) :
    first c rest = (.blockComment, blockCommentLength (rest.drop 1) + 2) := by
  simp only [first, plain, comment]

theorem first_code (plain : opensLiteral? c = none) (code : opensComment? (c :: rest) = none) :
    first c rest = (.code, codeLength rest + 1) := by
  simp only [first, plain, code]

theorem opensComment?_cases (text : Bytes) : opensComment? text = none ∨
    opensComment? text = some .lineComment ∨ opensComment? text = some .blockComment := by
  unfold opensComment?
  split
  · split
    · exact .inl rfl
    · split
      · exact .inr (.inl rfl)
      · split
        · exact .inr (.inr rfl)
        · exact .inl rfl
  · exact .inl rfl

end First

theorem Opens.ending {kind : RegionKind} {bytes after : Bytes} (opens : Opens kind bytes after)
    (passage : kind ≠ .code) : Opens.Ending kind bytes after := by
  cases bytes with
  | nil => exact opens.elim
  | cons c rest =>
    change first c (rest ++ after) = (kind, rest.length + 1) at opens
    cases literal : opensLiteral? c with
    | some quoted =>
      rw [first_literal literal] at opens
      obtain ⟨rfl, length⟩ := Prod.mk.inj opens
      have ending := literalLength_ending (isSpace_quote literal) (Nat.succ.inj length)
      refine Ending.opens [] ending (isSpace_quote literal) fun other same => ?_
      simp only [List.nil_append, List.cons_append, Opens, first_literal literal, same]
    | none =>
      rcases opensComment?_cases (c :: (rest ++ after)) with code | line | block
      · rw [first_code literal code] at opens
        exact absurd (Prod.mk.inj opens).1.symm passage
      · rw [first_lineComment literal line] at opens
        obtain ⟨rfl, length⟩ := Prod.mk.inj opens
        cases rest with
        | nil => cases length
        | cons d body =>
          have reads : ∀ other, lineCommentLength false (body ++ other) = body.length →
              Opens .lineComment (c :: d :: body) other := by
            intro other same
            have comment : opensComment? (c :: (d :: body ++ other)) = some .lineComment := line
            exact (first_lineComment literal comment).trans (Prod.ext rfl (congrArg (· + 2) same))
          rcases lineCommentLength_ending (Nat.succ.inj (Nat.succ.inj length)) with finished | ⟨starts, same⟩
          · exact .text finished
          · exact .line starts fun other equal => reads other (same other equal)
      · rw [first_blockComment literal block] at opens
        obtain ⟨rfl, length⟩ := Prod.mk.inj opens
        cases rest with
        | nil => cases length
        | cons d body =>
          have ending := blockCommentLength_ending (Nat.succ.inj (Nat.succ.inj length))
          refine Ending.opens [d] ending (by decide) fun other same => ?_
          have comment : opensComment? (c :: (d :: body ++ other)) = some .blockComment := block
          exact (first_blockComment literal comment).trans (Prod.ext rfl (congrArg (· + 2) same))

private theorem codeLength_le (text : Bytes) : codeLength text ≤ text.length := by
  induction text with
  | nil => exact Nat.le_refl _
  | cons c rest ih =>
    unfold codeLength
    split
    · exact Nat.zero_le _
    · exact Nat.succ_le_succ ih

private theorem literalLength_le (quote : UInt8) (hidden : Bool) (text : Bytes) :
    literalLength quote hidden text ≤ text.length := by
  induction text generalizing hidden with
  | nil => exact Nat.le_refl _
  | cons c rest ih =>
    have longer := fun hidden => Nat.succ_le_succ (ih hidden)
    unfold literalLength
    split
    · exact longer _
    · split
      · exact longer _
      · split
        · exact Nat.zero_le _
        · split
          · exact Nat.succ_le_succ (Nat.zero_le _)
          · exact longer _

private theorem lineCommentLength_le (hidden : Bool) (text : Bytes) :
    lineCommentLength hidden text ≤ text.length := by
  induction text generalizing hidden with
  | nil => exact Nat.le_refl _
  | cons c rest ih =>
    have longer := fun hidden => Nat.succ_le_succ (ih hidden)
    unfold lineCommentLength
    split
    · exact longer _
    · split
      · exact longer _
      · split
        · exact Nat.zero_le _
        · exact longer _

private theorem blockCommentLength_le (text : Bytes) : blockCommentLength text ≤ text.length := by
  induction text with
  | nil => exact Nat.le_refl _
  | cons c rest ih =>
    unfold blockCommentLength
    split
    next closing =>
      cases rest with
      | nil => simp at closing
      | cons d rest => simp
    next => exact Nat.succ_le_succ ih

theorem first_le (c : UInt8) (rest : Bytes) : (first c rest).2 ≤ rest.length + 1 := by
  have comment : ∀ {kind}, opensComment? (c :: rest) = some kind → (rest.drop 1).length + 1 = rest.length := by
    intro kind opening
    cases rest with
    | nil => cases opening
    | cons d rest => rfl
  cases literal : opensLiteral? c with
  | some kind =>
    rw [first_literal literal]
    exact Nat.succ_le_succ (literalLength_le ..)
  | none =>
    rcases opensComment?_cases (c :: rest) with code | line | block
    · rw [first_code literal code]
      exact Nat.succ_le_succ (codeLength_le rest)
    · rw [first_lineComment literal line, ← comment line]
      exact Nat.succ_le_succ (Nat.succ_le_succ (lineCommentLength_le ..))
    · rw [first_blockComment literal block, ← comment block]
      exact Nat.succ_le_succ (Nat.succ_le_succ (blockCommentLength_le ..))

def StartsCode : Bytes → Prop
  | [] => False
  | c :: rest => opensLiteral? c = none ∧ opensComment? (c :: rest) = none

theorem StartsCode.first_eq {c : UInt8} {rest : Bytes} (code : StartsCode (c :: rest)) :
    first c rest = (.code, codeLength rest + 1) :=
  first_code code.1 code.2

theorem StartsCode.codeLength_eq {c : UInt8} {rest : Bytes} (code : StartsCode (c :: rest)) :
    codeLength (c :: rest) = codeLength rest + 1 := by
  simp [codeLength, code.1, code.2]

theorem startsCode_or_opens (c : UInt8) (rest : Bytes) : StartsCode (c :: rest) ∨
    ∃ kind bytes after, kind ≠ RegionKind.code ∧ c :: rest = bytes ++ after ∧ Opens kind bytes after := by
  have found : ∀ {kind length}, first c rest = (kind, length + 1) →
      Opens kind (c :: rest.take length) (rest.drop length) := by
    intro kind length same
    have room := first_le c rest
    rw [same] at room
    simp only [Opens, List.take_append_drop, same, List.length_take, Nat.min_eq_left (Nat.le_of_succ_le_succ room)]
  have cut : ∀ length, c :: rest = c :: rest.take length ++ rest.drop length := by simp
  cases literal : opensLiteral? c with
  | some kind =>
    refine .inr ⟨kind, _, _, ?_, cut _, found (first_literal literal)⟩
    rintro rfl
    simp only [opensLiteral?] at literal
    split at literal
    · cases literal
    · split at literal <;> cases literal
  | none =>
    rcases opensComment?_cases (c :: rest) with code | line | block
    · exact .inl ⟨literal, code⟩
    · exact .inr ⟨_, _, _, by decide, cut _, found (first_lineComment literal line)⟩
    · exact .inr ⟨_, _, _, by decide, cut _, found (first_blockComment literal block)⟩

theorem Opens.codeLength_eq {kind : RegionKind} {bytes after : Bytes} (opens : Opens kind bytes after)
    (passage : kind ≠ .code) : codeLength (bytes ++ after) = 0 := by
  match bytes with
  | c :: rest =>
    change first c (rest ++ after) = (kind, rest.length + 1) at opens
    rw [List.cons_append, codeLength]
    refine if_pos ?_
    cases literal : opensLiteral? c with
    | some quoted => rfl
    | none =>
      rcases opensComment?_cases (c :: (rest ++ after)) with code | line | block
      · rw [first_code literal code] at opens
        exact absurd (Prod.mk.inj opens).1.symm passage
      · simp [line]
      · simp [block]

/-- The literals and comments of a text in order, each with its kind. -/
def passages : Bytes → List (RegionKind × Bytes)
  | [] => []
  | c :: rest =>
    let region := first c rest
    if region.1 = .code then passages (rest.drop (region.2 - 1))
    else (region.1, (c :: rest).take region.2) :: passages (rest.drop (region.2 - 1))
termination_by text => text.length
decreasing_by
  all_goals
    rw [List.length_drop]
    exact Nat.lt_succ_of_le (Nat.sub_le _ _)

theorem passages_code {c : UInt8} {rest : Bytes} (code : StartsCode (c :: rest)) :
    passages (c :: rest) = passages rest := by
  rw [passages, code.first_eq]
  simp only [if_true, Nat.add_sub_cancel]
  cases rest with
  | nil => rfl
  | cons d rest =>
    rcases startsCode_or_opens d rest with more | ⟨kind, bytes, after, passage, same, opens⟩
    · rw [more.codeLength_eq, List.drop_succ_cons, passages, more.first_eq]
      simp
    · rw [same, opens.codeLength_eq passage, List.drop_zero]

theorem Opens.passages_eq {kind : RegionKind} {bytes after : Bytes} (opens : Opens kind bytes after)
    (passage : kind ≠ .code) : passages (bytes ++ after) = (kind, bytes) :: passages after := by
  match bytes with
  | c :: rest =>
    change first c (rest ++ after) = (kind, rest.length + 1) at opens
    rw [List.cons_append, passages, opens]
    simp [passage]

def nonCode (text : Bytes) : List (RegionKind × Bytes) :=
  ((classify text).filter (·.kind ≠ .code)).map fun region => (region.kind, slice text region.start region.stop)

theorem nonCode_eq_passages (text : Bytes) : nonCode text = passages text := by
  suffices shifted : ∀ before rest : Bytes,
      ((classifyFrom before.length rest).filter (·.kind ≠ .code)).map
        (fun region => (region.kind, slice (before ++ rest) region.start region.stop)) = passages rest from
    shifted [] text
  intro before rest
  induction size : rest.length using Nat.strongRecOn generalizing before rest with
  | ind size ih =>
  subst size
  match rest with
  | [] => simp [classifyFrom, passages]
  | c :: rest =>
    have room := first_le c rest
    have taken := first_pos c rest
    have cut : c :: rest = (c :: rest).take (first c rest).2 ++ rest.drop ((first c rest).2 - 1) := by
      obtain ⟨length, same⟩ := Nat.exists_eq_succ_of_ne_zero (Nat.ne_of_gt taken)
      rw [same, List.take_succ_cons, Nat.succ_sub_one, List.cons_append, List.take_append_drop]
    have shorter : (rest.drop ((first c rest).2 - 1)).length < (c :: rest).length := by
      rw [List.length_drop, List.length_cons]
      omega
    have later := ih (rest.drop ((first c rest).2 - 1)).length shorter
      (before ++ (c :: rest).take (first c rest).2) _ rfl
    rw [List.append_assoc, ← cut, List.length_append, List.length_take, List.length_cons,
      Nat.min_eq_left room] at later
    rw [classifyFrom, passages]
    by_cases code : (first c rest).1 = .code
    · simp only [List.filter_cons, code, ne_eq, not_true_eq_false, decide_false, Bool.false_eq_true, if_false,
        if_true]
      exact later
    · simp only [List.filter_cons, code, ne_eq, not_false_eq_true, decide_true, if_true, if_false, List.map_cons]
      congr 1
      simp [slice]

end Region
end Allman
