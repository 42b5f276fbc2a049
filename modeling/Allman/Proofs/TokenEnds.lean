import Allman.Proofs.RegionEnds
import Allman.Token.Lexer

/-! Where a token ends is decided by its own bytes and at most two bytes behind it.
Most bytes never go on a token at all: before such a byte every token ends, so
spaces, quotes and slashes may be put behind a token or taken away freely. -/

namespace Allman

/-- No token goes on with this byte. -/
def Byte.startsAnew (c : UInt8) : Bool :=
  !isIdentContinue c && punctuators.all fun entry => !entry.1.tail.contains c

theorem startsAnew_of_isSpace {c : UInt8} (space : Byte.isSpace c = true) : Byte.startsAnew c = true := by
  have spaces : ∀ c ∈ [Byte.space, Byte.tab, Byte.verticalTab, Byte.formFeed, Byte.newline, Byte.carriageReturn],
      Byte.startsAnew c = true := by decide +kernel
  apply spaces
  simpa [Byte.isSpace, Byte.isBlank, or_assoc] using space

/-- Read from behind a token, `other` shows nothing in its first `count` bytes that
could make the token longer than before `after`: it agrees with `after`, or ends,
or comes to a byte that no token goes on with. -/
def Alike : Nat → Bytes → Bytes → Prop
  | 0, _, _ => True
  | _ + 1, _, [] => True
  | count + 1, after, c :: other => Byte.startsAnew c = true ∨ ∃ rest, after = c :: rest ∧ Alike count rest other

theorem Alike.refl (count : Nat) (after : Bytes) : Alike count after after := by
  induction count generalizing after with
  | zero => trivial
  | succ count ih =>
    cases after with
    | nil => trivial
    | cons c rest => exact .inr ⟨rest, rfl, ih rest⟩

theorem Alike.take (count size : Nat) (after : Bytes) : Alike count after (after.take size) := by
  induction count generalizing after size with
  | zero => trivial
  | succ count ih =>
    match after, size with
    | [], _ => simp [Alike]
    | _ :: _, 0 => trivial
    | c :: rest, size + 1 => exact .inr ⟨rest, rfl, ih size rest⟩

theorem Alike.of_head {c : UInt8} (count : Nat) (after other : Bytes) (anew : Byte.startsAnew c = true) :
    Alike count after (c :: other) := by
  cases count with
  | zero => trivial
  | succ count => exact .inl anew

theorem Alike.mono {more count : Nat} {after other : Bytes} (alike : Alike more after other) (fewer : count ≤ more) :
    Alike count after other := by
  induction count generalizing more after other with
  | zero => trivial
  | succ count ih =>
    match more, other with
    | more + 1, [] => trivial
    | more + 1, c :: other =>
      rcases alike with anew | ⟨rest, same, alike⟩
      · exact .inl anew
      · exact .inr ⟨rest, same, ih alike (Nat.le_of_succ_le_succ fewer)⟩

theorem Alike.append {count : Nat} {after other : Bytes} (front : Bytes)
    (alike : Alike (count - front.length) after other) : Alike count (front ++ after) (front ++ other) := by
  induction front generalizing count with
  | nil => exact alike
  | cons c front ih =>
    match count with
    | 0 => trivial
    | count + 1 => exact .inr ⟨_, rfl, ih (by simpa using alike)⟩

theorem Alike.isPrefixOf {count : Nat} {after other bytes : Bytes} (alike : Alike count after other)
    (short : bytes.length ≤ count) (leads : bytes.isPrefixOf other = true)
    (goesOn : ∀ c ∈ bytes, Byte.startsAnew c = false) : bytes.isPrefixOf after = true := by
  induction bytes generalizing count after other with
  | nil => rfl
  | cons c bytes ih =>
    match count, other with
    | _, [] => cases leads
    | 0, _ :: _ => cases short
    | count + 1, d :: other =>
      obtain ⟨rfl, behind⟩ : c = d ∧ bytes.isPrefixOf other = true := by simpa [List.isPrefixOf] using leads
      rcases alike with anew | ⟨rest, rfl, alike⟩
      · rw [goesOn c (by simp)] at anew
        cases anew
      · have later := ih alike (Nat.le_of_succ_le_succ short) behind fun d member => goesOn d (by simp [member])
        simpa [List.isPrefixOf] using later

/-- A byte class that only holds bytes which go on tokens ends the same way before both. -/
theorem Alike.head_any {count : Nat} {after other : Bytes} (alike : Alike (count + 1) after other)
    {p : UInt8 → Bool} (goesOn : ∀ c, p c = true → Byte.startsAnew c = false)
    (ends : after.head?.any p = false) : other.head?.any p = false := by
  cases other with
  | nil => rfl
  | cons c other =>
    rcases alike with anew | ⟨rest, rfl, -⟩
    · cases holds : p c with
      | false => simpa using holds
      | true =>
        rw [goesOn c holds] at anew
        cases anew
    · simpa using ends

private theorem isIdentContinue_goesOn {c : UInt8} (continues : Byte.isIdentContinue c = true) :
    Byte.startsAnew c = false := by
  simp [Byte.startsAnew, continues]

private theorem punctuator_goesOn {entry : Bytes × TokenKind} (member : entry ∈ punctuators) {c : UInt8}
    (inside : c ∈ entry.1.tail) : Byte.startsAnew c = false := by
  have found : (punctuators.all fun entry => !entry.1.tail.contains c) = false := by
    rw [List.all_eq_false]
    exact ⟨entry, member, by simpa using inside⟩
  rw [Byte.startsAnew, found, Bool.and_false]

/-- The bytes by which a number may go on after `last`. -/
def goesOnNumber (last c : UInt8) : Bool :=
  if c = Byte.plus || c = Byte.minus then Byte.toLower last = 0x65 || Byte.toLower last = 0x70
  else Byte.isIdentContinue c || c = Byte.dot

private theorem goesOnNumber_goesOn {last c : UInt8} (goesOn : goesOnNumber last c = true) :
    Byte.startsAnew c = false := by
  have signs : ∀ c ∈ [Byte.plus, Byte.minus, Byte.dot], Byte.startsAnew c = false := by decide +kernel
  unfold goesOnNumber at goesOn
  split at goesOn
  next sign =>
    refine signs c ?_
    rcases Bool.or_eq_true_iff.mp sign with plus | minus
    · simp [of_decide_eq_true plus]
    · simp [of_decide_eq_true minus]
  next =>
    rcases Bool.or_eq_true_iff.mp goesOn with continues | dot
    · exact isIdentContinue_goesOn continues
    · exact signs c (by simp [of_decide_eq_true dot])

private theorem numberLength_cons (last c : UInt8) (rest : Bytes) : numberLength last (c :: rest) =
    if goesOnNumber last c then numberLength c rest + 1 else 0 := by
  unfold goesOnNumber
  rw [numberLength]
  split <;> rfl

/-- The token that `bytes ++ after` starts with, where no directive stands, is of
the given kind and ends where `bytes` does. -/
def Spells (kind : TokenKind) (bytes after : Bytes) : Prop :=
  match bytes with
  | [] => False
  | c :: rest => readToken c (rest ++ after) = (kind, rest.length + 1)

section Reading
variable {c last : UInt8} {rest after other : Bytes} {kind : TokenKind}

private theorem takeWhile_length_eq {p : UInt8 → Bool} :
    ((rest ++ after).takeWhile p).length = rest.length ↔
      (∀ c ∈ rest, p c = true) ∧ after.head?.any p = false := by
  induction rest with
  | nil => cases after <;> simp [List.takeWhile_cons]
  | cons c rest ih =>
    by_cases holds : p c = true
    · simp [holds, ih]
    · simp [holds]

private theorem numberLength_eq : numberLength last (rest ++ after) = rest.length →
    (∀ c ∈ rest, Byte.startsAnew c = false) ∧
      ∀ other, Alike 1 after other → numberLength last (rest ++ other) = rest.length := by
  intro length
  induction rest generalizing last with
  | nil =>
    refine ⟨by simp, fun other alike => ?_⟩
    have ends : after.head?.any (goesOnNumber last) = false := by
      cases after with
      | nil => rfl
      | cons c after => simpa [numberLength_cons] using length
    have stops := alike.head_any (fun c => goesOnNumber_goesOn) ends
    cases other with
    | nil => rfl
    | cons c other =>
      have ended : goesOnNumber last c = false := by simpa using stops
      simp [numberLength_cons, ended]
  | cons c rest ih =>
    simp only [List.cons_append, numberLength_cons, List.length_cons] at length ⊢
    split at length
    next goesOn =>
      obtain ⟨inside, local_⟩ := ih (Nat.succ.inj length)
      simp only [if_pos goesOn, Nat.add_right_cancel_iff]
      exact ⟨by simpa using ⟨goesOnNumber_goesOn goesOn, inside⟩, local_⟩
    next => cases length

private theorem punctuator_length_le {entry : Bytes × TokenKind} (member : entry ∈ punctuators) :
    entry.1.length ≤ 3 := by
  have short : ∀ entry ∈ punctuators, entry.1.length ≤ 3 := by decide
  exact short entry member

private theorem punctuator_isPrefixOf {entry : Bytes × TokenKind} (member : entry ∈ punctuators)
    (alike : Alike 2 after other)
    (leads : entry.1.isPrefixOf (c :: rest ++ other) = true) : entry.1.isPrefixOf (c :: rest ++ after) = true := by
  have goesOn := fun d => @punctuator_goesOn entry member d
  have short := punctuator_length_le member
  generalize entry.1 = spelling at *
  cases spelling with
  | nil => rfl
  | cons d more =>
    obtain ⟨rfl, behind⟩ : d = c ∧ more.isPrefixOf (rest ++ other) = true := by simpa [List.isPrefixOf] using leads
    have short : more.length ≤ 2 := Nat.le_of_succ_le_succ short
    have longer : Alike 2 (rest ++ after) (rest ++ other) := (alike.mono (Nat.sub_le _ _)).append rest
    simpa [List.isPrefixOf] using longer.isPrefixOf short behind goesOn

private theorem readPunctuator_local (length : readPunctuator (c :: rest ++ after) = (kind, rest.length + 1))
    (alike : Alike 2 after other) : readPunctuator (c :: rest ++ other) = (kind, rest.length + 1) := by
  have fewer : ∀ entry ∈ punctuators, entry.1.isPrefixOf (c :: rest ++ other) = true →
      entry.1.isPrefixOf (c :: rest ++ after) = true := fun entry member => punctuator_isPrefixOf member alike
  unfold readPunctuator at length ⊢
  split at length
  next spelling kind' found =>
    obtain ⟨rfl, size⟩ := Prod.mk.inj length
    obtain ⟨leads, earlier, later, split, missed⟩ := List.find?_eq_some_iff_append.mp found
    obtain rfl : spelling = c :: rest := by
      obtain ⟨more, same⟩ := List.isPrefixOf_iff_prefix.mp leads
      exact (List.append_inj same (by simpa using size)).1
    have again : punctuators.find? (·.1.isPrefixOf (c :: rest ++ other)) = some (c :: rest, kind') := by
      refine List.find?_eq_some_iff_append.mpr ⟨by simp, earlier, later, split, fun entry member => ?_⟩
      have absent := missed entry member
      have known : entry ∈ punctuators := by rw [split]; simp [member]
      cases leads : entry.1.isPrefixOf (c :: rest ++ other) with
      | false => rfl
      | true => rw [fewer entry known leads] at absent; cases absent
    rw [again]
    rfl
  next missing =>
    have again : punctuators.find? (·.1.isPrefixOf (c :: rest ++ other)) = none := by
      rw [List.find?_eq_none] at missing ⊢
      exact fun entry member leads => missing entry member (fewer entry member leads)
    rw [again]
    exact length

private theorem isDigit_goesOn {c : UInt8} (digit : Byte.isDigit c = true) : Byte.startsAnew c = false :=
  isIdentContinue_goesOn (by simp [Byte.isIdentContinue, Byte.isAlnum, digit])

private theorem readToken_cases (reads : readToken c (rest ++ after) = (kind, rest.length + 1)) :
    (Byte.isIdentStart c = true ∧ kind = .identifier ∧
      ((rest ++ after).takeWhile Byte.isIdentContinue).length = rest.length) ∨
    (Byte.isIdentStart c = false ∧ (Byte.isDigit c = true ∨ c = Byte.dot ∧ rest.head?.any Byte.isDigit = true) ∧
      kind = .number ∧ numberLength c (rest ++ after) = rest.length) ∨
    (Byte.isIdentStart c = false ∧ Byte.isDigit c = false ∧
      (c = Byte.dot → (rest ++ after).head?.any Byte.isDigit = false) ∧
      readPunctuator (c :: rest ++ after) = (kind, rest.length + 1)) := by
  unfold readToken at reads
  split at reads
  next start =>
    obtain ⟨rfl, length⟩ := Prod.mk.inj reads
    exact .inl ⟨start, rfl, Nat.succ.inj length⟩
  next noStart =>
  simp only [Bool.not_eq_true] at noStart
  split at reads
  next number =>
    obtain ⟨rfl, length⟩ := Prod.mk.inj reads
    refine .inr (.inl ⟨noStart, ?_, rfl, Nat.succ.inj length⟩)
    simp only [Bool.or_eq_true, Bool.and_eq_true, decide_eq_true_eq] at number
    refine number.imp id fun ⟨dot, digit⟩ => ⟨dot, ?_⟩
    cases rest with
    | cons d rest => simpa using digit
    | nil =>
      cases after with
      | nil => cases digit
      | cons d after =>
        have goesOn : goesOnNumber c d = true := by
          have digit : Byte.isDigit d = true := by simpa using digit
          have unsigned : ∀ d ∈ [Byte.plus, Byte.minus], Byte.isDigit d = false := by decide +kernel
          unfold goesOnNumber
          split
          next sign =>
            have listed : d ∈ [Byte.plus, Byte.minus] := by simpa using sign
            rw [unsigned d listed] at digit
            cases digit
          next => simp [Byte.isIdentContinue, Byte.isAlnum, digit]
        simp [numberLength_cons, goesOn] at length
  next noNumber =>
    simp only [Bool.or_eq_true, Bool.and_eq_true, decide_eq_true_eq, not_or, not_and, Bool.not_eq_true] at noNumber
    exact .inr (.inr ⟨noStart, noNumber.1, noNumber.2, reads⟩)

end Reading

/-- What stands behind a token may change in any way that shows nothing to go on with. -/
theorem Spells.alike {kind : TokenKind} {bytes after other : Bytes} (spells : Spells kind bytes after)
    (alike : Alike 2 after other) : Spells kind bytes other := by
  have near : Alike 1 after other := alike.mono (by decide)
  match bytes with
  | c :: rest =>
    change readToken c (rest ++ other) = (kind, rest.length + 1)
    rcases readToken_cases spells with ⟨start, rfl, length⟩ | ⟨noStart, digit, rfl, length⟩ |
      ⟨noStart, noDigit, noDot, reads⟩
    · obtain ⟨inside, ends⟩ := takeWhile_length_eq.mp length
      have again := takeWhile_length_eq.mpr ⟨inside, near.head_any (fun c => isIdentContinue_goesOn) ends⟩
      rw [readToken, if_pos start, again]
    · have number : (Byte.isDigit c || (c = Byte.dot && (rest ++ other).head?.any Byte.isDigit)) = true := by
        rcases digit with digit | ⟨rfl, digit⟩
        · simp [digit]
        · cases rest with
          | nil => cases digit
          | cons d rest => simpa using .inr digit
      rw [readToken, if_neg (Bool.eq_false_iff.mp noStart), if_pos number, (numberLength_eq length).2 other near]
    · have noNumber : (Byte.isDigit c || (c = Byte.dot && (rest ++ other).head?.any Byte.isDigit)) = false := by
        simp only [noDigit, Bool.false_or, Bool.and_eq_false_imp, decide_eq_true_eq]
        intro dot
        cases rest with
        | nil => exact near.head_any (fun c => isDigit_goesOn) (noDot dot)
        | cons d rest => exact noDot dot
      rw [readToken, if_neg (Bool.eq_false_iff.mp noStart), if_neg (Bool.eq_false_iff.mp noNumber)]
      exact readPunctuator_local reads alike

private theorem readPunctuator_mem {c : UInt8} {rest after : Bytes} {kind : TokenKind}
    (reads : readPunctuator (c :: rest ++ after) = (kind, rest.length + 1)) :
    (c :: rest, kind) ∈ punctuators ∨ rest = [] ∧ kind = .invalid := by
  unfold readPunctuator at reads
  split at reads
  next spelling kind' found =>
    obtain ⟨rfl, size⟩ := Prod.mk.inj reads
    have leads := List.find?_some found
    obtain ⟨more, same⟩ := List.isPrefixOf_iff_prefix.mp leads
    obtain ⟨rfl, -⟩ := List.append_inj same (by simpa using size)
    exact .inl (List.mem_of_find?_eq_some found)
  next =>
    obtain ⟨rfl, size⟩ := Prod.mk.inj reads
    exact .inr ⟨by simpa using size.symm, rfl⟩

theorem Spells.mem {kind : TokenKind} {bytes after : Bytes} (spells : Spells kind bytes after)
    (noName : kind ≠ .identifier) (noNumber : kind ≠ .number) (valid : kind ≠ .invalid) :
    (bytes, kind) ∈ punctuators := by
  match bytes with
  | c :: rest =>
    rcases readToken_cases spells with ⟨-, same, -⟩ | ⟨-, -, same, -⟩ | ⟨-, -, -, reads⟩
    · exact absurd same noName
    · exact absurd same noNumber
    · exact (readPunctuator_mem reads).resolve_right fun stray => valid stray.2

theorem Spells.identifier {bytes after : Bytes} (spells : Spells .identifier bytes after) :
    bytes.head?.any Byte.isIdentStart = true := by
  have named : ∀ entry ∈ punctuators, entry.2 ≠ .identifier := by decide
  match bytes with
  | c :: rest =>
    rcases readToken_cases spells with ⟨start, -, -⟩ | ⟨-, -, same, -⟩ | ⟨-, -, -, reads⟩
    · simpa using start
    · cases same
    · rcases readPunctuator_mem reads with member | ⟨-, same⟩
      · exact absurd rfl (named _ member)
      · cases same

/-- The kinds that `readToken` never gives: they belong to literals, directives and the end of the text. -/
theorem Spells.kind_ne {kind : TokenKind} {bytes after : Bytes} (spells : Spells kind bytes after) :
    kind ∉ [TokenKind.endOfText, .directive, .string, .character] := by
  have others : ∀ entry ∈ punctuators, entry.2 ∉ [TokenKind.endOfText, .directive, .string, .character] := by decide
  match bytes with
  | c :: rest =>
    rcases readToken_cases spells with ⟨-, rfl, -⟩ | ⟨-, -, rfl, -⟩ | ⟨-, -, -, reads⟩
    · decide
    · decide
    · rcases readPunctuator_mem reads with member | ⟨-, rfl⟩
      · exact others _ member
      · decide

theorem Spells.goesOn {kind : TokenKind} {c : UInt8} {rest after : Bytes} (spells : Spells kind (c :: rest) after) :
    ∀ d ∈ rest, Byte.startsAnew d = false := by
  rcases readToken_cases spells with ⟨-, -, length⟩ | ⟨-, -, -, length⟩ | ⟨-, -, -, reads⟩
  · exact fun d member => isIdentContinue_goesOn ((takeWhile_length_eq.mp length).1 d member)
  · exact (numberLength_eq length).1
  · rcases readPunctuator_mem reads with member | ⟨rfl, -⟩
    · exact fun d inside => punctuator_goesOn member inside
    · simp

private theorem numberLength_le (last : UInt8) (rest : Bytes) : numberLength last rest ≤ rest.length := by
  induction rest generalizing last with
  | nil => exact Nat.le_refl _
  | cons c rest ih =>
    rw [numberLength_cons]
    split
    · exact Nat.succ_le_succ (ih c)
    · exact Nat.zero_le _

theorem readToken_le (c : UInt8) (rest : Bytes) : (readToken c rest).2 ≤ rest.length + 1 := by
  unfold readToken
  split
  · exact Nat.succ_le_succ (List.takeWhile_sublist _).length_le
  · split
    · exact Nat.succ_le_succ (numberLength_le ..)
    · unfold readPunctuator
      split
      next found =>
        have leads := List.find?_some found
        exact (List.isPrefixOf_iff_prefix.mp leads).length_le
      next => exact Nat.succ_le_succ (Nat.zero_le _)

/-- Every byte that starts neither a literal, a comment nor a space starts a token. -/
theorem exists_spells (c : UInt8) (rest : Bytes) :
    ∃ kind more after, rest = more ++ after ∧ Spells kind (c :: more) after := by
  obtain ⟨length, same⟩ := Nat.exists_eq_succ_of_ne_zero (Nat.ne_of_gt (readToken_pos c rest))
  have room := readToken_le c rest
  rw [same] at room
  refine ⟨(readToken c rest).1, rest.take length, rest.drop length, (List.take_append_drop ..).symm, ?_⟩
  simp only [Spells, List.take_append_drop, List.length_take, Nat.min_eq_left (Nat.le_of_succ_le_succ room)]
  exact Prod.ext rfl same

namespace Region

/-- The bytes of a class without quotes and slashes are code wherever they stand. -/
theorem StartsCode.of_class {p : UInt8 → Bool}
    (openers : ∀ d ∈ [Byte.doubleQuote, Byte.singleQuote, Byte.slash], p d = false) {c : UInt8} (holds : p c = true)
    (rest : Bytes) : StartsCode (c :: rest) := by
  have others : ∀ d ∈ [Byte.doubleQuote, Byte.singleQuote, Byte.slash], c ≠ d := by
    rintro d member rfl
    rw [openers c member] at holds
    cases holds
  refine ⟨?_, ?_⟩
  · simp [opensLiteral?, others]
  · cases rest <;> simp [opensComment?, others]

theorem StartsCode.of_goesOn {c : UInt8} (goesOn : Byte.startsAnew c = false) (rest : Bytes) :
    StartsCode (c :: rest) :=
  of_class (p := fun c => !Byte.startsAnew c) (by decide +kernel) (by simp [goesOn]) rest

theorem StartsCode.of_isSpace {c : UInt8} (space : Byte.isSpace c = true) (rest : Bytes) :
    StartsCode (c :: rest) :=
  of_class (by decide +kernel) space rest

theorem codeLength_append_goesOn {bytes : Bytes} (goesOn : ∀ c ∈ bytes, Byte.startsAnew c = false) (after : Bytes) :
    codeLength (bytes ++ after) = bytes.length + codeLength after := by
  induction bytes with
  | nil => simp
  | cons c bytes ih =>
    have code := StartsCode.of_goesOn (goesOn c (by simp)) (bytes ++ after)
    rw [List.cons_append, code.codeLength_eq, ih fun d member => goesOn d (by simp [member]), List.length_cons]
    omega

theorem passages_append_goesOn {bytes : Bytes} (goesOn : ∀ c ∈ bytes, Byte.startsAnew c = false) (after : Bytes) :
    passages (bytes ++ after) = passages after := by
  induction bytes with
  | nil => rfl
  | cons c bytes ih =>
    rw [List.cons_append, passages_code (StartsCode.of_goesOn (goesOn c (by simp)) (bytes ++ after))]
    exact ih fun d member => goesOn d (by simp [member])

theorem passages_append_spaces {spaces : Bytes} (blank : allSpaces spaces = true) (after : Bytes) :
    passages (spaces ++ after) = passages after := by
  induction spaces with
  | nil => rfl
  | cons c spaces ih =>
    obtain ⟨space, blank⟩ : Byte.isSpace c = true ∧ allSpaces spaces = true := by simpa [allSpaces] using blank
    rw [List.cons_append, passages_code (StartsCode.of_isSpace space _)]
    exact ih blank

end Region
end Allman
