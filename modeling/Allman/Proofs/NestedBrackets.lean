import Mathlib.Data.List.Induction
import Mathlib.Data.List.TakeWhile
import Allman.Outline

/-! The bracket structure of any sequence of tokens, balanced or not. A token that is
added only closes the brackets given up for it, so what a bracket still waiting knows
about the tokens behind it stays true until it is closed. From that, pairs turn out to
be nested: whatever stands between the two brackets of a pair has its own brackets
there too. A balanced word gets the pairs of its parse. -/

namespace Allman

namespace TokenKind

def isBracket (kind : TokenKind) : Bool := kind.isOpener || kind.opener?.isSome

private theorem isOpener_of_opener? {first last : TokenKind} (closes : last.opener? = some first) :
    first.isOpener = true := by
  revert closes
  cases last <;> cases first <;> decide

theorem opener?_of_isOpener {kind : TokenKind} (opens : kind.isOpener = true) : kind.opener? = none := by
  revert opens
  cases kind <;> decide

end TokenKind

namespace Brackets

def Pairs (kinds : List TokenKind) (first last : Nat) : Prop :=
  ∃ opening closing, kinds[first]? = some opening ∧ kinds[last]? = some closing ∧ closing.opener? = some opening

/-- The brackets among some tokens, the first of which stands at `start`, form a
balanced word, and these are the pairs of its parse. Other tokens count for nothing. -/
inductive Balanced : Nat → List TokenKind → List (Nat × Nat) → Prop
  | empty (start : Nat) : Balanced start [] []
  | other {start : Nat} {kind : TokenKind} {rest : List TokenKind} {pairs : List (Nat × Nat)}
      (plain : kind.isBracket = false) (behind : Balanced (start + 1) rest pairs) : Balanced start (kind :: rest) pairs
  | pair {start : Nat} {opening closing : TokenKind} {inside rest : List TokenKind} {within later : List (Nat × Nat)}
      (closes : closing.opener? = some opening) (inner : Balanced (start + 1) inside within)
      (behind : Balanced (start + inside.length + 2) rest later) :
      Balanced start (opening :: inside ++ closing :: rest) ((start, start + inside.length + 1) :: within ++ later)

/-- The brackets of a sequence of tokens are paired and nested. -/
structure Nested (kinds : List TokenKind) (brackets : Brackets) : Prop where
  symmetric : ∀ index other, brackets.partner? index = some other → brackets.partner? other = some index
  /-- A pair is an opening bracket and, behind it, a closing bracket of its kind. -/
  paired : ∀ index other, brackets.partner? index = some other →
    index < other ∧ Pairs kinds index other ∨ other < index ∧ Pairs kinds other index
  uncrossed : ∀ first last first' last', brackets.partner? first = some last → brackets.partner? first' = some last' →
    ¬ (first < first' ∧ first' < last ∧ last < last')
  /-- The two brackets of a pair have the same bracket around them. -/
  shared : ∀ first last, brackets.partner? first = some last → brackets.parent? last = brackets.parent? first
  /-- The bracket around a token is an opening bracket before it. -/
  opens : ∀ index outer, brackets.parent? index = some outer →
    outer < index ∧ ∃ kind, kinds[outer]? = some kind ∧ kind.isOpener = true
  /-- The bracket around a pair stands before both of its brackets. -/
  outside : ∀ index outer first, brackets.parent? index = some outer → brackets.partner? index = some first →
    outer < first
  /-- The bracket around a token is not closed before that token. -/
  unclosed : ∀ index outer last, brackets.parent? index = some outer → brackets.partner? outer = some last → index < last
  /-- No pair around a token is closer to it than the bracket around it. -/
  innermost : ∀ first last index, brackets.partner? first = some last → first < index → index < last →
    ∃ outer, brackets.parent? index = some outer ∧ first ≤ outer

section Steps
variable {brackets : Brackets} {kind : TokenKind} {first : Opening} {rest : List Opening}
  {inside : ∀ opening ∈ first :: rest, opening ∈ brackets.waiting} {index other : Nat}

/-- All that a token can do: it closes the nearest bracket of its kind that waits, or
none waits for it and it is only put behind the others. -/
theorem push_cases (brackets : Brackets) (kind : TokenKind) :
    ((∀ opening ∈ brackets.waiting, kind.opener? ≠ some opening.kind) ∧ brackets.push kind = brackets.advance kind) ∨
    ∃ (given : List Opening) (first : Opening) (rest : List Opening)
        (inside : ∀ opening ∈ first :: rest, opening ∈ brackets.waiting),
      brackets.waiting = given ++ first :: rest ∧ kind.opener? = some first.kind ∧
      (∀ opening ∈ given, opening.kind ≠ first.kind) ∧ brackets.push kind = brackets.close first rest inside := by
  unfold push
  split
  next none => exact .inl ⟨fun _ _ => by simp [none], rfl⟩
  next wanted closes =>
    split
    next none =>
      refine .inl ⟨fun opening member same => ?_, rfl⟩
      have passed := List.dropWhile_eq_nil_iff.mp none opening member
      rw [closes, Option.some_inj] at same
      simp [same] at passed
    next first rest found =>
      have parts := @List.takeWhile_append_dropWhile _ (fun opening : Opening => opening.kind ≠ wanted) brackets.waiting
      have stops := List.head?_dropWhile_not (fun opening : Opening => opening.kind ≠ wanted) brackets.waiting
      rw [found] at parts stops
      have same : first.kind = wanted := by simpa using stops
      refine .inr ⟨_, first, rest, fun _ member => parts ▸ List.mem_append_right _ member, parts.symm,
        by rw [closes, same], fun opening member => ?_, rfl⟩
      have passed := List.all_eq_true.mp List.all_takeWhile opening member
      simpa [same] using passed

private theorem parent?_advance : (brackets.advance kind).parent? index =
    if index = brackets.links.size then brackets.waiting.head?.map Opening.index else brackets.parent? index := by
  simp only [parent?, advance, Array.getElem?_push]
  split <;> rfl

private theorem opener?_advance : (brackets.advance kind).opener? index = brackets.opener? index := by
  simp only [opener?, advance, Array.getElem?_push]
  split
  next same => simp [same]
  next => rfl

private theorem closer?_advance : (brackets.advance kind).closer? index = brackets.closer? index := by
  simp only [closer?, advance, Array.getElem?_push]
  split
  next same => simp [same]
  next => rfl

private theorem parent?_close : (brackets.close first rest inside).parent? index =
    if index = brackets.links.size then rest.head?.map Opening.index else brackets.parent? index := by
  simp only [parent?, close, Array.getElem?_modify, Array.getElem?_push]
  split
  · rw [Option.bind_map]
    split <;> rfl
  · split <;> rfl

private theorem opener?_close : (brackets.close first rest inside).opener? index =
    if index = brackets.links.size then some first.index else brackets.opener? index := by
  simp only [opener?, close, Array.getElem?_modify, Array.getElem?_push]
  split
  · rw [Option.bind_map]
    split <;> rfl
  · split <;> rfl

private theorem closer?_close : (brackets.close first rest inside).closer? index =
    if index = first.index then some brackets.links.size else brackets.closer? index := by
  have below := brackets.waiting_lt first (inside first List.mem_cons_self)
  simp only [closer?, close, Array.getElem?_modify, Array.getElem?_push]
  by_cases here : first.index = index
  · have earlier : index ≠ brackets.links.size := by omega
    rw [if_pos here, if_neg earlier, if_pos here.symm, Array.getElem?_eq_getElem (here ▸ below)]
    rfl
  · rw [if_neg here, if_neg (Ne.symm here)]
    split
    next same => simp [same]
    next => rfl

private theorem links_of_parent? (found : brackets.parent? index = some other) : index < brackets.links.size := by
  obtain ⟨link, present, -⟩ := Option.bind_eq_some_iff.mp found
  exact (Array.getElem?_eq_some_iff.mp present).1

/-- The token is put behind the others, inside the brackets `around`, which are still waiting. -/
structure Joins (brackets : Brackets) (kind : TokenKind) (around : List Opening) (next : Brackets) : Prop where
  suffix : around <:+ brackets.waiting
  size : next.links.size = brackets.links.size + 1
  waiting : next.waiting = if kind.isOpener then ⟨brackets.links.size, kind⟩ :: around else around
  parent : ∀ index, next.parent? index =
    if index = brackets.links.size then around.head?.map Opening.index else brackets.parent? index

private theorem joins_advance (brackets : Brackets) (kind : TokenKind) :
    brackets.Joins kind brackets.waiting (brackets.advance kind) where
  suffix := List.suffix_rfl
  size := by simp [advance]
  waiting := rfl
  parent _ := parent?_advance

private theorem joins_close {given : List Opening} (parts : brackets.waiting = given ++ first :: rest)
    (closes : kind.opener? = some first.kind) : brackets.Joins kind rest (brackets.close first rest inside) where
  suffix := by
    rw [parts]
    exact (List.suffix_cons first rest).trans (List.suffix_append given _)
  size := by simp [close]
  waiting := by
    have closing : kind.isOpener = false := by
      refine Bool.eq_false_iff.mpr fun opens => ?_
      rw [TokenKind.opener?_of_isOpener opens] at closes
      cases closes
    rw [closing]
    rfl
  parent _ := parent?_close

end Steps

/-- The brackets that wait, from the innermost outwards, and the brackets around the
tokens read so far. -/
structure Stacked (kinds : List TokenKind) (brackets : Brackets) : Prop where
  size : brackets.links.size = kinds.length
  waits : ∀ opening ∈ brackets.waiting, kinds[opening.index]? = some opening.kind ∧ opening.kind.isOpener = true
  sorted : brackets.waiting.Pairwise fun inner outer => outer.index < inner.index
  /-- The bracket around one that waits is the next one that waits. -/
  around : ∀ opening rest, opening :: rest <:+ brackets.waiting →
    brackets.parent? opening.index = rest.head?.map Opening.index
  /-- A token behind a bracket that waits has this bracket around it, or one further in. -/
  beneath : ∀ opening ∈ brackets.waiting, ∀ index, opening.index < index → index < kinds.length →
    ∃ outer, brackets.parent? index = some outer ∧ opening.index ≤ outer
  opens : ∀ index outer, brackets.parent? index = some outer → ∃ kind, kinds[outer]? = some kind ∧ kind.isOpener = true

/-- What is known, besides, of the pairs among the tokens read so far. -/
structure Consistent (kinds : List TokenKind) (brackets : Brackets) : Prop extends Stacked kinds brackets where
  unclosed : ∀ opening ∈ brackets.waiting, brackets.closer? opening.index = none
  closed : ∀ first last, brackets.closer? first = some last ↔ brackets.opener? last = some first
  pairs : ∀ first last, brackets.closer? first = some last → Pairs kinds first last
  shared : ∀ first last, brackets.closer? first = some last → brackets.parent? last = brackets.parent? first
  later : ∀ index outer last, brackets.parent? index = some outer → brackets.closer? outer = some last → index < last
  innermost : ∀ first last index, brackets.closer? first = some last → first < index → index < last →
    ∃ outer, brackets.parent? index = some outer ∧ first ≤ outer

section Run
variable {kinds : List TokenKind} {brackets next : Brackets} {kind : TokenKind} {around : List Opening}

private theorem getElem?_append_of_some {index : Nat} (found : kinds[index]? = some kind) (more : List TokenKind) :
    (kinds ++ more)[index]? = some kind := by
  rw [List.getElem?_append_left (List.getElem?_eq_some_iff.mp found).1, found]

theorem Pairs.append {first last : Nat} (pairs : Pairs kinds first last) (more : List TokenKind) :
    Pairs (kinds ++ more) first last := by
  obtain ⟨opening, closing, found, found', closes⟩ := pairs
  exact ⟨opening, closing, getElem?_append_of_some found more, getElem?_append_of_some found' more, closes⟩

theorem Pairs.lt_length {first last : Nat} (pairs : Pairs kinds first last) : last < kinds.length := by
  obtain ⟨_, _, -, found, -⟩ := pairs
  exact (List.getElem?_eq_some_iff.mp found).1

theorem Pairs.first_opens {first last : Nat} (pairs : Pairs kinds first last) (found : kinds[first]? = some kind) :
    kind.isOpener = true := by
  obtain ⟨opening, closing, found', -, closes⟩ := pairs
  obtain rfl := Option.some.inj (found'.symm.trans found)
  exact TokenKind.isOpener_of_opener? closes

theorem Pairs.last_closes {first last : Nat} (pairs : Pairs kinds first last) (found : kinds[last]? = some kind) :
    kind.isOpener = false ∧ kind.opener? = kinds[first]? := by
  obtain ⟨opening, closing, found', found'', closes⟩ := pairs
  obtain rfl := Option.some.inj (found''.symm.trans found)
  refine ⟨Bool.eq_false_iff.mpr fun opens => ?_, closes.trans found'.symm⟩
  rw [TokenKind.opener?_of_isOpener opens] at closes
  cases closes

/-- The innermost of some waiting brackets stands at or behind each of them. -/
theorem head_of_sorted (sorted : around.Pairwise fun inner outer => outer.index < inner.index) {opening : Opening}
    (member : opening ∈ around) : ∃ outer, around.head?.map Opening.index = some outer ∧ opening.index ≤ outer := by
  cases around with
  | nil => cases member
  | cons head rest =>
    refine ⟨head.index, rfl, ?_⟩
    rcases List.mem_cons.mp member with rfl | member
    · exact Nat.le_refl _
    · exact Nat.le_of_lt ((List.pairwise_cons.mp sorted).1 opening member)

private theorem Joins.mem_waiting (joins : brackets.Joins kind around next) {opening : Opening}
    (member : opening ∈ next.waiting) :
    opening ∈ around ∨ opening = ⟨brackets.links.size, kind⟩ ∧ kind.isOpener = true := by
  rw [joins.waiting] at member
  split at member
  next opens =>
    rcases List.mem_cons.mp member with rfl | member
    · exact .inr ⟨rfl, opens⟩
    · exact .inl member
  next => exact .inl member

/-- Nothing changes around the tokens read before. -/
theorem Joins.parent_of_lt (joins : brackets.Joins kind around next) {index : Nat} (before : index < brackets.links.size) :
    next.parent? index = brackets.parent? index := by
  rw [joins.parent, if_neg (Nat.ne_of_lt before)]

private theorem Joins.lt_size (joins : brackets.Joins kind around next) {opening : Opening}
    (member : opening ∈ around) :
    opening.index < brackets.links.size :=
  brackets.waiting_lt opening (joins.suffix.subset member)

/-- The next token has the innermost of the brackets that wait around it. -/
theorem Joins.parent_last (joins : brackets.Joins kind around next) {outer : Nat}
    (found : next.parent? brackets.links.size = some outer) : ∃ opening ∈ around, opening.index = outer := by
  rw [joins.parent, if_pos rfl] at found
  obtain ⟨opening, head, rfl⟩ := Option.map_eq_some_iff.mp found
  exact ⟨opening, List.mem_of_mem_head? head, rfl⟩

theorem Stacked.step (stacked : Stacked kinds brackets) (joins : brackets.Joins kind around next) :
    Stacked (kinds ++ [kind]) next where
  size := by
    rw [joins.size, stacked.size, List.length_append]
    rfl
  waits opening member := by
    rcases joins.mem_waiting member with old | ⟨rfl, opens⟩
    · obtain ⟨found, opens⟩ := stacked.waits opening (joins.suffix.subset old)
      exact ⟨getElem?_append_of_some found _, opens⟩
    · simp [stacked.size, opens]
  sorted := by
    have sorted := stacked.sorted.sublist joins.suffix.sublist
    rw [joins.waiting]
    split
    · exact List.pairwise_cons.mpr ⟨fun opening member => joins.lt_size member, sorted⟩
    · exact sorted
  around opening rest suffix := by
    have inside : opening :: rest <:+ around → next.parent? opening.index = rest.head?.map Opening.index := by
      intro suffix
      rw [joins.parent_of_lt (joins.lt_size (suffix.subset List.mem_cons_self))]
      exact stacked.around opening rest (suffix.trans joins.suffix)
    rw [joins.waiting] at suffix
    split at suffix
    · rcases List.suffix_cons_iff.mp suffix with same | suffix
      · cases same
        rw [joins.parent, if_pos rfl]
      · exact inside suffix
    · exact inside suffix
  beneath opening member index behind below := by
    rw [List.length_append, List.length_singleton, ← stacked.size] at below
    rcases joins.mem_waiting member with old | ⟨rfl, -⟩
    · rcases Nat.eq_or_lt_of_le (Nat.le_of_lt_succ below) with rfl | below
      · rw [joins.parent, if_pos rfl]
        exact head_of_sorted (stacked.sorted.sublist joins.suffix.sublist) old
      · rw [joins.parent_of_lt below]
        exact stacked.beneath opening (joins.suffix.subset old) index behind (stacked.size ▸ below)
    · exact absurd below (Nat.not_lt_of_le behind)
  opens index outer found := by
    by_cases new : index = brackets.links.size
    · subst new
      obtain ⟨opening, member, rfl⟩ := joins.parent_last found
      obtain ⟨found, opens⟩ := stacked.waits opening (joins.suffix.subset member)
      exact ⟨_, getElem?_append_of_some found _, opens⟩
    · rw [joins.parent, if_neg new] at found
      obtain ⟨kind, found, opens⟩ := stacked.opens index outer found
      exact ⟨kind, getElem?_append_of_some found _, opens⟩

theorem Consistent.empty : Consistent [] empty where
  size := rfl
  waits := nofun
  sorted := .nil
  around opening rest suffix := by cases List.suffix_nil.mp suffix
  beneath := nofun
  opens := by simp [Brackets.empty, parent?]
  unclosed := nofun
  closed := by simp [Brackets.empty, closer?, opener?]
  pairs := by simp [Brackets.empty, closer?]
  shared := by simp [Brackets.empty, closer?]
  later := by simp [Brackets.empty, closer?]
  innermost := by simp [Brackets.empty, closer?]

private theorem Consistent.lt_size (consistent : Consistent kinds brackets) {first last : Nat}
    (found : brackets.closer? first = some last) : first < last ∧ last < brackets.links.size := by
  refine ⟨lt_closer? found, ?_⟩
  rw [consistent.size]
  exact (consistent.pairs first last found).lt_length

theorem Consistent.advance (consistent : Consistent kinds brackets) (kind : TokenKind) :
    Consistent (kinds ++ [kind]) (brackets.advance kind) := by
  have joins := joins_advance brackets kind
  apply Consistent.mk (consistent.toStacked.step joins)
  all_goals simp only [closer?_advance, opener?_advance]
  case unclosed =>
    intro opening member
    rcases joins.mem_waiting member with old | ⟨rfl, -⟩
    · exact consistent.unclosed opening old
    · simp [closer?]
  case closed => exact consistent.closed
  case pairs =>
    intro first last found
    exact (consistent.pairs first last found).append _
  case shared =>
    intro first last found
    obtain ⟨ordered, below⟩ := consistent.lt_size found
    rw [joins.parent_of_lt below, joins.parent_of_lt (Nat.lt_trans ordered below)]
    exact consistent.shared first last found
  case later =>
    intro index outer last found closed
    by_cases new : index = brackets.links.size
    · subst new
      obtain ⟨opening, member, rfl⟩ := joins.parent_last found
      rw [consistent.unclosed opening member] at closed
      cases closed
    · rw [joins.parent, if_neg new] at found
      exact consistent.later index outer last found closed
  case innermost =>
    intro first last index found behind before
    rw [joins.parent_of_lt (Nat.lt_trans before (consistent.lt_size found).2)]
    exact consistent.innermost first last index found behind before

section Closing
variable {given rest : List Opening} {first : Opening} {inside : ∀ opening ∈ first :: rest, opening ∈ brackets.waiting}
  {opening closing : Nat}

/-- Behind a closing bracket a pair is the new one, or it has been one before. -/
theorem closer?_close_cases (found : (brackets.close first rest inside).closer? opening = some closing) :
    opening = first.index ∧ closing = brackets.links.size ∨ brackets.closer? opening = some closing := by
  rw [closer?_close] at found
  split at found
  next same => exact .inl ⟨same, (Option.some.inj found).symm⟩
  next => exact .inr found

/-- The brackets around the one that is closed stand before it. -/
theorem Stacked.lt_first (stacked : Stacked kinds brackets) (parts : brackets.waiting = given ++ first :: rest) :
    ∀ opening ∈ rest, opening.index < first.index := by
  have sorted := stacked.sorted
  rw [parts] at sorted
  exact (List.pairwise_cons.mp (List.pairwise_append.mp sorted).2.1).1

namespace Consistent
variable (consistent : Consistent kinds brackets)
include consistent

private theorem closed_close : (brackets.close first rest inside).closer? opening = some closing ↔
    (brackets.close first rest inside).opener? closing = some opening := by
  have unclosed := consistent.unclosed first (inside first List.mem_cons_self)
  rw [closer?_close, opener?_close]
  by_cases same : opening = first.index <;> by_cases new : closing = brackets.links.size
  · simp [same, new]
  · simp [same, new, Ne.symm new, ← consistent.closed, unclosed]
  · have fresh : brackets.closer? opening ≠ some closing := by
      intro found
      exact absurd new (Nat.ne_of_lt (consistent.lt_size found).2)
    rw [if_neg same, if_pos new]
    exact iff_of_false fresh fun found => same (Option.some.inj found).symm
  · rw [if_neg same, if_neg new]
    exact consistent.closed opening closing

private theorem pairs_close (closes : kind.opener? = some first.kind)
    (found : (brackets.close first rest inside).closer? opening = some closing) :
    Pairs (kinds ++ [kind]) opening closing := by
  rcases closer?_close_cases found with ⟨rfl, rfl⟩ | old
  · have opens := (consistent.waits first (inside first List.mem_cons_self)).1
    refine ⟨first.kind, kind, getElem?_append_of_some opens _, ?_, closes⟩
    rw [consistent.size, List.getElem?_concat_length]
  · exact (consistent.pairs opening closing old).append _

variable (joins : brackets.Joins kind rest (brackets.close first rest inside))
include joins

private theorem innermost_close {index : Nat}
    (found : (brackets.close first rest inside).closer? opening = some closing)
    (behind : opening < index) (before : index < closing) :
    ∃ outer, (brackets.close first rest inside).parent? index = some outer ∧ opening ≤ outer := by
  rcases closer?_close_cases found with ⟨rfl, rfl⟩ | old
  · rw [joins.parent_of_lt before]
    exact consistent.beneath first (inside first List.mem_cons_self) index behind (consistent.size ▸ before)
  · rw [joins.parent_of_lt (Nat.lt_trans before (consistent.lt_size old).2)]
    exact consistent.innermost opening closing index old behind before

variable (parts : brackets.waiting = given ++ first :: rest)
include parts

private theorem shared_close (found : (brackets.close first rest inside).closer? opening = some closing) :
    (brackets.close first rest inside).parent? closing = (brackets.close first rest inside).parent? opening := by
  rcases closer?_close_cases found with ⟨rfl, rfl⟩ | old
  · have below := brackets.waiting_lt first (inside first List.mem_cons_self)
    have suffix : first :: rest <:+ brackets.waiting := by
      rw [parts]
      exact List.suffix_append given _
    rw [joins.parent, if_pos rfl, joins.parent_of_lt below, consistent.around first rest suffix]
  · obtain ⟨ordered, below⟩ := consistent.lt_size old
    rw [joins.parent_of_lt below, joins.parent_of_lt (Nat.lt_trans ordered below)]
    exact consistent.shared opening closing old

private theorem later_close {index : Nat} (found : (brackets.close first rest inside).parent? index = some opening)
    (closed : (brackets.close first rest inside).closer? opening = some closing) : index < closing := by
  by_cases new : index = brackets.links.size
  · subst new
    obtain ⟨outer, member, rfl⟩ := joins.parent_last found
    have before := consistent.lt_first parts outer member
    rw [closer?_close, if_neg (Nat.ne_of_lt before),
      consistent.unclosed outer (inside outer (List.mem_cons_of_mem _ member))] at closed
    cases closed
  · rw [joins.parent, if_neg new] at found
    rcases closer?_close_cases closed with ⟨-, rfl⟩ | old
    · exact links_of_parent? found
    · exact consistent.later index opening closing found old

end Consistent

theorem Consistent.close (consistent : Consistent kinds brackets) (parts : brackets.waiting = given ++ first :: rest)
    (closes : kind.opener? = some first.kind) : Consistent (kinds ++ [kind]) (brackets.close first rest inside) := by
  have joins : brackets.Joins kind rest (brackets.close first rest inside) := joins_close parts closes
  apply Consistent.mk (consistent.toStacked.step joins)
  case unclosed =>
    intro opening member
    rw [closer?_close, if_neg (Nat.ne_of_lt (consistent.lt_first parts opening member))]
    exact consistent.unclosed opening (inside opening (List.mem_cons_of_mem _ member))
  case closed => exact fun _ _ => consistent.closed_close
  case pairs => exact fun _ _ => consistent.pairs_close closes
  case shared => exact fun _ _ => consistent.shared_close joins parts
  case later => exact fun _ _ _ => consistent.later_close joins parts
  case innermost => exact fun _ _ _ => consistent.innermost_close joins

end Closing

private theorem consistent_ofKinds (kinds : List TokenKind) : Consistent kinds (ofKinds kinds) := by
  induction kinds using List.reverseRecOn with
  | nil => exact .empty
  | append_singleton kinds kind ih =>
    have pushed : ofKinds (kinds ++ [kind]) = (ofKinds kinds).push kind := by simp [ofKinds]
    rw [pushed]
    rcases push_cases (ofKinds kinds) kind with ⟨-, advanced⟩ | ⟨given, first, rest, inside, parts, closes, -, closed⟩
    · rw [advanced]
      exact ih.advance kind
    · rw [closed]
      exact ih.close parts closes

/-- No token both opens and closes. -/
theorem Consistent.opener?_eq_none (consistent : Consistent kinds brackets) {first last : Nat}
    (found : brackets.closer? first = some last) : brackets.opener? first = none := by
  cases opened : brackets.opener? first with
  | none => rfl
  | some other =>
    have pair := consistent.pairs first last found
    have pair' := consistent.pairs other first ((consistent.closed other first).mpr opened)
    obtain ⟨kind, -, opening, -⟩ := id pair
    have closes := (pair'.last_closes opening).1
    rw [pair.first_opens opening] at closes
    cases closes

theorem Consistent.partner?_iff (consistent : Consistent kinds brackets) {index other : Nat} :
    brackets.partner? index = some other ↔
      brackets.closer? index = some other ∨ brackets.closer? other = some index := by
  rw [partner?, Option.or_eq_some_iff, ← consistent.closed, or_comm]
  refine or_congr ⟨And.right, fun closed => ⟨consistent.opener?_eq_none closed, closed⟩⟩ Iff.rfl

private theorem Consistent.closer?_iff (consistent : Consistent kinds brackets) {first last : Nat} :
    brackets.closer? first = some last ↔ first < last ∧ brackets.partner? first = some last := by
  rw [consistent.partner?_iff]
  constructor
  · intro closed
    exact ⟨lt_closer? closed, .inl closed⟩
  · rintro ⟨ordered, closed | closed⟩
    · exact closed
    · exact absurd (lt_closer? closed) (Nat.lt_asymm ordered)

theorem Consistent.nested (consistent : Consistent kinds brackets) : Nested kinds brackets where
  symmetric index other found := by
    rw [consistent.partner?_iff] at found ⊢
    exact found.symm
  paired index other found := by
    rcases consistent.partner?_iff.mp found with closed | closed
    · exact .inl ⟨lt_closer? closed, consistent.pairs index other closed⟩
    · exact .inr ⟨lt_closer? closed, consistent.pairs other index closed⟩
  uncrossed first last first' last' found found' := by
    rintro ⟨before, inside, behind⟩
    have closed := consistent.closer?_iff.mpr ⟨Nat.lt_trans before inside, found⟩
    have closed' := consistent.closer?_iff.mpr ⟨Nat.lt_trans inside behind, found'⟩
    -- The bracket around the first pair would stand inside the second one.
    obtain ⟨outer, parent, after⟩ := consistent.innermost first' last' last closed' inside behind
    rw [consistent.shared first last closed] at parent
    have := parent?_lt parent
    omega
  shared first last found := by
    rcases consistent.partner?_iff.mp found with closed | closed
    · exact consistent.shared first last closed
    · exact (consistent.shared last first closed).symm
  opens index outer found := ⟨parent?_lt found, consistent.opens index outer found⟩
  outside index outer first found pair := by
    rcases consistent.partner?_iff.mp pair with closed | closed
    · exact Nat.lt_trans (parent?_lt found) (lt_closer? closed)
    · rw [consistent.shared first index closed] at found
      exact parent?_lt found
  unclosed index outer last found pair := by
    rcases consistent.partner?_iff.mp pair with closed | closed
    · exact consistent.later index outer last found closed
    · obtain ⟨kind, opening, opens⟩ := consistent.opens index outer found
      rw [((consistent.pairs last outer closed).last_closes opening).1] at opens
      cases opens
  innermost first last index found behind before :=
    consistent.innermost first last index
      (consistent.closer?_iff.mpr ⟨Nat.lt_trans behind before, found⟩) behind before

end Run

section BalancedWords
variable {start : Nat} {kinds : List TokenKind} {kind : TokenKind} {pairs : List (Nat × Nat)} {brackets : Brackets}

private theorem push_eq_advance (opens : kind.opener? = none) : brackets.push kind = brackets.advance kind := by
  unfold push
  simp only [opens]

private theorem push_eq_close {first : Opening} {rest : List Opening} (waiting : brackets.waiting = first :: rest)
    (closes : kind.opener? = some first.kind) : ∃ inside, brackets.push kind = brackets.close first rest inside := by
  rcases push_cases brackets kind with ⟨none, -⟩ | ⟨given, first', rest', inside, parts, closes', passed, closed⟩
  · exact absurd closes (none first (waiting ▸ List.mem_cons_self))
  · cases given with
    | nil =>
      obtain ⟨rfl, rfl⟩ := List.cons.inj (waiting.symm.trans parts)
      exact ⟨inside, closed⟩
    | cons opening given =>
      obtain ⟨rfl, -⟩ := List.cons.inj (waiting.symm.trans parts)
      exact absurd (Option.some.inj (closes.symm.trans closes')) (passed first List.mem_cons_self)

/-- The pairs of a balanced word stand in it. -/
theorem Balanced.start_le (balanced : Balanced start kinds pairs) : ∀ pair ∈ pairs, start ≤ pair.1 := by
  induction balanced with
  | empty => nofun
  | other _ _ behind =>
    intro pair member
    exact Nat.le_of_succ_le (behind pair member)
  | pair _ _ _ inner behind =>
    intro pair member
    rcases List.mem_cons.mp member with rfl | member
    · exact Nat.le_refl _
    · rcases List.mem_append.mp member with within | later
      · exact Nat.le_of_succ_le (inner pair within)
      · have := behind pair later
        omega

/-- A balanced word leaves the brackets that wait around it as they are, and adds the
pairs of its parse to those there are. -/
theorem Balanced.run (balanced : Balanced start kinds pairs) (size : brackets.links.size = start) :
    let after := kinds.foldl push brackets
    after.links.size = start + kinds.length ∧ after.waiting = brackets.waiting ∧
    ∀ first last, after.closer? first = some last ↔ brackets.closer? first = some last ∨ (first, last) ∈ pairs := by
  induction balanced generalizing brackets with
  | empty start => simp [size]
  | @other start kind rest pairs plain behind ih =>
    simp only [TokenKind.isBracket, Bool.or_eq_false_iff, Option.isSome_eq_false_iff, Option.isNone_iff_eq_none] at plain
    have advanced : (brackets.advance kind).links.size = start + 1 := by simp [advance, size]
    obtain ⟨size', waiting, closers⟩ := ih advanced
    rw [List.foldl_cons, push_eq_advance plain.2]
    refine ⟨by rw [size', List.length_cons]; omega, ?_, ?_⟩
    · rw [waiting, (joins_advance brackets kind).waiting, plain.1]
      rfl
    · intro first last
      rw [closers, closer?_advance]
  | @pair start opening closing inside rest within later closes inner behind ih ih' =>
    have opens := TokenKind.isOpener_of_opener? closes
    have advanced : (brackets.advance opening).links.size = start + 1 := by simp [advance, size]
    obtain ⟨size', waiting, closers⟩ := ih advanced
    rw [(joins_advance brackets opening).waiting, if_pos opens, size] at waiting
    obtain ⟨held, closed⟩ := push_eq_close waiting closes
    have joins := @joins_close _ closing _ _ held [] waiting closes
    obtain ⟨size'', waiting', closers'⟩ := @ih' (close _ _ _ held) (by rw [joins.size, size']; omega)
    rw [List.foldl_append, List.foldl_cons, List.foldl_cons, push_eq_advance (TokenKind.opener?_of_isOpener opens),
      closed]
    refine ⟨?_, waiting', fun first last => ?_⟩
    · rw [size'']
      simp only [List.length_append, List.length_cons]
      omega
    · rw [closers', closer?_close, size']
      by_cases same : first = start
      · -- The first bracket is closed by nothing before, and by nothing inside.
        have fresh : brackets.closer? start = none := by simp [closer?, ← size]
        have apart : (start, last) ∉ within := fun member => Nat.not_succ_le_self _ (inner.start_le _ member)
        have place : start + 1 + inside.length = start + inside.length + 1 := Nat.add_right_comm ..
        simp [same, fresh, apart, place, eq_comm]
      · rw [if_neg same, closers, closer?_advance]
        simp [same, or_assoc]

/-- Every bracket of a balanced word belongs to one of its pairs. -/
theorem Balanced.covered (balanced : Balanced start kinds pairs) : ∀ entry ∈ kinds.zipIdx start,
    entry.1.isBracket = true → ∃ pair ∈ pairs, entry.2 = pair.1 ∨ entry.2 = pair.2 := by
  induction balanced with
  | empty => nofun
  | other plain _ ih =>
    intro entry member bracket
    rcases List.mem_cons.mp member with rfl | member
    · rw [plain] at bracket
      cases bracket
    · exact ih entry member bracket
  | @pair start opening closing inside rest within later _ _ _ ih ih' =>
    intro entry member bracket
    rw [List.zipIdx_append, List.mem_append, List.zipIdx_cons, List.zipIdx_cons, List.mem_cons, List.mem_cons] at member
    rcases member with (rfl | member) | rfl | member
    · exact ⟨_, List.mem_cons_self, .inl rfl⟩
    · obtain ⟨pair, listed, place⟩ := ih entry member bracket
      exact ⟨pair, List.mem_cons_of_mem _ (List.mem_append_left _ listed), place⟩
    · exact ⟨_, List.mem_cons_self, .inr rfl⟩
    · obtain ⟨pair, listed, place⟩ := ih' entry member bracket
      exact ⟨pair, List.mem_cons_of_mem _ (List.mem_append_right _ listed), place⟩

end BalancedWords
end Brackets

def Outline.kinds (outline : Outline) : List TokenKind := outline.tokens.toList.map Token.kind

theorem Outline.getElem?_kinds (outline : Outline) (index : Nat) : outline.kinds[index]? = outline.kind? index := by
  simp [kinds, kind?]

theorem Outline.consistent_ofRegions (text : Bytes) (regions : List Region) :
    (ofRegions text regions).brackets.Consistent (ofRegions text regions).kinds :=
  Brackets.consistent_ofKinds _

/-- However a text is cut into regions, its brackets are nested. Where they form a
balanced word, every bracket has a partner and the pairs are those of the parse. -/
theorem brackets_nested (text : Bytes) (regions : List Region) :
    let outline := Outline.ofRegions text regions
    outline.brackets.Nested outline.kinds ∧
    ∀ pairs, Brackets.Balanced 0 outline.kinds pairs →
      (∀ index kind, outline.kind? index = some kind → kind.isBracket = true →
        (outline.brackets.partner? index).isSome = true) ∧
      ∀ first last, first < last ∧ outline.brackets.partner? first = some last ↔ (first, last) ∈ pairs := by
  intro outline
  have consistent := Outline.consistent_ofRegions text regions
  refine ⟨consistent.nested, fun pairs balanced => ?_⟩
  have parsed : ∀ first last, outline.brackets.closer? first = some last ↔ (first, last) ∈ pairs := by
    intro first last
    obtain ⟨-, -, closers⟩ := @Brackets.Balanced.run _ _ _ .empty balanced rfl
    have none : Brackets.empty.closer? first ≠ some last := nofun
    exact (closers first last).trans (or_iff_right none)
  constructor
  · intro index kind found bracket
    rw [← Outline.getElem?_kinds] at found
    obtain ⟨⟨first, last⟩, member, place⟩ :=
      balanced.covered (kind, index) (List.mem_zipIdx_iff_getElem?.mpr found) bracket
    have closed := (parsed first last).mpr member
    rcases place with rfl | rfl
    · exact Option.isSome_of_eq_some (consistent.partner?_iff.mpr (.inl closed))
    · exact Option.isSome_of_eq_some (consistent.partner?_iff.mpr (.inr closed))
  · intro first last
    rw [← parsed, consistent.closer?_iff]

/-- The brackets of a function with an array bound among its parameters. -/
theorem brackets_nested_function :
    let outline := Outline.ofText (ascii "f(a[0]) \x7b\x7d")
    outline.brackets.partner? 1 = some 6 ∧ outline.brackets.partner? 3 = some 5 ∧ outline.brackets.partner? 7 = some 8 := by
  intro outline
  obtain ⟨-, parsed⟩ := brackets_nested (ascii "f(a[0]) \x7b\x7d") (Region.classify (ascii "f(a[0]) \x7b\x7d"))
  have kinds : outline.kinds = .identifier :: ((.leftParen :: [.identifier, .leftBracket, .number, .rightBracket]) ++
      .rightParen :: [.leftBrace, .rightBrace]) := by decide +kernel
  have bound : Brackets.Balanced 2 [.identifier, .leftBracket, .number, .rightBracket] [(3, 5)] :=
    .other rfl (@Brackets.Balanced.pair 3 _ _ [.number] _ _ _ rfl (.other rfl (.empty 5)) (.empty 6))
  have body : Brackets.Balanced 7 [.leftBrace, .rightBrace] [(7, 8)] :=
    @Brackets.Balanced.pair 7 _ _ [] _ _ _ rfl (.empty 8) (.empty 9)
  have balanced : Brackets.Balanced 0 outline.kinds [(1, 6), (3, 5), (7, 8)] := by
    rw [kinds]
    exact .other rfl (.pair rfl bound body)
  obtain ⟨-, pairs⟩ := parsed _ balanced
  exact ⟨((pairs 1 6).mpr (by decide)).2, ((pairs 3 5).mpr (by decide)).2, ((pairs 7 8).mpr (by decide)).2⟩

end Allman
