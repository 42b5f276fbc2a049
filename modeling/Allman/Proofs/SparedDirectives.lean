import Allman.Proofs.CoveredText

/-! Directives are spared. A directive starts with a hash sign of code that only
blanks precede on its line, and it goes up to the first newline of code that no
backslash of the same region hides. Its hash sign lies in a token that reaches as
far, and a violation lies between tokens that are no directives. A comment before
the hash sign, or a backslash that belongs to a literal, makes the difference. -/

namespace Allman
open Region

def HidesNewline (bytes : Bytes) : Prop :=
  [Byte.backslash] <:+ bytes ∨ [Byte.backslash, Byte.carriageReturn] <:+ bytes

instance (bytes : Bytes) : Decidable (HidesNewline bytes) :=
  inferInstanceAs (Decidable (_ ∨ _))

/-- A newline of code stands at the offset and is not hidden. For a backslash before
it the text is searched from `sight region` on, where `region` holds the newline. -/
def EndsDirective (text : Bytes) (sight : Region → Nat) (offset : Nat) : Prop :=
  ∃ region ∈ classify text, region.kind = .code ∧ region.Holds offset ∧
    text[offset]? = some Byte.newline ∧ ¬ HidesNewline (slice text (sight region) offset)

instance (text : Bytes) (sight : Region → Nat) (offset : Nat) : Decidable (EndsDirective text sight offset) :=
  inferInstanceAs (Decidable (∃ region ∈ classify text, _))

def OnlyBlanks (text : Bytes) (first start : Nat) : Prop :=
  ∀ offset < start, first ≤ offset → text[offset]?.any Byte.isBlank = true

def BlanksAndComments (text : Bytes) (first start : Nat) : Prop :=
  ∀ offset < start, first ≤ offset → text[offset]?.any Byte.isBlank = true ∨
    ∃ region ∈ classify text, region.kind = .blockComment ∧ region.Holds offset ∧
      first ≤ region.start ∧ region.stop ≤ start

instance (text : Bytes) (first start : Nat) : Decidable (OnlyBlanks text first start) :=
  inferInstanceAs (Decidable (∀ offset < start, _))

instance (text : Bytes) (first start : Nat) : Decidable (BlanksAndComments text first start) :=
  inferInstanceAs (Decidable (∀ offset < start, _))

/-- The text from `start` up to `stop` is a directive. What may stand before it on
its line is said by `lead`, and how a newline in it is hidden by `sight`. -/
structure IsDirective (lead : (first start : Nat) → Prop) (sight : Region → Nat) (text : Bytes)
    (start stop : Nat) : Prop where
  hash : text[start]? = some Byte.hash
  code : ∃ region ∈ classify text, region.kind = .code ∧ region.Holds start
  line : ∃ first ≤ start, (first = 0 ∨ text[first - 1]? = some Byte.newline) ∧
    (∀ offset < start, first ≤ offset → text[offset]? ≠ some Byte.newline) ∧ lead first start
  forward : start ≤ stop
  whole : ∀ offset < stop, start ≤ offset → ¬ EndsDirective text sight offset
  ends : stop = text.length ∨ EndsDirective text sight stop

private theorem joinsLines_reverse (bytes : Bytes) : joinsLines bytes.reverse = true ↔ HidesNewline bytes := by
  rw [HidesNewline, ← List.reverse_prefix, ← List.reverse_prefix]
  generalize bytes.reverse = reversed
  match reversed with
  | [] => simp [joinsLines]
  | [c] => simp [joinsLines, @eq_comm _ c]
  | c :: d :: rest => simp [joinsLines, @eq_comm _ c, @eq_comm _ d]

section Start
variable {text : Bytes} {start stop : Nat} {sight : Region → Nat}

private theorem lineAfter_blanks {bytes : Bytes} (blank : bytes.all Byte.isBlank = true) :
    lineAfter true bytes = true := by
  induction bytes with
  | nil => rfl
  | cons c bytes ih =>
    rw [List.all_cons, Bool.and_eq_true] at blank
    have stays : (c == Byte.newline || true && Byte.isBlank c) = true := by simp [blank.1]
    change lineAfter (c == Byte.newline || true && Byte.isBlank c) bytes = true
    rw [stays]
    exact ih blank.2

private theorem lineAfter_newline {text : Bytes} {first : Nat}
    (starts : first = 0 ∨ text[first - 1]? = some Byte.newline) : lineAfter true (text.take first) = true := by
  rcases starts with rfl | newline
  · rfl
  · cases first with
    | zero => rfl
    | succ before =>
      rw [Nat.add_sub_cancel] at newline
      rw [List.take_add_one, newline, lineAfter_append]
      simp [lineAfter]

theorem OnlyBlanks.slice {first : Nat} (blank : OnlyBlanks text first start) :
    (slice text first start).all Byte.isBlank = true := by
  rw [List.all_eq_true]
  intro c member
  obtain ⟨index, found⟩ := List.mem_iff_getElem?.mp member
  have inside : index < start - first := by
    have below := (List.getElem?_eq_some_iff.mp found).1
    exact Nat.lt_of_lt_of_le below (length_slice_le text first start)
  rw [getElem?_slice text inside] at found
  have here := blank (first + index) (by omega) (Nat.le_add_right _ _)
  rwa [found] at here

theorem IsDirective.startsLine (directive : IsDirective (OnlyBlanks text) sight text start stop) :
    startsLine text start = true := by
  obtain ⟨first, ordered, starts, -, blank⟩ := directive.line
  rw [startsLine_eq, ← take_append_slice text ordered, lineAfter_append, lineAfter_newline starts]
  exact lineAfter_blanks blank.slice

theorem IsDirective.stop_le {lead : Nat → Nat → Prop} (directive : IsDirective lead sight text start stop) :
    stop ≤ text.length := by
  rcases directive.ends with ended | ⟨region, -, -, -, newline, -⟩
  · exact Nat.le_of_eq ended
  · exact Nat.le_of_lt (List.getElem?_eq_some_iff.mp newline).1

/-- No directive goes on past a place where one ends. -/
theorem IsDirective.stop_le_of_ends {lead : Nat → Nat → Prop} {stop' : Nat}
    (directive : IsDirective lead sight text start stop) (after : start ≤ stop')
    (ends : stop' = text.length ∨ EndsDirective text sight stop') : stop ≤ stop' := by
  rcases ends with rfl | ends
  · exact directive.stop_le
  · exact Nat.le_of_not_lt fun inside => directive.whole stop' inside after ends

end Start

/-- Behind the body of a directive only spaces are left of it, and the newline that
ends it stands behind them unless the text is over. -/
theorem Followed.ends {prior body spaces after : Bytes} (directive : Directive prior body spaces after)
    (finished : body = []) : ∀ {before : Bytes} {regions : List Region}, Followed before (spaces ++ after) regions →
    Recalls prior before regions →
    after = [] ∨ EndsDirective (before ++ (spaces ++ after)) Region.start (before ++ spaces).length := by
  induction directive with
  | text => exact fun _ _ => .inl rfl
  | @line prior after visible =>
    intro before regions followed recalls
    obtain ⟨-, region, rest, rfl, code, holds⟩ := followed.code ⟨rfl, by cases after <;> rfl⟩
    have recalled : joinsLines prior = joinsLines (before.drop region.start).reverse :=
      recalls region rest rfl code holds.1 []
    have earlier : slice (before ++ Byte.newline :: after) region.start before.length = before.drop region.start := by
      rw [slice, List.drop_append_of_le_length holds.1, List.take_left' (by simp)]
    simp only [List.append_nil, List.nil_append]
    refine .inr ⟨region, followed.mem List.mem_cons_self, code, holds, by simp, ?_⟩
    rw [earlier, ← joinsLines_reverse, ← recalled, visible]
    exact Bool.false_ne_true
  | @space prior spaces after c space hidden rest ih =>
    intro before regions followed recalls
    have code := StartsCode.of_isSpace space (spaces ++ after)
    have later := ih finished (followed.code code).1 (recalls.step followed.remaining code)
    simpa using later
  | code => cases finished
  | @passage _ bytes _ _ _ _ _ opens =>
    rw [List.append_eq_nil_iff] at finished
    rw [finished.1] at opens
    exact opens.elim

private theorem Followed.stands_ends {line : Bool} {before bytes behind : Bytes} {regions : List Region}
    (followed : Followed before (bytes ++ behind) regions) (stands : Stands line .directive bytes behind) :
    ∃ spaces after, behind = spaces ++ after ∧ allSpaces spaces = true ∧
      (after = [] ∨ EndsDirective (before ++ (bytes ++ behind)) Region.start (before ++ bytes ++ spaces).length) := by
  cases stands with
  | @directive body spaces after _ rest =>
    have followed : Followed before (Byte.hash :: (body ++ spaces ++ after)) regions := by simpa using followed
    obtain ⟨later, recalls⟩ := followed.hash
    obtain ⟨regions', prior, left, recalls', ending⟩ := Followed.directive rest later recalls
    refine ⟨spaces, after, rfl, rest.allSpaces_spaces, ?_⟩
    simpa using Followed.ends ending rfl left recalls'
  | plain _ _ _ spells => exact absurd (by simp) spells.kind_ne

/-- A hash sign in a token makes it a directive, unless the token is a literal or
something else stands before the hash sign in its line. -/
theorem Stands.of_hash {kind : TokenKind} {before bytes after : Bytes} {index : Nat}
    (stands : Stands (lineAfter true before) kind bytes after) (hash : bytes[index]? = some Byte.hash) :
    kind = .directive ∨ (∃ region, region ≠ .code ∧ Opens region bytes after) ∨
      lineAfter true (before ++ bytes.take index) = false := by
  cases stands with
  | string opens => exact .inr (.inl ⟨_, by decide, opens⟩)
  | character opens => exact .inr (.inl ⟨_, by decide, opens⟩)
  | directive => exact .inl rfl
  | @plain _ c rest _ solid _ noDirective spells =>
    refine .inr (.inr ?_)
    cases index with
    | zero =>
      rw [List.take_zero, List.append_nil]
      exact noDirective (Option.some.inj hash)
    | succ index =>
      -- The byte before the hash sign belongs to the same token, so it is no space.
      have solids : ∀ d ∈ (c :: rest).take (index + 1), Byte.isSpace d = false := by
        intro d member
        rcases List.mem_cons.mp (List.mem_of_mem_take member) with rfl | member
        · exact solid
        · refine Bool.eq_false_iff.mpr fun space => ?_
          have goesOn := spells.goesOn d member
          rw [startsAnew_of_isSpace space] at goesOn
          cases goesOn
      have nonempty : (c :: rest).take (index + 1) ≠ [] := by simp
      refine lineAfter_of_getLast? ?_ (solids _ (List.getLast_mem nonempty)) true
      rw [List.getLast?_append, List.getLast?_eq_some_getLast nonempty]
      rfl

section Layout
variable {items : List Item} {last : Bytes} {index offset : Nat} {item : Item}

/-- A hash sign of code that is the first thing on its line lies in a directive. -/
theorem Reads.directive_of_hash (reads : Reads true items last)
    (hash : (woven items last)[offset]? = some Byte.hash)
    (code : ∃ region ∈ classify (woven items last), region.kind = .code ∧ region.Holds offset)
    (first : startsLine (woven items last) offset = true) :
    ∃ (index : Nat) (item : Item), items[index]? = some item ∧ item.kind = .directive ∧
      (item.token (reach items index)).Holds offset := by
  obtain ⟨region, member, code, holds⟩ := code
  have alone : ∀ other ∈ classify (woven items last), other.Holds offset → other.kind = .code := by
    intro other listed here
    obtain rfl := Region.Holds.unique member listed holds here
    exact code
  rcases reads.idle_or_token (List.getElem?_eq_some_iff.mp hash).1 with
    ⟨other, listed, here, idle⟩ | ⟨index, item, found, inside⟩
  · rcases idle with ⟨-, space⟩ | comment
    · rw [hash] at space
      cases space
    · rw [alone other listed here] at comment
      cases comment
  · refine ⟨index, item, found, ?_, inside⟩
    obtain ⟨-, stands⟩ := reads.at found
    obtain ⟨regions, followed⟩ := reads.followed_token found
    obtain ⟨ahead, rfl⟩ := Nat.exists_eq_add_of_le inside.1
    have short : ahead < item.bytes.length := by
      have before := inside.2
      simp only [Item.token] at before
      omega
    have start : (item.token (reach items index)).start = (woven (items.take index) [] ++ item.gap).length := by
      rw [List.length_append]
      rfl
    have text := @woven_split_token items last index item found
    rw [start] at hash first alone inside
    have here : item.bytes[ahead]? = some Byte.hash := by
      rwa [text, List.getElem?_append_right (Nat.le_add_right _ _), Nat.add_sub_cancel_left,
        List.getElem?_append_left short] at hash
    rcases stands.of_hash here with directive | ⟨kind, passage, opens⟩ | behind
    · exact directive
    · obtain ⟨listed, -⟩ := followed.passage passage opens
      rw [← text] at listed
      exact absurd (alone _ listed ⟨Nat.le_add_right _ _, Nat.add_lt_add_left short _⟩) passage
    · rw [startsLine_eq, text, List.take_length_add_append, List.take_append_of_le_length (Nat.le_of_lt short),
        behind] at first
      cases first

/-- A directive of a layout goes on up to a place in the gap behind it. -/
theorem Reads.directive_ends (reads : Reads true items last) (found : items[index]? = some item)
    (kind : item.kind = .directive) :
    ∃ stop, reach items (index + 1) ≤ stop ∧
      stop ≤ reach items (index + 1) + (gapAt items last (index + 1)).length ∧
      (stop = (woven items last).length ∨ EndsDirective (woven items last) Region.start stop) := by
  have below := (List.getElem?_eq_some_iff.mp found).1
  obtain ⟨-, stands⟩ := reads.at found
  obtain ⟨regions, followed⟩ := reads.followed_token found
  obtain ⟨tail, gap, ending⟩ := reads.drop_eq_gapAt (Nat.succ_le_of_lt below)
  have text := @woven_split_token items last index item found
  have reached : reach items (index + 1) = (woven (items.take index) [] ++ item.gap ++ item.bytes).length := by
    rw [List.length_append, List.length_append, reach_succ found]
    rfl
  rw [kind] at stands
  obtain ⟨spaces, after, split, blank, ends⟩ := followed.stands_ends stands
  refine ⟨reach items (index + 1) + spaces.length, Nat.le_add_right _ _, ?_, ?_⟩
  · apply Nat.add_le_add_left
    rcases ending with ⟨rfl, -⟩ | ⟨c, rest, rfl, solid⟩
    · have length := congrArg List.length (split.symm.trans gap)
      rw [List.length_append, List.append_nil] at length
      exact length ▸ Nat.le_add_right _ _
    · obtain ⟨more, same, -⟩ := exists_gap_of_spaces blank solid (split.symm.trans gap)
      rw [same, List.length_append]
      exact Nat.le_add_right _ _
  · rw [reached, ← List.length_append, text]
    refine ends.imp ?_ id
    rintro rfl
    rw [split, List.append_nil, List.append_assoc _ item.bytes]

private theorem gap_end_mono {index' : Nat} (ordered : index ≤ index') (within : index' < items.length) :
    reach items index + (gapAt items last index).length ≤ reach items index' + (gapAt items last index').length := by
  rcases Nat.eq_or_lt_of_le ordered with rfl | earlier
  · exact Nat.le_refl _
  · calc reach items index + (gapAt items last index).length
        ≤ reach items (index + 1) := reach_gap_le (Nat.lt_trans earlier within)
      _ ≤ reach items index' := reach_mono items earlier
      _ ≤ reach items index' + (gapAt items last index').length := Nat.le_add_right _ _

section Violations
variable {violation : Violation} {place first count : Nat}

/-- A misplaced brace leaves the directives alone, with the gap behind them. -/
theorem MisplacedBrace.spares (brace : MisplacedBrace items last place violation) (reads : Reads true items last)
    (found : items[index]? = some item) (kind : item.kind = .directive) :
    violation.stop ≤ reach items index + item.gap.length ∨
      reach items (index + 1) + (gapAt items last (index + 1)).length ≤ violation.start := by
  have below := (List.getElem?_eq_some_iff.mp found).1
  obtain ⟨other, found', kind'⟩ := brace.brace
  rcases Nat.lt_trichotomy place index with earlier | rfl | later
  · left
    rw [← @gapAt_eq items last index item found]
    exact Nat.le_trans brace.stop_le (gap_end_mono earlier below)
  · obtain rfl := Option.some.inj (found.symm.trans found')
    rw [kind] at kind'
    cases kind'
  · rcases Nat.eq_or_lt_of_le (Nat.succ_le_of_lt later) with rfl | further
    · have inLine := brace.inLine
      rw [gapAt_eq found'] at inLine
      exact absurd kind (reads.kind_ne_directive found found' inLine)
    · right
      calc reach items (index + 1) + (gapAt items last (index + 1)).length
          ≤ reach items (index + 2) := reach_gap_le (Nat.lt_trans further brace.below)
        _ ≤ reach items place := reach_mono items further
        _ ≤ violation.start := brace.reach_le_start

/-- Misplaced stars leave the directives alone, with the gap behind them. -/
theorem MisplacedStars.spares (stars : MisplacedStars items last first count violation) (reads : Reads true items last)
    (found : items[index]? = some item) (kind : item.kind = .directive) :
    violation.stop ≤ reach items index + item.gap.length ∨
      reach items (index + 1) + (gapAt items last (index + 1)).length ≤ violation.start := by
  have below := (List.getElem?_eq_some_iff.mp found).1
  obtain ⟨before, previous, rfl, found', leads⟩ := stars.previous
  rcases Nat.lt_or_ge (before + 1 + count) index with earlier | inside
  · left
    rw [stars.stop, ← @gapAt_eq items last index item found]
    exact gap_end_mono earlier below
  rcases Nat.lt_or_ge index (before + 1) with ahead | behind
  · rcases Nat.eq_or_lt_of_le (Nat.le_of_lt_succ ahead) with rfl | further
    · obtain rfl := Option.some.inj (found.symm.trans found')
      rw [kind] at leads
      cases leads
    · right
      rw [stars.start]
      exact Nat.le_trans (reach_gap_le (by have := stars.below; omega)) (reach_mono items (Nat.succ_le_succ further))
  · obtain rfl := Option.some.inj (found.symm.trans (stars.run.item reads behind inside))
    cases kind

end Violations

end Layout

/-- No violation touches a directive. -/
theorem scan_spares_directives {text : Bytes} {start stop : Nat}
    (directive : IsDirective (OnlyBlanks text) Region.start text start stop) :
    ∀ violation ∈ (scan text).violations, violation.stop ≤ start ∨ stop ≤ violation.start := by
  obtain ⟨items, last, rfl, reads⟩ := exists_reads true text
  intro violation member
  rw [reads.scan_violations, Outline.violations, List.mem_filterMap] at member
  obtain ⟨place, -, violates⟩ := member
  obtain ⟨index, item, found, kind, inside⟩ :=
    reads.directive_of_hash directive.hash directive.code directive.startsLine
  obtain ⟨reached, after, within, ends⟩ := reads.directive_ends found kind
  have covered : stop ≤ reached := by
    refine directive.stop_le_of_ends ?_ ends
    have before : start < reach items (index + 1) := (reach_succ found).symm ▸ inside.2
    omega
  have spared : violation.stop ≤ reach items index + item.gap.length ∨
      reach items (index + 1) + (gapAt items last (index + 1)).length ≤ violation.start := by
    obtain ⟨-, brace | ⟨count, stars⟩⟩ := reads.violationAt?_cases violates
    · exact brace.spares reads found kind
    · exact stars.spares reads found kind
  rcases spared with before | behind
  · exact .inl (Nat.le_trans before inside.1)
  · exact .inr (Nat.le_trans covered (Nat.le_trans within behind))

/-- A directive of two lines, and a pointer behind it that is at fault. -/
def continuedDirective : Bytes := ascii "\t#define P int* \\\r\n /* \n */ p\nint* q;"

theorem scan_spares_continued_directive :
    IsDirective (OnlyBlanks continuedDirective) Region.start continuedDirective 1 29 ∧
    (scan continuedDirective).violations.length = 1 ∧
    ∀ violation ∈ (scan continuedDirective).violations, violation.stop ≤ 1 ∨ 29 ≤ violation.start := by
  have directive : IsDirective (OnlyBlanks continuedDirective) Region.start continuedDirective 1 29 :=
    ⟨by decide, by decide +kernel, ⟨0, by decide, by decide, by decide, by decide⟩, by decide, by decide +kernel,
      by decide +kernel⟩
  exact ⟨directive, by decide +kernel, scan_spares_directives directive⟩

/-- A hash sign behind a comment does not start a directive. -/
def commentedDirective : Bytes := ascii "/* c */ #define P int* p\n"

/-- A newline behind the backslash of a literal ends a directive. -/
def quotedDirective : Bytes := ascii "#define S \"\\\\\nint* p;\n"

/-- Neither may comments stand before a directive, nor is a newline hidden by a
backslash that does not belong to code. -/
theorem scan_touches_directives :
    (IsDirective (BlanksAndComments commentedDirective) (fun _ => 0) commentedDirective 8 24 ∧
      ∃ violation ∈ (scan commentedDirective).violations, violation.start < 24 ∧ 8 < violation.stop) ∧
    (IsDirective (BlanksAndComments quotedDirective) (fun _ => 0) quotedDirective 0 21 ∧
      ∃ violation ∈ (scan quotedDirective).violations, violation.start < 21 ∧ 0 < violation.stop) := by
  refine ⟨⟨⟨?_, ?_, ⟨0, ?_, ?_, ?_, ?_⟩, ?_, ?_, ?_⟩, ?_⟩, ⟨?_, ?_, ⟨0, ?_, ?_, ?_, ?_⟩, ?_, ?_, ?_⟩, ?_⟩
  all_goals decide +kernel

end Allman
