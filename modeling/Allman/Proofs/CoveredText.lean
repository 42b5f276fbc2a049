import Allman.Proofs.SameCode

/-! Reading a text loses none of it. The layout of a text is followed along the
regions of the text, point by point: at each point the regions still ahead are
known. So every gap is found to hold nothing but spaces of code and comments, and
every token but a directive is found to lie in one region. -/

namespace Allman
open Region

def Region.Holds (region : Region) (offset : Nat) : Prop := region.start ≤ offset ∧ offset < region.stop

instance (region : Region) (offset : Nat) : Decidable (region.Holds offset) :=
  inferInstanceAs (Decidable (_ ∧ _))

def Token.Holds (token : Token) (offset : Nat) : Prop := token.start ≤ offset ∧ offset < token.stop

def RegionKind.isComment : RegionKind → Bool
  | .lineComment | .blockComment => true
  | _ => false

/-- The byte at an offset is a space of code or belongs to a comment. -/
def Idle (text : Bytes) (offset : Nat) : Prop :=
  ∃ region ∈ classify text, region.Holds offset ∧
    (region.kind = .code ∧ text[offset]?.any Byte.isSpace = true ∨ region.kind.isComment = true)

/-- Two regions that hold the same offset are the same. -/
theorem Region.Holds.unique {text : Bytes} {region other : Region} {offset : Nat} (member : region ∈ classify text)
    (member' : other ∈ classify text) (holds : region.Holds offset) (holds' : other.Holds offset) :
    region = other := by
  obtain ⟨after, before⟩ := holds
  obtain ⟨after', before'⟩ := holds'
  rcases (classify_contiguous text).apart member member' with same | apart | apart
  · exact same
  · omega
  · omega

/-- A text has been followed up to the end of `before`: of its regions those in
`regions` are left, the first of them perhaps in part. -/
structure Followed (before ahead : Bytes) (regions : List Region) : Prop where
  listed : regions <:+ classify (before ++ ahead)
  remaining : Remaining before ahead regions

section Following
variable {before ahead bytes : Bytes} {c : UInt8} {regions : List Region} {kind : RegionKind}

theorem Followed.start (text : Bytes) : Followed [] text (classify text) :=
  ⟨List.suffix_refl _, .inl rfl⟩

theorem Followed.mem (followed : Followed before ahead regions) {region : Region} (member : region ∈ regions) :
    region ∈ classify (before ++ ahead) :=
  followed.listed.mem member

theorem Followed.code (followed : Followed before (c :: ahead) regions) (code : StartsCode (c :: ahead)) :
    Followed (before ++ [c]) ahead regions ∧
      ∃ region rest, regions = region :: rest ∧ region.kind = .code ∧ region.Holds before.length := by
  refine ⟨⟨?_, followed.remaining.step code⟩, ?_⟩
  · rw [List.append_assoc]
    exact followed.listed
  · obtain ⟨start, early, rfl⟩ := followed.remaining.code code
    exact ⟨_, _, rfl, rfl, early, by simp only; omega⟩

theorem Followed.passage (followed : Followed before (bytes ++ ahead) regions) (passage : kind ≠ .code)
    (opens : Opens kind bytes ahead) :
    ⟨kind, before.length, before.length + bytes.length⟩ ∈ classify (before ++ (bytes ++ ahead)) ∧
      Followed (before ++ bytes) ahead (classifyFrom (before ++ bytes).length ahead) := by
  -- Code that ends here may still be listed; behind it the passage is the next region.
  have next : ⟨kind, before.length, before.length + bytes.length⟩ ::
      classifyFrom (before.length + bytes.length) ahead <:+ classify (before ++ (bytes ++ ahead)) := by
    rw [← classifyFrom_opens opens]
    rcases followed.remaining with same | ⟨start, early, same⟩
    · exact same ▸ followed.listed
    · rw [opens.codeLength_eq passage] at same
      exact (List.suffix_cons _ _).trans (same ▸ followed.listed)
  refine ⟨next.mem List.mem_cons_self, ?_, .inl rfl⟩
  rw [List.append_assoc, List.length_append]
  exact (List.suffix_cons _ _).trans next

/-- A gap holds nothing but spaces of code and comments. -/
theorem Followed.gap {gap : Bytes} (isGap : Gap ahead gap) : ∀ {before : Bytes} {regions : List Region},
    Followed before (gap ++ ahead) regions →
    (∃ regions', Followed (before ++ gap) ahead regions') ∧
    ∀ offset, before.length ≤ offset → offset < (before ++ gap).length →
      Idle (before ++ (gap ++ ahead)) offset := by
  induction isGap with
  | nil =>
    intro before regions followed
    refine ⟨⟨regions, by simpa using followed⟩, ?_⟩
    intro offset after inside
    simp only [List.append_nil] at inside
    omega
  | @space c gap space rest ih =>
    intro before regions followed
    obtain ⟨later, region, others, rfl, code, holds⟩ := followed.code (.of_isSpace space _)
    obtain ⟨⟨regions', left⟩, idle⟩ := ih later
    simp only [List.append_assoc, List.singleton_append, List.length_append, List.length_singleton] at left idle
    refine ⟨⟨regions', by simpa using left⟩, ?_⟩
    intro offset after inside
    simp only [List.length_append, List.length_cons] at inside
    rcases Nat.eq_or_lt_of_le after with rfl | further
    · refine ⟨region, followed.mem List.mem_cons_self, holds, .inl ⟨code, ?_⟩⟩
      simpa using space
    · exact idle offset further (by omega)
  | @comment kind bytes gap comment opens rest ih =>
    intro before regions followed
    rw [List.append_assoc] at followed
    have passage : kind ≠ .code := by rcases comment with rfl | rfl <;> decide
    obtain ⟨listed, later⟩ := followed.passage passage opens
    obtain ⟨⟨regions', left⟩, idle⟩ := ih later
    simp only [List.append_assoc, List.length_append] at left idle ⊢
    refine ⟨⟨regions', left⟩, ?_⟩
    intro offset after inside
    by_cases early : offset < before.length + bytes.length
    · refine ⟨_, listed, ⟨after, early⟩, .inr ?_⟩
      rcases comment with rfl | rfl <;> rfl
    · exact idle offset (Nat.le_of_not_lt early) (by omega)

/-- The body of a directive is followed over literals and comments alike. What is
left of the directive are the spaces that end it. -/
theorem Followed.directive {prior body spaces after : Bytes} (directive : Directive prior body spaces after) :
    ∀ {before : Bytes} {regions : List Region}, Followed before (body ++ spaces ++ after) regions →
    Recalls prior before regions → ∃ regions' prior', Followed (before ++ body) (spaces ++ after) regions' ∧
      Recalls prior' (before ++ body) regions' ∧ Directive prior' [] spaces after := by
  induction directive with
  | text => exact fun followed recalls => ⟨_, _, by simpa using followed, by simpa using recalls, .text⟩
  | line visible =>
    exact fun followed recalls => ⟨_, _, by simpa using followed, by simpa using recalls, .line visible⟩
  | space space hidden rest =>
    exact fun followed recalls => ⟨_, _, by simpa using followed, by simpa using recalls, .space space hidden rest⟩
  | @code prior body spaces after c code hidden solid rest ih =>
    intro before regions followed recalls
    obtain ⟨later, -⟩ := @Followed.code before (body ++ spaces ++ after) c regions followed code
    obtain ⟨regions', prior', left, recalls', directive⟩ := ih later (recalls.step followed.remaining code)
    exact ⟨regions', prior', by simpa using left, by simpa using recalls', directive⟩
  | @passage prior bytes body spaces after kind passage opens rest ih =>
    intro before regions followed recalls
    have followed : Followed before (bytes ++ (body ++ spaces ++ after)) regions := by simpa using followed
    obtain ⟨-, later⟩ := followed.passage passage opens
    obtain ⟨regions', prior', left, recalls', directive⟩ := ih later (.fresh _ _)
    exact ⟨regions', prior', by simpa using left, by simpa using recalls', directive⟩

theorem Followed.hash {body : Bytes} (followed : Followed before (Byte.hash :: body) regions) :
    Followed (before ++ [Byte.hash]) body regions ∧ Recalls [Byte.hash] (before ++ [Byte.hash]) regions := by
  have code : StartsCode (Byte.hash :: body) := ⟨rfl, by cases body <;> rfl⟩
  exact ⟨(followed.code code).1, .hash followed.remaining⟩

/-- A token is followed to its end, and unless it is a directive one region holds it
whole, which is no comment. -/
theorem Followed.stands {line : Bool} {kind : TokenKind} (followed : Followed before (bytes ++ ahead) regions)
    (stands : Stands line kind bytes ahead) :
    (∃ regions', Followed (before ++ bytes) ahead regions') ∧
    (kind ≠ .directive → ∃ region ∈ classify (before ++ (bytes ++ ahead)), region.kind.isComment = false ∧
      region.start ≤ before.length ∧ before.length + bytes.length ≤ region.stop) := by
  cases stands with
  | string opens =>
    obtain ⟨listed, later⟩ := followed.passage (by decide) opens
    exact ⟨⟨_, later⟩, fun _ => ⟨_, listed, rfl, Nat.le_refl _, Nat.le_refl _⟩⟩
  | character opens =>
    obtain ⟨listed, later⟩ := followed.passage (by decide) opens
    exact ⟨⟨_, later⟩, fun _ => ⟨_, listed, rfl, Nat.le_refl _, Nat.le_refl _⟩⟩
  | @directive body spaces after first rest =>
    have followed : Followed before (Byte.hash :: (body ++ spaces ++ after)) regions := by simpa using followed
    obtain ⟨later, recalls⟩ := followed.hash
    obtain ⟨regions', -, left, -, -⟩ := Followed.directive rest later recalls
    exact ⟨⟨regions', by simpa using left⟩, fun other => absurd rfl other⟩
  | @plain kind c rest after solid code noDirective spells =>
    replace followed : Followed before (c :: (rest ++ ahead)) regions := followed
    refine ⟨⟨regions, ?_, followed.remaining.plain code spells⟩, fun _ => ?_⟩
    · rw [List.append_assoc]
      exact followed.listed
    · have covered := codeLength_append_goesOn spells.goesOn ahead
      obtain ⟨start, early, rfl⟩ := followed.remaining.code code
      refine ⟨_, followed.mem List.mem_cons_self, rfl, early, ?_⟩
      simp only [covered, List.length_cons]
      omega

end Following

section Layout
variable {items : List Item} {last : Bytes} {index offset : Nat} {item : Item}

private theorem Reads.gap_last {line : Bool} (reads : Reads line items last) : Gap [] last := by
  induction items generalizing line with
  | nil => exact reads
  | cons item items ih => exact ih reads.2.2

/-- The text of a layout can be followed up to each of its gaps. -/
theorem Reads.followed (reads : Reads true items last) (within : index ≤ items.length) :
    ∃ regions, Followed (woven (items.take index) []) (woven (items.drop index) last) regions := by
  induction index with
  | zero => exact ⟨_, Followed.start _⟩
  | succ index ih =>
    obtain ⟨regions, followed⟩ := ih (Nat.le_of_succ_le within)
    have found := List.getElem?_eq_getElem within
    obtain ⟨isGap, stands⟩ := reads.at found
    rw [woven_drop found] at followed
    obtain ⟨⟨regions', later⟩, -⟩ := Followed.gap isGap followed
    obtain ⟨⟨regions'', left⟩, -⟩ := later.stands stands
    refine ⟨regions'', ?_⟩
    rw [List.take_add_one, found, woven_append]
    simpa [woven] using left

/-- A token of a layout with the regions that are left at its start. -/
theorem Reads.followed_token (reads : Reads true items last) (found : items[index]? = some item) :
    ∃ regions, Followed (woven (items.take index) [] ++ item.gap)
      (item.bytes ++ woven (items.drop (index + 1)) last) regions := by
  have below := (List.getElem?_eq_some_iff.mp found).1
  obtain ⟨regions, followed⟩ := reads.followed (Nat.le_of_lt below)
  rw [woven_drop found] at followed
  exact (Followed.gap (reads.at found).1 followed).1

theorem woven_split_token (found : items[index]? = some item) :
    woven items last = woven (items.take index) [] ++ item.gap ++
      (item.bytes ++ woven (items.drop (index + 1)) last) := by
  rw [List.append_assoc, ← woven_drop found, ← woven_take_drop]

private theorem Reads.idle_gap (reads : Reads true items last) (within : index ≤ items.length)
    (after : reach items index ≤ offset) (inside : offset < reach items index + (gapAt items last index).length) :
    Idle (woven items last) offset := by
  obtain ⟨regions, followed⟩ := reads.followed within
  have idle : ∀ {gap tail : Bytes}, gapAt items last index = gap → woven (items.drop index) last = gap ++ tail →
      Gap tail gap → Idle (woven items last) offset := by
    intro gap tail same split isGap
    rw [split] at followed
    rw [woven_take_drop items last index, split]
    apply (Followed.gap isGap followed).2 offset after
    rw [List.length_append, ← same]
    exact inside
  cases found : items[index]? with
  | some item => exact idle (gapAt_eq found) (woven_drop found) (reads.at found).1
  | none =>
    have ended := List.getElem?_eq_none_iff.mp found
    refine @idle last [] ?_ ?_ reads.gap_last
    · rw [gapAt, found]
      rfl
    · rw [List.drop_eq_nil_of_le ended, List.append_nil]
      rfl

/-- Every byte of a text is idle or stands in a token. -/
theorem Reads.idle_or_token (reads : Reads true items last) (inside : offset < (woven items last).length) :
    Idle (woven items last) offset ∨ ∃ (index : Nat) (item : Item), items[index]? = some item ∧
      (item.token (reach items index)).Holds offset := by
  rcases exists_reach items (show reach items 0 ≤ offset from Nat.zero_le _) (Nat.zero_le items.length) with
    ⟨index, -, below, reached, before⟩ | reached
  · have found := List.getElem?_eq_getElem below
    by_cases early : offset < reach items index + (gapAt items last index).length
    · exact .inl (reads.idle_gap (Nat.le_of_lt below) reached early)
    · refine .inr ⟨index, _, found, ?_⟩
      rw [gapAt_eq found] at early
      rw [reach_succ found] at before
      exact ⟨Nat.le_of_not_lt early, before⟩
  · left
    apply reads.idle_gap (Nat.le_refl _) reached
    have whole := congrArg List.length (woven_take_drop items last items.length)
    rw [List.drop_length, List.length_append, ← reach] at whole
    rw [gapAt, List.getElem?_length]
    exact whole ▸ inside

theorem mem_placed {token : Token} (member : token ∈ placed 0 items) :
    ∃ (index : Nat) (item : Item), items[index]? = some item ∧ token = item.token (reach items index) := by
  obtain ⟨index, found⟩ := List.mem_iff_getElem?.mp member
  rw [getElem?_placed, Nat.zero_add, Option.map_eq_some_iff] at found
  obtain ⟨item, found, rfl⟩ := found
  exact ⟨index, item, found, rfl⟩

theorem placed_mem (found : items[index]? = some item) : item.token (reach items index) ∈ placed 0 items := by
  apply List.mem_of_getElem?
  rw [getElem?_placed, found, Nat.zero_add]
  rfl

private theorem pairwise_placed (offset : Nat) (items : List Item) :
    (placed offset items).Pairwise (·.stop ≤ ·.start) ∧ ∀ token ∈ placed offset items, offset ≤ token.start := by
  induction items generalizing offset with
  | nil => exact ⟨.nil, nofun⟩
  | cons item items ih =>
    obtain ⟨apart, later⟩ := ih (offset + item.gap.length + item.bytes.length)
    refine ⟨List.pairwise_cons.mpr ⟨later, apart⟩, ?_⟩
    intro token member
    rcases List.mem_cons.mp member with rfl | member
    · exact Nat.le_add_right _ _
    · have := later token member
      omega

/-- A token of a layout is not empty, and unless it is a directive it lies in one
region that is no comment. -/
theorem Reads.token_region (reads : Reads true items last) (found : items[index]? = some item) :
    (item.token (reach items index)).start < (item.token (reach items index)).stop ∧
    (item.kind ≠ .directive → ∃ region ∈ classify (woven items last), region.kind.isComment = false ∧
      region.start ≤ (item.token (reach items index)).start ∧
      (item.token (reach items index)).stop ≤ region.stop) := by
  obtain ⟨-, stands⟩ := reads.at found
  obtain ⟨regions, followed⟩ := reads.followed_token found
  obtain ⟨-, lies⟩ := followed.stands stands
  obtain ⟨c, rest, first, -⟩ := stands.solid
  rw [← woven_split_token found, List.length_append] at lies
  refine ⟨?_, lies⟩
  simp only [Item.token, first, List.length_cons]
  omega

end Layout

/-- The tokens of a text are stretches of it that are not empty and follow one
another. A byte in none of them is a space of code or belongs to a comment, a
comment is part of no token but a directive, and every other token lies in one
region. -/
theorem scan_loses_nothing (text : Bytes) :
    let regions := classify text
    let tokens := Token.scan text regions
    (∀ token ∈ tokens, token.start < token.stop ∧ token.stop ≤ text.length ∧
      token.lexeme = slice text token.start token.stop) ∧
    tokens.Pairwise (·.stop ≤ ·.start) ∧
    (∀ offset < text.length, (∀ token ∈ tokens, ¬ token.Holds offset) → Idle text offset) ∧
    (∀ token ∈ tokens, ∀ region ∈ regions, ∀ offset, token.Holds offset → region.Holds offset →
      region.kind.isComment = true → token.kind = .directive) ∧
    (∀ token ∈ tokens, token.kind ≠ .directive →
      ∃ region ∈ regions, region.start ≤ token.start ∧ token.stop ≤ region.stop) := by
  obtain ⟨items, last, rfl, reads⟩ := exists_reads true text
  intro regions tokens
  have listed : tokens = placed 0 items := reads.scan_eq
  have covers : ∀ token ∈ tokens, token = token.recast (woven items last) := by
    intro token member
    exact (scanFrom_within ⟨regions, 0⟩ (fun region member => member) member).1
  rw [listed] at covers ⊢
  refine ⟨?_, (pairwise_placed 0 items).1, ?_, ?_, ?_⟩
  · intro token member
    have lexeme := congrArg Token.lexeme (covers token member)
    obtain ⟨index, item, found, rfl⟩ := mem_placed member
    refine ⟨(reads.token_region found).1, ?_, lexeme⟩
    have stop : (item.token (reach items index)).stop = reach items (index + 1) := (reach_succ found).symm
    rw [stop]
    exact reach_le_length items last (index + 1)
  · intro offset inside outside
    rcases reads.idle_or_token inside with idle | ⟨index, item, found, holds⟩
    · exact idle
    · exact absurd holds (outside _ (placed_mem found))
  · intro token member region known offset holds holds' comment
    obtain ⟨index, item, found, rfl⟩ := mem_placed member
    by_contra other
    obtain ⟨home, known', plain, after, before⟩ := (reads.token_region found).2 other
    have inside : home.Holds offset :=
      ⟨Nat.le_trans after holds.1, Nat.lt_of_lt_of_le holds.2 before⟩
    obtain rfl := Region.Holds.unique known known' holds' inside
    rw [comment] at plain
    cases plain
  · intro token member other
    obtain ⟨index, item, found, rfl⟩ := mem_placed member
    obtain ⟨home, known, -, after, before⟩ := (reads.token_region found).2 other
    exact ⟨home, known, after, before⟩

end Allman
