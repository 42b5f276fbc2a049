import Allman.Proofs.AnyRegions
import Allman.Proofs.InheritedRoles

/-! Strict reading: an index outside of what is read is a fault, a number below zero is
one, and so is a loop or a recursion that goes on for too many rounds. Where reading
the ordinary way gives some default instead, a strict reading shows that the default is
never needed. -/

namespace Allman

/-- Why a strict reading gives no answer. -/
inductive Fault where
  | outOfRange
  | outOfRounds
deriving DecidableEq

abbrev Strict := Except Fault

namespace Strict

section Reading
variable {α σ : Type}

/-- What has to be there. -/
def present : Option α → Strict α
  | some found => .ok found
  | none => .error .outOfRange

def before : Nat → Strict Nat
  | 0 => .error .outOfRange
  | number + 1 => .ok number

/-- A stretch of a text, which has to lie inside it and must not end before it starts. -/
def cut (text : Bytes) (start stop : Nat) : Strict Bytes :=
  if start ≤ stop ∧ stop ≤ text.length then .ok (slice text start stop) else .error .outOfRange

/-- Goes on from state to state until a round gives an answer. -/
def loop (round : σ → Strict (σ ⊕ α)) : Nat → σ → Strict α
  | 0, _ => .error .outOfRounds
  | rounds + 1, state => do
    match ← round state with
    | .inl next => loop round rounds next
    | .inr answer => return answer

@[simp] theorem ok_bind {β : Type} (value : α) (next : α → Strict β) :
    (Except.ok value >>= next : Strict β) = next value := rfl

@[simp] theorem pure_eq (value : α) : (pure value : Strict α) = .ok value := rfl

@[simp] theorem present_some (found : α) : present (some found) = .ok found := rfl

@[simp] theorem before_succ (number : Nat) : before (number + 1) = .ok number := rfl

theorem cut_eq {text : Bytes} {start stop : Nat} (ordered : start ≤ stop) (inside : stop ≤ text.length) :
    cut text start stop = .ok (slice text start stop) := if_pos ⟨ordered, inside⟩

/-- A loop ends with an answer if no round faults and each lowers a measure. What an
answer is asked to meet is handed back from the state behind a round to the one before. -/
theorem loop_meets {round : σ → Strict (σ ⊕ α)} (keeps : σ → Prop) (measure : σ → Nat) (meets : σ → α → Prop)
    (each : ∀ state, keeps state →
      (∃ answer, round state = .ok (.inr answer) ∧ meets state answer) ∨
      ∃ next, round state = .ok (.inl next) ∧ keeps next ∧ measure next < measure state ∧
        ∀ answer, meets next answer → meets state answer)
    {rounds : Nat} {state : σ} (start : keeps state) (enough : measure state < rounds) :
    ∃ answer, loop round rounds state = .ok answer ∧ meets state answer := by
  induction rounds generalizing state with
  | zero => cases enough
  | succ rounds ih =>
    rcases each state start with ⟨answer, ends, met⟩ | ⟨next, goes, kept, lower, back⟩
    · refine ⟨answer, ?_, met⟩
      rw [loop, ends]
      rfl
    · obtain ⟨answer, later, met⟩ := ih kept (by omega)
      refine ⟨answer, ?_, back answer met⟩
      rw [loop, goes]
      exact later

/-- A loop gives the answer that every round leaves as it is. -/
theorem loop_eq {round : σ → Strict (σ ⊕ α)} (keeps : σ → Prop) (measure : σ → Nat) (result : σ → α)
    (each : ∀ state, keeps state → round state = .ok (.inr (result state)) ∨
      ∃ next, round state = .ok (.inl next) ∧ keeps next ∧ measure next < measure state ∧ result next = result state)
    {rounds : Nat} {state : σ} (start : keeps state) (enough : measure state < rounds) :
    loop round rounds state = .ok (result state) := by
  obtain ⟨answer, ends, rfl⟩ := loop_meets keeps measure (fun state answer => answer = result state)
    (fun state kept => (each state kept).imp (fun ends => ⟨_, ends, rfl⟩)
      fun ⟨next, goes, kept, lower, same⟩ => ⟨next, goes, kept, lower, fun _ met => met.trans same⟩) start enough
  exact ends

theorem filterMapM_eq {check : σ → Strict (Option α)} {answer : σ → Option α} {items : List σ}
    (each : ∀ item ∈ items, check item = .ok (answer item)) : items.filterMapM check = .ok (items.filterMap answer) := by
  induction items with
  | nil => rfl
  | cons item rest ih =>
    have later := ih fun other member => each other (List.mem_cons_of_mem item member)
    rw [List.filterMapM_cons, each item List.mem_cons_self, ok_bind, later, List.filterMap_cons]
    cases answer item <;> rfl

end Reading

section Texts

def trimBack (text : Bytes) (drop : UInt8 → Bool) (floor rounds stop : Nat) : Strict Nat :=
  loop (fun stop => do
    if stop ≤ floor then return .inr stop
    let last ← before stop
    let c ← present text[last]?
    return if drop c then .inl last else .inr stop) rounds stop

def skipBlanks (text : Bytes) (rounds offset : Nat) : Strict Nat :=
  loop (fun offset => do
    if text.length ≤ offset then return .inr offset
    let c ← present text[offset]?
    return if Byte.isBlank c then .inl (offset + 1) else .inr offset) rounds offset

def line (lines : Lines) (rounds number : Nat) : Strict Bytes := do
  if lines.text.isEmpty || number = 0 then return []
  let index ← before number
  if lines.starts.length ≤ index then return []
  let start ← present lines.starts[index]?
  let stop ← if index + 1 < lines.starts.length then present lines.starts[index + 1]? else pure lines.text.length
  cut lines.text start (← trimBack lines.text Byte.isLineEnd start rounds stop)

variable {text : Bytes} {drop : UInt8 → Bool} {c : UInt8} {floor offset last start stop rounds : Nat}

private theorem slice_succ (after : start ≤ last) (found : text[last]? = some c) :
    slice text start (last + 1) = slice text start last ++ [c] := by
  rw [slice, slice, Nat.succ_sub after, List.take_add_one, List.getElem?_drop, Nat.add_sub_cancel' after, found]
  rfl

private theorem length_slice (inside : stop ≤ text.length) : (slice text start stop).length = stop - start := by
  rw [slice, List.length_take, List.length_drop]
  omega

private theorem trimEnd_concat (bytes : Bytes) (c : UInt8) :
    trimEnd drop (bytes ++ [c]) = if drop c then trimEnd drop bytes else bytes ++ [c] := by
  unfold trimEnd
  rw [List.reverse_append, List.reverse_singleton, List.singleton_append, List.dropWhile_cons]
  split
  · rfl
  · simp

theorem trimBack_eq (after : floor ≤ stop) (inside : stop ≤ text.length) (enough : stop < rounds) :
    trimBack text drop floor rounds stop = .ok (floor + (trimEnd drop (slice text floor stop)).length) := by
  apply loop_eq (fun stop => floor ≤ stop ∧ stop ≤ text.length) (fun stop => stop)
    (fun stop => floor + (trimEnd drop (slice text floor stop)).length)
  · rintro stop ⟨after, inside⟩
    rcases Nat.eq_or_lt_of_le after with rfl | behind
    · exact .inl (by simp [slice_self, trimEnd])
    · obtain ⟨last, rfl⟩ := Nat.exists_eq_succ_of_ne_zero (Nat.ne_of_gt (Nat.lt_of_le_of_lt (Nat.zero_le _) behind))
      have found : text[last]? = some text[last] := List.getElem?_eq_getElem inside
      rw [if_neg (Nat.not_le.mpr behind), Nat.succ_eq_add_one, before_succ, ok_bind, found, present_some, ok_bind,
        slice_succ (Nat.le_of_lt_succ behind) found, trimEnd_concat]
      split
      next => exact .inr ⟨last, rfl, ⟨Nat.le_of_lt_succ behind, Nat.le_of_lt inside⟩, Nat.lt_succ_self last, rfl⟩
      next =>
        left
        have whole : floor + (last - floor + 1) = last + 1 := by omega
        rw [List.length_append, length_slice (Nat.le_of_lt inside), List.length_singleton, whole]
        rfl
  · exact ⟨after, inside⟩
  · exact enough

theorem skipBlanks_eq (inside : offset ≤ text.length) (enough : text.length < rounds) :
    skipBlanks text rounds offset = .ok (offset + ((text.drop offset).takeWhile Byte.isBlank).length) := by
  apply loop_eq (fun offset => offset ≤ text.length) (fun offset => text.length - offset)
    (fun offset => offset + ((text.drop offset).takeWhile Byte.isBlank).length)
  · intro offset inside
    rcases Nat.lt_or_ge offset text.length with below | beyond
    · have found : text[offset]? = some text[offset] := List.getElem?_eq_getElem below
      rw [if_neg (Nat.not_le.mpr below), found, present_some, ok_bind, List.drop_eq_getElem_cons below]
      split
      next blank =>
        refine .inr ⟨offset + 1, rfl, below, by omega, ?_⟩
        rw [List.takeWhile_cons_of_pos blank, List.length_cons]
        omega
      next other =>
        left
        rw [List.takeWhile_cons_of_neg other]
        rfl
    · left
      rw [if_pos beyond, List.drop_eq_nil_of_le beyond]
      rfl
  · exact inside
  · omega

/-- Lines start one behind the other. -/
theorem pairwise_startsAfter (offset : Nat) (text : Bytes) :
    (offset :: Lines.startsAfter offset text).Pairwise (· < ·) := by
  induction text generalizing offset with
  | nil => exact List.pairwise_singleton _ _
  | cons c rest ih =>
    apply List.Pairwise.cons
    · exact fun start member => (Lines.mem_startsAfter member).1
    · unfold Lines.startsAfter
      split
      · exact ih (offset + 1)
      · exact (ih (offset + 1)).of_cons

/-- Where a line starts and where the next one does, or the text ends. -/
theorem exists_lineBounds {index : Nat} (inside : index < (Lines.ofText text).starts.length) :
    ∃ start stop, (Lines.ofText text).starts[index]? = some start ∧
      ((Lines.ofText text).starts[index + 1]?).getD text.length = stop ∧ start ≤ stop ∧ stop ≤ text.length := by
  have bounded : ∀ start ∈ (Lines.ofText text).starts, start ≤ text.length := by
    intro start member
    rcases List.mem_cons.mp member with rfl | later
    · exact Nat.zero_le _
    · simpa using (Lines.mem_startsAfter later).2
  refine ⟨_, _, List.getElem?_eq_getElem inside, rfl, ?_⟩
  rcases Nat.lt_or_ge (index + 1) (Lines.ofText text).starts.length with more | last
  · rw [List.getElem?_eq_getElem more, Option.getD_some]
    have ordered := List.pairwise_iff_getElem.mp (pairwise_startsAfter 0 text) index (index + 1) inside more
    exact ⟨Nat.le_of_lt (ordered (Nat.lt_succ_self index)), bounded _ (List.getElem_mem more)⟩
  · rw [List.getElem?_eq_none last, Option.getD_none]
    exact ⟨bounded _ (List.getElem_mem inside), Nat.le_refl _⟩

private theorem take_slice {size : Nat} (short : size ≤ stop - start) :
    (slice text start stop).take size = slice text start (start + size) := by
  rw [slice, slice, List.take_take, Nat.add_sub_cancel_left, Nat.min_eq_left short]

private theorem take_length_trimEnd (drop : UInt8 → Bool) (bytes : Bytes) :
    bytes.take (trimEnd drop bytes).length = trimEnd drop bytes := by
  obtain ⟨trimmed, whole, -⟩ := exists_trimEnd drop bytes
  calc
    bytes.take (trimEnd drop bytes).length = (trimEnd drop bytes ++ trimmed).take (trimEnd drop bytes).length :=
      congrArg (List.take _) whole
    _ = trimEnd drop bytes := List.take_left' rfl

private theorem cut_trimBack (after : start ≤ stop) (inside : stop ≤ text.length) (enough : stop < rounds) :
    (trimBack text drop start rounds stop >>= cut text start) = .ok (trimEnd drop (slice text start stop)) := by
  have short : (trimEnd drop (slice text start stop)).length ≤ stop - start :=
    Nat.le_trans (length_trimEnd_le ..) (length_slice_le text start stop)
  rw [trimBack_eq after inside enough, ok_bind, cut_eq (Nat.le_add_right _ _) (by omega), ← take_slice short,
    take_length_trimEnd]

theorem line_eq (text : Bytes) (number : Nat) (enough : text.length < rounds) :
    line (Lines.ofText text) rounds number = .ok ((Lines.ofText text).line number) := by
  unfold line
  cases number with
  | zero => simp [Lines.line]
  | succ index =>
    split
    next nothing =>
      obtain rfl : text = [] := by simpa [Lines.ofText] using nothing
      cases index <;> rfl
    next =>
      rw [before_succ, ok_bind]
      split
      next beyond =>
        rw [Lines.line, List.getElem?_eq_none beyond]
        rfl
      next inside =>
        obtain ⟨start, stop, found, ends, after, bound⟩ := exists_lineBounds (Nat.lt_of_not_le inside)
        have content : (trimBack text Byte.isLineEnd start rounds stop >>= cut text start) = _ :=
          cut_trimBack after bound (Nat.lt_of_le_of_lt bound enough)
        rw [Lines.line, found, present_some, ok_bind]
        dsimp only
        split
        next more =>
          rw [List.getElem?_eq_getElem more, Option.getD_some] at ends ⊢
          rw [ends]
          exact content
        next last =>
          rw [List.getElem?_eq_none (Nat.le_of_not_lt last), Option.getD_none] at ends ⊢
          rw [← ends] at content
          exact content

end Texts
end Strict

/-- An outline whose parts fit together: there is a link and a role for every token, and
the tokens lie in the text, those of code behind the ones before them. -/
structure Outline.Legible (outline : Outline) : Prop where
  lines : outline.lines = Lines.ofText outline.text
  consistent : outline.brackets.Consistent outline.kinds
  roles : outline.roles.size = outline.size
  inside : ∀ (index : Nat) (token : Token), outline.tokens[index]? = some token → token.Inside outline.text
  follows : ∀ (index : Nat) (first second : Token), outline.tokens[index]? = some first →
    outline.tokens[index + 1]? = some second → first.Follows second

theorem Outline.Legible.links {outline : Outline} (legible : outline.Legible) :
    outline.brackets.links.size = outline.size := by
  rw [legible.consistent.size]
  simp [Outline.kinds, Outline.size]

theorem Outline.legible_ofRegions {text : Bytes} {regions : List Region}
    (within : ∀ region ∈ regions, region.Within text.length) : (ofRegions text regions).Legible := by
  have tokens (index : Nat) : (ofRegions text regions).tokens[index]? = (Token.scan text regions)[index]? := by
    simp [ofRegions]
  refine ⟨rfl, consistent_ofRegions text regions, BraceRole.size_assignFirst .., ?_, ?_⟩
  · intro index token found
    rw [tokens] at found
    exact scanFrom_inside ⟨regions, 0⟩ within token (List.mem_of_getElem? found)
  · intro index first second found found'
    rw [tokens] at found found'
    have chain := (isChain_scanFrom ⟨regions, 0⟩ within ⟨.invalid, 0, 0, []⟩ (Nat.zero_le _)).tail
    have linked := List.isChain_iff_getElem.mp chain index
    obtain ⟨_, rfl⟩ := List.getElem?_eq_some_iff.mp found
    obtain ⟨below, rfl⟩ := List.getElem?_eq_some_iff.mp found'
    exact linked below

namespace Strict

section Outlines
variable (outline : Outline)

def token (index : Nat) : Strict Token := present outline.tokens[index]?

def partner (index : Nat) : Strict (Option Nat) := do
  let link ← present outline.brackets.links[index]?
  return link.opener.or link.closer

def parent (index : Nat) : Strict (Option Nat) := do
  let link ← present outline.brackets.links[index]?
  return link.parent

def role (index : Nat) : Strict (Option BraceRole) := present outline.roles[index]?

def previousCode (rounds index : Nat) : Strict (Option Nat) :=
  loop (fun index => do
    if index = 0 then return .inr none
    let last ← before index
    let token ← token outline last
    return if token.kind = .directive then .inl last else .inr (some last)) rounds index

def gap (first second : Nat) : Strict Bytes := do
  let left ← token outline first
  let right ← token outline second
  if right.start < left.stop then return []
  cut outline.text left.stop right.start

end Outlines

section Legible
variable {outline : Outline} {index first second rounds : Nat}

theorem exists_token (inside : index < outline.size) : ∃ token, outline.tokens[index]? = some token :=
  ⟨_, Array.getElem?_eq_getElem inside⟩

theorem lt_size_of_is {kind : TokenKind} (found : outline.is index kind = true) : index < outline.size := by
  rcases Nat.lt_or_ge index outline.size with inside | beyond
  · exact inside
  · have absent : outline.tokens[index]? = none := Array.getElem?_eq_none beyond
    simp [Outline.is, Outline.kind?, absent] at found

theorem partner_eq (legible : outline.Legible) (inside : index < outline.size) :
    partner outline index = .ok (outline.brackets.partner? index) := by
  have found := Array.getElem?_eq_getElem (legible.links ▸ inside)
  simp only [partner, Brackets.partner?, Brackets.opener?, Brackets.closer?, found]
  rfl

theorem parent_eq (legible : outline.Legible) (inside : index < outline.size) :
    parent outline index = .ok (outline.brackets.parent? index) := by
  have found := Array.getElem?_eq_getElem (legible.links ▸ inside)
  simp only [parent, Brackets.parent?, found]
  rfl

theorem role_eq (legible : outline.Legible) (inside : index < outline.size) :
    role outline index = .ok (outline.role? index) := by
  have found := Array.getElem?_eq_getElem (legible.roles ▸ inside)
  simp only [role, Outline.role?, found]
  rfl

theorem previousCode_eq (inside : index ≤ outline.size) (enough : index < rounds) :
    previousCode outline rounds index = .ok (outline.previousCode? index) := by
  apply loop_eq (fun index => index ≤ outline.size) (fun index => index) (fun index => outline.previousCode? index)
  · intro index inside
    cases index with
    | zero => exact .inl rfl
    | succ last =>
      obtain ⟨found, there⟩ := exists_token inside
      have unfolded : outline.previousCode? (last + 1) =
          if found.kind = .directive then outline.previousCode? last else some last := by
        simp only [Outline.previousCode?, Allman.previousCode?, there]
      rw [if_neg (Nat.succ_ne_zero last), before_succ, ok_bind, token, there, present_some, ok_bind, unfolded]
      split
      · exact .inr ⟨last, rfl, Nat.le_of_lt inside, Nat.lt_succ_self last, rfl⟩
      · exact .inl rfl
  · exact inside
  · exact enough

theorem gap_eq (legible : outline.Legible) (inside : first < outline.size) (inside' : second < outline.size) :
    gap outline first second = .ok (outline.gap first second) := by
  obtain ⟨left, found⟩ := exists_token inside
  obtain ⟨right, found'⟩ := exists_token inside'
  simp only [gap, token, Outline.gap, found, found', present_some, ok_bind]
  split
  next before =>
    rw [slice, Nat.sub_eq_zero_of_le (Nat.le_of_lt before), List.take_zero]
    rfl
  next after => exact cut_eq (Nat.le_of_not_lt after) (legible.inside second right found').start_le

end Legible
end Strict
end Allman
