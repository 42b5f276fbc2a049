import Allman.Log
import Allman.Proofs.CollectedFiles
import Allman.Proofs.PrintedParts

/-! What colour adds to the output. Part by part, deleting the escape sequences from what
is printed in colour leaves what is printed without it, unless a name, a message or a file
brings an escape of its own. So the same holds of a whole layout, and over any run of
diagnostics. -/

namespace Allman

/-- The length of the escape sequence that a text starts with: an escape, a bracket,
digits and the letter `m`. It is zero if there is none. -/
def escapeLength : Bytes → Nat
  | c :: d :: rest =>
    let digits := (rest.takeWhile Byte.isDigit).length
    if [c, d] = Byte.escape :: ascii "[" ∧ (rest.drop digits).take 1 = ascii "m" then digits + 3 else 0
  | _ => 0

/-- Leaves out the next bytes of a text, as many as are given, and every escape sequence
behind them. -/
def withoutEscapesAfter : Nat → Bytes → Bytes
  | _, [] => []
  | skip + 1, _ :: rest => withoutEscapesAfter skip rest
  | 0, c :: rest =>
    match escapeLength (c :: rest) with
    | 0 => c :: withoutEscapesAfter 0 rest
    | length + 1 => withoutEscapesAfter length rest

def withoutEscapes (text : Bytes) : Bytes := withoutEscapesAfter 0 text

/-- No escape sequence goes on behind the text: its last byte is no escape, no bracket and
no digit. -/
def endsPlain (text : Bytes) : Bool :=
  text.getLast?.all fun c => !(Byte.escape :: ascii "[").contains c && !Byte.isDigit c

section Deleting
variable {front bytes : Bytes} {c : UInt8}

private theorem escapeLength_cons (other : c ≠ Byte.escape) (rest : Bytes) : escapeLength (c :: rest) = 0 := by
  cases rest with
  | nil => rfl
  | cons d rest => simp [escapeLength, other]

private theorem withoutEscapes_append (plain : Byte.escape ∉ bytes) (rest : Bytes) :
    withoutEscapes (bytes ++ rest) = bytes ++ withoutEscapes rest := by
  induction bytes with
  | nil => rfl
  | cons c bytes ih =>
    obtain ⟨other, plain⟩ := not_or.mp (mt List.mem_cons.mpr plain)
    rw [List.cons_append, withoutEscapes, withoutEscapesAfter, escapeLength_cons (Ne.symm other)]
    exact congrArg (c :: ·) (ih plain)

private theorem length_takeWhile_isDigit_lt (some : front ≠ []) (ends : endsPlain front = true) :
    (front.takeWhile Byte.isDigit).length < front.length := by
  refine Nat.lt_of_le_of_ne (List.takeWhile_prefix _).length_le fun whole => ?_
  have digits : front.all Byte.isDigit = true := by
    rw [← (List.takeWhile_prefix Byte.isDigit).eq_of_length whole]
    exact List.all_takeWhile
  have digit := List.all_eq_true.mp digits _ (List.getLast_mem some)
  simp [endsPlain, List.getLast?_eq_some_getLast some, digit] at ends

private theorem endsPlain_of_cons (ends : endsPlain (c :: front) = true) : endsPlain front = true := by
  cases front with
  | nil => rfl
  | cons d front => exact ends

/-- An escape sequence at the start of such a text does not reach over its end. -/
theorem escapeLength_append (ends : endsPlain (c :: front) = true) (rest : Bytes) :
    escapeLength (c :: (front ++ rest)) = escapeLength (c :: front) ∧ escapeLength (c :: front) ≤ front.length + 1 := by
  match front with
  | [] =>
    have other : c ≠ Byte.escape := by
      rintro rfl
      cases ends
    rw [escapeLength_cons other, escapeLength_cons other]
    exact ⟨rfl, Nat.zero_le _⟩
  | [d] =>
    have other : [c, d] ≠ Byte.escape :: ascii "[" := by
      intro same
      cases same
      cases ends
    simp [escapeLength, other]
  | d :: e :: front =>
    have below := length_takeWhile_isDigit_lt (List.cons_ne_nil e front) (endsPlain_of_cons (endsPlain_of_cons ends))
    have digits : (e :: front ++ rest).takeWhile Byte.isDigit = (e :: front).takeWhile Byte.isDigit := by
      rw [List.takeWhile_append, if_neg (Nat.ne_of_lt below)]
    have behind : ((e :: front ++ rest).drop ((e :: front).takeWhile Byte.isDigit).length).take 1 =
        ((e :: front).drop ((e :: front).takeWhile Byte.isDigit).length).take 1 := by
      rw [List.drop_append_of_le_length (Nat.le_of_lt below), List.take_append_of_le_length]
      rw [List.length_drop]
      omega
    constructor
    · simp only [List.cons_append, escapeLength] at digits behind ⊢
      rw [digits, behind]
    · simp only [escapeLength, List.length_cons] at below ⊢
      split <;> omega

/-- Deleting starts anew behind such a text. -/
theorem withoutEscapesAfter_append {skip : Nat} (within : skip ≤ front.length) (ends : endsPlain front = true)
    (rest : Bytes) : withoutEscapesAfter skip (front ++ rest) = withoutEscapesAfter skip front ++ withoutEscapes rest := by
  induction front generalizing skip with
  | nil =>
    obtain rfl := Nat.le_zero.mp within
    rfl
  | cons c front ih =>
    have ended := endsPlain_of_cons ends
    cases skip with
    | succ skip => exact ih (Nat.le_of_succ_le_succ within) ended
    | zero =>
      obtain ⟨same, inside⟩ := escapeLength_append ends rest
      rw [List.cons_append, withoutEscapesAfter, withoutEscapesAfter, same]
      cases found : escapeLength (c :: front) with
      | zero => exact congrArg (c :: ·) (ih (Nat.zero_le _) ended)
      | succ length => exact ih (by omega) ended

private theorem withoutEscapes_append_of_endsPlain (ends : endsPlain front = true) (rest : Bytes) :
    withoutEscapes (front ++ rest) = withoutEscapes front ++ withoutEscapes rest :=
  withoutEscapesAfter_append (Nat.zero_le _) ends rest

end Deleting

namespace Styled

/-- Deleting escape sequences turns what is printed in colour into what is printed without
it, and goes on with what follows. -/
def Sheds (pieces : Styled) : Prop :=
  ∀ rest, withoutEscapes (pieces.render true ++ rest) = pieces.render false ++ withoutEscapes rest

variable {pieces first second : Styled} {bytes : Bytes}

private theorem sheds_nil : Sheds [] := fun _ => rfl

theorem Sheds.append (here : first.Sheds) (behind : second.Sheds) : (first ++ second).Sheds := by
  intro rest
  rw [render_append, render_append, List.append_assoc, here, behind, List.append_assoc]

private theorem sheds_flatMap {α : Type} {items : List α} {layout : α → Styled}
    (each : ∀ item ∈ items, (layout item).Sheds) : Sheds (items.flatMap layout) := by
  induction items with
  | nil => exact sheds_nil
  | cons item items ih =>
    obtain ⟨here, behind⟩ := List.forall_mem_cons.mp each
    rw [List.flatMap_cons]
    exact here.append (ih behind)

private theorem sheds_plain (plain : Byte.escape ∉ bytes) : (Diagnostic.plain bytes).Sheds := by
  intro rest
  rw [render_plain, render_plain]
  exact withoutEscapes_append plain rest

private theorem sheds_newline : Sheds Diagnostic.newlineText := sheds_plain (by decide)

/-- Without its escape sequences a coloured layout is the plain one. -/
theorem Sheds.withoutEscapes_render (sheds : pieces.Sheds) :
    withoutEscapes (pieces.render true) = pieces.render false := by
  have alone := sheds []
  rwa [show withoutEscapes [] = [] from rfl, List.append_nil, List.append_nil] at alone

end Styled

section Texts
variable {text : Bytes}

theorem isDigit_of_mem_decimal {n : Nat} {digit : UInt8} (member : digit ∈ decimal n) : Byte.isDigit digit = true := by
  obtain ⟨c, inside, rfl⟩ := List.mem_map.mp member
  have digit := Nat.isDigit_of_mem_toDigits (by decide) (by decide) inside
  simp only [Char.isDigit, Bool.and_eq_true, decide_eq_true_eq, ge_iff_le, UInt32.le_iff_toNat_le] at digit
  have bounds : 48 ≤ c.toNat ∧ c.toNat ≤ 57 := digit
  have byte : c.toNat.toUInt8.toNat = c.toNat := Nat.mod_eq_of_lt (by omega)
  simp only [Byte.isDigit, Bool.and_eq_true, decide_eq_true_eq, UInt8.le_iff_toNat_le, byte]
  exact bounds

@[simp] theorem escape_not_mem_decimal (n : Nat) : Byte.escape ∉ decimal n :=
  fun member => absurd (isDigit_of_mem_decimal member) (by decide)

/-- Expanding tabs adds nothing but spaces. -/
theorem mem_expandTabs {c : UInt8} {column : Nat} (member : c ∈ expandTabs column text) : c = Byte.space ∨ c ∈ text := by
  induction text generalizing column with
  | nil => exact .inr member
  | cons d text ih =>
    rw [expandTabs, List.mem_append] at member
    rcases member with first | later
    · split at first
      · exact .inl (List.eq_of_mem_replicate first)
      · exact .inr (List.mem_cons.mpr (.inl (List.mem_singleton.mp first)))
    · exact (ih later).imp_right (List.mem_cons_of_mem _)

private theorem expandTabs_unescaped (plain : Byte.escape ∉ text) (column : Nat) :
    Byte.escape ∉ expandTabs column text :=
  fun member => (mem_expandTabs member).elim (by decide) plain

private theorem subset_of_mem_splitAt {separator : UInt8} {piece : Bytes}
    (member : piece ∈ splitAt separator text) : piece ⊆ text := by
  induction text generalizing piece with
  | nil =>
    obtain rfl := List.mem_singleton.mp member
    exact List.Subset.refl _
  | cons c text ih =>
    obtain ⟨first, others, split⟩ := List.exists_cons_of_ne_nil (splitAt_ne_nil separator text)
    rw [split] at ih
    rw [splitAt_cons split] at member
    have later {piece : Bytes} (member : piece ∈ first :: others) : piece ⊆ c :: text :=
      fun _ inside => List.mem_cons_of_mem _ (ih member inside)
    split at member
    · rcases List.mem_cons.mp member with rfl | member
      · exact List.nil_subset _
      · exact later member
    · rcases List.mem_cons.mp member with rfl | member
      · exact List.cons_subset_cons _ (ih List.mem_cons_self)
      · exact later (List.mem_cons_of_mem _ member)

private theorem textLines_unescaped (plain : Byte.escape ∉ text) : ∀ line ∈ textLines text, Byte.escape ∉ line := by
  intro line member inside
  obtain ⟨piece, split, rfl⟩ := List.mem_map.mp member
  apply plain
  apply subset_of_mem_splitAt split
  split at inside
  · exact List.dropLast_subset _ inside
  · exact inside

private theorem slice_subset (text : Bytes) (start stop : Nat) : slice text start stop ⊆ text :=
  fun _ inside => List.drop_subset _ _ (List.take_subset _ _ inside)

private theorem line_subset (lines : Lines) (number : Nat) : lines.line number ⊆ lines.text := by
  cases number with
  | zero => exact List.nil_subset _
  | succ number =>
    rw [Lines.line]
    split
    · exact List.nil_subset _
    · intro c inside
      apply slice_subset
      exact List.mem_reverse.mp (List.dropWhile_subset _ (List.mem_reverse.mp inside))

end Texts

def Buffers.Unescaped (buffers : Buffers) : Prop :=
  ∀ entry ∈ buffers.live, Byte.escape ∉ entry.2.name ∧ Byte.escape ∉ entry.2.content

structure Diagnostic.Unescaped (diagnostic : Diagnostic) : Prop where
  message : Byte.escape ∉ diagnostic.message
  code : Byte.escape ∉ diagnostic.code
  advices : ∀ advice ∈ diagnostic.advices, Byte.escape ∉ advice.message
  fixIts : ∀ fixIt ∈ diagnostic.fixIts, Byte.escape ∉ fixIt.replacement ∧ Byte.escape ∉ fixIt.message

namespace Buffers.Unescaped
variable {buffers : Buffers} (plain : buffers.Unescaped) (id : Nat)
include plain

private theorem cases_find? : buffers.find? id = none ∨
    ∃ buffer, buffers.find? id = some buffer ∧ Byte.escape ∉ buffer.name ∧ Byte.escape ∉ buffer.content := by
  cases found : buffers.find? id with
  | none => exact .inl rfl
  | some buffer =>
    obtain ⟨before, after, split, -⟩ := List.lookup_eq_some_iff.mp found
    exact .inr ⟨buffer, rfl, plain (id, buffer) (by simp [split])⟩

theorem name : Byte.escape ∉ buffers.name id := by
  rw [Buffers.name]
  obtain found | ⟨buffer, found, name, -⟩ := plain.cases_find? id
  · rw [found]
    exact List.not_mem_nil
  · rw [found]
    exact name

theorem content : Byte.escape ∉ buffers.content id := by
  rw [Buffers.content]
  obtain found | ⟨buffer, found, -, content⟩ := plain.cases_find? id
  · rw [found]
    exact List.not_mem_nil
  · rw [found]
    exact content

theorem line (number : Nat) : Byte.escape ∉ buffers.line id number := by
  rw [Buffers.line]
  obtain found | ⟨buffer, found, -, content⟩ := plain.cases_find? id
  · rw [found]
    exact List.not_mem_nil
  · rw [found]
    exact fun inside => content (line_subset _ _ inside)

end Buffers.Unescaped

section Parts
variable {buffers : Buffers} {diagnostic : Diagnostic} {line : Bytes}

private theorem withoutEscapes_adviceLead (kind : AdviceKind) (rest : Bytes) :
    withoutEscapes (adviceLead true kind ++ rest) = adviceLead false kind ++ withoutEscapes rest := by
  cases kind <;> exact withoutEscapes_append_of_endsPlain rfl rest

private theorem Diagnostic.remark_sheds (kind : AdviceKind) {message : Bytes} (said : Byte.escape ∉ message) :
    (remark kind.name (adviceStyle kind) message).Sheds := by
  intro rest
  rw [render_remark, render_remark, List.append_assoc, withoutEscapes_adviceLead, withoutEscapes_append said,
    List.append_assoc]

private theorem Diagnostic.remarks_sheds {advices : List Advice}
    (said : ∀ advice ∈ advices, Byte.escape ∉ advice.message) : (remarks advices).Sheds := by
  apply Styled.sheds_flatMap
  intro advice member
  exact (remark_sheds advice.kind (said advice (List.mem_of_mem_filter member))).append Styled.sheds_newline

private theorem Diagnostic.bar_sheds : bar.Sheds := by
  intro rest
  rw [render_bar, render_bar]
  rfl

private theorem Diagnostic.marker_sheds (width : Nat) :
    (Styled.within [.bold, .yellow] (Byte.caret :: List.replicate width Byte.tilde)).Sheds := by
  have caret (rest : Bytes) : withoutEscapes (ascii "\x1b[1m\x1b[33m^" ++ rest) = ascii "^" ++ withoutEscapes rest :=
    withoutEscapes_append_of_endsPlain rfl rest
  have reset (rest : Bytes) : withoutEscapes (ascii "\x1b[0m" ++ rest) = withoutEscapes rest :=
    withoutEscapes_append_of_endsPlain rfl rest
  have tildes : Byte.escape ∉ List.replicate width Byte.tilde := by simp +decide [List.mem_replicate]
  intro rest
  simp only [render_marker, if_true, Bool.false_eq_true, if_false, List.append_assoc, caret, reset,
    withoutEscapes_append tildes]

private theorem withoutEscapes_signed {lead lead' : Bytes} (ends : endsPlain lead = true)
    (bare : withoutEscapes lead = lead') (plain : Byte.escape ∉ line) (rest : Bytes) :
    withoutEscapes (lead ++ line ++ ascii "\x1b[0m\n" ++ rest) = lead' ++ line ++ ascii "\n" ++ withoutEscapes rest := by
  have reset (rest : Bytes) : withoutEscapes (ascii "\x1b[0m\n" ++ rest) = ascii "\n" ++ withoutEscapes rest :=
    withoutEscapes_append_of_endsPlain rfl rest
  simp only [List.append_assoc, withoutEscapes_append_of_endsPlain ends, bare, withoutEscapes_append plain, reset]

private theorem FixIt.removed_sheds (plain : Byte.escape ∉ line) : (previewLine .red (ascii "-") line).Sheds := by
  intro rest
  rw [render_removed, render_removed]
  exact withoutEscapes_signed rfl rfl plain rest

private theorem FixIt.added_sheds (plain : Byte.escape ∉ line) : (previewLine .green (ascii "+") line).Sheds := by
  intro rest
  rw [render_added, render_added]
  exact withoutEscapes_signed rfl rfl plain rest

variable (plain : buffers.Unescaped)
include plain

private theorem Diagnostic.heading_sheds (said : diagnostic.Unescaped) : (diagnostic.heading buffers).Sheds := by
  have bold (rest : Bytes) : withoutEscapes (ascii "\x1b[1m" ++ rest) = withoutEscapes rest :=
    withoutEscapes_append_of_endsPlain rfl rest
  have place (rest : Bytes) : withoutEscapes (ascii "\x1b[0m:" ++ rest) = ascii ":" ++ withoutEscapes rest :=
    withoutEscapes_append_of_endsPlain rfl rest
  have word (rest : Bytes) : withoutEscapes (ascii ": \x1b[1m\x1b[33mwarning\x1b[0m: " ++ rest) =
      ascii ": warning: " ++ withoutEscapes rest := withoutEscapes_append_of_endsPlain rfl rest
  have rule : Byte.escape ∉ if diagnostic.code.isEmpty then [] else ascii " [" ++ diagnostic.code ++ ascii "]" := by
    split
    · exact List.not_mem_nil
    · simp +decide [said.code]
  intro rest
  rw [render_heading, render_heading]
  generalize (if diagnostic.code.isEmpty then [] else ascii " [" ++ diagnostic.code ++ ascii "]") = text at rule ⊢
  simp +decide only [if_true, if_false, List.append_assoc, bold, place, word, withoutEscapes_append (plain.name _),
    withoutEscapes_append (escape_not_mem_decimal _), withoutEscapes_append said.message, withoutEscapes_append rule,
    withoutEscapes_append]

private theorem Diagnostic.snippet_sheds (extent : Extent) : (Diagnostic.snippet buffers extent).Sheds := by
  have blanks (count : Nat) : Byte.escape ∉ List.replicate count Byte.space := by simp +decide [List.mem_replicate]
  have expanded := expandTabs_unescaped (plain.line extent.buffer extent.start.line) 1
  rw [Diagnostic.snippet]
  split
  · exact Styled.sheds_nil
  · have margin := (Styled.sheds_plain (blanks (decimalWidth extent.start.line + 1))).append bar_sheds
    have number := @Styled.sheds_plain (ascii " " ++ decimal extent.start.line ++ ascii " ") (by simp +decide)
    have shown := @Styled.sheds_plain (ascii " " ++ expandTabs 1 (buffers.line extent.buffer extent.start.line))
      (by simp +decide [expanded])
    have above := ((margin.append Styled.sheds_newline).append number).append bar_sheds
    have below := ((above.append shown).append Styled.sheds_newline).append margin
    exact ((below.append (Styled.sheds_plain (blanks _))).append (marker_sheds _)).append Styled.sheds_newline

section FixIts
variable {fixIt : FixIt} {preview : Styled}

private theorem FixIt.heading_sheds (said : Byte.escape ∉ fixIt.message) : (fixIt.heading buffers).Sheds := by
  have message : Byte.escape ∉ if fixIt.message.isEmpty then ascii "apply the suggested fix" else fixIt.message := by
    split
    · decide
    · exact said
  have place : Byte.escape ∉ if fixIt.extent.buffer = 0 then [] else ascii " (" ++ buffers.name fixIt.extent.buffer ++
      ascii ":" ++ decimal fixIt.extent.start.line ++ ascii ":" ++ decimal fixIt.extent.start.column ++ ascii ")" := by
    split
    · exact List.not_mem_nil
    · simp +decide [plain.name]
  have newline : Byte.escape ∉ ascii "\n" := by decide
  intro rest
  rw [render_heading, render_heading, List.append_assoc, List.append_assoc, List.append_assoc,
    withoutEscapes_adviceLead, withoutEscapes_append message, withoutEscapes_append place,
    withoutEscapes_append newline]
  simp only [List.append_assoc]

private theorem FixIt.preview?_sheds (put : Byte.escape ∉ fixIt.replacement)
    (shown : fixIt.preview? buffers = some preview) : preview.Sheds := by
  have content := plain.content fixIt.extent.buffer
  simp only [FixIt.preview?] at shown
  split at shown
  · cases shown
    exact Styled.sheds_nil
  · obtain ⟨after, found, rfl⟩ := Option.map_eq_some_iff.mp shown
    have edited : Byte.escape ∉ after := by
      simp only [FixIt.after?] at found
      split at found
      · cases found
      · rw [← Option.some.inj found, List.mem_append, List.mem_append, not_or, not_or]
        refine ⟨⟨fun inside => content ?_, put⟩, fun inside => content (slice_subset _ _ _ inside)⟩
        exact List.drop_subset _ _ (List.take_subset _ _ inside)
    refine ((Styled.sheds_plain (by decide)).append (Styled.sheds_flatMap ?_)).append (Styled.sheds_flatMap ?_)
    · intro number _
      exact removed_sheds (plain.line _ number)
    · intro line member
      exact added_sheds (textLines_unescaped edited line member)

private theorem Diagnostic.layoutFixIts_sheds {fixIts : List FixIt}
    (said : ∀ fixIt ∈ fixIts, Byte.escape ∉ fixIt.replacement ∧ Byte.escape ∉ fixIt.message) :
    (Diagnostic.layoutFixIts buffers fixIts).pieces.Sheds := by
  induction fixIts with
  | nil => exact Styled.sheds_nil
  | cons fixIt rest ih =>
    obtain ⟨⟨put, message⟩, later⟩ := List.forall_mem_cons.mp said
    have heading := FixIt.heading_sheds plain message
    rw [Diagnostic.layoutFixIts]
    cases shown : fixIt.preview? buffers with
    | none => exact heading
    | some preview => exact (heading.append (FixIt.preview?_sheds plain put shown)).append (ih later)

end FixIts

/-- Only a name, a message or a file can bring an escape that colour has not. -/
theorem Diagnostic.layout_sheds (said : diagnostic.Unescaped) : (diagnostic.layout buffers).pieces.Sheds := by
  have snippet : Styled.Sheds (if diagnostic.extent.buffer = 0 then [] else snippet buffers diagnostic.extent) := by
    split
    · exact Styled.sheds_nil
    · exact snippet_sheds plain _
  exact (((heading_sheds plain said).append snippet).append (remarks_sheds said.advices)).append
    (layoutFixIts_sheds plain said.fixIts)

end Parts

/-- Two logs that have printed the same since a start, one of them in colour. -/
structure Log.SamePrint (start : Bytes) (plain coloured : Log) : Prop where
  never : plain.colour = .never
  always : coloured.colour = .always
  warnings : coloured.warnings = plain.warnings
  printed : ∃ pieces : Styled, pieces.Sheds ∧ plain.output = start ++ pieces.render false ∧
    coloured.output = start ++ pieces.render true

namespace Log
variable {buffers : Buffers} {start : Bytes} {plain coloured plain' : Log} {diagnostic : Diagnostic}
  {diagnostics : List Diagnostic}

/-- A diagnostic is printed in colour if it is printed plainly, and in the same pieces. -/
theorem SamePrint.emit (same : SamePrint start plain coloured) (texts : buffers.Unescaped) (said : diagnostic.Unescaped)
    (shown : plain.emit buffers diagnostic = .ok plain') :
    ∃ coloured', coloured.emit buffers diagnostic = .ok coloured' ∧ SamePrint start plain' coloured' := by
  obtain ⟨pieces, sheds, output, output'⟩ := same.printed
  simp only [Log.emit] at shown ⊢
  split at shown
  next complete =>
    cases shown
    rw [if_pos complete]
    refine ⟨_, rfl, same.never, same.always, congrArg (· + 1) same.warnings, ?_⟩
    -- The line between two diagnostics is a piece without marks.
    have separator : Byte.escape ∉ if plain.warnings = 0 then [] else [Byte.newline] := by split <;> decide
    refine ⟨pieces ++ Diagnostic.plain (if plain.warnings = 0 then [] else [Byte.newline]) ++
      (diagnostic.layout buffers).pieces, ?_, ?_, ?_⟩
    · exact (sheds.append (Styled.sheds_plain separator)).append (Diagnostic.layout_sheds texts said)
    · simp only [print, output, same.never, Styled.render_append, Styled.render_plain, List.append_assoc]
      rfl
    · simp only [print, output', same.always, same.warnings, Styled.render_append, Styled.render_plain,
        List.append_assoc]
      rfl
  next => cases shown

private theorem SamePrint.emits (same : SamePrint start plain coloured) (texts : buffers.Unescaped)
    (said : ∀ diagnostic ∈ diagnostics, diagnostic.Unescaped)
    (shown : diagnostics.foldlM (Log.emit buffers) plain = .ok plain') :
    ∃ coloured', diagnostics.foldlM (Log.emit buffers) coloured = .ok coloured' ∧ SamePrint start plain' coloured' := by
  induction diagnostics generalizing plain coloured with
  | nil =>
    cases shown
    exact ⟨coloured, rfl, same⟩
  | cons diagnostic rest ih =>
    obtain ⟨first, later⟩ := List.forall_mem_cons.mp said
    rw [List.foldlM_cons] at shown ⊢
    cases printed : plain.emit buffers diagnostic with
    | error => rw [printed] at shown; cases shown
    | ok plain =>
      rw [printed] at shown
      obtain ⟨coloured, emitted, same⟩ := same.emit texts first printed
      rw [emitted]
      exact ih same later shown

end Log

/-- A run of diagnostics that can be printed plainly can be printed in colour, with as
many warnings. Where no name, message or file holds an escape, the coloured output is
the plain one once its escape sequences are deleted. -/
theorem colour_adds_escapes {buffers : Buffers} {diagnostics : List Diagnostic} (texts : buffers.Unescaped)
    (said : ∀ diagnostic ∈ diagnostics, diagnostic.Unescaped) (log : Log) {plain : Log}
    (shown : diagnostics.foldlM (Log.emit buffers) { log with colour := .never } = .ok plain) :
    ∃ coloured printed, diagnostics.foldlM (Log.emit buffers) { log with colour := .always } = .ok coloured ∧
      coloured.warnings = plain.warnings ∧ coloured.output = log.output ++ printed ∧
      plain.output = log.output ++ withoutEscapes printed := by
  have same : Log.SamePrint log.output { log with colour := .never } { log with colour := .always } :=
    ⟨rfl, rfl, rfl, [], Styled.sheds_nil, by simp [Styled.render], by simp [Styled.render]⟩
  obtain ⟨coloured, emitted, same⟩ := same.emits texts said shown
  obtain ⟨pieces, sheds, output, output'⟩ := same.printed
  refine ⟨coloured, _, emitted, same.warnings, output', ?_⟩
  rw [output, sheds.withoutEscapes_render]

theorem colour_adds_escapes_to_warnings :
    let buffers := (({} : Buffers).add (.ofText (ascii "a.c") (ascii "int* p;\n"))).2
    let violation : Violation := { site := 3, column := 4, start := 3, stop := 5, suggested := ascii " *" }
    let diagnostics := [violation.toDiagnostic buffers 1 false, violation.toDiagnostic buffers 1 true]
    buffers.Unescaped ∧ (∀ diagnostic ∈ diagnostics, diagnostic.Unescaped) ∧
      ∃ plain coloured, diagnostics.foldlM (Log.emit buffers) { colour := .never } = .ok plain ∧
        diagnostics.foldlM (Log.emit buffers) { colour := .always } = .ok coloured ∧
        coloured.warnings = plain.warnings ∧ withoutEscapes coloured.output = plain.output := by
  intro buffers violation diagnostics
  have texts : buffers.Unescaped := by simp +decide [Buffers.Unescaped, buffers, Buffers.add]
  have said : ∀ diagnostic ∈ diagnostics, diagnostic.Unescaped := by
    simp only [diagnostics, List.forall_mem_cons]
    exact ⟨⟨by decide, by decide, by decide, by decide⟩, ⟨by decide, by decide, by decide, by decide⟩, nofun⟩
  refine ⟨texts, said, ?_⟩
  have shown : diagnostics.foldlM (Log.emit buffers) { colour := .never } =
      .ok (Log.settle (diagnostics.foldlM (Log.emit buffers) { colour := .never })) := by decide +kernel
  obtain ⟨coloured, printed, emitted, warnings, output, output'⟩ := colour_adds_escapes texts said {} shown
  exact ⟨_, coloured, shown, emitted, warnings, by rw [output, output']; rfl⟩

end Allman
