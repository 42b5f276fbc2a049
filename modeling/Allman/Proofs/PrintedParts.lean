import Allman.Diagnostic.Layout

/-! The parts of a warning, byte by byte. A layout says once what stands in which style;
here each part is spelt out as it is printed, with the escape sequences of a terminal and
without them. -/

namespace Allman

namespace Styled
variable (colour : Bool)

theorem render_append (first second : Styled) :
    (first ++ second).render colour = first.render colour ++ second.render colour :=
  List.flatMap_append

theorem render_flatMap {α : Type} (items : List α) (layout : α → Styled) :
    Styled.render colour (items.flatMap layout) = items.flatMap fun item => (layout item).render colour :=
  List.flatMap_assoc

theorem render_plain (bytes : Bytes) : (Diagnostic.plain bytes).render colour = bytes :=
  List.append_nil bytes

theorem render_within (styles : List Style) (bytes : Bytes) : (within styles bytes).render colour =
    if colour then styles.flatMap Style.sequence ++ bytes ++ Style.reset.sequence else bytes := by
  cases colour with
  | false => simp [within, render, Piece.render, List.flatMap_map]
  | true => simp [within, render, Piece.render, List.flatMap_map]

end Styled

/-- The start of a line of advice. -/
def adviceLead (colour : Bool) : AdviceKind → Bytes
  | .note => if colour then ascii "  \x1b[2m=\x1b[0m \x1b[1m\x1b[36mnote\x1b[0m: " else ascii "  = note: "
  | .help => if colour then ascii "  \x1b[2m=\x1b[0m \x1b[1m\x1b[32mhelp\x1b[0m: " else ascii "  = help: "

/-- A line of a preview that an edit takes out. -/
def removedLine (colour : Bool) (line : Bytes) : Bytes :=
  if colour then ascii "  | \x1b[31m- " ++ line ++ ascii "\x1b[0m\n" else ascii "  | - " ++ line ++ ascii "\n"

/-- A line of a preview that an edit puts in. -/
def addedLine (colour : Bool) (line : Bytes) : Bytes :=
  if colour then ascii "  | \x1b[32m+ " ++ line ++ ascii "\x1b[0m\n" else ascii "  | + " ++ line ++ ascii "\n"

section Parts
variable (colour : Bool)

namespace Diagnostic

theorem render_heading (buffers : Buffers) (diagnostic : Diagnostic) :
    let name := buffers.name diagnostic.extent.buffer
    let start := diagnostic.extent.start
    let rule := if diagnostic.code.isEmpty then [] else ascii " [" ++ diagnostic.code ++ ascii "]"
    (diagnostic.heading buffers).render colour =
      if colour then
        ascii "\x1b[1m" ++ name ++ ascii "\x1b[0m:" ++ decimal start.line ++ ascii ":" ++ decimal start.column ++
          ascii ": \x1b[1m\x1b[33mwarning\x1b[0m: " ++ diagnostic.message ++ rule ++ ascii "\n"
      else
        name ++ ascii ":" ++ decimal start.line ++ ascii ":" ++ decimal start.column ++
          ascii ": warning: " ++ diagnostic.message ++ rule ++ ascii "\n" := by
  cases colour <;>
    simp only [heading, newlineText, Styled.render_append, Styled.render_plain, Styled.render_within, if_true,
      Bool.false_eq_true, if_false, List.append_assoc] <;> rfl

theorem render_bar : bar.render colour = if colour then ascii "\x1b[2m|\x1b[0m" else ascii "|" := by
  cases colour <;> rfl

theorem render_marker (width : Nat) :
    (Styled.within [.bold, .yellow] (Byte.caret :: List.replicate width Byte.tilde)).render colour =
      if colour then ascii "\x1b[1m\x1b[33m^" ++ List.replicate width Byte.tilde ++ ascii "\x1b[0m"
      else ascii "^" ++ List.replicate width Byte.tilde := by
  cases colour <;> simp only [Styled.render_within, if_true, Bool.false_eq_true, if_false] <;> rfl

theorem render_remark (kind : AdviceKind) (message : Bytes) :
    (remark kind.name (adviceStyle kind) message).render colour = adviceLead colour kind ++ message := by
  simp only [remark, Styled.render_append, Styled.render_plain, Styled.render_within, List.append_assoc]
  cases colour <;> cases kind <;> rfl

end Diagnostic

namespace FixIt

theorem render_heading (buffers : Buffers) (fixIt : FixIt) :
    let message := if fixIt.message.isEmpty then ascii "apply the suggested fix" else fixIt.message
    let start := fixIt.extent.start
    let place := if fixIt.extent.buffer = 0 then []
      else ascii " (" ++ buffers.name fixIt.extent.buffer ++ ascii ":" ++ decimal start.line ++ ascii ":" ++
        decimal start.column ++ ascii ")"
    (fixIt.heading buffers).render colour = adviceLead colour .help ++ message ++ place ++ ascii "\n" := by
  intro message start place
  have remark := Diagnostic.render_remark colour .help message
  simp only [heading, Diagnostic.newlineText, Styled.render_append, Styled.render_plain]
  exact congrArg (· ++ place ++ ascii "\n") remark

theorem render_previewLine (style : Style) (sign line : Bytes) : (previewLine style sign line).render colour =
    if colour then ascii "  | " ++ style.sequence ++ sign ++ ascii " " ++ line ++ ascii "\x1b[0m\n"
    else ascii "  | " ++ sign ++ ascii " " ++ line ++ ascii "\n" := by
  cases colour <;>
    simp only [previewLine, Diagnostic.newlineText, Styled.render_append, Styled.render_plain, Styled.render_within,
      if_true, Bool.false_eq_true, if_false, List.flatMap_singleton, List.append_assoc] <;> rfl

theorem render_removed (line : Bytes) :
    (previewLine .red (ascii "-") line).render colour = removedLine colour line := by
  rw [render_previewLine]
  cases colour <;> rfl

theorem render_added (line : Bytes) :
    (previewLine .green (ascii "+") line).render colour = addedLine colour line := by
  rw [render_previewLine]
  cases colour <;> rfl

end FixIt
end Parts
end Allman
