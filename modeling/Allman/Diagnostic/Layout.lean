import Allman.Diagnostic
import Allman.Styled

/-! How diagnostics are laid out: a heading, the line at fault with a marker under
it, the advice, and for each edit the lines before and after it. -/

namespace Allman

/-- Tabs go to the next column after a multiple of this. -/
def tabStop : Nat := 4

/-- The column that the terminal is in after a byte was shown in `column`. -/
def nextColumn (column : Nat) (c : UInt8) : Nat :=
  if c = Byte.tab then column + (tabStop - (column - 1) % tabStop) else column + 1

/-- Where the terminal shows the byte in a column of a line, or the end of a
shorter line. -/
def visualColumn (line : Bytes) (column : Nat) : Nat :=
  (line.take (column - 1)).foldl nextColumn 1

/-- A line with its tabs turned into spaces, from a column on. -/
def expandTabs (column : Nat) : Bytes → Bytes
  | [] => []
  | c :: rest =>
    (if c = Byte.tab then List.replicate (nextColumn column c - column) Byte.space else [c]) ++
      expandTabs (nextColumn column c) rest

/-- The number of decimal digits of a number. -/
def decimalWidth (n : Nat) : Nat := if n < 10 then 1 else decimalWidth (n / 10) + 1

/-- The lines of a text, each without the carriage return at its end. -/
def textLines (text : Bytes) : List Bytes :=
  (splitAt Byte.newline text).map fun line =>
    if line.getLast? = some Byte.carriageReturn then line.dropLast else line

namespace Extent

/-- The columns that a marker covers in the first line of an extent: from the
first to before the second. An extent that goes on in other lines counts one
column, and one that ends before it starts is turned around. -/
def markedColumns (extent : Extent) : Nat × Nat :=
  let first := max 1 extent.start.column
  let last := if extent.singleLine then max 1 extent.stop.column else Word.add first 1
  if last < first then (last, first) else (first, last)

end Extent

namespace Diagnostic

/-- Plain text. -/
def plain (bytes : Bytes) : Styled := [.text bytes]

def newlineText : Styled := plain [Byte.newline]

/-- The place, the message and the name of the rule. -/
def heading (buffers : Buffers) (diagnostic : Diagnostic) : Styled :=
  let start := diagnostic.extent.start
  Styled.within [.bold] (buffers.name diagnostic.extent.buffer) ++
  plain (ascii ":" ++ decimal start.line ++ ascii ":" ++ decimal start.column ++ ascii ": ") ++
  Styled.within [.bold, .yellow] (ascii "warning") ++
  plain (ascii ": " ++ diagnostic.message ++
    (if diagnostic.code.isEmpty then [] else ascii " [" ++ diagnostic.code ++ ascii "]")) ++
  newlineText

/-- The bar between the line numbers and the lines. -/
def bar : Styled := Styled.within [.dim] (ascii "|")

/-- The line that an extent starts in, with a marker under the columns it covers.
An empty line is not shown. -/
def snippet (buffers : Buffers) (extent : Extent) : Styled :=
  let line := buffers.line extent.buffer extent.start.line
  if line.isEmpty then []
  else
    let number := decimal extent.start.line
    let margin := plain (List.replicate (decimalWidth extent.start.line + 1) Byte.space) ++ bar
    let (first, last) := extent.markedColumns
    let visual := visualColumn line first
    let length := if first < last then last - first else 1
    let width := visualColumn line (Word.add first length) - visual
    margin ++ newlineText ++
    plain (ascii " " ++ number ++ ascii " ") ++ bar ++
      plain (ascii " " ++ expandTabs 1 line) ++ newlineText ++
    margin ++ plain (List.replicate (visual + 1) Byte.space) ++
      Styled.within [.bold, .yellow] (Byte.caret :: List.replicate (width - 1) Byte.tilde) ++
      newlineText

/-- A line that starts with an equals sign and a word. -/
def remark (word : Bytes) (style : Style) (message : Bytes) : Styled :=
  plain (ascii "  ") ++ Styled.within [.dim] (ascii "=") ++ plain (ascii " ") ++
    Styled.within [.bold, style] word ++ plain (ascii ": " ++ message)

def adviceStyle : AdviceKind → Style
  | .note => .cyan
  | .help => .green

/-- A line for each piece of advice that says something. -/
def remarks (advices : List Advice) : Styled :=
  (advices.filter (!·.message.isEmpty)).flatMap fun advice =>
    remark advice.kind.name (adviceStyle advice.kind) advice.message ++ newlineText

end Diagnostic

namespace FixIt

open Diagnostic

/-- What the edit does, and where. -/
def heading (buffers : Buffers) (fixIt : FixIt) : Styled :=
  let start := fixIt.extent.start
  let message :=
    if fixIt.message.isEmpty then ascii "apply the suggested fix" else fixIt.message
  let place :=
    if fixIt.extent.buffer = 0 then []
    else ascii " (" ++ buffers.name fixIt.extent.buffer ++ ascii ":" ++ decimal start.line ++
      ascii ":" ++ decimal start.column ++ ascii ")"
  remark (ascii "help") .green message ++ plain place ++ newlineText

/-- The text of the lines that the edit touches once it has been applied, or none
if the edit reaches outside the text. Columns are trusted: the first line starts
as many bytes before the edit as its column says. -/
def after? (content : Bytes) (fixIt : FixIt) : Option Bytes :=
  let start := fixIt.extent.start
  let stop := fixIt.extent.stop
  let lineStart := Word.sub start.offset (Word.sub start.column 1)
  let lineEnd := (nextNewline? content stop.offset).getD content.length
  if content.length < lineStart || content.length < stop.offset then none
  else some ((content.drop lineStart).take (Word.sub start.offset lineStart) ++
    fixIt.replacement ++ slice content stop.offset lineEnd)

/-- A line of the preview. -/
def previewLine (style : Style) (sign line : Bytes) : Styled :=
  plain (ascii "  | ") ++ Styled.within [style] (sign ++ ascii " " ++ line) ++ newlineText

/-- The lines that the edit touches, before and after it. An edit without a place
has no preview, and one that reaches outside the text cannot be shown. -/
def preview? (buffers : Buffers) (fixIt : FixIt) : Option Styled :=
  let id := fixIt.extent.buffer
  let first := fixIt.extent.start.line
  let last := max fixIt.extent.stop.line first
  if id = 0 || first = 0 then some []
  else
    (fixIt.after? (buffers.content id)).map fun after =>
      plain (ascii "  |\n") ++
      (List.range' first (last - first + 1)).flatMap
        (fun number => previewLine .red (ascii "-") (buffers.line id number)) ++
      (textLines after).flatMap (previewLine .green (ascii "+"))

end FixIt

/-- A layout, and whether all of it could be shown. -/
structure Layout where
  pieces : Styled
  complete : Bool

namespace Diagnostic

/-- The edits of a diagnostic, up to the first one that cannot be shown. -/
def layoutFixIts (buffers : Buffers) : List FixIt → Layout
  | [] => ⟨[], true⟩
  | fixIt :: rest =>
    match fixIt.preview? buffers with
    | none => ⟨fixIt.heading buffers, false⟩
    | some preview =>
      let others := layoutFixIts buffers rest
      ⟨fixIt.heading buffers ++ preview ++ others.pieces, others.complete⟩

def layout (buffers : Buffers) (diagnostic : Diagnostic) : Layout :=
  let edits := layoutFixIts buffers diagnostic.fixIts
  ⟨diagnostic.heading buffers ++
    (if diagnostic.extent.buffer = 0 then [] else snippet buffers diagnostic.extent) ++
    remarks diagnostic.advices ++ edits.pieces, edits.complete⟩

end Diagnostic
end Allman
