import Allman.Edit
import Allman.Rule.BlockBraces
import Allman.Rule.PointerStars

/-! Reports list the violations of a text in document order. Fixing a text applies
the edits of its report; a violation whose edit cannot be taken is kept aside. -/

namespace Allman

structure Report where
  violations : List Violation := []
  /-- The violations whose edit overlaps an earlier one. -/
  skipped : List Violation := []
deriving DecidableEq

namespace Report

def count (report : Report) : Nat := report.violations.length

def countOf (report : Report) (rule : Rule) : Nat :=
  report.violations.countP (·.rule == rule)

end Report

/-- The report on a text. -/
def scan (text : Bytes) : Report :=
  let outline := Outline.ofText text
  { violations := (outline.pointerViolations ++ outline.braceViolations).mergeSort
      fun a b => !b.precedes a }

/-- A text with the report that it was changed by. -/
structure FixedText where
  text : Bytes
  report : Report
deriving DecidableEq

/-- Applies the edit of every violation of a report, and adds those that overlap
an earlier one to the skipped violations. -/
def applyFixes (text : Bytes) (report : Report) : FixedText :=
  let edited := applyEdits text (report.violations.map Violation.toEdit)
  { text := edited.text
    report := { report with
      skipped := report.skipped ++ edited.rejected.filterMap (report.violations[·]?) } }

/-- Fixes every violation of a text. -/
def fix (text : Bytes) : FixedText := applyFixes text (scan text)

end Allman
