import Allman.Buffers
import Allman.Violation

/-! Diagnostics are what a user is told: a warning at some place, with advice and
with edits that would put it right. -/

namespace Allman

inductive AdviceKind where
  | note
  | help
deriving DecidableEq

namespace AdviceKind

def all : List AdviceKind := [note, help]

/-- Kinds are numbered in the order of `all`; every other number is a note. -/
def ofNumber (n : Nat) : AdviceKind := all[n]?.getD note

def name : AdviceKind → Bytes
  | note => ascii "note"
  | help => ascii "help"

end AdviceKind

structure Advice where
  kind : AdviceKind := .note
  message : Bytes := []
deriving DecidableEq

/-- An edit that is offered to the user. -/
structure FixIt where
  extent : Extent := {}
  replacement : Bytes := []
  message : Bytes := []
deriving DecidableEq

structure Diagnostic where
  message : Bytes := []
  /-- The name of the rule, shown after the message unless it is empty. -/
  code : Bytes := []
  extent : Extent := {}
  advices : List Advice := []
  fixIts : List FixIt := []
deriving DecidableEq

/-- The diagnostic for a violation in a buffer. If its edit was skipped, a note says so. -/
def Violation.toDiagnostic (violation : Violation) (buffers : Buffers) (id : Nat)
    (skipped : Bool) : Diagnostic where
  message := violation.rule.message
  code := violation.rule.name
  extent := buffers.extent id violation.site (Word.add violation.site 1)
  advices :=
    if skipped then [{ message := ascii "this fix overlaps another edit and was not applied" }]
    else []
  fixIts := [{
    extent := buffers.extent id violation.start violation.stop
    replacement := violation.suggested
    message := violation.rule.advice }]

end Allman
