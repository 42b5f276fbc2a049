import Allman.Violation

/-! Applying edits to a text. Edits are taken in the order given; one that reaches
outside the text, ends before it starts, or starts before the end of the last
edit taken is set aside. The offsets of every edit are those of the text as it
was, so each edit is shifted by what the edits before it have added or removed. -/

namespace Allman

/-- A text in the course of being edited. -/
structure Revision where
  text : Bytes
  /-- How much longer the text has become. -/
  shift : Int := 0
  /-- Where the last edit taken ends, in the text as it was. -/
  settled : Option Nat := none
  applied : Nat := 0
  /-- The places in the list of the edits set aside, the last one first. -/
  rejected : List Nat := []

namespace Revision

/-- The edit can be taken after those that have been, in a text of the given length. -/
def accepts (revision : Revision) (length : Nat) (edit : Edit) : Bool :=
  edit.start ≤ edit.stop && edit.stop ≤ length && revision.settled.all (· ≤ edit.start)

/-- Takes an edit: replaces the stretch it names, wherever it stands by now. -/
def apply (revision : Revision) (edit : Edit) : Revision :=
  let place := (edit.start + revision.shift).toNat
  { revision with
    text := revision.text.take place ++ edit.replacement ++
      revision.text.drop (place + (edit.stop - edit.start))
    shift := revision.shift + edit.replacement.length - (edit.stop - edit.start : Nat)
    settled := some edit.stop
    applied := revision.applied + 1 }

def step (length : Nat) (revision : Revision) (entry : Edit × Nat) : Revision :=
  if revision.accepts length entry.1 then revision.apply entry.1
  else { revision with rejected := entry.2 :: revision.rejected }

end Revision

/-- The outcome of applying a list of edits. -/
structure EditedText where
  text : Bytes
  /-- The number of edits taken. -/
  applied : Nat
  /-- The places in the list of the edits set aside. -/
  rejected : List Nat
deriving DecidableEq

def applyEdits (text : Bytes) (edits : List Edit) : EditedText :=
  let revision := edits.zipIdx.foldl (Revision.step text.length) { text }
  ⟨revision.text, revision.applied, revision.rejected.reverse⟩

end Allman
