import Allman.Buffers
import Allman.Proofs.RewrittenTree

/-! Writing whole files. A writer on a device with room loses nothing: what has been
written to it is what it has stored with what it keeps back. So a file written as a
whole holds just that, and the buffers in use afterwards are those that were before. -/

namespace Allman

private theorem Disk.overwrite_end (content bytes : Bytes) :
    Disk.overwrite content content.length bytes = content ++ bytes := by
  simp [Disk.overwrite]

namespace Writer

/-- The writer is in order on a device with room, and has taken the given bytes for
one file of the tree. -/
structure Carries (writer : Writer) (disk : Disk) (tree : FileTree) (path : Path) (written : Bytes) : Prop where
  place : writer.path = path
  isOpen : writer.isOpen = true
  sound : writer.sound = true
  room : disk.full = false
  split : ∃ stored, stored.length = writer.stored ∧ disk.tree = tree.put path stored ∧
    stored ++ writer.pending = written

variable {writer : Writer} {disk : Disk} {tree : FileTree} {path : Path} {name old written more : Bytes}

theorem open?_eq_some (found : disk.tree.find name = .file path old) (room : disk.full = false) :
    ∃ writer opened, open? disk name = some (writer, opened) ∧ writer.Carries opened disk.tree path [] := by
  have place : disk.tree.writable? name = some path := by
    rw [FileTree.writable?, found]
  refine ⟨{ path }, { disk with tree := disk.tree.put path [] }, ?_, ?_⟩
  · rw [open?, place]
    rfl
  · exact ⟨rfl, rfl, rfl, room, [], rfl, rfl, rfl⟩

theorem Carries.offset (carries : writer.Carries disk tree path written) : writer.offset = written.length := by
  obtain ⟨stored, length, -, whole⟩ := carries.split
  rw [Writer.offset, ← length, ← whole, List.length_append]

section Storing
variable (present : tree.content? path = some old)
include present

/-- Storing adds what is pending and what is given to the file. -/
theorem Carries.store (carries : writer.Carries disk tree path written) (more : Bytes) :
    (writer.store disk more).1.Carries (writer.store disk more).2 tree path (written ++ more) ∧
      (writer.store disk more).2 = ⟨tree.put path (written ++ more), false⟩ := by
  obtain ⟨place, isOpen, sound, room, stored, length, held, whole⟩ := carries
  have stores : disk.store? writer.path writer.stored (writer.pending ++ more) =
      some ⟨tree.put path (written ++ more), false⟩ := by
    rw [Disk.store?]
    split
    next none =>
      -- The device is not asked, and the file holds all there is.
      have none := List.append_eq_nil_iff.mp (List.isEmpty_iff.mp none)
      rw [← whole, none.1, none.2, List.append_nil, List.append_nil, ← held, ← room]
    next =>
      have content : disk.tree.content? writer.path = some stored := by
        rw [held, place, FileTree.content?_put present]
      simp only [room, Bool.false_eq_true, if_false, content, Option.getD_some]
      rw [← length, Disk.overwrite_end, held, place, FileTree.put_put present, ← whole, List.append_assoc]
  simp only [Writer.store, stores]
  refine ⟨⟨place, isOpen, sound, rfl, written ++ more, ?_, rfl, List.append_nil _⟩, trivial⟩
  simp only [← whole, ← length, List.length_append]
  omega

theorem Carries.write (carries : writer.Carries disk tree path written) (bytes : Bytes) :
    (writer.write disk bytes).1.Carries (writer.write disk bytes).2 tree path (written ++ bytes) := by
  unfold Writer.write
  split
  next idle =>
    have none : bytes = [] := by simpa [carries.sound] using idle
    rw [none, List.append_nil]
    exact carries
  next =>
    split
    next closed => simp [carries.isOpen] at closed
    next =>
      split
      next =>
        obtain ⟨place, isOpen, sound, room, stored, length, held, whole⟩ := carries
        refine ⟨place, isOpen, sound, room, stored, length, held, ?_⟩
        rw [← whole, List.append_assoc]
      next => exact (carries.store present bytes).1

theorem Carries.flush (carries : writer.Carries disk tree path written) :
    (writer.flush disk).1.Carries (writer.flush disk).2 tree path written := by
  have stores := (carries.store present []).1
  rw [List.append_nil] at stores
  rw [Writer.flush, if_pos carries.sound]
  exact stores

/-- Closing the file leaves in it what has been written. -/
theorem Carries.close (carries : writer.Carries disk tree path written) :
    (writer.close disk).2 = ⟨tree.put path written, false⟩ := by
  have stores := (carries.store present []).2
  rw [List.append_nil] at stores
  rw [Writer.close, if_pos carries.isOpen]
  exact stores

end Storing
end Writer

namespace Buffers

def Fresh (buffers : Buffers) : Prop := ∀ entry ∈ buffers.live, entry.1 < buffers.next

section Newest
variable {next id : Nat} {name : Bytes} {lines : Lines} {live : List (Nat × Buffer)} {disk : Disk} {writer : Writer}

private theorem writer?_newest {buffer : Buffer} :
    (⟨next, (id, buffer) :: live⟩ : Buffers).writer? id = buffer.writer := by
  simp [writer?, find?]

variable (unused : ∀ entry ∈ live, entry.1 ≠ id)
include unused

private theorem setWriter_newest {buffer : Buffer} : (⟨next, (id, buffer) :: live⟩ : Buffers).setWriter id writer =
    ⟨next, (id, { buffer with writer := some writer }) :: live⟩ := by
  have rest : (live.map fun entry =>
      (entry.1, if entry.1 = id then { entry.2 with writer := some writer } else entry.2)) = live := by
    conv_rhs => rw [← List.map_id live]
    apply List.map_congr_left
    intro entry member
    rw [if_neg (unused entry member)]
    rfl
  simp [setWriter, rest]

theorem useWriter_newest (action : Writer → Disk → Writer × Disk) :
    (⟨next, (id, ⟨name, lines, some writer⟩) :: live⟩ : Buffers).useWriter disk id action =
      (⟨next, (id, ⟨name, lines, some (action writer disk).1⟩) :: live⟩, (action writer disk).2) := by
  simp only [useWriter, writer?_newest, setWriter_newest unused]

private theorem filter_newest (buffer : Buffer) : ((id, buffer) :: live).filter (·.1 ≠ id) = live := by
  rw [List.filter_cons_of_neg (by simp)]
  apply List.filter_eq_self.mpr
  intro entry member
  simpa using unused entry member

theorem release_newest_writer : (⟨next, (id, ⟨name, lines, some writer⟩) :: live⟩ : Buffers).release disk id =
    (⟨next, live⟩, (writer.close disk).2) := by
  simp only [release, close, useWriter_newest unused, filter_newest unused]

theorem release_newest : (⟨next, (id, ⟨name, lines, none⟩) :: live⟩ : Buffers).release disk id =
    (⟨next, live⟩, disk) := by
  simp only [release, close, useWriter, writer?_newest, filter_newest unused]

end Newest

theorem Fresh.unused {buffers : Buffers} (fresh : buffers.Fresh) : ∀ entry ∈ buffers.live, entry.1 ≠ buffers.next :=
  fun entry member => Nat.ne_of_lt (fresh entry member)

theorem Fresh.add {buffers : Buffers} (fresh : buffers.Fresh) (buffer : Buffer) : (buffers.add buffer).2.Fresh := by
  intro entry member
  rcases List.mem_cons.mp member with rfl | member
  · exact Nat.lt_succ_self _
  · exact Nat.lt_succ_of_lt (fresh entry member)

theorem Fresh.later {buffers : Buffers} (fresh : buffers.Fresh) {next : Nat} (later : buffers.next ≤ next) :
    Fresh { buffers with next } :=
  fun entry member => Nat.lt_of_lt_of_le (fresh entry member) later

theorem openRead_eq (buffers : Buffers) {tree : FileTree} {path : Path} {name content : Bytes}
    (found : tree.find name = .file path content) : buffers.openRead tree name =
      (.ok buffers.next, (buffers.add (.ofText name content)).2) := by
  simp only [openRead, Reader.ofName, found, Reader.readAll, if_true]
  rfl

/-- On a device with room a file that is there can be written as a whole. -/
theorem writeFile_eq {buffers : Buffers} {disk : Disk} {path : Path} {name old content : Bytes}
    (fresh : buffers.Fresh) (found : disk.tree.find name = .file path old) (room : disk.full = false) :
    buffers.writeFile disk name content =
      (.ok content.length, buffers.skip, { disk with tree := disk.tree.put path content }) := by
  have present : disk.tree.content? path = some old := by
    obtain ⟨-, rfl, held⟩ := FileTree.find_eq_file_iff.mp found
    exact held
  obtain ⟨writer, opened, opens, carries⟩ := Writer.open?_eq_some found room
  have written := carries.write present content
  have flushed := written.flush present
  have offset := flushed.offset
  have closed := flushed.close present
  rw [List.nil_append] at offset closed
  simp only [writeFile, openWrite, opens, add, Buffer.ofText, useWriter_newest fresh.unused,
    release_newest_writer fresh.unused, writer?_newest, Option.any_some]
  rw [flushed.sound, offset, closed, room, beq_self_eq_true]
  rfl

end Buffers
end Allman
