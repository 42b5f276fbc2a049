import Allman.Proofs.FixRun

/-! What a check does to the disk, and what it answers, hang on the disk alone: the
buffers that a session has in use, whatever they are, are neither read nor written.
A check that cannot read its file leaves every file as it was. One that cannot write
has cut its file to nothing before that shows, so the text of the file is lost. -/

namespace Allman

section Writing
variable {writer : Writer} {disk : Disk} {bytes : Bytes}

/-- On a full device nothing is stored, and a writer that has something to store
is out of order afterwards. -/
theorem Writer.store_full (full : disk.full = true) (more : Bytes) :
    (writer.store disk more).2 = disk ∧ (writer.pending ++ more ≠ [] → (writer.store disk more).1.sound = false) := by
  unfold Writer.store Disk.store?
  cases pending : writer.pending ++ more with
  | nil => simp
  | cons _ _ => simp [full]

private theorem Writer.write_full (full : disk.full = true) (nonempty : bytes ≠ []) :
    (writer.write disk bytes).2 = disk ∧
      ((writer.write disk bytes).1.sound = false ∨ (writer.write disk bytes).1.pending ≠ []) := by
  have stores := @store_full writer disk full bytes
  have pending : writer.pending ++ bytes ≠ [] := by simp [nonempty]
  unfold Writer.write
  split
  next idle => exact ⟨rfl, .inl (by simpa [nonempty] using idle)⟩
  next =>
    split
    next => exact ⟨rfl, .inl rfl⟩
    next =>
      split
      next => exact ⟨rfl, .inr pending⟩
      next => exact ⟨stores.1, .inl (stores.2 pending)⟩

private theorem Writer.flush_full (full : disk.full = true)
    (unstored : writer.sound = false ∨ writer.pending ≠ []) :
    (writer.flush disk).2 = disk ∧ (writer.flush disk).1.sound = false := by
  have stores := @store_full writer disk full []
  unfold Writer.flush
  split
  next sound =>
    refine ⟨stores.1, stores.2 ?_⟩
    rw [List.append_nil]
    exact unstored.resolve_left (by simp [sound])
  next unsound => exact ⟨rfl, Bool.eq_false_iff.mpr unsound⟩

/-- What has been written to a full device is lost when the file is closed, and the
flush before has shown it. -/
theorem Writer.whole_full (writer : Writer) (full : disk.full = true) (nonempty : bytes ≠ []) :
    let written := writer.write disk bytes
    let flushed := written.1.flush written.2
    flushed.1.sound = false ∧ (flushed.1.close flushed.2).2 = disk := by
  obtain ⟨same, unstored⟩ := @write_full writer disk bytes full nonempty
  obtain ⟨same', unsound⟩ := @flush_full _ disk full unstored
  simp only [same, same']
  refine ⟨unsound, ?_⟩
  unfold Writer.close
  split
  · exact (store_full full []).1
  · rfl

end Writing

namespace Buffers

section Writers
variable {buffers : Buffers} {disk : Disk} {id key : Nat} {writer : Writer}

private theorem writer?_add (buffers : Buffers) (buffer : Buffer) (id : Nat) :
    (buffers.add buffer).2.writer? id = if id = buffers.next then buffer.writer else buffers.writer? id := by
  simp only [writer?, find?, add, List.lookup_cons]
  split
  next found => rw [if_pos (eq_of_beq found)]; rfl
  next other => rw [if_neg (by simpa using other)]

private theorem writer?_setWriter (buffers : Buffers) (key : Nat) (writer : Writer) (id : Nat) :
    (buffers.setWriter key writer).writer? id =
      if id = key then (buffers.find? id).map fun _ => writer else buffers.writer? id := by
  have found := @FileTree.lookup_map_snd Nat Buffer Buffer _ _ buffers.live
    (fun number buffer => if number = key then { buffer with writer := some writer } else buffer) id
  rw [writer?, find?, setWriter, found, writer?, find?]
  split <;> cases buffers.live.lookup id <;> rfl

private theorem useWriter_eq (found : buffers.writer? id = some writer) (action : Writer → Disk → Writer × Disk) :
    buffers.useWriter disk id action = (buffers.setWriter id (action writer disk).1, (action writer disk).2) := by
  rw [useWriter, found]

private theorem writer?_setWriter_self (found : buffers.writer? id = some writer) (other : Writer) :
    (buffers.setWriter id other).writer? id = some other := by
  obtain ⟨buffer, present, -⟩ := Option.bind_eq_some_iff.mp found
  rw [writer?_setWriter, if_pos rfl, present]
  rfl

private theorem writer?_useWriter_other (other : id ≠ key) (action : Writer → Disk → Writer × Disk) :
    (buffers.useWriter disk key action).1.writer? id = buffers.writer? id := by
  unfold useWriter
  split
  · rfl
  · rw [writer?_setWriter, if_neg other]

theorem lookup_filter_ne {β : Type} (live : List (Nat × β)) (key id : Nat) :
    (live.filter (·.1 ≠ key)).lookup id = if id = key then none else live.lookup id := by
  induction live with
  | nil => simp
  | cons entry live ih =>
    obtain ⟨number, buffer⟩ := entry
    by_cases here : number = key
    · rw [List.filter_cons_of_neg (by simpa using here), ih, here, List.lookup_cons]
      by_cases same : id = key
      · rw [if_pos same, if_pos same]
      · rw [if_neg same, if_neg same, beq_false_of_ne same]
    · rw [List.filter_cons_of_pos (by simpa using here), List.lookup_cons, List.lookup_cons, ih]
      by_cases same : id = number
      · simp [same, here]
      · rw [beq_false_of_ne same]

private theorem writer?_release (buffers : Buffers) (disk : Disk) (key id : Nat) :
    (buffers.release disk key).1.writer? id = if id = key then none else buffers.writer? id := by
  rw [release, writer?, find?, lookup_filter_ne]
  by_cases same : id = key
  · rw [if_pos same, if_pos same]
    rfl
  · rw [if_neg same, if_neg same]
    exact writer?_useWriter_other same Writer.close

private theorem release_closes (found : buffers.writer? id = some writer) :
    (buffers.release disk id).2 = (writer.close disk).2 := by
  simp only [release, close, useWriter_eq found]

private theorem release_disk (none : buffers.writer? id = none) : (buffers.release disk id).2 = disk := by
  simp only [release, close, useWriter, none]

end Writers

section WholeFiles
variable {buffers : Buffers} {disk opened : Disk} {id : Nat} {writer : Writer} {path : Path} {name old content : Bytes}

theorem openWrite_eq (opens : Writer.open? disk name = some (writer, opened)) (buffers : Buffers) :
    buffers.openWrite disk name =
      (.ok buffers.next, (buffers.add { Buffer.ofText name [] with writer := some writer }).2, opened) := by
  rw [openWrite, opens]
  rfl

/-- Writing a whole file is left to the writer that is opened for it. -/
theorem writeFile_writer (opens : Writer.open? disk name = some (writer, opened)) (buffers : Buffers) :
    let written := writer.write opened content
    let flushed := written.1.flush written.2
    (buffers.writeFile disk name content).1 =
      (if flushed.1.sound && flushed.1.offset == content.length then .ok content.length else .error .cannotWrite) ∧
    (buffers.writeFile disk name content).2.2 = (flushed.1.close flushed.2).2 := by
  have newest := writer?_add buffers { Buffer.ofText name [] with writer := some writer } buffers.next
  rw [if_pos rfl] at newest
  have written := writer?_setWriter_self newest (writer.write opened content).1
  have flushed := writer?_setWriter_self written ((writer.write opened content).1.flush (writer.write opened content).2).1
  simp only [writeFile, openWrite_eq opens, useWriter_eq newest, useWriter_eq written, flushed, release_closes flushed,
    Option.any_some, and_self]

/-- A buffer without a writer has none after a file has been written. -/
theorem writer?_writeFile (none : buffers.writer? id = none) :
    (buffers.writeFile disk name content).2.1.writer? id = .none := by
  cases opens : Writer.open? disk name with
  | none =>
    rw [writeFile, openWrite, opens]
    exact none
  | some opened =>
    simp only [writeFile, openWrite_eq opens, writer?_release]
    by_cases same : id = buffers.next
    · exact if_pos same
    · rw [if_neg same, writer?_useWriter_other same, writer?_useWriter_other same, writer?_add, if_neg same]
      exact none

/-- A file that is there takes what it is to hold if the device has room. Otherwise
nothing is left in it. -/
theorem writeFile_answers (found : disk.tree.find name = .file path old) (nonempty : content ≠ []) (buffers : Buffers) :
    (buffers.writeFile disk name content).1 =
      (if disk.full then .error .cannotWrite else .ok content.length) ∧
    (buffers.writeFile disk name content).2.2 =
      { disk with tree := disk.tree.put path (if disk.full then [] else content) } := by
  have present : disk.tree.content? path = some old := by
    obtain ⟨-, rfl, held⟩ := FileTree.find_eq_file_iff.mp found
    exact held
  cases full : disk.full with
  | true =>
    have opens : Writer.open? disk name = some ({ path }, { disk with tree := disk.tree.put path [] }) := by
      rw [Writer.open?, FileTree.writable?, found]
      rfl
    obtain ⟨answer, left⟩ := @writeFile_writer _ _ _ _ content opens buffers
    obtain ⟨unsound, lost⟩ :=
      @Writer.whole_full { disk with tree := disk.tree.put path [] } content { path } full nonempty
    rw [answer, left, unsound, lost, full]
    exact ⟨rfl, rfl⟩
  | false =>
    obtain ⟨writer, opened, opens, carries⟩ := Writer.open?_eq_some found full
    obtain ⟨answer, left⟩ := @writeFile_writer _ _ _ _ content opens buffers
    have flushed := (carries.write present content).flush present
    have offset := flushed.offset
    have closed := flushed.close present
    rw [List.nil_append] at offset closed
    rw [answer, left, flushed.sound, offset, closed, beq_self_eq_true]
    exact ⟨rfl, rfl⟩

end WholeFiles
end Buffers

def Disk.afterCheck (disk : Disk) (mode : Mode) (name : Bytes) : Disk :=
  match mode, disk.tree.find name with
  | .fix, .file path content =>
    if (fix content).text = content then disk
    else { disk with tree := disk.tree.put path (if disk.full then [] else (fix content).text) }
  | _, _ => disk

def Disk.answer (disk : Disk) (mode : Mode) (name : Bytes) : Except CheckError Outcome :=
  match disk.tree.find name, mode with
  | .file _ content, .scan => .ok { path := name, found := (scan content).count, remaining := (scan content).count }
  | .file _ content, .fix =>
    if disk.full && (fix content).text ≠ content then .error ⟨name, .cannotWrite⟩
    else .ok { path := name, found := (scan content).count, fixed := (scan content).count, remaining := 0,
               written := (fix content).text ≠ content }
  | _, _ => .error ⟨name, .cannotRead⟩

/-- Only a text that is not empty is changed, and it is not empty afterwards. -/
theorem fix_ne_nil {text : Bytes} (changed : (fix text).text ≠ text) : (fix text).text ≠ [] := by
  obtain ⟨items, last, rfl, reads⟩ := exists_reads true text
  have solids := (reads.respaced fun _ => true).solidBytes_eq
  rw [← fix_text reads] at solids
  intro empty
  rw [empty] at solids
  cases items with
  | nil =>
    apply changed
    apply fix_of_scan_eq_nil
    rw [reads.scan_violations, Outline.violations, reads.size_eq]
    rfl
  | cons item items =>
    -- The first byte of a token is no space, and fixing keeps it.
    obtain ⟨c, rest, first, solid⟩ := reads.2.1.solid
    have kept : c ∈ solidBytes (woven (item :: items) last) := by
      rw [solidBytes, woven_cons, first]
      simp [solid]
    rw [← solids] at kept
    cases kept

namespace Session
variable {session : Session} {mode : Mode} {path : Path} {name content : Bytes} {id : Nat}

@[simp] theorem tell_disk (session : Session) (quiet : Bool) (id : Nat) (skipped : Bool) (violations : List Violation) :
    (session.tell quiet id skipped violations).disk = session.disk := by
  cases quiet <;> rfl

@[simp] theorem tell_buffers (session : Session) (quiet : Bool) (id : Nat) (skipped : Bool)
    (violations : List Violation) : (session.tell quiet id skipped violations).buffers = session.buffers := by
  cases quiet <;> rfl

private theorem release_disk (none : session.buffers.writer? id = none) :
    (session.release id).disk = session.disk :=
  Buffers.release_disk none

private theorem save_answers (found : session.disk.tree.find name = .file path content) :
    (session.save name content (fix content).text).1 =
      (if session.disk.full && (fix content).text ≠ content then .error .cannotWrite
        else .ok (decide ((fix content).text ≠ content))) ∧
    (session.save name content (fix content).text).2.disk = session.disk.afterCheck .fix name := by
  simp only [save, Disk.afterCheck, found]
  by_cases same : (fix content).text = content
  · simp [same]
  · obtain ⟨answer, left⟩ := session.buffers.writeFile_answers found (fix_ne_nil same)
    simp only [if_neg same, answer, left, ne_eq, decide_not, decide_eq_false same, Bool.not_false,
      Bool.and_true, and_true]
    cases session.disk.full <;> rfl

/-- Saving a text gives no writer to a buffer that has none. -/
theorem writer?_save (none : session.buffers.writer? id = none) (old new : Bytes) :
    (session.save name old new).2.buffers.writer? id = .none := by
  unfold save
  split
  · exact none
  · exact Buffers.writer?_writeFile none

private theorem reviewFixed_answers (none : session.buffers.writer? id = none) (quiet : Bool) (text : Bytes) :
    (session.reviewFixed quiet name id (fix text)).1 = 0 ∧
    (session.reviewFixed quiet name id (fix text)).2.disk = session.disk := by
  -- Neither the buffer of the fixed text nor that of the text itself has a writer.
  have plain : ∀ number, number = session.buffers.next ∨ session.buffers.writer? number = .none →
      (session.buffers.add (.ofText name (fix text).text)).2.writer? number = .none := by
    intro number either
    rw [Buffers.writer?_add]
    split
    · rfl
    next other => exact either.resolve_left other
  simp only [reviewFixed, scan_fix, fix_skipped, tell_nil, Report.count, List.length_nil, true_and]
  rw [release_disk, release_disk]
  · exact plain _ (.inl rfl)
  · apply (Buffers.writer?_release ..).trans
    split
    · rfl
    · exact plain id (.inr none)

private theorem fixBuffer_answers (found : session.disk.tree.find name = .file path content)
    (held : session.buffers.content id = content) (none : session.buffers.writer? id = none) (quiet : Bool) :
    (session.fixBuffer quiet name id).1 = session.disk.answer .fix name ∧
    (session.fixBuffer quiet name id).2.disk = session.disk.afterCheck .fix name := by
  obtain ⟨answer, left⟩ := save_answers found
  have plain := @writer?_save _ name _ none content (fix content).text
  simp only [fixBuffer, held, Disk.answer, found]
  generalize session.save name content (fix content).text = saved at answer left plain ⊢
  obtain ⟨result, after⟩ := saved
  dsimp only at answer left plain ⊢
  rw [answer, ← left]
  by_cases lost : (session.disk.full && decide ((fix content).text ≠ content)) = true
  · simp only [if_pos lost, true_and]
    exact release_disk plain
  · obtain ⟨remaining, same⟩ := @reviewFixed_answers _ name _ plain quiet content
    simp only [if_neg lost, remaining, same, and_true, Nat.sub_zero]
    rfl

/-- A check hangs on the disk alone, whatever buffers the session has in use. -/
theorem check_answers (session : Session) (mode : Mode) (quiet : Bool) (name : Bytes) :
    (session.check mode quiet name).1 = session.disk.answer mode name ∧
    (session.check mode quiet name).2.disk = session.disk.afterCheck mode name := by
  cases found : session.disk.tree.find name with
  | directory | missing =>
    simp only [check, Buffers.openRead, Reader.ofName, found, Reader.readAll, Disk.answer, Disk.afterCheck]
    cases mode <;> simp
  | file path content =>
    have held : (session.buffers.add (.ofText name content)).2.content session.buffers.next = content := by
      simp [Buffers.content, Buffers.find?, Buffers.add, Buffer.ofText, Buffer.content, Lines.ofText]
    have plain : (session.buffers.add (.ofText name content)).2.writer? session.buffers.next = none := by
      rw [Buffers.writer?_add, if_pos rfl]
      rfl
    simp only [check, Buffers.openRead_eq _ found]
    cases mode with
    | scan =>
      simp only [scanBuffer, held, Disk.answer, found, Disk.afterCheck, true_and]
      rw [release_disk, tell_disk]
      rw [tell_buffers]
      exact plain
    | fix =>
      exact @fixBuffer_answers ⟨session.disk, (session.buffers.add (.ofText name content)).2, session.log⟩ _ _ _ _
        found held plain quiet

end Session

section Failing
variable {disk : Disk} {mode : Mode} {name content : Bytes} {path : Path} {error : CheckError}

/-- A check fails on what is no file, and on a file that it would have to change on a full device. -/
theorem Disk.answer_error (failed : disk.answer mode name = .error error) :
    error.path = name ∧
    ((error.cause = .cannotRead ∧ ∀ path content, disk.tree.find name ≠ .file path content) ∨
    (error.cause = .cannotWrite ∧ mode = .fix ∧ disk.full = true ∧
      ∃ path content, disk.tree.find name = .file path content ∧ (fix content).text ≠ content)) := by
  cases found : disk.tree.find name with
  | directory | missing =>
    simp only [Disk.answer, found] at failed
    obtain rfl := Except.error.inj failed
    exact ⟨rfl, .inl ⟨rfl, nofun⟩⟩
  | file path content =>
    cases mode with
    | scan => simp [Disk.answer, found] at failed
    | fix =>
      simp only [Disk.answer, found] at failed
      split at failed
      next lost =>
        simp only [Bool.and_eq_true, decide_eq_true_eq] at lost
        obtain rfl := Except.error.inj failed
        exact ⟨rfl, .inr ⟨rfl, rfl, lost.1, path, content, rfl, lost.2⟩⟩
      next => cases failed

private theorem Disk.afterCheck_of_missing (missing : ∀ path content, disk.tree.find name ≠ .file path content) :
    disk.afterCheck mode name = disk := by
  unfold Disk.afterCheck
  split
  next path content found => exact absurd found (missing path content)
  next => rfl

private theorem Disk.afterCheck_of_changed (found : disk.tree.find name = .file path content)
    (changed : (fix content).text ≠ content) : disk.afterCheck .fix name =
      { disk with tree := disk.tree.put path (if disk.full then [] else (fix content).text) } := by
  simp only [Disk.afterCheck, found, if_neg changed]

end Failing

/-- A check that fails to read its file changes nothing. One that fails to write has
emptied its file, which had something to fix, and left the others alone. -/
theorem failed_check_empties_file {session : Session} {mode : Mode} {quiet : Bool} {name : Bytes} {error : CheckError}
    (failed : (session.check mode quiet name).1 = .error error) :
    let before := session.disk
    let after := (session.check mode quiet name).2.disk
    error.path = name ∧
    ((error.cause = .cannotRead ∧ (∀ path content, before.tree.find name ≠ .file path content) ∧ after = before) ∨
    (error.cause = .cannotWrite ∧ mode = .fix ∧ before.full = true ∧
      ∃ path content, before.tree.find name = .file path content ∧ (scan content).violations ≠ [] ∧
        after.tree.content? path = some [] ∧
        ∀ other ≠ path, after.tree.content? other = before.tree.content? other)) := by
  intro before after
  obtain ⟨answer, left⟩ := session.check_answers mode quiet name
  rw [answer] at failed
  have left : after = before.afterCheck mode name := left
  obtain ⟨named, ⟨cause, missing⟩ | ⟨cause, rfl, full, path, content, found, changed⟩⟩ := Disk.answer_error failed
  · exact ⟨named, .inl ⟨cause, missing, left.trans (Disk.afterCheck_of_missing missing)⟩⟩
  · refine ⟨named, .inr ⟨cause, rfl, full, path, content, found, mt fix_of_scan_eq_nil changed, ?_⟩⟩
    obtain ⟨-, rfl, held⟩ := FileTree.find_eq_file_iff.mp found
    rw [left, Disk.afterCheck_of_changed found changed, if_pos full]
    exact ⟨FileTree.content?_put held [], fun other apart => FileTree.content?_put_other held [] apart⟩

def fullDisk : Disk where
  tree := FileTree.empty.put (Path.parse (ascii "a.c")) (ascii "int* p;")
  full := true

theorem failed_check_empties_sample :
    let session : Session := { disk := fullDisk }
    (session.check .fix true (ascii "a.c")).1 = .error ⟨ascii "a.c", .cannotWrite⟩ ∧
    (session.check .fix true (ascii "a.c")).2.disk.tree.content? (Path.parse (ascii "a.c")) = some [] := by
  intro session
  have failed : (session.check .fix true (ascii "a.c")).1 = .error ⟨ascii "a.c", .cannotWrite⟩ := by
    rw [(session.check_answers .fix true (ascii "a.c")).1]
    decide +kernel
  refine ⟨failed, ?_⟩
  obtain ⟨-, ⟨cause, -⟩ | ⟨-, -, -, path, content, found, -, emptied, -⟩⟩ := failed_check_empties_file failed
  · cases cause
  · obtain ⟨-, rfl, -⟩ := FileTree.find_eq_file_iff.mp found
    exact emptied

/-- A check may fail and change a file all the same. -/
theorem failed_check_changes_file :
    ¬ ∀ (session : Session) (mode : Mode) (quiet : Bool) (name : Bytes) (error : CheckError),
      (session.check mode quiet name).1 = .error error →
        ∀ path, (session.check mode quiet name).2.disk.tree.content? path = session.disk.tree.content? path := by
  intro unchanged
  have kept := unchanged { disk := fullDisk } .fix true (ascii "a.c") ⟨ascii "a.c", .cannotWrite⟩
  simp only [Session.check_answers] at kept
  have kept := kept (by decide +kernel) (Path.parse (ascii "a.c"))
  revert kept
  decide +kernel

end Allman
