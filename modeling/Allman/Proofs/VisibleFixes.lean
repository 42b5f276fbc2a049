import Allman.Proofs.CheckedDisk

/-! A fix is seen in the text exactly if there was something to fix. Were a text with
violations to come out of a fix as it went in, it would be clean, since every fixed text
is. So a check that fixes a file writes it exactly if it has found something there, and
it has nothing left to print. -/

namespace Allman

/-- Edits never come to nothing: only a text without violations is left as it is. -/
theorem fix_eq_self_iff {text : Bytes} : (fix text).text = text ↔ (scan text).violations = [] := by
  constructor
  · intro same
    have clean := scan_fix text
    rwa [same] at clean
  · exact fix_of_scan_eq_nil

namespace Session
variable {session : Session} {quiet : Bool} {name : Bytes} {id : Nat}

@[simp] theorem release_log (session : Session) (id : Nat) : (session.release id).log = session.log := rfl

private theorem save_log (session : Session) (name old new : Bytes) :
    (session.save name old new).2.log = session.log := by
  unfold save
  split <;> rfl

/-- The review of a fixed text has nothing to tell. -/
theorem reviewFixed_log (session : Session) (quiet : Bool) (name : Bytes) (id : Nat) (text : Bytes) :
    (session.reviewFixed quiet name id (fix text)).2.log = session.log := by
  simp only [reviewFixed, scan_fix, fix_skipped, tell_nil, release_log]

private theorem fixBuffer_log (session : Session) (quiet : Bool) (name : Bytes) (id : Nat) :
    (session.fixBuffer quiet name id).2.log = session.log := by
  have saved := session.save_log name (session.buffers.content id) (fix (session.buffers.content id)).text
  unfold fixBuffer
  dsimp only
  split
  next cause after failed =>
    rw [failed] at saved
    exact saved
  next written after succeeded =>
    rw [succeeded] at saved
    exact (after.reviewFixed_log quiet name id _).trans saved

/-- A check that fixes a file prints nothing, whether it goes well or not. -/
theorem check_fix_log (session : Session) (quiet : Bool) (name : Bytes) :
    (session.check .fix quiet name).2.log = session.log := by
  unfold check
  split
  next => rfl
  next id buffers _ => exact fixBuffer_log { session with buffers } quiet name id

end Session

/-- A check that fixes a file fails only where something is to be written and there is no room. -/
theorem Disk.answer_fix_file {disk : Disk} {name content : Bytes} {path : Path}
    (found : disk.tree.find name = .file path content) : disk.answer .fix name =
      if disk.full = true ∧ (scan content).violations ≠ [] then .error ⟨name, .cannotWrite⟩
      else .ok { path := name, found := (scan content).count, fixed := (scan content).count, remaining := 0,
                 written := 0 < (scan content).count } := by
  have changed : (fix content).text ≠ content ↔ (scan content).violations ≠ [] := not_congr fix_eq_self_iff
  have counted : 0 < (scan content).count ↔ (scan content).violations ≠ [] := List.length_pos_iff
  simp only [Disk.answer, found, Bool.and_eq_true, decide_eq_true_eq, changed, counted]

/-- A text is changed by a fix exactly if there is something to report on it. So a check
that fixes a file goes well unless there is no such file, or no room where something is
to be written. It has then fixed all that it found, and has written the file exactly if
it found something. It prints no warning. -/
theorem fix_changes_iff_found :
    (∀ text, (fix text).text = text ↔ (scan text).violations = []) ∧
    ∀ (session : Session) (quiet : Bool) (name : Bytes),
      (∀ outcome, (session.check .fix quiet name).1 = .ok outcome ↔
        ∃ path content, session.disk.tree.find name = .file path content ∧
          (session.disk.full = true → (scan content).violations = []) ∧
          outcome = { path := name, found := (scan content).count, fixed := (scan content).count, remaining := 0,
                      written := 0 < (scan content).count }) ∧
      (session.check .fix quiet name).2.log = session.log := by
  refine ⟨fun _ => fix_eq_self_iff, fun session quiet name => ⟨fun outcome => ?_, session.check_fix_log quiet name⟩⟩
  rw [(session.check_answers .fix quiet name).1]
  cases found : session.disk.tree.find name with
  | directory | missing => simp [Disk.answer, found]
  | file path content =>
    rw [Disk.answer_fix_file found]
    constructor
    · intro answered
      split at answered
      next => cases answered
      next takes =>
        have room : session.disk.full = true → (scan content).violations = [] := by
          intro full
          by_contra faulty
          exact takes ⟨full, faulty⟩
        exact ⟨path, content, rfl, room, (Except.ok.inj answered).symm⟩
    · rintro ⟨path, content, ⟨⟩, room, rfl⟩
      exact if_neg fun lost => lost.2 (room lost.1)

end Allman
