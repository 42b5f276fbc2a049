import Mathlib.Algebra.Order.Ring.Int
import Allman.CommandLine
import Allman.Proofs.CleanText
import Allman.Proofs.CollectedFiles
import Allman.Proofs.WholeWrites

/-! A whole run that fixes files. Checking one file rewrites that file alone and
gives every buffer up again, so the files of a run can be taken one by one: each is
found as it was before the run. A second run finds only texts that are fixed. -/

namespace Allman

namespace Session
variable {session : Session} {path : Path} {name content : Bytes}

theorem tell_nil (session : Session) (quiet : Bool) (id : Nat) (skipped : Bool) :
    session.tell quiet id skipped [] = session := by
  cases quiet <;> rfl

private theorem save_eq (fresh : session.buffers.Fresh) (found : session.disk.tree.find name = .file path content)
    {new : Bytes} (room : session.disk.full = true → new = content) :
    ∃ next, session.buffers.next ≤ next ∧ session.save name content new =
      (.ok (decide (new ≠ content)),
        { session with
          disk := { session.disk with tree := session.disk.tree.put path new }
          buffers := { session.buffers with next } }) := by
  obtain ⟨-, rfl, held⟩ := FileTree.find_eq_file_iff.mp found
  by_cases same : new = content
  · refine ⟨session.buffers.next, Nat.le_refl _, ?_⟩
    rw [save, if_pos same, same, FileTree.put_self held]
    simp
  · refine ⟨session.buffers.next + 1, Nat.le_succ _, ?_⟩
    have free : session.disk.full = false := Bool.eq_false_iff.mpr fun full => same (room full)
    rw [save, if_neg same, Buffers.writeFile_eq fresh found free]
    simp [same, Except.map, Buffers.skip]

section Newest
variable {disk : Disk} {log : Log} {next id : Nat} {lines : Lines} {live : List (Nat × Buffer)}

theorem release_newest (unused : ∀ entry ∈ live, entry.1 ≠ id) :
    release ⟨disk, ⟨next, (id, ⟨name, lines, none⟩) :: live⟩, log⟩ id = ⟨disk, ⟨next, live⟩, log⟩ := by
  rw [release, Buffers.release_newest unused]

/-- A fixed text has nothing to report. -/
theorem reviewFixed_eq (fresh : Buffers.Fresh ⟨next, (id, ⟨name, lines, none⟩) :: live⟩)
    (unused : ∀ entry ∈ live, entry.1 ≠ id) (quiet : Bool) (text : Bytes) :
    reviewFixed ⟨disk, ⟨next, (id, ⟨name, lines, none⟩) :: live⟩, log⟩ quiet name id (fix text) =
      (0, ⟨disk, ⟨next + 1, live⟩, log⟩) := by
  simp only [reviewFixed, scan_fix, fix_skipped, tell_nil, Report.count, List.length_nil, Buffers.add, Buffer.ofText]
  rw [release_newest fresh.unused, release_newest unused]

end Newest

/-- Checking a file puts it right, leaves every other file alone, and gives up the
buffers it has used. -/
theorem check_fix (fresh : session.buffers.Fresh) (found : session.disk.tree.find name = .file path content)
    (room : session.disk.full = true → (fix content).text = content) (quiet : Bool) :
    ∃ next, session.buffers.next ≤ next ∧ session.check .fix quiet name =
      (.ok { path := name, found := (scan content).count, fixed := (scan content).count, remaining := 0,
             written := decide ((fix content).text ≠ content) },
        { session with
          disk := { session.disk with tree := session.disk.tree.put path (fix content).text }
          buffers := { session.buffers with next } }) := by
  -- The text read takes one number, its review another, and writing a third if it is done.
  obtain ⟨disk, buffers, log⟩ := session
  have reading := fresh.add (.ofText name content)
  obtain ⟨next, later, saved⟩ :=
    @save_eq ⟨disk, (buffers.add (.ofText name content)).2, log⟩ path name content reading found _ room
  have held : (buffers.add (.ofText name content)).2.content buffers.next = content := by
    simp [Buffers.content, Buffers.find?, Buffers.add, Buffer.ofText, Buffer.content, Lines.ofText]
  refine ⟨next + 1, ?_, ?_⟩
  · exact Nat.le_trans (Nat.le_succ _) (Nat.le_trans later (Nat.le_succ _))
  · simp only [check, Buffers.openRead_eq _ found, fixBuffer, held, saved]
    simp only [Buffers.add, Buffer.ofText]
    rw [reviewFixed_eq (reading.later later) fresh.unused]
    rfl

end Session

/-- What fixing the named files makes of what a file holds. -/
def fixAt (names : List Bytes) (path : Path) (content : Bytes) : Bytes :=
  if (names.map Path.parse).contains path then (fix content).text else content

def violationsIn (tree : FileTree) (names : List Bytes) : Nat :=
  (names.map fun name => (scan (tree.textOf name)).violations.length).sum

def fixLine (tree : FileTree) (name : Bytes) : Bytes :=
  if (fix (tree.textOf name)).text = tree.textOf name then []
  else name ++ ascii ": " ++ decimal (scan (tree.textOf name)).violations.length ++ ascii " violation(s) fixed\n"

/-- No write fails that fixing the named files asks for: either the device has room,
or there is nothing to write. -/
def Disk.Takes (disk : Disk) (names : List Bytes) : Prop :=
  disk.full = true → ∀ name ∈ names, (fix (disk.tree.textOf name)).text = disk.tree.textOf name

section Trees
variable {tree : FileTree} {name : Bytes} {names : List Bytes} {path : Path}

private theorem fixAt_of_mem (member : path ∈ names.map Path.parse) (content : Bytes) :
    fixAt names path content = (fix content).text :=
  if_pos (List.contains_iff_mem.mpr member)

private theorem fixAt_of_not_mem (absent : path ∉ names.map Path.parse) (content : Bytes) :
    fixAt names path content = content :=
  if_neg (mt List.contains_iff_mem.mp absent)

private theorem textOf_of_find {content : Bytes} (found : tree.find name = .file path content) :
    tree.textOf name = content := by
  obtain ⟨-, -, held⟩ := FileTree.find_eq_file_iff.mp found
  rw [FileTree.textOf, held]
  rfl

/-- Fixing one file leaves the texts of the others alone. -/
theorem textOf_fixAt_other (absent : Path.parse name ∉ names.map Path.parse) {other : Bytes} (member : other ∈ names) :
    (tree.rewrite (fixAt [name])).textOf other = tree.textOf other := by
  have elsewhere : Path.parse other ∉ [name].map Path.parse := by
    intro same
    rw [List.map_singleton, List.mem_singleton] at same
    exact absent (same ▸ List.mem_map_of_mem member)
  have keeps : fixAt [name] (Path.parse other) = id := by
    funext content
    exact fixAt_of_not_mem elsewhere content
  rw [FileTree.textOf, FileTree.content?_rewrite, keeps, Option.map_id_apply]
  rfl

private theorem rewrite_fixAt_nil (tree : FileTree) : tree.rewrite (fixAt []) = tree := by
  apply FileTree.rewrite_eq_self
  intro path content _
  exact fixAt_of_not_mem List.not_mem_nil content

private theorem rewrite_fixAt_cons (absent : Path.parse name ∉ names.map Path.parse) :
    (tree.rewrite (fixAt [name])).rewrite (fixAt names) = tree.rewrite (fixAt (name :: names)) := by
  rw [FileTree.rewrite_rewrite]
  apply FileTree.rewrite_congr
  intro path content _
  by_cases here : path = Path.parse name
  · simp [fixAt, here, absent]
  · simp [fixAt, here]

private theorem put_fix_eq {content : Bytes} (found : tree.find name = .file path content) :
    tree.put path (fix content).text = tree.rewrite (fixAt [name]) := by
  obtain ⟨-, rfl, held⟩ := FileTree.find_eq_file_iff.mp found
  rw [FileTree.put_eq_rewrite held]
  apply FileTree.rewrite_congr
  intro path old there
  by_cases here : path = Path.parse name
  · rw [here, held] at there
    cases there
    simp [fixAt, here]
  · simp [fixAt, here]

end Trees

namespace Run

/-- The run can go on to fix the named files: they are files of the tree, no two of
them the same. -/
structure Ready (run : Run) (names : List Bytes) : Prop where
  fresh : run.session.buffers.Fresh
  named : ∀ name ∈ names, ∃ path content, run.session.disk.tree.find name = .file path content
  apart : (names.map Path.parse).Nodup
  room : run.session.disk.Takes names

/-- From one state of a run to another the named files have been fixed, without a failure. -/
structure Fixes (before : Run) (names : List Bytes) (after : Run) : Prop where
  disk : after.session.disk = ⟨before.session.disk.tree.rewrite (fixAt names), before.session.disk.full⟩
  output : after.session.log.output =
    before.session.log.output ++ names.flatMap (fixLine before.session.disk.tree)
  errors : after.errors = before.errors
  failures : after.failures = before.failures
  fixed : after.fixed = before.fixed + violationsIn before.session.disk.tree names
  remaining : after.remaining = before.remaining

variable {before middle after : Run} {name : Bytes} {names : List Bytes} {options : Options}

theorem Fixes.refl (run : Run) : run.Fixes [] run := by
  refine ⟨?_, (List.append_nil _).symm, rfl, rfl, rfl, rfl⟩
  rw [rewrite_fixAt_nil]

/-- One step of a run: a file is fixed, and the files after it can be. -/
theorem Ready.step (ready : before.Ready (name :: names)) (program : Bytes) (fixing : options.mode = .fix) :
    before.Fixes [name] (before.checkFile program options name) ∧
      (before.checkFile program options name).Ready names := by
  obtain ⟨path, content, found⟩ := ready.named name List.mem_cons_self
  obtain ⟨absent, apart⟩ := List.nodup_cons.mp ready.apart
  have text := textOf_of_find found
  have room : before.session.disk.full = true → (fix content).text = content := by
    intro full
    have taken := ready.room full name List.mem_cons_self
    rw [text] at taken
    exact taken
  obtain ⟨next, later, checked⟩ := Session.check_fix ready.fresh found room options.quiet
  rw [put_fix_eq found] at checked
  simp only [Run.checkFile, fixing, checked]
  constructor
  · constructor
    · rfl
    · simp only [Log.print, List.flatMap_cons, List.flatMap_nil, List.append_nil, fixLine, text]
      by_cases same : (fix content).text = content
      · simp [same]
      · simp [same, Report.count]
    · rfl
    · rfl
    · simp [violationsIn, text, Report.count]
    · rfl
  · constructor
    · exact ready.fresh.later later
    · intro other member
      obtain ⟨path, content, found⟩ := ready.named other (List.mem_cons_of_mem _ member)
      refine ⟨path, fixAt [name] path content, ?_⟩
      simp only [FileTree.find_rewrite, found]
    · exact apart
    · intro full other member
      rw [textOf_fixAt_other absent member]
      exact ready.room full other (List.mem_cons_of_mem _ member)

theorem Fixes.trans (first : before.Fixes [name] middle) (absent : Path.parse name ∉ names.map Path.parse)
    (rest : middle.Fixes names after) : before.Fixes (name :: names) after := by
  have tree : middle.session.disk.tree = before.session.disk.tree.rewrite (fixAt [name]) := by
    rw [first.disk]
  -- The files still to come are found as they were before the first was fixed.
  have texts : ∀ other ∈ names, middle.session.disk.tree.textOf other = before.session.disk.tree.textOf other := by
    intro other member
    rw [tree, textOf_fixAt_other absent member]
  constructor
  · rw [rest.disk, first.disk, rewrite_fixAt_cons absent]
  · have lines : names.flatMap (fixLine middle.session.disk.tree) =
        names.flatMap (fixLine before.session.disk.tree) := by
      apply List.flatMap_congr
      intro other member
      rw [fixLine, texts other member, fixLine]
    rw [rest.output, first.output, lines, List.append_assoc]
    simp
  · rw [rest.errors, first.errors]
  · rw [rest.failures, first.failures]
  · have counts : violationsIn middle.session.disk.tree names = violationsIn before.session.disk.tree names := by
      rw [violationsIn, violationsIn]
      congr 1
      apply List.map_congr_left
      intro other member
      rw [texts other member]
    rw [rest.fixed, first.fixed, counts]
    simp [violationsIn, Nat.add_assoc]
  · rw [rest.remaining, first.remaining]

/-- A run over files that are ready fixes them all. -/
theorem Ready.fixes (ready : before.Ready names) (program : Bytes) (fixing : options.mode = .fix) :
    before.Fixes names (names.foldl (checkFile program options) before) := by
  induction names generalizing before with
  | nil => exact Fixes.refl before
  | cons name names ih =>
    obtain ⟨first, readyNext⟩ := ready.step program fixing
    exact first.trans (List.nodup_cons.mp ready.apart).1 (ih readyNext)

end Run

def fixSummary (program : Bytes) (checked fixed remaining : Nat) : Bytes :=
  program ++ ascii ": " ++ decimal checked ++ ascii " file(s) checked, " ++ decimal fixed ++ ascii " fixed, " ++
    decimal remaining ++ ascii " remaining\n"

section Running
variable {options : Options} {disk : Disk} {names : List Bytes}

/-- A run over the files of a target fixes each of them and says so. -/
theorem runOptions_fix (clean : (0 : UInt8) ∉ options.target) (fixing : options.mode = .fix)
    (collected : collect disk.tree options.target = .ok names) (takes : disk.Takes names) (program : Bytes) :
    runOptions program options disk =
      { exit := 0
        output := names.flatMap (fixLine disk.tree) ++
          fixSummary program names.length (violationsIn disk.tree names) 0
        tree := disk.tree.rewrite (fixAt names) } := by
  have lists := collect_lists clean collected
  have ready : Run.Ready { session := { disk, log := { colour := options.colour } } } names :=
    ⟨fun _ member => absurd member List.not_mem_nil, lists.named, lists.apart, takes⟩
  have fixes := ready.fixes program fixing
  simp only [runOptions, collected, Run.succeeded, Run.summary, Run.failureLine, fixing, fixes.failures,
    fixes.remaining, fixes.errors, fixes.fixed, fixes.output, fixes.disk]
  simp [fixSummary]

end Running

section Again
variable {tree : FileTree} {names : List Bytes}

/-- There is nothing to report on a file that has been fixed. -/
theorem scan_textOf_fixAt {name : Bytes} (member : name ∈ names)
    (named : ∃ path content, tree.find name = .file path content) :
    (scan ((tree.rewrite (fixAt names)).textOf name)).violations = [] := by
  obtain ⟨path, content, found⟩ := named
  obtain ⟨-, -, held⟩ := FileTree.find_eq_file_iff.mp found
  rw [FileTree.textOf_rewrite held, fixAt_of_mem (List.mem_map_of_mem member)]
  exact scan_fix content

private theorem rewrite_fixAt_twice (tree : FileTree) (names : List Bytes) :
    (tree.rewrite (fixAt names)).rewrite (fixAt names) = tree.rewrite (fixAt names) := by
  rw [FileTree.rewrite_rewrite]
  apply FileTree.rewrite_congr
  intro path content _
  by_cases member : path ∈ names.map Path.parse
  · rw [fixAt_of_mem member, fixAt_of_mem member]
    exact fix_of_scan_eq_nil (scan_fix content)
  · rw [fixAt_of_not_mem member, fixAt_of_not_mem member]

variable (clean : ∀ name ∈ names, (scan (tree.textOf name)).violations = [])
include clean

private theorem takes_of_clean (full : Bool) : Disk.Takes ⟨tree, full⟩ names :=
  fun _ name member => fix_of_scan_eq_nil (clean name member)

private theorem violationsIn_of_clean : violationsIn tree names = 0 := by
  have none : (names.map fun name => (scan (tree.textOf name)).violations.length) = names.map fun _ => 0 := by
    apply List.map_congr_left
    intro name member
    rw [clean name member]
    rfl
  rw [violationsIn, none]
  simp

private theorem flatMap_fixLine_of_clean : names.flatMap (fixLine tree) = [] := by
  apply List.flatMap_eq_nil_iff.mpr
  intro name member
  exact if_pos (fix_of_scan_eq_nil (clean name member))

end Again

/-- The target of a run is one of the arguments. -/
theorem Command.target_mem {colour : ColourMode} {quiet : Bool} {words arguments : List Bytes} {options : Options}
    (asked : parseFrom colour quiet words arguments = some (.run options)) : options.target ∈ words ++ arguments := by
  fun_induction parseFrom colour quiet words arguments with
  | case1 colour quiet target word =>
    obtain ⟨mode, -, same⟩ := Option.map_eq_some_iff.mp asked
    cases same
    simp
  | case2 | case3 | case4 | case6 | case8 | case9 => cases asked
  | case5 colour quiet words argument rest _ _ _ ih =>
    rcases List.mem_append.mp (ih asked) with before | after
    · exact List.mem_append_left _ before
    · exact List.mem_append_right _ (List.mem_cons_of_mem _ after)
  | case7 colour quiet words value rest chosen _ _ _ _ ih =>
    rcases List.mem_append.mp (ih asked) with before | after
    · exact List.mem_append_left _ before
    · exact List.mem_append_right _ (List.mem_cons_of_mem _ (List.mem_cons_of_mem _ after))
  | case10 colour quiet words argument rest _ _ _ _ _ ih =>
    have member := ih asked
    rw [List.append_assoc] at member
    exact member

/-- The words of an argument vector; a zero byte ends a word. -/
def wordsOf (vector : List Bytes) : List Bytes := vector.map (·.takeWhile (· ≠ 0))

private theorem zero_not_mem_wordsOf {vector : List Bytes} {word : Bytes} (member : word ∈ wordsOf vector) :
    (0 : UInt8) ∉ word := by
  obtain ⟨argument, -, rfl⟩ := List.mem_map.mp member
  intro zero
  have nonzero := List.all_eq_true.mp List.all_takeWhile _ zero
  simp at nonzero

/-- A run that is asked to fix the files of a target, and can write them, fixes each
of them and no other file. It reports the violations they had as fixed and none as
remaining, and the same run once more finds nothing to do. -/
theorem runArguments_fixes {vector names : List Bytes} {options : Options} {disk : Disk}
    (asked : Command.parse ((wordsOf vector).drop 1) = some (.run options)) (fixing : options.mode = .fix)
    (collected : collect disk.tree options.target = .ok names) (takes : disk.Takes names) :
    let program := programName ((wordsOf vector).head?.getD (ascii "cstyle"))
    let first := runArguments vector disk
    (∀ name ∈ names, isCFile name = true ∧
      disk.tree.find name = .file (Path.parse name) (disk.tree.textOf name)) ∧
    (names.map Path.parse).Nodup ∧
    first.exit = 0 ∧ first.errors = [] ∧
    first.tree = disk.tree.rewrite (fixAt names) ∧
    first.output = names.flatMap (fixLine disk.tree) ++
      fixSummary program names.length (violationsIn disk.tree names) 0 ∧
    ∀ full, runArguments vector ⟨first.tree, full⟩ =
      { exit := 0, output := fixSummary program names.length 0 0, tree := first.tree } := by
  intro program first
  have clean : (0 : UInt8) ∉ options.target :=
    zero_not_mem_wordsOf (List.mem_of_mem_drop (Command.target_mem asked))
  have runs : ∀ disk, runArguments vector disk = runOptions program options disk := by
    intro disk
    unfold wordsOf at asked
    simp only [runArguments, asked]
    rfl
  have lists := collect_lists clean collected
  have once : first = _ := (runs disk).trans (runOptions_fix clean fixing collected takes program)
  have fixed := fun name member => scan_textOf_fixAt member (lists.named name member)
  refine ⟨?_, lists.apart, ?_, ?_, ?_, ?_, ?_⟩
  · intro name member
    obtain ⟨path, content, found⟩ := lists.named name member
    obtain ⟨-, rfl, -⟩ := FileTree.find_eq_file_iff.mp found
    refine ⟨lists.isC name member, ?_⟩
    rw [textOf_of_find found, found]
  · rw [once]
  · rw [once]
  · rw [once]
  · rw [once]
  · -- Fixing moves no file, so the second run goes over the same names.
    intro full
    have again : collect (disk.tree.rewrite (fixAt names)) options.target = .ok names := by
      rw [collect_rewrite, collected]
    rw [once, runs, runOptions_fix clean fixing again (takes_of_clean fixed full) program,
      violationsIn_of_clean fixed, flatMap_fixLine_of_clean fixed, rewrite_fixAt_twice]
    rfl

def sampleDisk : Disk where
  tree := (FileTree.empty.put (Path.parse (ascii "d/notes")) (ascii "int* p;")).put
    (Path.parse (ascii "d/e/a.c")) (ascii "int* p;")

theorem runArguments_fixes_sample :
    let vector := [ascii "bin/cstyle", ascii "-q", ascii "d/", ascii "True"]
    let first := runArguments vector sampleDisk
    first.exit = 0 ∧ first.tree.textOf (ascii "d/e/a.c") = ascii "int *p;" ∧
      first.tree.textOf (ascii "d/notes") = ascii "int* p;" ∧
      first.output = ascii "d/e/a.c: 1 violation(s) fixed\ncstyle: 1 file(s) checked, 1 fixed, 0 remaining\n" ∧
      (runArguments vector ⟨first.tree, true⟩).output = ascii "cstyle: 1 file(s) checked, 0 fixed, 0 remaining\n" := by
  intro vector first
  have asked : Command.parse ((wordsOf vector).drop 1) =
      some (.run { target := ascii "d/", mode := .fix, quiet := true }) := by decide +kernel
  have collected : collect sampleDisk.tree (ascii "d/") = .ok [ascii "d/e/a.c"] := by decide +kernel
  have takes : sampleDisk.Takes [ascii "d/e/a.c"] := fun full => nomatch full
  obtain ⟨-, -, exit, -, tree, output, again⟩ := runArguments_fixes asked rfl collected takes
  refine ⟨exit, ?_, ?_, ?_, ?_⟩
  · rw [tree]
    decide +kernel
  · rw [tree]
    decide +kernel
  · rw [output]
    decide +kernel
  · rw [again]
    decide +kernel

end Allman
