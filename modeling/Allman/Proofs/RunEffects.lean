import Allman.Proofs.CheckedDisk

/-! What a run does to the files of a disk, and what it exits with. A run makes no
file and removes none, and it changes a file only to fix it. Its exit code tells
whether every check went well and, where nothing was to be fixed, whether there was
nothing to report. All of this holds for each check and is carried along the run. -/

namespace Allman

/-- From one tree to another, files have kept their paths, and only files that are
named and have something to fix have changed, and only in fix mode. -/
structure FileTree.Spares (before : FileTree) (mode : Mode) (names : List Bytes) (after : FileTree) : Prop where
  paths : after.files.map Prod.fst = before.files.map Prod.fst
  directories : after.directories = before.directories
  changed : ∀ path content, before.content? path = some content → after.content? path ≠ some content →
    mode = .fix ∧ (scan content).violations ≠ [] ∧ ∃ name ∈ names, before.find name = .file path content

/-- A check went well and has left nothing to report. -/
def AllWell (answer : Except CheckError Outcome) : Prop := ∃ outcome, answer = .ok outcome ∧ outcome.remaining = 0

section Trees
variable {before middle after : FileTree} {disk : Disk} {mode : Mode} {names names' : List Bytes}

theorem FileTree.Spares.refl (tree : FileTree) (mode : Mode) (names : List Bytes) : tree.Spares mode names tree :=
  ⟨rfl, rfl, fun _ _ held other => absurd held other⟩

theorem FileTree.Spares.trans (first : before.Spares mode names middle) (second : middle.Spares mode names' after) :
    before.Spares mode (names ++ names') after := by
  refine ⟨second.paths.trans first.paths, second.directories.trans first.directories, ?_⟩
  intro path content held other
  -- Either the first step has changed the file, or the second finds it as it was before the first.
  by_cases kept : middle.content? path = some content
  · obtain ⟨fixing, faulty, name, member, found⟩ := second.changed path content kept other
    obtain ⟨plain, rfl, -⟩ := FileTree.find_eq_file_iff.mp found
    exact ⟨fixing, faulty, name, List.mem_append_right _ member, FileTree.find_eq_file_iff.mpr ⟨plain, rfl, held⟩⟩
  · obtain ⟨fixing, faulty, name, member, found⟩ := first.changed path content held kept
    exact ⟨fixing, faulty, name, List.mem_append_left _ member, found⟩

private theorem Disk.afterCheck_spares (disk : Disk) (mode : Mode) (name : Bytes) :
    disk.tree.Spares mode [name] (disk.afterCheck mode name).tree := by
  unfold Disk.afterCheck
  split
  next path content found =>
    split
    next => exact .refl _ _ _
    next changed =>
      obtain ⟨-, rfl, held⟩ := FileTree.find_eq_file_iff.mp found
      refine ⟨?_, ?_, ?_⟩
      · rw [FileTree.put_eq_rewrite held]
        simp [FileTree.rewrite, Function.comp_def]
      · rw [FileTree.put_eq_rewrite held]
        rfl
      · intro path old there other
        by_cases here : path = Path.parse name
        · subst here
          obtain rfl := Option.some.inj (held.symm.trans there)
          exact ⟨rfl, mt fix_of_scan_eq_nil changed, name, List.mem_singleton_self name, found⟩
        · rw [FileTree.content?_put_other held _ here] at other
          exact absurd there other
  next => exact .refl _ _ _

/-- A text that has been fixed has nothing left to report. -/
theorem Disk.answer_fix {name : Bytes} {outcome : Outcome} (answered : disk.answer .fix name = .ok outcome) :
    outcome.remaining = 0 := by
  unfold Disk.answer at answered
  split at answered
  next mode => cases mode
  next =>
    split at answered
    next => cases answered
    next =>
      obtain rfl := Except.ok.inj answered
      rfl
  next => cases answered

private theorem Disk.answer_scan {name : Bytes} : AllWell (disk.answer .scan name) ↔
    ∃ path content, disk.tree.find name = .file path content ∧ (scan content).violations = [] := by
  cases found : disk.tree.find name with
  | directory | missing => simp [AllWell, Disk.answer, found]
  | file path content => simp [AllWell, Disk.answer, found, Report.count]

end Trees

namespace Run
variable {program : Bytes} {options : Options} {run : Run} {name : Bytes} {names : List Bytes}

def start (options : Options) (disk : Disk) : Run := { session := { disk, log := { colour := options.colour } } }

def answers (program : Bytes) (options : Options) : Run → List Bytes → List (Except CheckError Outcome)
  | _, [] => []
  | run, name :: names =>
    (run.session.check options.mode options.quiet name).1 ::
      answers program options (run.checkFile program options name) names

private theorem checkFile_disk (program : Bytes) (options : Options) (run : Run) (name : Bytes) :
    (run.checkFile program options name).session.disk = run.session.disk.afterCheck options.mode name := by
  have left := (run.session.check_answers options.mode options.quiet name).2
  unfold checkFile
  split
  next checked =>
    rw [checked] at left
    exact left
  next checked =>
    rw [checked] at left
    exact left

/-- A run spares what it is not asked to fix. -/
theorem foldl_spares (program : Bytes) (options : Options) (run : Run) (names : List Bytes) :
    run.session.disk.tree.Spares options.mode names
      (names.foldl (checkFile program options) run).session.disk.tree := by
  induction names generalizing run with
  | nil => exact .refl _ _ _
  | cons name names ih =>
    have first := run.session.disk.afterCheck_spares options.mode name
    rw [← checkFile_disk program options run name] at first
    exact first.trans (ih (run.checkFile program options name))

private theorem succeeded_checkFile : (run.checkFile program options name).succeeded = true ↔ run.succeeded = true ∧
    AllWell (run.session.check options.mode options.quiet name).1 := by
  unfold checkFile
  split
  next checked => simp [checked, succeeded, AllWell]
  next checked =>
    simp only [checked, succeeded, AllWell, Bool.and_eq_true, decide_eq_true_eq, Nat.add_eq_zero_iff, Except.ok.injEq,
      exists_eq_left', and_assoc]

/-- A run succeeds if every check does and leaves nothing to report. -/
theorem succeeded_foldl : (names.foldl (checkFile program options) run).succeeded = true ↔ run.succeeded = true ∧
    ∀ answer ∈ answers program options run names, AllWell answer := by
  induction names generalizing run with
  | nil => simp [answers]
  | cons name names ih =>
    rw [List.foldl_cons, ih, succeeded_checkFile, answers, List.forall_mem_cons, and_assoc]

private theorem answers_scan (scanning : options.mode = .scan) :
    answers program options run names = names.map (run.session.disk.answer .scan) := by
  induction names generalizing run with
  | nil => rfl
  | cons name names ih =>
    have same : (run.checkFile program options name).session.disk = run.session.disk := by
      rw [checkFile_disk, scanning]
      rfl
    rw [answers, (run.session.check_answers ..).1, ih, same, scanning]
    rfl

private theorem remaining_of_mem_answers (fixing : options.mode = .fix) {outcome : Outcome}
    (member : .ok outcome ∈ answers program options run names) : outcome.remaining = 0 := by
  induction names generalizing run with
  | nil => cases member
  | cons name names ih =>
    rw [answers, (run.session.check_answers ..).1, fixing] at member
    rcases List.mem_cons.mp member with first | later
    · exact Disk.answer_fix first.symm
    · exact ih later

/-- What it takes for the checks of a run to leave nothing to report. -/
theorem answers_clean_iff :
    (∀ answer ∈ answers program options run names, AllWell answer) ↔
      (∀ answer ∈ answers program options run names, ∃ outcome, answer = .ok outcome) ∧
      (options.mode = .fix ∨ ∀ name ∈ names, ∃ path content, run.session.disk.tree.find name = .file path content ∧
        (scan content).violations = []) := by
  have passed : (∀ answer ∈ answers program options run names, AllWell answer) →
      ∀ answer ∈ answers program options run names, ∃ outcome, answer = .ok outcome := by
    intro clean answer member
    obtain ⟨outcome, ok, -⟩ := clean answer member
    exact ⟨outcome, ok⟩
  cases mode : options.mode with
  | fix =>
    refine ⟨fun clean => ⟨passed clean, .inl rfl⟩, ?_⟩
    rintro ⟨ok, -⟩ answer member
    obtain ⟨outcome, rfl⟩ := ok answer member
    exact ⟨outcome, rfl, remaining_of_mem_answers mode member⟩
  | scan =>
    -- Nothing is written, so every file is still what it was when the run started.
    have texts : (∀ answer ∈ answers program options run names, AllWell answer) ↔
        ∀ name ∈ names, ∃ path content, run.session.disk.tree.find name = .file path content ∧
          (scan content).violations = [] := by
      simp only [answers_scan mode, List.forall_mem_map, Disk.answer_scan]
    refine ⟨fun clean => ⟨passed clean, .inr (texts.mp clean)⟩, ?_⟩
    rintro ⟨-, fixing | clean⟩
    · cases fixing
    · exact texts.mpr clean

end Run

section Runs
variable (program : Bytes) (options : Options) (disk : Disk)

private theorem runOptions_spares : (runOptions program options disk).tree = disk.tree ∨
    ∃ names, collect disk.tree options.target = .ok names ∧
      disk.tree.Spares options.mode names (runOptions program options disk).tree := by
  unfold runOptions
  split
  next => exact .inl rfl
  next names collected =>
    exact .inr ⟨names, collected, (Run.start options disk).foldl_spares program options names⟩

private theorem runOptions_exit :
    ((runOptions program options disk).exit = 0 ∨ (runOptions program options disk).exit = 1) ∧
    ((runOptions program options disk).exit = 0 ↔
      ∃ names, collect disk.tree options.target = .ok names ∧
        (∀ answer ∈ Run.answers program options (Run.start options disk) names, ∃ outcome, answer = .ok outcome) ∧
        (options.mode = .fix ∨ ∀ name ∈ names, ∃ path content, disk.tree.find name = .file path content ∧
          (scan content).violations = [])) := by
  cases collected : collect disk.tree options.target with
  | error => simp [runOptions, collected]
  | ok names =>
    have started : (Run.start options disk).succeeded = true := rfl
    have clean := @Run.succeeded_foldl program options (Run.start options disk) names
    rw [Run.answers_clean_iff, started, eq_self, true_and] at clean
    have exit : (runOptions program options disk).exit =
        if (names.foldl (Run.checkFile program options) (Run.start options disk)).succeeded then 0 else 1 := by
      rw [runOptions, collected]
      rfl
    rw [exit]
    split
    next succeeded => exact ⟨.inl rfl, fun _ => ⟨names, rfl, clean.mp succeeded⟩, fun _ => rfl⟩
    next unclean =>
      refine ⟨.inr rfl, fun zero => absurd zero Nat.one_ne_zero, ?_⟩
      rintro ⟨_, ⟨⟩, rest⟩
      exact absurd (clean.mpr rest) unclean

end Runs

section Arguments
variable {vector : List Bytes} {disk : Disk}

private theorem runArguments_run {options : Options}
    (asked : Command.parse ((wordsOf vector).drop 1) = some (.run options)) : runArguments vector disk =
      runOptions (programName ((wordsOf vector).head?.getD (ascii "cstyle"))) options disk := by
  unfold wordsOf at asked
  simp only [runArguments, asked]
  rfl

private theorem runArguments_tree
    (idle : ∀ options, Command.parse ((wordsOf vector).drop 1) ≠ some (.run options)) :
    (runArguments vector disk).tree = disk.tree := by
  unfold wordsOf at idle
  simp only [runArguments]
  split
  next => rfl
  next => rfl
  next => rfl
  next options asked => exact absurd asked (idle options)

private theorem runArguments_spares (vector : List Bytes) (disk : Disk) :
    (runArguments vector disk).tree = disk.tree ∨
    ∃ options names, Command.parse ((wordsOf vector).drop 1) = some (.run options) ∧
      collect disk.tree options.target = .ok names ∧
      disk.tree.Spares options.mode names (runArguments vector disk).tree := by
  by_cases idle : ∀ options, Command.parse ((wordsOf vector).drop 1) ≠ some (.run options)
  · exact .inl (runArguments_tree idle)
  · simp only [not_forall, not_not] at idle
    obtain ⟨options, asked⟩ := idle
    rw [runArguments_run asked]
    rcases runOptions_spares _ options disk with same | ⟨names, collected, spares⟩
    · exact .inl same
    · exact .inr ⟨options, names, asked, collected, spares⟩

end Arguments

/-- A run makes no file and removes none. It changes a file only if it is asked to
fix the files of a target, the file is one of them, and there is something to fix in
it. It exits with success just if its target stands for files, no check fails, and
it is to fix the files or finds nothing to report in any of them. -/
theorem runArguments_effects (vector : List Bytes) (disk : Disk) :
    let program := programName ((wordsOf vector).head?.getD (ascii "cstyle"))
    let result := runArguments vector disk
    result.tree.files.map Prod.fst = disk.tree.files.map Prod.fst ∧
    result.tree.directories = disk.tree.directories ∧
    (∀ path content, disk.tree.content? path = some content → result.tree.content? path ≠ some content →
      ∃ options names, Command.parse ((wordsOf vector).drop 1) = some (.run options) ∧ options.mode = .fix ∧
        collect disk.tree options.target = .ok names ∧ (scan content).violations ≠ [] ∧
        ∃ name ∈ names, disk.tree.find name = .file path content) ∧
    ∀ options, Command.parse ((wordsOf vector).drop 1) = some (.run options) →
      (result.exit = 0 ∨ result.exit = 1) ∧
      (result.exit = 0 ↔ ∃ names, collect disk.tree options.target = .ok names ∧
        (∀ answer ∈ Run.answers program options (Run.start options disk) names, ∃ outcome, answer = .ok outcome) ∧
        (options.mode = .fix ∨ ∀ name ∈ names, ∃ path content, disk.tree.find name = .file path content ∧
          (scan content).violations = [])) := by
  intro program result
  have ran : ∀ options, Command.parse ((wordsOf vector).drop 1) = some (.run options) →
      runOptions program options disk = result := fun options asked => (runArguments_run asked).symm
  rcases runArguments_spares vector disk with same | ⟨options, names, asked, collected, spares⟩
  · refine ⟨by rw [same], by rw [same], ?_,
      fun options asked => ran options asked ▸ runOptions_exit program options disk⟩
    intro path content held other
    rw [same] at other
    exact absurd held other
  · refine ⟨spares.paths, spares.directories, ?_,
      fun options asked => ran options asked ▸ runOptions_exit program options disk⟩
    intro path content held other
    obtain ⟨fixing, faulty, name, member, found⟩ := spares.changed path content held other
    exact ⟨options, names, asked, fixing, collected, faulty, name, member, found⟩

/-- On a full device a run that is to fix a file fails and empties it, and a run that
only looks at it does neither. -/
theorem runArguments_effects_sample :
    let disk : Disk := ⟨sampleDisk.tree, true⟩
    let path := Path.parse (ascii "d/e/a.c")
    let fixing := runArguments [ascii "cstyle", ascii "d/", ascii "true"] disk
    let scanning := runArguments [ascii "cstyle", ascii "d/", ascii "false"] disk
    fixing.tree.content? path = some [] ∧ (scan (ascii "int* p;")).violations ≠ [] ∧ fixing.exit = 1 ∧
      scanning.tree.content? path = some (ascii "int* p;") ∧ scanning.exit = 1 := by
  intro disk path fixing scanning
  have held : disk.tree.content? path = some (ascii "int* p;") := by decide +kernel
  have emptied : fixing.tree.content? path = some [] := by decide +kernel
  have collected : collect disk.tree (ascii "d/") = .ok [ascii "d/e/a.c"] := by decide +kernel
  have asked : Command.parse ((wordsOf [ascii "cstyle", ascii "d/", ascii "true"]).drop 1) =
      some (.run { target := ascii "d/", mode := .fix }) := by decide +kernel
  have asked' : Command.parse ((wordsOf [ascii "cstyle", ascii "d/", ascii "false"]).drop 1) =
      some (.run { target := ascii "d/", mode := .scan }) := by decide +kernel
  obtain ⟨-, -, changed, exits⟩ := runArguments_effects [ascii "cstyle", ascii "d/", ascii "true"] disk
  obtain ⟨-, -, changed', exits'⟩ := runArguments_effects [ascii "cstyle", ascii "d/", ascii "false"] disk
  obtain ⟨-, -, -, -, -, faulty, -⟩ := changed path _ held (by rw [emptied]; decide)
  refine ⟨emptied, faulty, (exits _ asked).1.resolve_left ?_, ?_, (exits' _ asked').1.resolve_left ?_⟩
  · intro zero
    obtain ⟨names, same, passed, -⟩ := (exits _ asked).2.mp zero
    obtain rfl := Except.ok.inj (collected.symm.trans same)
    obtain ⟨outcome, answered⟩ := passed _ List.mem_cons_self
    have failed : disk.answer .fix (ascii "d/e/a.c") = .error ⟨ascii "d/e/a.c", .cannotWrite⟩ := by decide +kernel
    rw [(Session.check_answers ..).1] at answered
    cases failed.symm.trans answered
  · by_contra other
    obtain ⟨options, -, asked'', fixing, -⟩ := changed' path _ held other
    cases asked'.symm.trans asked''
    cases fixing
  · intro zero
    obtain ⟨names, same, -, fixing | clean⟩ := (exits' _ asked').2.mp zero
    · cases fixing
    · obtain rfl := Except.ok.inj (collected.symm.trans same)
      obtain ⟨path, content, found, none⟩ := clean _ List.mem_cons_self
      obtain ⟨-, rfl, there⟩ := FileTree.find_eq_file_iff.mp found
      obtain rfl := Option.some.inj (held.symm.trans there)
      exact faulty none

end Allman
