import Allman.Proofs.FixRun

/-! The grammar of the command line. Its clauses can be told apart by the argument
that each starts with, so arguments can be read as clauses in one way only, and
reading stops at the same place however it is done. What stands there decides:
nothing, a call for help or for the version, or something that makes no sense. -/

namespace Allman
namespace Command

/-- What an argument, or an option with its value, says. -/
inductive Clause where
  | quiet
  | colour (mode : ColourMode)
  | word (argument : Bytes)
deriving DecidableEq

/-- An argument that is no option: it is empty, a dash on its own, or starts with no dash. -/
def IsWord (argument : Bytes) : Prop :=
  argument = [] ∨ argument = ascii "-" ∨ argument.head? ≠ some Byte.minus

namespace Clause

def word? : Clause → Option Bytes
  | .word argument => some argument
  | _ => none

def colour? : Clause → Option ColourMode
  | .colour mode => some mode
  | _ => none

inductive Written : Clause → List Bytes → Prop
  | short : Written quiet [ascii "-q"]
  | long : Written quiet [ascii "--quiet"]
  | auto : Written (.colour .auto) [ascii "--color", ascii "auto"]
  | always : Written (.colour .always) [ascii "--color", ascii "always"]
  | never : Written (.colour .never) [ascii "--color", ascii "never"]
  | word {argument : Bytes} (plain : IsWord argument) : Written (.word argument) [argument]

end Clause

/-- The arguments start with these clauses, one after the other, and `rest` is left. -/
inductive LeadsWith : List Bytes → List Clause → List Bytes → Prop
  | nothing (rest : List Bytes) : LeadsWith rest [] rest
  | clause {first : Clause} {written behind rest : List Bytes} {others : List Clause}
      (here : first.Written written) (later : LeadsWith behind others rest) :
      LeadsWith (written ++ behind) (first :: others) rest

/-- The longest part at the front of the arguments that is made of clauses is made of
these, and `rest` is left. -/
structure LeadsFurthest (arguments : List Bytes) (clauses : List Clause) (rest : List Bytes) : Prop where
  leads : LeadsWith arguments clauses rest
  furthest : ∀ others left, LeadsWith arguments others left → rest.length ≤ left.length

/-- The same letter, whether upper or lower case; other bytes are only the same as themselves. -/
def SameLetter (a b : UInt8) : Prop :=
  a = b ∨ (Byte.isUpper a = true ∧ a + 0x20 = b) ∨ (Byte.isUpper b = true ∧ b + 0x20 = a)

def modeWord : Mode → Bytes
  | .fix => ascii "true"
  | .scan => ascii "false"

/-- What the arguments ask for by the grammar. -/
inductive Asks (arguments : List Bytes) : Command → Prop
  | help {clauses : List Clause} {argument : Bytes} {rest : List Bytes}
      (leads : LeadsFurthest arguments clauses (argument :: rest))
      (called : argument = ascii "-h" ∨ argument = ascii "--help") : Asks arguments help
  | version {clauses : List Clause} {rest : List Bytes}
      (leads : LeadsFurthest arguments clauses (ascii "--version" :: rest)) : Asks arguments version
  | run {clauses : List Clause} {answer : Bytes} {options : Options}
      (leads : LeadsWith arguments clauses [])
      (words : clauses.filterMap Clause.word? = [options.target, answer])
      (mode : List.Forall₂ SameLetter answer (modeWord options.mode))
      (quiet : options.quiet = true ↔ Clause.quiet ∈ clauses)
      (colour : options.colour = (clauses.filterMap Clause.colour?).getLastD .auto) : Asks arguments (run options)

section Words
variable {a b : UInt8} {argument answer lower : Bytes} {mode : Mode}

private theorem sameLetter_iff (small : Byte.isLower b = true) : SameLetter a b ↔ Byte.toLower a = b := by
  have notUpper : ∀ c, Byte.isLower c = true → Byte.isUpper c = false := by
    intro c
    simp only [Byte.isLower, Byte.isUpper, Bool.and_eq_true, decide_eq_true_eq, Bool.and_eq_false_iff,
      decide_eq_false_iff_not, UInt8.le_iff_toNat_le, UInt8.reduceToNat]
    omega
  have other := notUpper b small
  unfold SameLetter Byte.toLower
  by_cases upper : Byte.isUpper a = true
  · have different : a ≠ b := by
      intro same
      rw [same, other] at upper
      cases upper
    simp [upper, other, different]
  · simp [upper, other]

private theorem forall₂_sameLetter_iff (small : ∀ b ∈ lower, Byte.isLower b = true) :
    List.Forall₂ SameLetter answer lower ↔ answer.map Byte.toLower = lower := by
  induction lower generalizing answer with
  | nil => simp
  | cons b lower ih =>
    cases answer with
    | nil => simp
    | cons a answer =>
      have letter : SameLetter a b ↔ Byte.toLower a = b := sameLetter_iff (small b (by simp))
      have others := @ih answer fun c member => small c (by simp [member])
      rw [List.forall₂_cons, letter, others, List.map_cons, List.cons.injEq]

private theorem mode?_eq_some_iff : mode? answer = some mode ↔ List.Forall₂ SameLetter answer (modeWord mode) := by
  have small : ∀ mode, ∀ b ∈ modeWord mode, Byte.isLower b = true := by
    intro mode
    cases mode <;> decide +kernel
  rw [forall₂_sameLetter_iff (small mode), mode?]
  by_cases fixes : answer.map Byte.toLower = ascii "true"
  · rw [if_pos fixes, fixes]
    cases mode <;> decide
  · rw [if_neg fixes]
    by_cases scans : answer.map Byte.toLower = ascii "false"
    · rw [if_pos scans, scans]
      cases mode <;> decide
    · rw [if_neg scans]
      cases mode with
      | fix => simpa [modeWord] using fixes
      | scan => simpa [modeWord] using scans

private theorem isWord_iff : IsWord argument ↔ looksLikeOption argument = false := by
  match argument with
  | [] => simp [IsWord, looksLikeOption]
  | [c] => simp [IsWord, looksLikeOption, show ascii "-" = [Byte.minus] by rfl, em]
  | c :: d :: rest => simp [IsWord, looksLikeOption, show ascii "-" = [Byte.minus] by rfl]

/-- No word is spelt like an option. -/
theorem IsWord.ne_option (plain : IsWord argument) {option : Bytes} (dashed : looksLikeOption option = true) :
    argument ≠ option := by
  intro same
  rw [isWord_iff, same, dashed] at plain
  cases plain

private theorem ofName?_eq_some_iff {name : Bytes} {mode : ColourMode} :
    ColourMode.ofName? name = some mode ↔ mode.name = name := by
  constructor
  · intro found
    have named := List.find?_some found
    exact beq_iff_eq.mp named
  · intro same
    subst same
    cases mode <;> decide

end Words

section Reading
variable {first other : Clause} {clauses others : List Clause} {colour : ColourMode} {quiet : Bool}
  {arguments words written written' behind behind' rest left : List Bytes}

private theorem Clause.written_colour_iff {mode : ColourMode} :
    (Clause.colour mode).Written written ↔ written = [ascii "--color", mode.name] := by
  constructor
  · intro here
    cases here <;> rfl
  · rintro rfl
    cases mode with
    | auto => exact .auto
    | always => exact .always
    | never => exact .never

/-- The first argument of a clause tells how many others belong to it. -/
theorem Clause.Written.shape (here : first.Written written) : ∃ argument more,
    written = argument :: more ∧ more.length = if argument = ascii "--color" then 1 else 0 := by
  cases here with
  | short => exact ⟨_, _, rfl, by decide⟩
  | long => exact ⟨_, _, rfl, by decide⟩
  | auto | always | never => exact ⟨_, _, rfl, rfl⟩
  | word plain => exact ⟨_, _, rfl, by rw [if_neg (plain.ne_option (by decide))]; rfl⟩

theorem Clause.Written.unique (here : first.Written written) (here' : other.Written written')
    (same : written ++ behind = written' ++ behind') : written = written' ∧ behind = behind' := by
  obtain ⟨argument, more, rfl, count⟩ := here.shape
  obtain ⟨argument', more', rfl, count'⟩ := here'.shape
  obtain ⟨rfl, others⟩ := List.cons.inj same
  obtain ⟨rfl, rfl⟩ := List.append_inj others (count.trans count'.symm)
  exact ⟨rfl, rfl⟩

/-- No clause stands first. -/
def Stuck (arguments : List Bytes) : Prop :=
  ∀ (clause : Clause) (written behind : List Bytes), clause.Written written → arguments ≠ written ++ behind

/-- Where no clause is left, no other reading gets any further. -/
theorem LeadsWith.furthest (leads : LeadsWith arguments clauses rest) (stuck : Stuck rest)
    (leads' : LeadsWith arguments others left) : rest.length ≤ left.length := by
  induction leads generalizing others left with
  | nothing rest =>
    cases leads' with
    | nothing => exact Nat.le_refl _
    | clause here' _ => exact absurd rfl (stuck _ _ _ here')
  | @clause first written behind rest others here later ih =>
    generalize whole : written ++ behind = arguments at leads'
    cases leads' with
    | nothing =>
      have shorter : rest.length ≤ behind.length := ih stuck (.nothing behind)
      rw [← whole, List.length_append]
      exact Nat.le_add_left_of_le shorter
    | clause here' later' =>
      obtain ⟨-, rfl⟩ := here.unique here' whole
      exact ih stuck later'

private theorem exists_stuck (arguments : List Bytes) :
    ∃ clauses rest, LeadsWith arguments clauses rest ∧ Stuck rest := by
  induction size : arguments.length using Nat.strongRecOn generalizing arguments with
  | ind size ih =>
  by_cases stuck : Stuck arguments
  · exact ⟨[], arguments, .nothing arguments, stuck⟩
  · simp only [Stuck, not_forall, not_not, exists_prop] at stuck
    obtain ⟨clause, written, behind, here, rfl⟩ := stuck
    obtain ⟨argument, more, rfl, -⟩ := here.shape
    obtain ⟨clauses, rest, later, stuck⟩ := ih behind.length (by simp at size; omega) behind rfl
    exact ⟨clause :: clauses, rest, .clause here later, stuck⟩

/-- What one clause adds to what has been read before it. -/
theorem Clause.Written.parseFrom_append (here : first.Written written) (colour : ColourMode) (quiet : Bool)
    (words behind : List Bytes) : parseFrom colour quiet words (written ++ behind) =
      parseFrom (first.colour?.getD colour) (quiet || first = .quiet) (words ++ first.word?.toList) behind := by
  cases first with
  | quiet =>
    cases here with
    | short | long =>
      rw [List.singleton_append, parseFrom.eq_def]
      simp +decide [Clause.colour?, Clause.word?]
  | colour mode =>
    obtain rfl := Clause.written_colour_iff.mp here
    have named : ColourMode.ofName? mode.name = some mode := ofName?_eq_some_iff.mpr rfl
    rw [List.cons_append, List.singleton_append, parseFrom.eq_def]
    simp +decide [Clause.colour?, Clause.word?, named]
  | word argument =>
    cases here with
    | word plain =>
      have other : ∀ option ∈ [ascii "-h", ascii "--help", ascii "--version", ascii "-q", ascii "--quiet",
          ascii "--color"], argument ≠ option := by
        intro option member
        apply plain.ne_option
        revert option
        decide
      simp only [List.forall_mem_cons] at other
      rw [List.singleton_append, parseFrom.eq_def]
      simp [Clause.colour?, Clause.word?, isWord_iff.mp plain, other]

/-- What a row of clauses adds. -/
theorem LeadsWith.parseFrom_eq (leads : LeadsWith arguments clauses rest) (colour : ColourMode) (quiet : Bool)
    (words : List Bytes) : parseFrom colour quiet words arguments =
      parseFrom ((clauses.filterMap Clause.colour?).getLastD colour) (quiet || Clause.quiet ∈ clauses)
        (words ++ clauses.filterMap Clause.word?) rest := by
  induction leads generalizing colour quiet words with
  | nothing rest => simp
  | @clause first written behind rest others here later ih =>
    rw [here.parseFrom_append, ih]
    cases first with
    | quiet => simp [List.filterMap_cons, Clause.colour?, Clause.word?]
    | colour mode =>
      simp only [List.filterMap_cons, Clause.colour?, Clause.word?, List.getLastD_cons, Option.getD_some,
        Option.toList_none, List.append_nil, reduceCtorEq, decide_false, Bool.or_false, List.mem_cons, false_or]
    | word argument => simp [List.filterMap_cons, Clause.colour?, Clause.word?]

private theorem parseFrom_nil_eq_some_iff {command : Command} : parseFrom colour quiet words [] = some command ↔
    ∃ target answer mode, words = [target, answer] ∧ mode? answer = some mode ∧
      run { target, mode, colour, quiet } = command := by
  rw [parseFrom.eq_def]
  dsimp only
  split
  next target answer => simp [Option.map_eq_some_iff]
  next other =>
    constructor
    · intro found
      cases found
    · rintro ⟨target, answer, mode, rfl, -, -⟩
      exact absurd rfl (other target answer)

/-- What is read where no clause is left. -/
theorem Stuck.parseFrom_cons {argument : Bytes} (stuck : Stuck (argument :: rest)) (colour : ColourMode)
    (quiet : Bool) (words : List Bytes) : parseFrom colour quiet words (argument :: rest) =
      if argument = ascii "-h" ∨ argument = ascii "--help" then some help
      else if argument = ascii "--version" then some version else none := by
  have option : looksLikeOption argument = true := by
    cases dashed : looksLikeOption argument with
    | true => rfl
    | false => exact absurd rfl (stuck _ _ rest (.word (isWord_iff.mpr dashed)))
  have notShort : argument ≠ ascii "-q" := by
    intro same
    exact stuck _ _ rest .short (by rw [same]; rfl)
  have notLong : argument ≠ ascii "--quiet" := by
    intro same
    exact stuck _ _ rest .long (by rw [same]; rfl)
  rw [parseFrom.eq_def]
  simp only [notShort, notLong, option]
  by_cases coloured : argument = ascii "--color"
  · have unnamed : ∀ value behind, rest = value :: behind → ColourMode.ofName? value = none := by
      intro value behind same
      cases named : ColourMode.ofName? value with
      | none => rfl
      | some mode =>
        refine absurd ?_ (stuck (.colour mode) _ behind (Clause.written_colour_iff.mpr rfl))
        rw [coloured, same, ofName?_eq_some_iff.mp named]
        rfl
    cases rest with
    | nil => simp +decide [coloured]
    | cons value behind => simp +decide [coloured, unnamed value behind rfl]
  · simp [coloured]

end Reading

private theorem parse_iff_asks {arguments : List Bytes} {command : Command} :
    parse arguments = some command ↔ Asks arguments command := by
  constructor
  · intro parsed
    obtain ⟨clauses, rest, leads, stuck⟩ := exists_stuck arguments
    have furthest : LeadsFurthest arguments clauses rest := ⟨leads, fun _ _ => leads.furthest stuck⟩
    rw [parse, leads.parseFrom_eq] at parsed
    cases rest with
    | cons argument rest =>
      rw [stuck.parseFrom_cons] at parsed
      split at parsed
      next called =>
        cases parsed
        exact .help furthest called
      next =>
        split at parsed
        next called =>
          cases parsed
          exact .version (called ▸ furthest)
        next => cases parsed
    | nil =>
      obtain ⟨target, answer, mode, words, answered, rfl⟩ := parseFrom_nil_eq_some_iff.mp parsed
      exact .run leads words (mode?_eq_some_iff.mp answered) (by simp) rfl
  · intro asks
    cases asks with
    | help leads called =>
      rw [parse, leads.leads.parseFrom_eq, parseFrom.eq_def]
      rcases called with rfl | rfl <;> simp
    | version leads =>
      rw [parse, leads.leads.parseFrom_eq, parseFrom.eq_def]
      simp +decide
    | @run clauses answer options leads words mode quiet colour =>
      rw [parse, leads.parseFrom_eq, parseFrom_nil_eq_some_iff]
      refine ⟨options.target, answer, options.mode, words, mode?_eq_some_iff.mpr mode, ?_⟩
      have silent : (false || decide (Clause.quiet ∈ clauses)) = options.quiet := by
        rw [Bool.false_or, Bool.eq_iff_iff, decide_eq_true_iff, quiet]
      rw [silent, ← colour]

end Command

private theorem usage_starts (program : Bytes) :
    ascii "usage: " ++ program ++ ascii " [options] <file_or_directory> <fix:true|false>\n" <+: usage program := by
  simp only [usage, List.append_assoc, List.prefix_append_right_inj]
  exact List.IsPrefix.trans ⟨ascii "\n", rfl⟩ (List.prefix_append _ _)

/-- The command line is read by its grammar. Options may stand anywhere among the
words, a call for help or for the version counts where the clauses before it end,
and whatever else the arguments are, the program only shows how it is used. -/
theorem commandLine_grammar :
    (∀ arguments command, Command.parse arguments = some command ↔ Command.Asks arguments command) ∧
    ∀ vector disk, (∀ command, ¬ Command.Asks ((wordsOf vector).drop 1) command) →
      let program := programName ((wordsOf vector).head?.getD (ascii "cstyle"))
      Command.parse ((wordsOf vector).drop 1) = none ∧
        runArguments vector disk = { exit := 1, errors := usage program, tree := disk.tree } ∧
        ascii "usage: " ++ program ++ ascii " [options] <file_or_directory> <fix:true|false>\n" <+:
          (runArguments vector disk).errors := by
  refine ⟨fun _ _ => Command.parse_iff_asks, ?_⟩
  intro vector disk senseless program
  have refused : Command.parse ((wordsOf vector).drop 1) = none := by
    apply Option.eq_none_iff_forall_ne_some.mpr
    intro command parsed
    exact senseless command (Command.parse_iff_asks.mp parsed)
  have result : runArguments vector disk = { exit := 1, errors := usage program, tree := disk.tree } := by
    unfold wordsOf at refused
    simp only [runArguments, refused]
    rfl
  refine ⟨refused, result, ?_⟩
  rw [result]
  exact usage_starts program

/-- An option between the words is read, and a call for help is no colour. -/
theorem commandLine_grammar_colours :
    Command.Asks [ascii "a.c", ascii "--color", ascii "never", ascii "-q", ascii "TRUE"]
      (.run { target := ascii "a.c", mode := .fix, colour := .never, quiet := true }) ∧
    (∀ command, ¬ Command.Asks [ascii "a.c", ascii "--color", ascii "-h"] command) ∧
    let result := runArguments [ascii "cstyle", ascii "a.c", ascii "--color", ascii "-h"] { tree := FileTree.empty }
    result.exit = 1 ∧ result.output = [] ∧ ascii "usage: cstyle [options]" <+: result.errors := by
  obtain ⟨grammar, usage⟩ := commandLine_grammar
  have senseless : ∀ command, ¬ Command.Asks [ascii "a.c", ascii "--color", ascii "-h"] command := by
    intro command asks
    have parsed := (grammar _ command).mpr asks
    rw [show Command.parse [ascii "a.c", ascii "--color", ascii "-h"] = none by decide +kernel] at parsed
    cases parsed
  refine ⟨(grammar _ _).mp (by decide +kernel), senseless, ?_⟩
  have words : (wordsOf [ascii "cstyle", ascii "a.c", ascii "--color", ascii "-h"]).drop 1 =
      [ascii "a.c", ascii "--color", ascii "-h"] := by decide +kernel
  obtain ⟨-, result, starts⟩ :=
    usage [ascii "cstyle", ascii "a.c", ascii "--color", ascii "-h"] { tree := FileTree.empty } (words ▸ senseless)
  refine ⟨by rw [result], by rw [result], ?_⟩
  exact List.IsPrefix.trans (by decide +kernel) starts

end Allman
