import Allman.Proofs.CheckedDisk

/-! The buffers of a session over whole runs. Whatever is asked of a session does one
of three things to its buffers: it makes one under the next number, it gives one up, or
it leaves the numbers, names and texts in use as they are. So a number names one buffer
for good, and a buffer is what it was made as until it is given up. Writing a whole file
and checking a file are of the third kind, whether they succeed or fail. -/

namespace Allman
namespace Buffers

/-- The numbers, names and lines in use. Only the writers are left out. -/
def texts (buffers : Buffers) : List (Nat × Bytes × Lines) :=
  buffers.live.map fun entry => (entry.1, entry.2.name, entry.2.lines)

/-- Numbers count from one, those in use have been given out, and every buffer has the
lines of its text. -/
structure Sound (buffers : Buffers) : Prop where
  started : 0 < buffers.next
  numbered : ∀ entry ∈ buffers.texts, 0 < entry.1 ∧ entry.1 < buffers.next
  indexed : ∀ entry ∈ buffers.texts, entry.2.2 = Lines.ofText entry.2.2.text

section Texts
variable {buffers : Buffers} {disk : Disk} {id key : Nat} {name content : Bytes} {buffer : Buffer}

private theorem lookup_texts (buffers : Buffers) (id : Nat) :
    buffers.texts.lookup id = (buffers.find? id).map fun buffer => (buffer.name, buffer.lines) :=
  @FileTree.lookup_map_snd Nat Buffer (Bytes × Lines) _ _ _ (fun _ buffer => (buffer.name, buffer.lines)) id

private theorem mem_texts (found : buffers.find? id = some buffer) :
    (id, buffer.name, buffer.lines) ∈ buffers.texts := by
  obtain ⟨before, after, split, -⟩ := List.lookup_eq_some_iff.mp found
  rw [texts, split]
  simp

@[simp] theorem texts_add (buffers : Buffers) (buffer : Buffer) :
    (buffers.add buffer).2.texts = (buffers.next, buffer.name, buffer.lines) :: buffers.texts := rfl

private theorem texts_setWriter (buffers : Buffers) (id : Nat) (writer : Writer) :
    (buffers.setWriter id writer).texts = buffers.texts := by
  simp only [texts, setWriter, List.map_map]
  apply List.map_congr_left
  intro entry _
  simp only [Function.comp_apply]
  split <;> rfl

private theorem texts_useWriter (buffers : Buffers) (disk : Disk) (id : Nat)
    (action : Writer → Disk → Writer × Disk) : (buffers.useWriter disk id action).1.texts = buffers.texts ∧
      (buffers.useWriter disk id action).1.next = buffers.next := by
  unfold useWriter
  split
  · exact ⟨rfl, rfl⟩
  · exact ⟨texts_setWriter _ _ _, rfl⟩

theorem texts_release (buffers : Buffers) (disk : Disk) (id : Nat) :
    (buffers.release disk id).1.texts = buffers.texts.filter (·.1 ≠ id) := by
  rw [← (texts_useWriter buffers disk id Writer.close).1, texts, texts, List.filter_map]
  rfl

theorem Sound.fresh (sound : buffers.Sound) : buffers.Fresh :=
  fun _ member => (sound.numbered _ (List.mem_map_of_mem member)).2

theorem Sound.initial : ({} : Buffers).Sound := ⟨Nat.zero_lt_one, nofun, nofun⟩

theorem Sound.add (sound : buffers.Sound) (indexed : buffer.lines = Lines.ofText buffer.content) :
    (buffers.add buffer).2.Sound := by
  refine ⟨Nat.succ_pos _, ?_, ?_⟩
  · intro entry member
    rcases List.mem_cons.mp member with rfl | member
    · exact ⟨sound.started, Nat.lt_succ_self _⟩
    · have bounds := sound.numbered entry member
      exact ⟨bounds.1, Nat.lt_succ_of_lt bounds.2⟩
  · intro entry member
    rcases List.mem_cons.mp member with rfl | member
    · exact indexed
    · exact sound.indexed entry member

/-- Fewer texts under numbers that have gone on are sound. -/
theorem Sound.shrink (sound : buffers.Sound) {after : Buffers} (later : buffers.next ≤ after.next)
    (fewer : ∀ entry ∈ after.texts, entry ∈ buffers.texts) : after.Sound := by
  refine ⟨Nat.lt_of_lt_of_le sound.started later, ?_, fun entry member => sound.indexed entry (fewer entry member)⟩
  intro entry member
  have bounds := sound.numbered entry (fewer entry member)
  exact ⟨bounds.1, Nat.lt_of_lt_of_le bounds.2 later⟩

theorem Sound.lines_eq (sound : buffers.Sound) (found : buffers.find? id = some buffer) :
    buffer.lines = Lines.ofText buffer.content :=
  sound.indexed _ (mem_texts found)

theorem Sound.id_pos (sound : buffers.Sound) (found : buffers.find? id = some buffer) : 0 < id :=
  (sound.numbered _ (mem_texts found)).1

/-- The number that comes next is not in use. -/
theorem Sound.unused (sound : buffers.Sound) : buffers.find? buffers.next = none := by
  cases found : buffers.find? buffers.next with
  | none => rfl
  | some buffer => exact absurd (sound.numbered _ (mem_texts found)).2 (Nat.lt_irrefl _)

/-- Writing a whole file uses up a number and nothing else. -/
theorem writeFile_buffers (fresh : buffers.Fresh) (disk : Disk) (name content : Bytes) :
    (buffers.writeFile disk name content).2.1 = buffers.skip := by
  cases opens : Writer.open? disk name with
  | none => simp only [writeFile, openWrite, opens]
  | some opened =>
    simp only [writeFile, openWrite_eq opens, add, Buffer.ofText, useWriter_newest fresh.unused,
      release_newest_writer fresh.unused]
    rfl

end Texts

def Holds (buffers : Buffers) (id : Nat) (name text : Bytes) : Prop :=
  ∃ buffer, buffers.find? id = some buffer ∧ buffer.name = name ∧ buffer.content = text

private theorem holds_iff {buffers : Buffers} {id : Nat} {name text : Bytes} :
    buffers.Holds id name text ↔ ∃ lines, buffers.texts.lookup id = some (name, lines) ∧ lines.text = text := by
  rw [lookup_texts]
  constructor
  · rintro ⟨buffer, found, rfl, rfl⟩
    exact ⟨buffer.lines, by rw [found]; rfl, rfl⟩
  · rintro ⟨lines, held, rfl⟩
    obtain ⟨buffer, found, same⟩ := Option.map_eq_some_iff.mp held
    obtain ⟨rfl, rfl⟩ := Prod.mk.inj same
    exact ⟨buffer, found, rfl, rfl⟩

end Buffers

namespace Session
variable {session : Session} {id : Nat} {name : Bytes}

private theorem save_buffers (fresh : session.buffers.Fresh) (name old new : Bytes) :
    ∃ next, session.buffers.next ≤ next ∧ (session.save name old new).2.buffers = { session.buffers with next } := by
  unfold save
  split
  · exact ⟨_, Nat.le_refl _, rfl⟩
  · exact ⟨_, Nat.le_succ _, Buffers.writeFile_buffers fresh _ _ _⟩

section Newest
variable {next : Nat} {lines : Lines} {live : List (Nat × Buffer)}
  (newest : session.buffers = ⟨next, (id, ⟨name, lines, none⟩) :: live⟩) (unused : ∀ entry ∈ live, entry.1 ≠ id)
include newest unused

private theorem release_buffers : (session.release id).buffers = ⟨next, live⟩ := by
  simp only [release, newest, Buffers.release_newest unused]

/-- Reviewing a fixed text gives up the buffer of the text it was made from. -/
theorem reviewFixed_buffers (fresh : session.buffers.Fresh) (quiet : Bool) (path : Bytes) (fixed : FixedText) :
    (session.reviewFixed quiet path id fixed).2.buffers = ⟨next + 1, live⟩ := by
  rw [newest] at fresh
  simp only [reviewFixed, release, tell_buffers, newest, Buffers.add, Buffer.ofText,
    Buffers.release_newest fresh.unused, Buffers.release_newest unused]

private theorem fixBuffer_buffers (fresh : session.buffers.Fresh) (quiet : Bool) (path : Bytes) :
    ∃ later, next ≤ later ∧ (session.fixBuffer quiet path id).2.buffers = ⟨later, live⟩ := by
  obtain ⟨number, later, kept⟩ := save_buffers fresh path (session.buffers.content id)
    (fix (session.buffers.content id)).text
  have fresh' := fresh.later later
  rw [← kept] at fresh'
  simp only [fixBuffer]
  split
  next cause failed saved =>
    rw [saved, newest] at kept
    rw [newest] at later
    exact ⟨number, later, release_buffers kept unused⟩
  next written stored saved =>
    rw [saved] at fresh'
    rw [saved, newest] at kept
    rw [newest] at later
    exact ⟨number + 1, Nat.le_succ_of_le later, reviewFixed_buffers kept unused fresh' quiet path _⟩

end Newest

/-- A check gives up every buffer it has made, whichever way it ends. -/
theorem check_buffers (fresh : session.buffers.Fresh) (mode : Mode) (quiet : Bool) (name : Bytes) :
    ∃ next, session.buffers.next < next ∧
      (session.check mode quiet name).2.buffers = { session.buffers with next } := by
  cases found : session.disk.tree.find name with
  | directory | missing =>
    refine ⟨session.buffers.next + 1, Nat.lt_succ_self _, ?_⟩
    simp only [check, Buffers.openRead, Reader.ofName, found, Reader.readAll]
    rfl
  | file path content =>
    simp only [check, Buffers.openRead_eq _ found]
    generalize reading : ({ session with buffers := _ } : Session) = session'
    have newest : session'.buffers = ⟨session.buffers.next + 1,
        (session.buffers.next, ⟨name, Lines.ofText content, none⟩) :: session.buffers.live⟩ := by
      rw [← reading]
      rfl
    cases mode with
    | scan =>
      refine ⟨session.buffers.next + 1, Nat.lt_succ_self _, ?_⟩
      exact release_buffers ((tell_buffers ..).trans newest) fresh.unused
    | fix =>
      have fresh' : session'.buffers.Fresh := by
        rw [← reading]
        exact fresh.add _
      exact fixBuffer_buffers newest fresh.unused fresh' quiet name

end Session

inductive Event where
  | add (name text : Bytes)
  | openRead (name : Bytes)
  | openWrite (name : Bytes)
  | writeFile (name content : Bytes)
  | close (id : Nat)
  | release (id : Nat)
  | check (mode : Mode) (quiet : Bool) (name : Bytes)
  /-- Others change the disk. -/
  | elsewhere (disk : Disk)

namespace Session

/-- What an event leaves, and the number it answers with where it makes a buffer. -/
def handle (session : Session) : Event → Option Nat × Session
  | .add name text =>
    let (id, buffers) := session.buffers.add (.ofText name text)
    (some id, { session with buffers })
  | .openRead name =>
    let (answer, buffers) := session.buffers.openRead session.disk.tree name
    (answer.toOption, { session with buffers })
  | .openWrite name =>
    let (answer, buffers, disk) := session.buffers.openWrite session.disk name
    (answer.toOption, { session with buffers, disk })
  | .writeFile name content =>
    let (_, buffers, disk) := session.buffers.writeFile session.disk name content
    (none, { session with buffers, disk })
  | .close id =>
    let (buffers, disk) := session.buffers.close session.disk id
    (none, { session with buffers, disk })
  | .release id => (none, session.release id)
  | .check mode quiet name => (none, (session.check mode quiet name).2)
  | .elsewhere disk => (none, { session with disk })

def makes? (session : Session) : Event → Option (Bytes × Bytes)
  | .add name text => some (name, text)
  | .openRead name =>
    match session.disk.tree.find name with
    | .file _ content => some (name, content)
    | _ => none
  | .openWrite name => (session.disk.tree.writable? name).map fun _ => (name, [])
  | _ => none

def after (session : Session) (events : List Event) : Session :=
  events.foldl (fun session event => (session.handle event).2) session

def issued : Session → List Event → List Nat
  | _, [] => []
  | session, event :: rest => (session.handle event).1.toList ++ issued (session.handle event).2 rest

/-- What an event can do to the buffers of a session. -/
inductive Turn (session : Session) (event : Event) : Option Nat → Buffers → Prop where
  | makes {buffer : Buffer} (made : session.makes? event = some (buffer.name, buffer.content))
      (indexed : buffer.lines = Lines.ofText buffer.content) (other : ∀ id, event ≠ .release id) :
      Turn session event (some session.buffers.next) (session.buffers.add buffer).2
  | keeps {buffers : Buffers} (none : session.makes? event = none) (other : ∀ id, event ≠ .release id)
      (later : session.buffers.next ≤ buffers.next) (same : buffers.texts = session.buffers.texts) :
      Turn session event .none buffers
  | releases {id : Nat} {buffers : Buffers} (none : session.makes? event = none) (released : event = .release id)
      (later : session.buffers.next ≤ buffers.next)
      (rest : buffers.texts = session.buffers.texts.filter (·.1 ≠ id)) : Turn session event .none buffers

variable {session : Session} {event : Event} {number : Option Nat} {buffers : Buffers} {id : Nat} {name text : Bytes}
  {events : List Event}

private theorem handle_turn (sound : session.buffers.Sound) (event : Event) :
    session.Turn event (session.handle event).1 (session.handle event).2.buffers := by
  have closes (id : Nat) := session.buffers.texts_useWriter session.disk id Writer.close
  cases event with
  | add name text => exact .makes rfl rfl (fun _ => Event.noConfusion)
  | openRead name =>
    cases found : session.disk.tree.find name with
    | file path content =>
      simp only [handle, Buffers.openRead_eq _ found]
      exact .makes (by simp only [makes?, found]; rfl) rfl (fun _ => Event.noConfusion)
    | directory | missing =>
      simp only [handle, Buffers.openRead, Reader.ofName, found, Reader.readAll]
      exact .keeps (by simp only [makes?, found]) (fun _ => Event.noConfusion) (Nat.le_succ _) rfl
  | openWrite name =>
    cases place : session.disk.tree.writable? name with
    | some path =>
      simp only [handle, Buffers.openWrite, Writer.open?, place, Option.map_some]
      exact .makes (by simp only [makes?, place]; rfl) rfl (fun _ => Event.noConfusion)
    | none =>
      simp only [handle, Buffers.openWrite, Writer.open?, place, Option.map_none]
      exact .keeps (by simp only [makes?, place, Option.map_none]) (fun _ => Event.noConfusion) (Nat.le_succ _) rfl
  | writeFile name content =>
    simp only [handle, Buffers.writeFile_buffers sound.fresh]
    exact .keeps rfl (fun _ => Event.noConfusion) (Nat.le_succ _) rfl
  | close id => exact .keeps rfl (fun _ => Event.noConfusion) (Nat.le_of_eq (closes id).2.symm) (closes id).1
  | release id => exact .releases rfl rfl (Nat.le_of_eq (closes id).2.symm) (Buffers.texts_release _ _ _)
  | check mode quiet name =>
    obtain ⟨number, later, kept⟩ := check_buffers sound.fresh mode quiet name
    refine .keeps rfl (fun _ => Event.noConfusion) ?_ ?_
    · rw [handle, kept]
      exact Nat.le_of_lt later
    · rw [handle, kept]
      rfl
  | elsewhere disk => exact .keeps rfl (fun _ => Event.noConfusion) (Nat.le_refl _) rfl

private theorem Turn.next_le (turn : session.Turn event number buffers) : session.buffers.next ≤ buffers.next := by
  cases turn with
  | makes => exact Nat.le_succ _
  | keeps _ _ later => exact later
  | releases _ _ later => exact later

theorem Turn.sound (turn : session.Turn event number buffers) (sound : session.buffers.Sound) : buffers.Sound := by
  cases turn with
  | makes _ indexed => exact sound.add indexed
  | keeps _ _ later same => exact sound.shrink later fun entry member => same ▸ member
  | releases _ _ later rest => exact sound.shrink later fun entry member => (List.mem_filter.mp (rest ▸ member)).1

/-- A buffer holds what the event has made it with, or what it held before an event
that does not give it up. -/
theorem Turn.holds_iff (turn : session.Turn event number buffers) (sound : session.buffers.Sound) :
    buffers.Holds id name text ↔ number = some id ∧ session.makes? event = some (name, text) ∨
      session.buffers.Holds id name text ∧ event ≠ .release id := by
  cases turn with
  | @makes buffer made _ other =>
    have unused := sound.unused
    rw [Buffers.holds_iff, Buffers.texts_add, List.lookup_cons, made]
    by_cases here : id = session.buffers.next
    · subst here
      simp [Buffers.Holds, unused, Buffer.content]
    · rw [beq_false_of_ne here, ← Buffers.holds_iff]
      simp [Ne.symm here, other id]
  | keeps _ other _ same =>
    simp [Buffers.holds_iff, same, other id]
  | @releases key _ _ released _ rest =>
    rw [Buffers.holds_iff, Buffers.holds_iff, rest, Buffers.lookup_filter_ne, released]
    by_cases here : id = key
    · simp [here]
    · simp [here, Ne.symm here]

private theorem after_sound (sound : session.buffers.Sound) (events : List Event) :
    (session.after events).buffers.Sound := by
  induction events generalizing session with
  | nil => exact sound
  | cons event events ih => exact ih ((handle_turn sound event).sound sound)

private theorem after_next_le (sound : session.buffers.Sound) (events : List Event) :
    session.buffers.next ≤ (session.after events).buffers.next := by
  induction events generalizing session with
  | nil => exact Nat.le_refl _
  | cons event events ih =>
    have turn := handle_turn sound event
    exact Nat.le_trans turn.next_le (ih (turn.sound sound))

/-- An event that answers with a number answers with the next one and uses it up. -/
theorem Turn.number_eq (turn : session.Turn event number buffers) (answered : number = some id) :
    id = session.buffers.next ∧ session.buffers.next < buffers.next := by
  cases turn with
  | makes => exact ⟨(Option.some.inj answered).symm, Nat.lt_succ_self _⟩
  | keeps => cases answered
  | releases => cases answered

private theorem issued_between (sound : session.buffers.Sound) (member : id ∈ session.issued events) :
    session.buffers.next ≤ id ∧ id < (session.after events).buffers.next := by
  induction events generalizing session with
  | nil => cases member
  | cons event events ih =>
    have turn := handle_turn sound event
    have later := after_next_le (turn.sound sound) events
    rcases List.mem_append.mp member with now | after
    · obtain ⟨rfl, used⟩ := turn.number_eq (Option.mem_toList.mp now)
      exact ⟨Nat.le_refl _, Nat.lt_of_lt_of_le used later⟩
    · have bounds := ih (turn.sound sound) after
      exact ⟨Nat.le_trans turn.next_le bounds.1, bounds.2⟩

private theorem issued_ordered (sound : session.buffers.Sound) (events : List Event) :
    (session.issued events).Pairwise (· < ·) := by
  induction events generalizing session with
  | nil => exact .nil
  | cons event events ih =>
    have turn := handle_turn sound event
    refine List.pairwise_append.mpr ⟨?_, ih (turn.sound sound), ?_⟩
    · cases (session.handle event).1 <;> simp
    · intro first now second after
      obtain ⟨rfl, used⟩ := turn.number_eq (Option.mem_toList.mp now)
      exact Nat.lt_of_lt_of_le used (issued_between (turn.sound sound) after).1

/-- After a run a buffer holds what it did before, or what an event of the run has made
it with, unless it has been given up since. -/
theorem holds_after_iff (sound : session.buffers.Sound) :
    (session.after events).buffers.Holds id name text ↔
      session.buffers.Holds id name text ∧ .release id ∉ events ∨
      ∃ earlier event later, events = earlier ++ event :: later ∧
        ((session.after earlier).handle event).1 = some id ∧
        (session.after earlier).makes? event = some (name, text) ∧ .release id ∉ later := by
  induction events generalizing session with
  | nil => simp [after]
  | cons event events ih =>
    have turn := handle_turn sound event
    refine (ih (turn.sound sound)).trans ?_
    rw [turn.holds_iff sound, List.mem_cons, not_or]
    constructor
    · rintro (⟨⟨answered, made⟩ | ⟨held, other⟩, kept⟩ | ⟨earlier, event', later, rfl, answered⟩)
      · exact .inr ⟨[], event, events, rfl, answered, made, kept⟩
      · exact .inl ⟨held, Ne.symm other, kept⟩
      · exact .inr ⟨event :: earlier, event', later, rfl, answered⟩
    · rintro (⟨held, other, kept⟩ | ⟨earlier, event', later, split, answered, made, kept⟩)
      · exact .inl ⟨.inr ⟨held, Ne.symm other⟩, kept⟩
      · cases earlier with
        | nil =>
          obtain ⟨rfl, rfl⟩ := List.cons.inj split
          exact .inl ⟨.inl ⟨answered, made⟩, kept⟩
        | cons first earlier =>
          obtain ⟨rfl, rfl⟩ := List.cons.inj split
          exact .inr ⟨earlier, event', later, rfl, answered, made, kept⟩

end Session

/-- Over every run of events from the start of a session, the numbers answered with
count up from one and none comes twice. A buffer is in use exactly if an event has made
it and none has given it up since, and then it has the name and the text it was made
with. Positions in it are those of its text. Writing a whole file and checking a file
leave the buffers in use as they are, whatever they come to. -/
theorem session_keeps_buffers (disk : Disk) (log : Log) (events : List Event) :
    let start : Session := { disk, log }
    let session := start.after events
    (start.issued events).Pairwise (· < ·) ∧
    (∀ id ∈ start.issued events, 0 < id ∧ id < session.buffers.next) ∧
    (∀ id name text, session.buffers.Holds id name text ↔
      ∃ earlier event later, events = earlier ++ event :: later ∧
        ((start.after earlier).handle event).1 = some id ∧
        (start.after earlier).makes? event = some (name, text) ∧ .release id ∉ later) ∧
    (∀ id name text offset, session.buffers.Holds id name text →
      session.buffers.position id offset = (Lines.ofText text).position offset) ∧
    (∀ name content, (session.buffers.writeFile session.disk name content).2.1.live = session.buffers.live) ∧
    (∀ mode quiet name, (session.check mode quiet name).2.buffers.live = session.buffers.live) := by
  intro start session
  have initial : start.buffers.Sound := Buffers.Sound.initial
  have sound : session.buffers.Sound := Session.after_sound initial events
  refine ⟨Session.issued_ordered initial events, ?_, ?_, ?_, ?_, ?_⟩
  · intro id member
    have bounds := Session.issued_between initial member
    exact ⟨Nat.lt_of_lt_of_le initial.started bounds.1, bounds.2⟩
  · intro id name text
    have none : ¬ start.buffers.Holds id name text := nofun
    rw [Session.holds_after_iff initial]
    simp only [none, false_and, false_or]
  · rintro id name text offset ⟨buffer, found, -, rfl⟩
    rw [Buffers.position, found, Option.elim_some, sound.lines_eq found]
  · intro name content
    rw [Buffers.writeFile_buffers sound.fresh]
    rfl
  · intro mode quiet name
    obtain ⟨next, -, kept⟩ := Session.check_buffers sound.fresh mode quiet name
    rw [kept]

end Allman
