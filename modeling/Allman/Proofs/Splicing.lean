import Mathlib.Algebra.Order.Ring.Int
import Allman.Edit
import Allman.Word

/-! Applying edits is splicing. The text in hand is always a finished part followed
by the untouched rest of the original, and the running shift says how far the
border between the two has moved. Every offset an edit is applied at follows from
that one invariant, so nothing is ever replaced outside the text. -/

namespace Allman

theorem slice_append_drop (text : Bytes) {start stop : Nat} (ordered : start ≤ stop) :
    slice text start stop ++ text.drop stop = text.drop start := by
  have rest : text.drop stop = (text.drop start).drop (stop - start) := by
    rw [List.drop_drop, Nat.add_sub_cancel' ordered]
  rw [slice, rest, List.take_append_drop]

theorem slice_append_slice (text : Bytes) {start middle stop : Nat} (before : start ≤ middle) (after : middle ≤ stop) :
    slice text start middle ++ slice text middle stop = slice text start stop := by
  have rest : text.drop middle = (text.drop start).drop (middle - start) := by
    rw [List.drop_drop, Nat.add_sub_cancel' before]
  rw [slice, slice, slice, rest, ← List.take_add]
  congr 1
  omega

namespace Edit

/-- The edit lies inside a text of the given length and does not start before `settled`. -/
def Fits (length settled : Nat) (edit : Edit) : Prop :=
  edit.start ≤ edit.stop ∧ edit.stop ≤ length ∧ settled ≤ edit.start

instance (length settled : Nat) (edit : Edit) : Decidable (edit.Fits length settled) :=
  inferInstanceAs (Decidable (_ ∧ _))

/-- The entries that are taken from left to right: an edit is taken if it lies
inside the text and does not start before the end of the last one taken. -/
def kept (length : Nat) : Nat → List (Edit × Nat) → List (Edit × Nat)
  | _, [] => []
  | settled, entry :: rest =>
    if entry.1.Fits length settled then entry :: kept length entry.1.stop rest
    else kept length settled rest

def replaceIn (edit : Edit) (text : Bytes) : Bytes :=
  text.take edit.start ++ edit.replacement ++ text.drop edit.stop

/-- The text from `offset` on with the stretches of the edits replaced and
everything between them copied. -/
def splice (text : Bytes) : Nat → List Edit → Bytes
  | offset, [] => text.drop offset
  | offset, edit :: rest =>
    slice text offset edit.start ++ edit.replacement ++ splice text edit.stop rest

theorem splice_eq_slice_append {text : Bytes} {offset next : Nat} {edits : List Edit} (forward : offset ≤ next)
    (later : ∀ edit ∈ edits, next ≤ edit.start) :
    splice text offset edits = slice text offset next ++ splice text next edits := by
  cases edits with
  | nil => exact (slice_append_drop text forward).symm
  | cons edit rest =>
    simp only [splice, ← List.append_assoc, slice_append_slice text forward (later edit (by simp))]

def Ordered (length : Nat) : Nat → List Edit → Prop
  | _, [] => True
  | settled, edit :: rest => edit.Fits length settled ∧ Ordered length edit.stop rest

private theorem kept_ordered (length settled : Nat) (entries : List (Edit × Nat)) :
    Ordered length settled ((kept length settled entries).map Prod.fst) := by
  induction entries generalizing settled with
  | nil => trivial
  | cons entry rest ih =>
    unfold kept
    split
    next fits => exact ⟨fits, ih _⟩
    next => exact ih _

private theorem kept_of_ordered {length settled : Nat} {entries : List (Edit × Nat)}
    (ordered : Ordered length settled (entries.map Prod.fst)) : kept length settled entries = entries := by
  induction entries generalizing settled with
  | nil => rfl
  | cons entry rest ih =>
    obtain ⟨fits, later⟩ := ordered
    rw [kept, if_pos fits, ih later]

private theorem kept_sublist (length settled : Nat) (entries : List (Edit × Nat)) :
    (kept length settled entries).Sublist entries := by
  induction entries generalizing settled with
  | nil => exact .slnil
  | cons entry rest ih =>
    unfold kept
    split
    · exact (ih _).cons_cons _
    · exact (ih _).cons _

/-- Edits in order can be made one after the other from the last to the first,
each at its own offset, because none of them moves what stands before it. -/
theorem foldr_replaceIn {text : Bytes} {settled : Nat} {edits : List Edit}
    (ordered : Ordered text.length settled edits) :
    edits.foldr replaceIn text = text.take settled ++ splice text settled edits := by
  induction edits generalizing settled with
  | nil => simp [splice]
  | cons edit rest ih =>
    obtain ⟨⟨forward, inside, after⟩, later⟩ := ordered
    have untouched : (edit.replaceIn (rest.foldr replaceIn text)) =
        text.take edit.start ++ edit.replacement ++ splice text edit.stop rest := by
      rw [ih later, replaceIn, List.take_append_of_le_length (by simp; omega), List.take_take,
        List.drop_left' (by simp; omega), Nat.min_eq_left forward]
    have split : text.take edit.start = text.take settled ++ slice text settled edit.start := by
      rw [slice, ← List.take_add, Nat.add_sub_cancel' after]
    rw [List.foldr_cons, untouched, split, splice]
    simp only [List.append_assoc]

end Edit

namespace Revision

/-- A revision in the middle of a run: `written` is finished, the original stands
unchanged from `settled` on, and the shift is the distance between the two ends. -/
structure Halfway (text : Bytes) (settled : Nat) (written : Bytes) (revision : Revision) : Prop where
  text_eq : revision.text = written ++ text.drop settled
  length_eq : (written.length : Int) = settled + revision.shift
  settled_eq : revision.settled.getD 0 = settled
  inside : settled ≤ text.length

variable {text written : Bytes} {settled : Nat} {revision : Revision}

theorem Halfway.initial (text : Bytes) : Halfway text 0 [] { text } :=
  ⟨rfl, rfl, rfl, Nat.zero_le _⟩

private theorem Halfway.accepts_iff (halfway : Halfway text settled written revision) (edit : Edit) :
    revision.accepts text.length edit = true ↔ edit.Fits text.length settled := by
  have reached : revision.settled.all (· ≤ edit.start) = true ↔ settled ≤ edit.start := by
    rw [← halfway.settled_eq]
    cases revision.settled <;> simp
  simp only [accepts, Bool.and_eq_true, decide_eq_true_eq, reached, Edit.Fits, and_assoc]

/-- An edit that fits is made behind the finished part and inside the text in hand. -/
theorem Halfway.place (halfway : Halfway text settled written revision) {edit : Edit}
    (fits : edit.Fits text.length settled) :
    (edit.start + revision.shift : Int) = written.length + (edit.start - settled : Nat) ∧
    (edit.start + revision.shift + (edit.stop - edit.start : Nat) : Int) ≤ revision.text.length := by
  obtain ⟨forward, inside, after⟩ := fits
  have length := halfway.length_eq
  rw [halfway.text_eq, List.length_append, List.length_drop]
  omega

theorem Halfway.apply (halfway : Halfway text settled written revision) {edit : Edit}
    (fits : edit.Fits text.length settled) :
    Halfway text edit.stop (written ++ slice text settled edit.start ++ edit.replacement)
      (revision.apply edit) := by
  obtain ⟨forward, inside, after⟩ := fits
  have place := (halfway.place ⟨forward, inside, after⟩).1
  have before : (edit.start + revision.shift).toNat = written.length + (edit.start - settled) := by omega
  refine ⟨?_, ?_, rfl, inside⟩
  · have skipped : edit.start - settled + (edit.stop - edit.start) = edit.stop - settled := by omega
    simp only [Revision.apply, before, halfway.text_eq, List.take_length_add_append, Nat.add_assoc, skipped,
      List.drop_length_add_append, List.drop_drop, Nat.add_sub_cancel' (Nat.le_trans after forward), slice,
      List.append_assoc]
  · have length := halfway.length_eq
    have room : (slice text settled edit.start).length = edit.start - settled := by
      simp only [slice, List.length_take, List.length_drop]
      omega
    simp only [Revision.apply, List.length_append, room]
    omega

/-- One entry either extends the finished part by what the splice puts there, or
is set aside without a trace in the text. -/
theorem Halfway.step (halfway : Halfway text settled written revision) (entry : Edit × Nat) :
    (entry.1.Fits text.length settled ∧ revision.step text.length entry = revision.apply entry.1) ∨
    (¬ entry.1.Fits text.length settled ∧
      revision.step text.length entry = { revision with rejected := entry.2 :: revision.rejected }) := by
  unfold Revision.step
  by_cases fits : entry.1.Fits text.length settled
  · exact .inl ⟨fits, if_pos ((halfway.accepts_iff _).mpr fits)⟩
  · exact .inr ⟨fits, if_neg fun accepted => fits ((halfway.accepts_iff _).mp accepted)⟩

private theorem Halfway.reject (halfway : Halfway text settled written revision) (index : Nat) :
    Halfway text settled written { revision with rejected := index :: revision.rejected } :=
  ⟨halfway.text_eq, halfway.length_eq, halfway.settled_eq, halfway.inside⟩

theorem Halfway.foldl (entries : List (Edit × Nat)) :
    ∀ {settled : Nat} {written : Bytes} {revision : Revision}, Halfway text settled written revision →
    let final := entries.foldl (Revision.step text.length) revision
    let taken := Edit.kept text.length settled entries
    (∃ settled' written', Halfway text settled' written' final) ∧
    final.text = written ++ Edit.splice text settled (taken.map Prod.fst) ∧
    final.applied = revision.applied + taken.length := by
  induction entries with
  | nil =>
    intro settled written revision halfway
    exact ⟨⟨_, _, halfway⟩, halfway.text_eq, rfl⟩
  | cons entry rest ih =>
    intro settled written revision halfway
    rcases halfway.step entry with ⟨fits, step⟩ | ⟨misfit, step⟩
    · obtain ⟨run, text_eq, applied⟩ := ih (halfway.apply fits)
      simp only [List.foldl_cons, step, Edit.kept, if_pos fits, List.map_cons, Edit.splice, List.length_cons]
      refine ⟨run, ?_, ?_⟩
      · rw [text_eq]
        simp only [List.append_assoc]
      · rw [applied]
        simp only [Revision.apply]
        omega
    · obtain ⟨run, text_eq, applied⟩ := ih (halfway.reject entry.2)
      simp only [List.foldl_cons, step, Edit.kept, if_neg misfit]
      exact ⟨run, text_eq, applied⟩

/-- The edits set aside are those not taken, in the order of the list. -/
theorem Halfway.foldl_rejected (entries : List (Edit × Nat)) (distinct : (entries.map Prod.snd).Nodup) :
    ∀ {settled : Nat} {written : Bytes} {revision : Revision}, Halfway text settled written revision →
    (entries.foldl (Revision.step text.length) revision).rejected.reverse = revision.rejected.reverse ++
      (entries.map Prod.snd).filter (· ∉ (Edit.kept text.length settled entries).map Prod.snd) := by
  induction entries with
  | nil => intros; simp
  | cons entry rest ih =>
    intro settled written revision halfway
    obtain ⟨fresh, distinct⟩ := List.nodup_cons.mp distinct
    rcases halfway.step entry with ⟨fits, step⟩ | ⟨misfit, step⟩
    · have others : ∀ index ∈ rest.map Prod.snd, index ≠ entry.2 := fun index member same => fresh (same ▸ member)
      simp only [List.foldl_cons, step, Edit.kept, if_pos fits, List.map_cons]
      rw [ih distinct (halfway.apply fits)]
      simp only [Revision.apply, List.mem_cons, List.filter_cons, true_or, not_true_eq_false, decide_false,
        Bool.false_eq_true, if_false]
      congr 1
      exact List.filter_congr fun index member => by simp [others index member]
    · have dropped : entry.2 ∉ (Edit.kept text.length settled rest).map Prod.snd :=
        fun member => fresh ((Edit.kept_sublist _ _ rest).map Prod.snd |>.mem member)
      simp only [List.foldl_cons, step, Edit.kept, if_neg misfit, List.map_cons]
      rw [ih distinct (halfway.reject entry.2)]
      simp [dropped]

private theorem shift_foldl_le (length : Nat) (entries : List (Edit × Nat)) (revision : Revision) :
    (entries.foldl (Revision.step length) revision).shift ≤
      revision.shift + (entries.map (·.1.replacement.length)).sum := by
  induction entries generalizing revision with
  | nil => simp
  | cons entry rest ih =>
    have later := ih (revision.step length entry)
    have now : (revision.step length entry).shift ≤ revision.shift + entry.1.replacement.length := by
      unfold Revision.step
      split
      · simp only [Revision.apply]
        omega
      · simp only
        omega
    simp only [List.foldl_cons, List.map_cons, List.sum_cons]
    omega

end Revision

/-- Where the edits come in the order of their starts, one that lies inside the
text is set aside only because it starts inside one that was taken. -/
theorem Edit.starts_inside_kept {length settled : Nat} {entries : List (Edit × Nat)} {entry : Edit × Nat}
    (sorted : entries.Pairwise (·.1.start ≤ ·.1.start)) (member : entry ∈ entries)
    (dropped : entry.2 ∉ (kept length settled entries).map Prod.snd)
    (forward : entry.1.start ≤ entry.1.stop) (inside : entry.1.stop ≤ length) :
    entry.1.start < settled ∨ ∃ taken ∈ (kept length settled entries).map Prod.fst,
      taken.start ≤ entry.1.start ∧ entry.1.start < taken.stop := by
  induction entries generalizing settled with
  | nil => cases member
  | cons first rest ih =>
    obtain ⟨before, sorted⟩ := List.pairwise_cons.mp sorted
    unfold kept at dropped ⊢
    split at dropped
    next fits =>
      rw [if_pos fits]
      simp only [List.map_cons, List.mem_cons, not_or] at dropped
      rcases List.mem_cons.mp member with rfl | member
      · exact absurd rfl dropped.1
      · refine .inr ?_
        rcases ih sorted member dropped.2 with overlaps | ⟨taken, chosen, covers⟩
        · exact ⟨first.1, by simp, before entry member, overlaps⟩
        · exact ⟨taken, by simp only [List.map_cons, List.mem_cons, chosen, or_true], covers⟩
    next misfit =>
      rw [if_neg misfit]
      rcases List.mem_cons.mp member with rfl | member
      · exact .inl (Nat.lt_of_not_le fun after => misfit ⟨forward, inside, after⟩)
      · exact ih sorted member dropped

private theorem applyEdits_text (text : Bytes) (edits : List Edit) :
    (applyEdits text edits).text =
      Edit.splice text 0 ((Edit.kept text.length 0 edits.zipIdx).map Prod.fst) :=
  ((Revision.Halfway.initial text).foldl edits.zipIdx).2.1

private theorem applyEdits_rejected (text : Bytes) (edits : List Edit) :
    (applyEdits text edits).rejected = (List.range edits.length).filter
      (· ∉ (Edit.kept text.length 0 edits.zipIdx).map Prod.snd) := by
  have indices : edits.zipIdx.map Prod.snd = List.range edits.length := by
    simp [List.range_eq_range']
  have run := (Revision.Halfway.initial text).foldl_rejected edits.zipIdx (indices ▸ List.nodup_range)
  rw [indices] at run
  exact run

theorem applyEdits_of_ordered {text : Bytes} {edits : List Edit} (ordered : Edit.Ordered text.length 0 edits) :
    (applyEdits text edits).text = Edit.splice text 0 edits ∧ (applyEdits text edits).rejected = [] := by
  have all : Edit.kept text.length 0 edits.zipIdx = edits.zipIdx := Edit.kept_of_ordered (by simpa using ordered)
  rw [applyEdits_text, applyEdits_rejected, all]
  exact ⟨by simp, by simp [List.range_eq_range']⟩

/-- The place of an edit as 64-bit words give it: the start plus the shift, the
shift being a word that stands for a negative number when it is large. -/
def Revision.wordPlace (revision : Revision) (edit : Edit) : Nat :=
  Word.add edit.start (revision.shift % Word.size).toNat

/-- The edit can be made where the running shift puts it: the stretch it replaces
lies in the text in hand, and the arithmetic of signed 64-bit words finds it. -/
structure Revision.Reaches (revision : Revision) (edit : Edit) : Prop where
  start_nonneg : 0 ≤ edit.start + revision.shift
  stop_le : (edit.start + revision.shift).toNat + (edit.stop - edit.start) ≤ revision.text.length
  shift_word : -(2 : Int) ^ 63 < revision.shift ∧ revision.shift < 2 ^ 63
  word_eq : revision.wordPlace edit = (edit.start + revision.shift).toNat

theorem Revision.Halfway.reaches {text written : Bytes} {settled : Nat} {revision : Revision} {edit : Edit}
    (halfway : Revision.Halfway text settled written revision) (fits : edit.Fits text.length settled)
    (small : text.length < 2 ^ 63) (grown : revision.shift + text.length < 2 ^ 63) :
    revision.Reaches edit := by
  obtain ⟨place, room⟩ := halfway.place fits
  have length := halfway.length_eq
  have inside := halfway.inside
  obtain ⟨forward, within, after⟩ := fits
  refine ⟨by omega, by omega, by omega, ?_⟩
  simp only [Revision.wordPlace, Word.add, Word.size]
  omega

/-- Applying edits takes those that fit from left to right, sets the others aside,
and gives what making the taken ones from the last to the first at their own
offsets gives: the replacements with the text between them. No edit is ever made
outside the text in hand. If the edits come in the order of their starts, an edit
inside the text is set aside only if it starts inside one that was taken. -/
theorem applyEdits_splices (text : Bytes) (edits : List Edit)
    (small : text.length + (edits.map (·.replacement.length)).sum < 2 ^ 63) :
    let entries := Edit.kept text.length 0 edits.zipIdx
    let taken := entries.map Prod.fst
    let result := applyEdits text edits
    result.applied = taken.length ∧
    result.rejected = (List.range edits.length).filter (· ∉ entries.map Prod.snd) ∧
    (∀ done edit rest, edits = done ++ edit :: rest →
      let revision := done.zipIdx.foldl (Revision.step text.length) { text }
      revision.accepts text.length edit → revision.Reaches edit) ∧
    result.text = taken.foldr Edit.replaceIn text ∧
    result.text = Edit.splice text 0 taken ∧
    (edits.Pairwise (·.start ≤ ·.start) → ∀ index ∈ result.rejected, ∀ edit, edits[index]? = some edit →
      edit.start ≤ edit.stop → edit.stop ≤ text.length →
      ∃ other ∈ taken, other.start ≤ edit.start ∧ edit.start < other.stop) := by
  have initial := Revision.Halfway.initial text
  intro entries taken result
  have made : result.text = taken.foldr Edit.replaceIn text := by
    rw [Edit.foldr_replaceIn (Edit.kept_ordered text.length 0 edits.zipIdx)]
    exact applyEdits_text text edits
  refine ⟨?_, applyEdits_rejected text edits, ?_, made, applyEdits_text text edits, ?_⟩
  · have applied := (initial.foldl edits.zipIdx).2.2
    rw [Nat.zero_add] at applied
    rw [List.length_map]
    exact applied
  · intro done edit rest same revision accepted
    obtain ⟨settled, written, halfway⟩ := (initial.foldl done.zipIdx).1
    have fits := (halfway.accepts_iff edit).mp accepted
    have grown := Revision.shift_foldl_le text.length done.zipIdx { text }
    have replaced : done.zipIdx.map (·.1.replacement.length) = done.map (·.replacement.length) := by
      have places := congrArg (List.map fun edit : Edit => edit.replacement.length) (List.zipIdx_map_fst 0 done)
      rwa [List.map_map] at places
    rw [replaced] at grown
    change _ ≤ (0 : Int) + _ at grown
    rw [same, List.map_append, List.sum_append] at small
    exact halfway.reaches fits (by omega) (by omega)
  · intro sorted index dropped edit found forward inside
    rw [applyEdits_rejected, List.mem_filter, decide_eq_true_eq] at dropped
    have member : (edit, index) ∈ edits.zipIdx := List.mk_mem_zipIdx_iff_getElem?.mpr found
    have order : edits.zipIdx.Pairwise (·.1.start ≤ ·.1.start) := by
      rw [← List.pairwise_map (f := Prod.fst) (R := fun a b : Edit => a.start ≤ b.start), List.zipIdx_map_fst]
      exact sorted
    rcases Edit.starts_inside_kept order member dropped.2 forward inside with before | overlapped
    · exact absurd before (Nat.not_lt_zero _)
    · exact overlapped

/-- Growing, shrinking, backward and overlapping edits together: of these four, the
last is taken after the first has grown the text. The second starts inside the
first and the third is backward, so they are set aside. -/
theorem applyEdits_splices_mixed :
    let edits : List Edit := [⟨1, 2, ascii "XYZ"⟩, ⟨1, 5, []⟩, ⟨4, 3, []⟩, ⟨4, 6, []⟩]
    let result := applyEdits (ascii "abcdef") edits
    result.applied = 2 ∧ result.rejected = [1, 2] ∧ result.text = ascii "aXYZcd" ∧
    ∃ other ∈ [edits[0], edits[3]], other.start ≤ 1 ∧ 1 < other.stop := by
  intro edits result
  obtain ⟨applied, rejected, -, -, spliced, inside⟩ := applyEdits_splices (ascii "abcdef") edits (by decide)
  have dropped : 1 ∈ result.rejected := by
    rw [rejected]
    decide
  exact ⟨applied, rejected, spliced, inside (by decide) 1 dropped ⟨1, 5, []⟩ rfl (by decide) (by decide)⟩

end Allman
