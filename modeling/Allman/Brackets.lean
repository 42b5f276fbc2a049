import Allman.Token

/-! The bracket structure of a sequence of tokens. Text between preprocessor
conditionals need not be balanced, so a closing bracket takes the nearest waiting
opening bracket of its own kind and gives up those that wait inside it; a closing
bracket for which none waits changes nothing. -/

namespace Allman

/-- How one token is tied to the brackets around it. -/
structure Link where
  /-- The innermost bracket that is open around the token. A closing bracket stands
  outside the pair that it closes. -/
  parent : Option Nat := none
  /-- The opening bracket that the token closes. -/
  opener : Option Nat := none
  /-- The closing bracket of the token. -/
  closer : Option Nat := none

/-- The brackets around a token and the one it closes stand before it, and the one
that closes it stands after it. -/
structure Link.Ordered (index : Nat) (link : Link) : Prop where
  parent : ∀ outer, link.parent = some outer → outer < index
  opener : ∀ first, link.opener = some first → first < index
  closer : ∀ last, link.closer = some last → index < last

/-- Every link of a sequence is in order. -/
def Link.AllOrdered (links : Array Link) : Prop :=
  ∀ (index : Nat) (link : Link), links[index]? = some link → link.Ordered index

/-- An opening bracket that waits for its closing bracket. -/
structure Opening where
  index : Nat
  kind : TokenKind

/-- The links of a sequence of tokens, and the brackets that wait at its end, the
innermost first. -/
structure Brackets where
  links : Array Link
  waiting : List Opening
  ordered : Link.AllOrdered links
  waiting_lt : ∀ opening ∈ waiting, opening.index < links.size

namespace Brackets

def empty : Brackets where
  links := #[]
  waiting := []
  ordered := by simp [Link.AllOrdered]
  waiting_lt := by simp

theorem ordered_push {links : Array Link} {link : Link}
    (ordered : Link.AllOrdered links) (last : link.Ordered links.size) :
    Link.AllOrdered (links.push link) := by
  intro index found
  rw [Array.getElem?_push]
  split
  · rename_i same
    rintro ⟨⟩
    exact same ▸ last
  · exact ordered index found

theorem ordered_close {links : Array Link} {first last : Nat}
    (ordered : Link.AllOrdered links) (before : first < last) :
    Link.AllOrdered (links.modify first ({ · with closer := some last })) := by
  intro index link found
  rw [Array.getElem?_modify] at found
  split at found
  · rename_i same
    obtain ⟨old, present, rfl⟩ := Option.map_eq_some_iff.mp found
    have oldOrdered := ordered index old present
    refine ⟨oldOrdered.parent, oldOrdered.opener, ?_⟩
    rintro _ ⟨⟩
    exact same ▸ before
  · exact ordered index link found

theorem head_lt {waiting : List Opening} {size : Nat}
    (waiting_lt : ∀ opening ∈ waiting, opening.index < size) (outer : Nat)
    (head : waiting.head?.map Opening.index = some outer) : outer < size := by
  obtain ⟨opening, first, rfl⟩ := Option.map_eq_some_iff.mp head
  exact waiting_lt opening (List.mem_of_mem_head? first)

/-- Adds a token that is no closing bracket. -/
def advance (brackets : Brackets) (kind : TokenKind) : Brackets where
  links := brackets.links.push { parent := brackets.waiting.head?.map Opening.index }
  waiting :=
    if kind.isOpener then ⟨brackets.links.size, kind⟩ :: brackets.waiting else brackets.waiting
  ordered := ordered_push brackets.ordered ⟨head_lt brackets.waiting_lt, nofun, nofun⟩
  waiting_lt := by
    intro opening member
    rw [Array.size_push]
    split at member
    · rcases List.mem_cons.mp member with rfl | member
      · exact Nat.lt_succ_self _
      · exact Nat.lt_succ_of_lt (brackets.waiting_lt _ member)
    · exact Nat.lt_succ_of_lt (brackets.waiting_lt _ member)

/-- Adds a closing bracket for the opening bracket `first`, where `rest` waits around the pair. -/
def close (brackets : Brackets) (first : Opening) (rest : List Opening)
    (inside : ∀ opening ∈ first :: rest, opening ∈ brackets.waiting) : Brackets where
  links :=
    (brackets.links.push { parent := rest.head?.map Opening.index, opener := some first.index }).modify
      first.index ({ · with closer := some brackets.links.size })
  waiting := rest
  ordered := by
    have first_lt : first.index < brackets.links.size :=
      brackets.waiting_lt first (inside first (by simp))
    refine ordered_close (ordered_push brackets.ordered ⟨?_, ?_, nofun⟩) first_lt
    · exact head_lt fun opening member =>
        brackets.waiting_lt opening (inside opening (List.mem_cons_of_mem _ member))
    · rintro _ ⟨⟩
      exact first_lt
  waiting_lt := by
    intro opening member
    rw [Array.size_modify, Array.size_push]
    exact Nat.lt_succ_of_lt
      (brackets.waiting_lt opening (inside opening (List.mem_cons_of_mem _ member)))

/-- Adds the next token. -/
def push (brackets : Brackets) (kind : TokenKind) : Brackets :=
  match kind.opener? with
  | none => brackets.advance kind
  | some wanted =>
    match pair : brackets.waiting.dropWhile (·.kind ≠ wanted) with
    | [] => brackets.advance kind
    | first :: rest =>
      brackets.close first rest fun _ member => (List.dropWhile_sublist _).mem (pair ▸ member)

def ofKinds (kinds : List TokenKind) : Brackets := kinds.foldl push empty

/-- The innermost bracket that is open around a token. -/
def parent? (brackets : Brackets) (index : Nat) : Option Nat :=
  brackets.links[index]?.bind Link.parent

/-- The opening bracket that a closing bracket is paired with. -/
def opener? (brackets : Brackets) (index : Nat) : Option Nat :=
  brackets.links[index]?.bind Link.opener

/-- The closing bracket that an opening bracket is paired with. -/
def closer? (brackets : Brackets) (index : Nat) : Option Nat :=
  brackets.links[index]?.bind Link.closer

/-- The bracket that a bracket is paired with. -/
def partner? (brackets : Brackets) (index : Nat) : Option Nat :=
  (brackets.opener? index).or (brackets.closer? index)

theorem parent?_lt {brackets : Brackets} {index outer : Nat}
    (found : brackets.parent? index = some outer) : outer < index := by
  obtain ⟨link, present, parent⟩ := Option.bind_eq_some_iff.mp found
  exact (brackets.ordered index link present).parent outer parent

theorem opener?_lt {brackets : Brackets} {index first : Nat}
    (found : brackets.opener? index = some first) : first < index := by
  obtain ⟨link, present, opener⟩ := Option.bind_eq_some_iff.mp found
  exact (brackets.ordered index link present).opener first opener

theorem lt_closer? {brackets : Brackets} {index last : Nat}
    (found : brackets.closer? index = some last) : index < last := by
  obtain ⟨link, present, closer⟩ := Option.bind_eq_some_iff.mp found
  exact (brackets.ordered index link present).closer last closer

end Brackets
end Allman
