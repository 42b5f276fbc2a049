import Allman.Proofs.SameCode

/-! Reading tokens from regions that may overlap, stand in any order, be empty or
leave gaps. The offset of a cursor is no measure of progress: a literal or comment in
a directive may set it back, and an empty literal makes a token of no byte. But no
step gives a region back, and whatever a token is read from, the cursor has passed its
end. So tokens lie inside the text, a token of code stands behind the one before it,
and at the end of the text reading stays there. -/

namespace Allman

/-- A token that is one whole region, wherever the cursor was before. -/
def TokenKind.isLiteral : TokenKind → Bool
  | .string | .character => true
  | _ => false

/-- A token that is read byte by byte from a single region of code. -/
def TokenKind.isCode : TokenKind → Bool
  | .endOfText | .string | .character | .directive => false
  | _ => true

/-- A token that lies inside a text. Only a directive may end before it starts: then a
literal or comment in it ends there, and its lexeme is empty. -/
structure Token.Inside (text : Bytes) (token : Token) : Prop where
  covers : token.lexeme = slice text token.start token.stop
  start_le : token.start ≤ text.length
  stop_le : token.stop ≤ text.length
  forward : token.kind.isCode = true → token.start < token.stop

/-- What a cursor does in one step, whatever regions it is given. -/
structure Cursor.Moves (text : Bytes) (cursor : Cursor) (step : Token × Cursor) : Prop where
  start_le : step.1.start ≤ text.length
  stop_le : step.1.stop ≤ text.length
  left : step.2.regions <:+ cursor.regions
  passed : step.1.kind ≠ .endOfText → step.1.stop ≤ step.2.offset
  behind : step.1.kind ≠ .endOfText → step.1.kind.isLiteral = true ∨ cursor.offset ≤ step.1.start

section Directives
variable {before code : Bytes} {offset stop limit : Nat}

/-- A directive ends where a byte of it does, and not behind the place that is reached. -/
theorem directiveEnd_le (behind : stop ≤ offset) :
    (directiveEnd before offset stop code).2.1 ≤ (directiveEnd before offset stop code).1 ∧
      (directiveEnd before offset stop code).1 ≤ offset + code.length := by
  induction code generalizing before offset stop with
  | nil => exact ⟨behind, Nat.le_refl _⟩
  | cons c rest ih =>
    unfold directiveEnd
    split
    · exact ⟨behind, Nat.le_add_right _ _⟩
    · have next : (if Byte.isSpace c = true then stop else offset + 1) ≤ offset + 1 := by
        split <;> omega
      have later := @ih (c :: before) _ _ next
      rw [List.length_cons]
      omega

private theorem directiveEnd_le_limit (ended : stop ≤ limit) (room : code = [] ∨ offset + code.length ≤ limit) :
    (directiveEnd before offset stop code).2.1 ≤ limit := by
  induction code generalizing before offset stop with
  | nil => exact ended
  | cons c rest ih =>
    have room : offset + (rest.length + 1) ≤ limit := room.resolve_left (List.cons_ne_nil _ _)
    unfold directiveEnd
    split
    · exact ended
    · apply ih
      · split <;> omega
      · exact .inr (by omega)

end Directives

namespace Cursor
variable {text : Bytes} {region : Region} {rest regions : List Region} {step : Token × Cursor} {offset offset' : Nat}

/-- A region that gives no token may be passed over. -/
theorem Moves.skip (moves : Moves text ⟨rest, offset'⟩ step) (onward : offset ≤ offset') :
    Moves text ⟨region :: rest, offset⟩ step where
  start_le := moves.start_le
  stop_le := moves.stop_le
  left := moves.left.trans (List.suffix_cons region rest)
  passed := moves.passed
  behind := by
    intro more
    apply (moves.behind more).imp_right
    intro later
    exact Nat.le_trans onward later

private theorem readDirective_kind (text : Bytes) (start : Nat) (regions : List Region) (offset stop : Nat) :
    (readDirective text start regions offset stop).1.kind = .directive ∧
      (readDirective text start regions offset stop).1.start = start := by
  induction regions generalizing offset stop with
  | nil => exact ⟨rfl, rfl⟩
  | cons region rest ih =>
    unfold readDirective
    split
    · exact ih _ _
    · dsimp only
      split
      · exact ⟨rfl, rfl⟩
      · exact ih _ _

/-- Where a directive ends, and where the cursor stands behind it. -/
theorem readDirective_le {stop : Nat} (start : Nat) (within : ∀ region ∈ regions, region.Within text.length)
    (passed : stop ≤ offset) (ended : stop ≤ text.length) :
    let step := readDirective text start regions offset stop
    step.1.stop ≤ text.length ∧ step.1.stop ≤ step.2.offset ∧ step.2.regions <:+ regions := by
  intro step
  induction regions generalizing offset stop with
  | nil => exact ⟨ended, passed, List.suffix_refl _⟩
  | cons region rest ih =>
    obtain ⟨-, bound⟩ := within region (by simp)
    have later := fun region member => within region (List.mem_cons_of_mem _ member)
    have onward := List.suffix_cons region rest
    unfold step readDirective
    split
    · obtain ⟨first, second, third⟩ := ih later (Nat.le_refl region.stop) bound
      exact ⟨first, second, third.trans onward⟩
    · dsimp only
      have here : stop ≤ max offset region.start := by omega
      have room := length_slice_le text (max offset region.start) region.stop
      obtain ⟨reached, covered⟩ := @directiveEnd_le (slice text region.start (max offset region.start)).reverse
        (slice text (max offset region.start) region.stop) _ _ here
      have inside : (directiveEnd (slice text region.start (max offset region.start)).reverse
          (max offset region.start) stop (slice text (max offset region.start) region.stop)).2.1 ≤ text.length := by
        apply directiveEnd_le_limit ended
        rw [← List.length_eq_zero_iff]
        omega
      split
      · exact ⟨inside, reached, List.suffix_refl _⟩
      · have further : _ ≤ max (max offset region.start) region.stop := Nat.le_trans reached (by omega)
        obtain ⟨first, second, third⟩ := ih later further inside
        exact ⟨first, second, third.trans onward⟩

private theorem readDirective_moves {start : Nat} (within : ∀ region ∈ regions, region.Within text.length)
    (onward : offset ≤ start) (below : start < text.length) :
    Moves text ⟨regions, offset⟩ (readDirective text start regions (start + 1) (start + 1)) := by
  obtain ⟨-, first⟩ := readDirective_kind text start regions (start + 1) (start + 1)
  obtain ⟨stops, passed, left⟩ := readDirective_le start within (Nat.le_refl (start + 1)) below
  refine ⟨?_, stops, left, fun _ => passed, fun _ => .inr ?_⟩
  · rw [first]
    exact Nat.le_of_lt below
  · rw [first]
    exact onward

private theorem nextFrom_moves (within : ∀ region ∈ regions, region.Within text.length) :
    Moves text ⟨regions, offset⟩ (nextFrom text regions offset) := by
  induction regions generalizing offset with
  | nil =>
    exact ⟨Nat.le_refl _, Nat.le_refl _, List.suffix_refl _, fun more => absurd rfl more, fun more => absurd rfl more⟩
  | cons region rest ih =>
    obtain ⟨ordered, bound⟩ := within region (by simp)
    have later := fun region member => within region (List.mem_cons_of_mem _ member)
    have starts := Nat.le_trans ordered bound
    rw [nextFrom]
    split
    next => exact (ih later).skip (Nat.le_refl _)
    next unfinished =>
      have onward : offset ≤ region.stop := Nat.le_of_not_le unfinished
      split
      next => exact ⟨starts, bound, List.suffix_cons _ _, fun _ => Nat.le_refl _, fun _ => .inl rfl⟩
      next => exact ⟨starts, bound, List.suffix_cons _ _, fun _ => Nat.le_refl _, fun _ => .inl rfl⟩
      next => exact (ih later).skip onward
      next => exact (ih later).skip onward
      next =>
        dsimp only
        split
        next => exact (ih later).skip onward
        next c more code =>
          obtain ⟨-, -, length⟩ := dropWhile_eq_cons code
          have room := length_slice_le text (max offset region.start) region.stop
          split
          next =>
            apply readDirective_moves within
            · omega
            · omega
          next =>
            have short := readToken_le c more
            refine ⟨?_, ?_, List.suffix_refl _, fun _ => Nat.le_refl _, fun _ => .inr ?_⟩
            all_goals
              simp only [Token.covering]
              omega

private theorem next_inside {cursor : Cursor} (within : ∀ region ∈ cursor.regions, region.Within text.length) :
    (cursor.next text).1.Inside text := by
  have moves : Moves text cursor (cursor.next text) := nextFrom_moves within
  have finds : Finds text cursor.regions (cursor.next text) := nextFrom_finds ..
  refine ⟨congrArg Token.lexeme finds.covers, moves.start_le, moves.stop_le, ?_⟩
  intro code
  rcases finds.within with other | ⟨region, -, here⟩
  · simp only [List.mem_cons, List.not_mem_nil, or_false] at other
    rcases other with kind | kind | kind | kind <;> simp [kind, TokenKind.isCode] at code
  · exact here.forward

end Cursor

def Token.Follows (first second : Token) : Prop := second.kind.isLiteral = true ∨ first.stop ≤ second.start

section Scanning
variable {text : Bytes}

theorem scanFrom_inside (cursor : Cursor) (within : ∀ region ∈ cursor.regions, region.Within text.length) :
    ∀ token ∈ Token.scanFrom text cursor, token.Inside text := by
  fun_induction Token.scanFrom text cursor with
  | case1 cursor step more ih =>
    have moves : Cursor.Moves text cursor step := Cursor.nextFrom_moves within
    intro token member
    rcases List.mem_cons.mp member with rfl | member
    · exact Cursor.next_inside within
    · exact ih (fun region member => within region (moves.left.subset member)) token member
  | case2 => simp

theorem isChain_scanFrom (cursor : Cursor) (within : ∀ region ∈ cursor.regions, region.Within text.length) :
    ∀ token : Token, token.stop ≤ cursor.offset → (token :: Token.scanFrom text cursor).IsChain Token.Follows := by
  fun_induction Token.scanFrom text cursor with
  | case1 cursor step more ih =>
    intro token passed
    have moves : Cursor.Moves text cursor step := Cursor.nextFrom_moves within
    apply List.IsChain.cons_cons
    · exact (moves.behind more).imp_right (Nat.le_trans passed)
    · exact ih (fun region member => within region (moves.left.subset member)) _ (moves.passed more)
  | case2 => exact fun token _ => List.IsChain.singleton token

private theorem length_scanFrom_le (text : Bytes) (cursor : Cursor) :
    (Token.scanFrom text cursor).length ≤ cursor.budget := by
  fun_induction Token.scanFrom text cursor with
  | case1 cursor step more ih =>
    have used : step.2.budget < cursor.budget := Cursor.budget_next_lt text cursor more
    rw [List.length_cons]
    omega
  | case2 => exact Nat.zero_le _

private theorem capacity_eq (regions : List Region) :
    Cursor.capacity regions = regions.length + (regions.map fun region => region.stop - region.start).sum := by
  induction regions with
  | nil => rfl
  | cons region rest ih =>
    rw [Cursor.capacity, ih, List.length_cons, List.map_cons, List.sum_cons]
    omega

end Scanning

namespace Lexer

def endToken (text : Bytes) : Token := Token.covering text .endOfText text.length text.length

end Lexer

private theorem readToken_ne_endOfText (c : UInt8) (rest : Bytes) : (readToken c rest).1 ≠ .endOfText := by
  obtain ⟨kind, more, after, rfl, spells⟩ := exists_spells c rest
  have reads : readToken c (more ++ after) = (kind, more.length + 1) := spells
  intro ended
  rw [reads] at ended
  exact spells.kind_ne (by simp [show kind = .endOfText from ended])

namespace Cursor

/-- The end of the text is found only where no region is left. -/
theorem nextFrom_ended {text : Bytes} {regions : List Region} {offset : Nat}
    (ended : (nextFrom text regions offset).1.kind = .endOfText) :
    (nextFrom text regions offset).1 = Lexer.endToken text ∧ (nextFrom text regions offset).2.regions = [] := by
  induction regions generalizing offset with
  | nil => exact ⟨rfl, rfl⟩
  | cons region rest ih =>
    rw [nextFrom] at ended ⊢
    split at ended
    next finished =>
      rw [if_pos finished]
      exact ih ended
    next unfinished =>
      rw [if_neg unfinished]
      split at ended
      next => cases ended
      next => cases ended
      next => exact ih ended
      next => exact ih ended
      next =>
        dsimp only at ended ⊢
        split at ended
        next => exact ih ended
        next =>
          split at ended
          next => rw [(readDirective_kind ..).1] at ended; cases ended
          next c more _ _ => exact absurd ended (readToken_ne_endOfText c more)

end Cursor

namespace Lexer

inductive Call where
  | next
  | peek
  | reset
deriving DecidableEq

def call (lexer : Lexer) : Call → Lexer
  | .next => lexer.next.2
  | .peek => lexer.peek.2
  | .reset => lexer.reset

def after (lexer : Lexer) (calls : List Call) : Lexer := calls.foldl call lexer

/-- Asked for the next token again and again, a lexer gives these tokens and then the end of the text. -/
inductive Yields : Lexer → List Token → Prop
  | ended {lexer : Lexer} (ends : lexer.next.1.kind = .endOfText) : Yields lexer []
  | token {lexer : Lexer} {tokens : List Token} (more : lexer.next.1.kind ≠ .endOfText)
      (later : Yields lexer.next.2 tokens) : Yields lexer (lexer.next.1 :: tokens)

private theorem yields_scanFrom (text : Bytes) (regions : List Region) (cursor : Cursor) :
    Yields { text, regions, cursor } (Token.scanFrom text cursor) := by
  fun_induction Token.scanFrom text cursor with
  | case1 cursor step more ih => exact .token more ih
  | case2 cursor step ends => exact .ended (Decidable.not_not.mp ends)

/-- A lexer for a text that has seen the end of it ahead only where it is. -/
structure Honest (text : Bytes) (lexer : Lexer) : Prop where
  text_eq : lexer.text = text
  ahead : ∀ token, lexer.ahead = some token → token.kind = .endOfText →
    token = endToken text ∧ lexer.cursor.regions = []

structure Ended (text : Bytes) (lexer : Lexer) : Prop where
  text_eq : lexer.text = text
  regions : lexer.cursor.regions = []
  ahead : ∀ token, lexer.ahead = some token → token = endToken text

section Calls
variable {text : Bytes} {lexer : Lexer} {calls : List Call}

theorem Honest.call (honest : lexer.Honest text) (call : Call) : (lexer.call call).Honest text := by
  obtain ⟨text', regions, cursor, looked⟩ := lexer
  obtain ⟨rfl, ahead⟩ := honest
  cases call with
  | next =>
    cases looked with
    | none => exact ⟨rfl, nofun⟩
    | some token => exact ⟨rfl, nofun⟩
  | peek =>
    cases looked with
    | none =>
      refine ⟨rfl, ?_⟩
      intro token seen ended
      obtain rfl := Option.some.inj seen
      exact Cursor.nextFrom_ended ended
    | some token => exact ⟨rfl, ahead⟩
  | reset => exact ⟨rfl, nofun⟩

theorem Honest.after (honest : lexer.Honest text) (calls : List Call) : (lexer.after calls).Honest text := by
  induction calls generalizing lexer with
  | nil => exact honest
  | cons call calls ih => exact ih (honest.call call)

/-- A lexer that gives the end of the text has reached it, and looks at nothing ahead. -/
theorem Honest.ended (honest : lexer.Honest text) (ends : lexer.next.1.kind = .endOfText) :
    lexer.next.1 = endToken text ∧ lexer.next.2.Ended text ∧ lexer.next.2.ahead = none := by
  obtain ⟨text', regions, cursor, looked⟩ := lexer
  obtain ⟨rfl, ahead⟩ := honest
  cases looked with
  | none =>
    obtain ⟨same, finished⟩ := Cursor.nextFrom_ended ends
    exact ⟨same, ⟨rfl, finished, nofun⟩, rfl⟩
  | some token =>
    obtain ⟨same, finished⟩ := ahead token rfl ends
    exact ⟨same, ⟨rfl, finished, nofun⟩, rfl⟩

/-- At the end of the text a lexer only forgets or remembers that it has seen it. -/
theorem Ended.call (ended : lexer.Ended text) {call : Call} (onward : call ≠ .reset) :
    (lexer.call call).Ended text ∧ { lexer.call call with ahead := none } = { lexer with ahead := none } := by
  obtain ⟨text', given, ⟨regions, offset⟩, looked⟩ := lexer
  obtain ⟨rfl, rfl, ahead⟩ := ended
  cases call with
  | reset => exact absurd rfl onward
  | next =>
    cases looked with
    | none => exact ⟨⟨rfl, rfl, nofun⟩, rfl⟩
    | some token => exact ⟨⟨rfl, rfl, nofun⟩, rfl⟩
  | peek =>
    cases looked with
    | none => exact ⟨⟨rfl, rfl, fun token seen => (Option.some.inj seen).symm⟩, rfl⟩
    | some token => exact ⟨⟨rfl, rfl, ahead⟩, rfl⟩

theorem Ended.after (ended : lexer.Ended text) (onward : Call.reset ∉ calls) :
    (lexer.after calls).Ended text ∧ { lexer.after calls with ahead := none } = { lexer with ahead := none } := by
  induction calls generalizing lexer with
  | nil => exact ⟨ended, rfl⟩
  | cons call calls ih =>
    obtain ⟨first, others⟩ := not_or.mp (mt List.mem_cons.mpr onward)
    obtain ⟨ended', same⟩ := ended.call (Ne.symm first)
    obtain ⟨last, same'⟩ := ih ended' others
    exact ⟨last, same'.trans same⟩

private theorem Ended.next_eq (ended : lexer.Ended text) :
    lexer.next = (endToken text, { lexer with ahead := none }) := by
  obtain ⟨text', given, ⟨regions, offset⟩, looked⟩ := lexer
  obtain ⟨rfl, rfl, ahead⟩ := ended
  cases looked with
  | none => rfl
  | some token =>
    have same : token = endToken text' := ahead token rfl
    exact Prod.ext same rfl

end Calls
end Lexer

/-- However a text is cut into regions, reading its tokens ends: there are at most as
many as the regions and all their bytes together. They lie inside the text and their
lexemes are what stands there. Once the end of the text is given, it is given ever
after, and the lexer stays as it is, whatever it looks at in between. -/
theorem scan_ends (text : Bytes) (regions : List Region) (within : ∀ region ∈ regions, region.Within text.length) :
    let lexer : Lexer := { text, regions }
    lexer.Yields (Token.scan text regions) ∧
    (Token.scan text regions).length ≤ regions.length + (regions.map fun region => region.stop - region.start).sum ∧
    (∀ token ∈ Token.scan text regions, token.start ≤ text.length ∧ token.stop ≤ text.length ∧
      token.lexeme = slice text token.start token.stop ∧ (token.stop < token.start → token.lexeme = [])) ∧
    ∀ calls, (lexer.after calls).next.1.kind = .endOfText →
      let ended := (lexer.after calls).next.2
      (lexer.after calls).next.1 = Lexer.endToken text ∧
      ∀ later, Lexer.Call.reset ∉ later → (ended.after later).next = (Lexer.endToken text, ended) := by
  intro lexer
  refine ⟨Lexer.yields_scanFrom text regions ⟨regions, 0⟩, ?_, ?_, ?_⟩
  · calc
      (Token.scan text regions).length ≤ Cursor.budget ⟨regions, 0⟩ := length_scanFrom_le text ⟨regions, 0⟩
      _ ≤ Cursor.capacity regions := Cursor.budget_le_capacity regions 0
      _ = _ := capacity_eq regions
  · intro token member
    have inside := scanFrom_inside ⟨regions, 0⟩ within token member
    refine ⟨inside.start_le, inside.stop_le, inside.covers, ?_⟩
    intro backwards
    rw [inside.covers, slice, Nat.sub_eq_zero_of_le (Nat.le_of_lt backwards), List.take_zero]
  · intro calls ends ended
    have fresh : lexer.Honest text := by
      constructor
      · rfl
      · intro token seen
        cases seen
    obtain ⟨same, finished, unseen⟩ := (fresh.after calls).ended ends
    refine ⟨same, ?_⟩
    intro later onward
    obtain ⟨still, kept⟩ := finished.after onward
    have whole : { ended with ahead := none } = ended := by
      rw [← unseen]
    rw [still.next_eq, kept, whole]

/-- An empty string, a line that starts a directive, and a string that stands before both. -/
def scattered : List Region := [⟨.string, 1, 1⟩, ⟨.code, 3, 5⟩, ⟨.string, 0, 1⟩]

/-- The last string takes the directive back to a place before its start. -/
theorem scan_ends_scattered :
    (∀ region ∈ scattered, region.Within (ascii "ab\n#c").length) ∧
    Token.scan (ascii "ab\n#c") scattered = [⟨.string, 1, 1, []⟩, ⟨.directive, 3, 1, []⟩] ∧
    (Token.scan (ascii "ab\n#c") scattered).length ≤ 6 ∧
    ∀ later, Lexer.Call.reset ∉ later →
      ((Lexer.after { text := ascii "ab\n#c", regions := scattered } [.peek, .next, .next]).next.2.after later).next.1 =
        Lexer.endToken (ascii "ab\n#c") := by
  have within : ∀ region ∈ scattered, region.Within (ascii "ab\n#c").length := by decide +kernel
  obtain ⟨-, few, -, ends⟩ := scan_ends (ascii "ab\n#c") scattered within
  refine ⟨within, by decide +kernel, few.trans_eq (by decide), ?_⟩
  intro later onward
  obtain ⟨-, still⟩ := ends [.peek, .next, .next] (by decide +kernel)
  rw [still later onward]

end Allman
