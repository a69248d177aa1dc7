import EveryParse.Chars
import EveryParse.Complete
import EveryParse.Grammar.Basic
import EveryParse.Proofs.Alike

/-!
Inputs with the same remaining tokens. Main statement: on inputs that are equal, wherever they stand
in whatever buffers, a parser finds the same values with the same numbers of consumed tokens, and
one run comes to an end when the other does.
-/

namespace EveryParse

variable {τ : Type} {α : Type} {Γ : List Type}

namespace Input

variable {input input' : Input τ}

theorem beq_iff [BEq τ] [LawfulBEq τ] :
    (input == input') = true ↔ input.remaining = input'.remaining := by
  change (input.remaining == input'.remaining) = true ↔ _
  exact beq_iff_eq

theorem remaining_advance (input : Input τ) (count : Nat) :
    (input.advance count).remaining = input.remaining.drop count := by
  simp [remaining, advance, List.drop_drop]

theorem advance_advance (input : Input τ) (first second : Nat) :
    (input.advance first).advance second = input.advance (first + second) := by
  simp [advance, Nat.add_assoc]

theorem length_eq (input : Input τ) : input.length = input.remaining.length := by
  simp [length, remaining]

theorem isEmpty_congr (same : input.remaining = input'.remaining) :
    input.isEmpty = input'.isEmpty := by
  simp only [isEmpty, length_eq, same]

theorem splitFirst_advance (input : Input τ) (count : Nat) :
    (input.advance count).splitFirst =
      input.remaining[count]?.map fun token => (token, input.advance (count + 1)) := by
  simp [splitFirst, advance, remaining, Nat.add_assoc]

def along (input input' : Input τ) : Likeness τ :=
  fun rest rest' => ∃ count, rest = input.advance count ∧ rest' = input'.advance count

theorem along_remaining (same : input.remaining = input'.remaining) {rest rest' : Input τ}
    (together : input.along input' rest rest') : rest.remaining = rest'.remaining := by
  obtain ⟨count, rfl, rfl⟩ := together
  rw [remaining_advance, remaining_advance, same]

theorem readable_along (same : input.remaining = input'.remaining) :
    (input.along input').Readable := by
  rintro _ _ ⟨count, rfl, rfl⟩
  rw [splitFirst_advance, splitFirst_advance, same]
  cases input'.remaining[count]? with
  | none => exact .none
  | some token => exact .some (.leaving ⟨count + 1, rfl, rfl⟩)

end Input

/-- To the parsers from outside that are part of it, inputs with the same remaining tokens are all
the same. -/
def Closure.Uniform (c : Closure τ α) : Prop :=
  ∀ input input' : Input τ, input.remaining = input'.remaining →
    c.scope.Respects (input.along input') ∧ c.parser.Respects (input.along input')

/-- Both are the end, or parses with the same value, the same number of consumed tokens and equal
remainders. -/
inductive Input.Matched [BEq τ] (input input' : Input τ) :
    Option (α × Input τ) → Option (α × Input τ) → Prop
  | ended : Matched input input' none none
  | parse (v : α) (count : Nat) (equal : (input.advance count == input'.advance count) = true) :
      Matched input input' (some (v, input.advance count)) (some (v, input'.advance count))

theorem Input.matched_of_parse [BEq τ] [LawfulBEq τ] {input input' : Input τ}
    (same : input.remaining = input'.remaining) {found found' : Option (α × Input τ)}
    (fits : Option.Rel (input.along input').Parse found found') :
    input.Matched input' found found' := by
  cases fits with
  | none => exact .ended
  | some fits =>
      obtain ⟨count, rfl, rfl⟩ := fits
      refine .parse _ count (Input.beq_iff.mpr ?_)
      exact Input.along_remaining same ⟨count, rfl, rfl⟩

theorem Parses.Alike.firstComplete {alike : Likeness τ} (readable : alike.Readable)
    (isEmpty : ∀ rest rest', alike rest rest' → rest.isEmpty = rest'.isEmpty) {s s' : Parses τ α}
    (same : s.Alike alike s') (fuel : Nat) (live : Owners) (log log' : List Event) :
    Option.Rel (fun found found' => found.value = found'.value)
      (s.firstComplete fuel live log) (s'.firstComplete fuel live log') := by
  induction fuel generalizing s s' log log' with
  | zero => exact .none
  | succ fuel ih =>
      have pulled := same.pull readable fuel live log log'
      simp only [Parses.firstComplete]
      generalize s.pull fuel live log = answer at pulled ⊢
      generalize s'.pull fuel live log' = answer' at pulled ⊢
      cases pulled with
      | none => exact .none
      | @some answer answer' fits =>
          obtain ⟨answer, log⟩ := answer
          obtain ⟨answer', log'⟩ := answer'
          cases fits with
          | ended later => exact .some rfl
          | @parse v rest rest' _ _ left later =>
              simp only [isEmpty rest rest' left]
              split
              · exact .some rfl
              · exact ih later log log'

/-- On inputs that are equal a parser answers pull by pull with the same values, having consumed as
many tokens and with equal remainders, or with the end; a pull comes to an end on one input when it
does on the other. Completing gives the same value or the same failure. -/
theorem equal_inputs_parse_alike [BEq τ] [LawfulBEq τ] (c : Closure τ α) (uniform : c.Uniform)
    {input input' : Input τ} (equal : (input == input') = true) (fuel : Nat) (live : Owners) :
    (∀ lives, Option.Rel
      (fun seen seen' => List.Forall₂ (input.Matched input') seen.answers seen'.answers)
      (c.parser.observe fuel c.scope input live lives)
      (c.parser.observe fuel c.scope input' live lives)) ∧
    ∀ log log',
      (c.parser.complete fuel live c.scope input log).map Outcome.value =
        (c.parser.complete fuel live c.scope input' log').map Outcome.value := by
  have same := Input.beq_iff.mp equal
  have readable := Input.readable_along same
  have respects := uniform input input' same
  have start : input.along input' input input' := ⟨0, rfl, rfl⟩
  constructor
  · intro lives
    have seen := Parser.observe_alike readable fuel live respects start lives
    exact seen.mono fun _ _ answers => answers.imp fun _ _ => Input.matched_of_parse same
  · intro log log'
    have opened := Parser.invoke_alike readable fuel live respects start log log'
    have isEmpty rest rest' (together : input.along input' rest rest') :
        rest.isEmpty = rest'.isEmpty :=
      Input.isEmpty_congr (Input.along_remaining same together)
    have completed : Option.Rel (fun found found' => found.value = found'.value)
        (c.parser.complete fuel live c.scope input log)
        (c.parser.complete fuel live c.scope input' log') := by
      refine opened.bind fun s s' alike => ?_
      have found := alike.firstComplete readable isEmpty fuel live s.log s'.log
      refine found.map fun found found' equal => ?_
      simp only [Outcome.map, Input.length_eq, same, equal]
    exact completed.map_eq fun _ _ => id

theorem takes_respects (counts : List Nat) {input input' : Input τ}
    (same : input.remaining = input'.remaining) :
    (takes counts : Parser τ Γ Value).Respects (input.along input') := by
  rintro _ _ ⟨read, rfl, rfl⟩ index
  have length : (input.advance read).length = (input'.advance read).length := by
    simp only [Input.length_eq, Input.remaining_advance, same]
  dsimp only
  rw [length]
  cases (counts.filter (· ≤ (input'.advance read).length))[index]? with
  | none => exact .none
  | some count =>
      refine .some (.leaving ⟨read + count, ?_, ?_⟩)
      · exact Input.advance_advance input read count
      · exact Input.advance_advance input' read count

def taggedWord : Parser Char [] Value :=
  .bind (takes [2, 1]) .none fun _ => .map .str Chars.word

theorem equal_inputs_parse_taggedWord :
    let c : Closure Char Value := ⟨.empty, taggedWord⟩
    let input : Input Char := ⟨⟨0, #['(', '7', 'a', 'b']⟩, 1⟩
    let input' : Input Char := ⟨⟨1, #['7', 'a', 'b']⟩, 0⟩
    (c.Uniform ∧ (input == input') = true) ∧
      (∀ lives, Option.Rel
        (fun seen seen' => List.Forall₂ (input.Matched input') seen.answers seen'.answers)
        (c.parser.observe 30 c.scope input .nobody lives)
        (c.parser.observe 30 c.scope input' .nobody lives)) ∧
      ∀ log log',
        (c.parser.complete 30 .nobody c.scope input log).map Outcome.value =
          (c.parser.complete 30 .nobody c.scope input' log').map Outcome.value := by
  intro c input input'
  have uniform : c.Uniform := by
    intro i j same
    refine ⟨trivial, takes_respects [2, 1] same, fun _ => ?_⟩
    simp [Chars.word, Chars.alphanumeric, Chars.upper, Chars.lower, Chars.digit, Parser.sat,
      Parser.filter, Parser.map, Parser.Respects]
  have equal : (input == input') = true := by decide
  exact ⟨⟨uniform, equal⟩, equal_inputs_parse_alike c uniform equal 30 .nobody⟩

end EveryParse
