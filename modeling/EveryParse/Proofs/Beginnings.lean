import EveryParse.Proofs.Guarded
import EveryParse.Proofs.Remaining

/-!
Runs of tokens of one class. Repeating a parser that reads one token of the class gives every
beginning of the run at the start of the input, a longer one before a shorter one
(`Parser.Reads.many`).
-/

namespace EveryParse

variable {τ : Type} {α β : Type} {Γ : List Type} {ρ : Scope τ Γ} {keep : τ → Bool}

namespace Input

/-- Every beginning of the run of tokens in `keep`, from the whole run down to the empty one, each
with what it leaves. -/
def beginnings (keep : τ → Bool) (input : Input τ) : List (List τ × Input τ) :=
  let run := input.remaining.takeWhile keep
  (List.range (run.length + 1)).reverse.map fun length => (run.take length, input.advance length)

def firstOf (keep : τ → Bool) (input : Input τ) : List (τ × Input τ) :=
  input.splitFirst.toList.filter fun parse => keep parse.1

theorem splitFirst_eq (input : Input τ) :
    input.splitFirst = input.remaining.head?.map fun token => (token, input.advance 1) := by
  rw [List.head?_eq_getElem?]
  exact input.splitFirst_advance 0

theorem length_lt_of_mem_firstOf {input : Input τ} {parse : τ × Input τ}
    (first : parse ∈ input.firstOf keep) : parse.2.length < input.length :=
  (splitFirst_after (List.mem_of_mem_filter first)).length_lt

theorem beginnings_of_remaining_eq_cons {input : Input τ} {token : τ} {tokens : List τ}
    (starts : input.remaining = token :: tokens) (kept : keep token = true) :
    input.beginnings keep =
      ((input.advance 1).beginnings keep).map (fun run => (token :: run.1, run.2)) ++
        [([], input)] := by
  have later : (input.advance 1).remaining = tokens := by
    rw [remaining_advance, starts, List.drop_one, List.tail_cons]
  have run : input.remaining.takeWhile keep = token :: tokens.takeWhile keep := by
    rw [starts, List.takeWhile_cons, if_pos kept]
  simp only [beginnings, run, later, List.length_cons, List.map_map]
  rw [List.range_succ_eq_map, List.reverse_cons, List.map_append, ← List.map_reverse, List.map_map]
  congr 1
  apply List.map_congr_left
  intro length _
  simp [advance_advance, Nat.add_comm]

theorem beginnings_eq (keep : τ → Bool) (input : Input τ) :
    input.beginnings keep =
      (input.firstOf keep).flatMap
          (fun parse => (parse.2.beginnings keep).map fun run => (parse.1 :: run.1, run.2)) ++
        [([], input)] := by
  have split := input.splitFirst_eq
  cases starts : input.remaining with
  | nil =>
      rw [starts] at split
      simp [beginnings, firstOf, starts, split, advance]
  | cons token tokens =>
      rw [starts] at split
      by_cases kept : keep token = true
      · rw [beginnings_of_remaining_eq_cons starts kept]
        simp [firstOf, split, kept]
      · simp [beginnings, firstOf, starts, split, kept, advance]

end Input

namespace Parser

/-- On every input the parser reads the next token if that is in `keep`, and does so once. -/
def Reads (ρ : Scope τ Γ) (keep : τ → Bool) (p : Parser τ Γ τ) : Prop :=
  ∀ input : Input τ, p.Drains ρ input (input.firstOf keep)

theorem sat_reads (keep : τ → Bool) : (Parser.sat keep).Reads ρ keep :=
  fun _ => Drains.item.filterM fun token => .silent (keep token)

theorem Reads.or {p q : Parser τ Γ τ} {keep' : τ → Bool} (first : p.Reads ρ keep)
    (second : q.Reads ρ keep')
    (disjoint : ∀ token, keep token = true → keep' token = true → False) :
    (Parser.or p q).Reads ρ fun token => keep token || keep' token := by
  intro input
  have both : input.firstOf (fun token => keep token || keep' token) =
      input.firstOf keep ++ input.firstOf keep' := by
    simp only [Input.firstOf]
    cases input.splitFirst with
    | none => rfl
    | some parse =>
        by_cases kept : keep parse.1 = true
        · have apart : ¬keep' parse.1 = true := disjoint parse.1 kept
          simp [kept, apart]
        · by_cases kept' : keep' parse.1 = true <;> simp [kept, kept']
  rw [both]
  exact (first input).or (second input)

theorem Reads.many {p : Parser τ Γ τ} (reads : p.Reads ρ keep) (input : Input τ) :
    p.many.Drains ρ input (input.beginnings keep) := by
  -- The induction is on what is left to read.
  induction left : input.length using Nat.strongRecOn generalizing input with
  | ind left ih =>
      subst left
      rw [Input.beginnings_eq]
      apply (reads input).many
      intro parse first
      exact ih _ (Input.length_lt_of_mem_firstOf first) _ rfl

end Parser

end EveryParse
