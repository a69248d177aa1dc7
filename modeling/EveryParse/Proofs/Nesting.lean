import EveryParse.Proofs.Beginnings
import EveryParse.Proofs.Completion
import Mathlib.Combinatorics.Enumerative.DyckWord
import Mathlib.Data.List.Sort

/-!
Brackets. Behind an opening bracket every balanced text is tried, but a closing bracket follows only
one of them. Main statement: the parses are the balanced beginnings of the input, each of them once
and the longest first, with the numbers of their pairs.
-/

namespace EveryParse

variable {τ : Type} {Γ : List Type}

namespace Input

/-- The tokens are what stands from `input` up to `rest`. -/
structure Spans (input : Input τ) (tokens : List τ) (rest : Input τ) : Prop where
  starts : tokens <+: input.remaining
  rest_eq : rest = input.advance tokens.length

variable {input rest : Input τ} {token : τ} {tokens tokens' : List τ}

theorem spans_nil (input : Input τ) : input.Spans [] input :=
  ⟨List.nil_prefix, rfl⟩

theorem Spans.offset_eq (spans : input.Spans tokens rest) :
    rest.offset = input.offset + tokens.length := by
  rw [spans.rest_eq, advance]

theorem spans_append :
    input.Spans (tokens ++ tokens') rest ↔
      ∃ middle, input.Spans tokens middle ∧ middle.Spans tokens' rest := by
  constructor
  · rintro ⟨⟨behind, split⟩, rfl⟩
    refine ⟨_, ⟨⟨tokens' ++ behind, ?_⟩, rfl⟩, ⟨⟨behind, ?_⟩, ?_⟩⟩
    · rw [← List.append_assoc, split]
    · rw [remaining_advance, ← split, List.append_assoc, List.drop_left]
    · rw [advance_advance, List.length_append]
  · rintro ⟨_, ⟨⟨_, split⟩, rfl⟩, ⟨⟨behind, split'⟩, rfl⟩⟩
    rw [remaining_advance, ← split, List.drop_left] at split'
    refine ⟨⟨behind, ?_⟩, ?_⟩
    · rw [← split, ← split', List.append_assoc]
    · rw [advance_advance, List.length_append]

theorem spans_cons :
    input.Spans (token :: tokens) rest ↔
      ∃ middle, input.Spans [token] middle ∧ middle.Spans tokens rest := by
  rw [← List.singleton_append, spans_append]

theorem mem_firstOf [BEq τ] [LawfulBEq τ] {parse : τ × Input τ} :
    parse ∈ input.firstOf (· == token) ↔ parse.1 = token ∧ input.Spans [token] parse.2 := by
  rw [firstOf, splitFirst_eq]
  constructor
  · intro member
    cases starts : input.remaining with
    | nil => simp [starts] at member
    | cons first tokens =>
        simp only [starts, List.head?_cons, Option.map_some, Option.toList_some, List.mem_filter,
          List.mem_singleton, beq_iff_eq] at member
        obtain ⟨rfl, same⟩ := member
        obtain rfl : first = token := same
        exact ⟨rfl, by simp [starts], rfl⟩
  · rintro ⟨same, ⟨tokens, starts⟩, rest⟩
    simp [← starts, Prod.ext_iff, same, rest]

theorem pairwise_firstOf (input : Input τ) (keep : τ → Bool)
    (r : τ × Input τ → τ × Input τ → Prop) : (input.firstOf keep).Pairwise r := by
  apply List.Pairwise.filter
  cases input.splitFirst <;> simp

end Input

namespace Chars

def parensBody : Parser Char (Nat :: Γ) Nat :=
  .or
    (.bind (.sat (· == '(')) .all fun _ =>
      .bind (.ref .here) .all fun inner =>
        .bind (.sat (· == ')')) .all fun _ =>
          .map (fun after => inner + 1 + after) (.ref .here))
    (.result 0)

def parens : Parser Char Γ Nat :=
  .recursive (.site []) parensBody

/-- Brackets only, of which no beginning closes more than it opens and the whole text as many. -/
structure Balanced (text : List Char) : Prop where
  brackets : ∀ c ∈ text, c = '(' ∨ c = ')'
  opened : ∀ front, front <+: text → front.count ')' ≤ front.count '('
  even : text.count '(' = text.count ')'

theorem balanced_iff {text : List Char} :
    Balanced text ↔ (text.all fun c => c == '(' || c == ')') = true ∧
      (∀ front ∈ text.inits, front.count ')' ≤ front.count '(') ∧
      text.count '(' = text.count ')' := by
  simp only [List.all_eq_true, Bool.or_eq_true, beq_iff_eq, List.mem_inits]
  exact ⟨fun ⟨brackets, opened, even⟩ => ⟨brackets, opened, even⟩,
    fun ⟨brackets, opened, even⟩ => ⟨brackets, opened, even⟩⟩

instance : DecidablePred Balanced :=
  fun _ => decidable_of_iff' _ balanced_iff

def bracket : DyckStep → Char
  | .U => '('
  | .D => ')'

theorem bracket_injective : Function.Injective bracket := by
  intro step step' same
  cases step <;> cases step' <;> simp [bracket] at same ⊢

theorem count_opening (steps : List DyckStep) : (steps.map bracket).count '(' = steps.count .U :=
  List.count_map_of_injective steps bracket bracket_injective .U

theorem count_closing (steps : List DyckStep) : (steps.map bracket).count ')' = steps.count .D :=
  List.count_map_of_injective steps bracket bracket_injective .D

theorem balanced_iff_exists_word {text : List Char} :
    Balanced text ↔ ∃ word : DyckWord, word.toList.map bracket = text := by
  constructor
  · intro balanced
    obtain ⟨steps, rfl⟩ : text ∈ Set.range (List.map bracket) := by
      rw [Set.range_list_map]
      intro c member
      rcases balanced.brackets c member with rfl | rfl
      · exact ⟨.U, rfl⟩
      · exact ⟨.D, rfl⟩
    refine ⟨⟨steps, ?_, fun length => ?_⟩, rfl⟩
    · simpa only [count_opening, count_closing] using balanced.even
    · have opened := balanced.opened _ ((List.take_prefix length steps).map bracket)
      simpa only [count_opening, count_closing] using opened
  · rintro ⟨word, rfl⟩
    refine ⟨?_, ?_, ?_⟩
    · intro c member
      obtain ⟨step, _, rfl⟩ := List.mem_map.mp member
      cases step
      · exact .inl rfl
      · exact .inr rfl
    · intro front starts
      rw [List.prefix_iff_eq_take.mp starts, ← List.map_take, count_opening, count_closing]
      exact word.count_D_le_count_U _
    · rw [count_opening, count_closing]
      exact word.count_U_eq_count_D

theorem map_bracket_nest_add (inside behind : DyckWord) :
    (inside.nest + behind).toList.map bracket =
      '(' :: inside.toList.map bracket ++ ')' :: behind.toList.map bracket := by
  change (([DyckStep.U] ++ inside.toList ++ [DyckStep.D]) ++ behind.toList).map bracket = _
  simp [bracket]

theorem balanced_nil : Balanced [] :=
  balanced_iff_exists_word.mpr ⟨0, rfl⟩

theorem Balanced.pair {inner after : List Char} (inside : Balanced inner)
    (behind : Balanced after) : Balanced ('(' :: inner ++ ')' :: after) := by
  obtain ⟨word, rfl⟩ := balanced_iff_exists_word.mp inside
  obtain ⟨word', rfl⟩ := balanced_iff_exists_word.mp behind
  exact balanced_iff_exists_word.mpr ⟨word.nest + word', map_bracket_nest_add word word'⟩

theorem Balanced.exists_pair {text : List Char} (balanced : Balanced text) (nonempty : text ≠ []) :
    ∃ inner after, Balanced inner ∧ Balanced after ∧ text = '(' :: inner ++ ')' :: after := by
  obtain ⟨word, rfl⟩ := balanced_iff_exists_word.mp balanced
  have nonzero : word ≠ 0 := by
    rintro rfl
    exact nonempty rfl
  have split := DyckWord.nest_insidePart_add_outsidePart nonzero
  refine ⟨_, _, balanced_iff_exists_word.mpr ⟨word.insidePart, rfl⟩,
    balanced_iff_exists_word.mpr ⟨word.outsidePart, rfl⟩, ?_⟩
  rw [← map_bracket_nest_add, split]

theorem Balanced.length_le {text front longer : List Char} (balanced : Balanced front)
    (closes : front ++ [')'] <+: text) (longerBalanced : Balanced longer)
    (starts : longer <+: text) : longer.length ≤ front.length := by
  by_contra further
  have closed : front ++ [')'] <+: longer := by
    apply List.prefix_of_prefix_length_le closes starts
    rw [List.length_append, List.length_singleton]
    omega
  have opened := longerBalanced.opened _ closed
  have even := balanced.even
  have one : [')'].count '(' = 0 := by decide
  rw [List.count_append, List.count_append, List.count_singleton_self, one] at opened
  omega

theorem count_pair (inner after : List Char) :
    ('(' :: inner ++ ')' :: after).count '(' = inner.count '(' + 1 + after.count '(' := by
  simp
  omega

/-! What is found of them. -/

def balancedBeginnings (input : Input Char) : List (Nat × Input Char) :=
  ((List.range (input.remaining.length + 1)).reverse.filter fun length =>
    Balanced (input.remaining.take length)).map fun length =>
      ((input.remaining.take length).count '(', input.advance length)

def foundInside (input : Input Char) : List (Nat × Input Char) :=
  (balancedBeginnings input).flatMap fun inner =>
    (inner.2.firstOf (· == ')')).flatMap fun close =>
      (balancedBeginnings close.2).map fun after => (inner.1 + 1 + after.1, after.2)

theorem mem_balancedBeginnings {input : Input Char} {parse : Nat × Input Char} :
    parse ∈ balancedBeginnings input ↔
      ∃ front, Balanced front ∧ input.Spans front parse.2 ∧ parse.1 = front.count '(' := by
  constructor
  · intro member
    obtain ⟨length, among, rfl⟩ := List.mem_map.mp member
    obtain ⟨bound, balanced⟩ := List.mem_filter.mp among
    rw [List.mem_reverse, List.mem_range] at bound
    refine ⟨_, of_decide_eq_true balanced, ⟨List.take_prefix length _, ?_⟩, rfl⟩
    rw [List.length_take, Nat.min_eq_left (by omega)]
  · rintro ⟨front, balanced, ⟨starts, rest⟩, value⟩
    have bound := starts.length_le
    have same := List.prefix_iff_eq_take.mp starts
    refine List.mem_map.mpr ⟨front.length, List.mem_filter.mpr ⟨?_, ?_⟩, ?_⟩
    · rw [List.mem_reverse, List.mem_range]
      omega
    · rw [← same]
      exact decide_eq_true balanced
    · rw [← same, ← value, ← rest]

theorem mem_foundInside {input : Input Char} {parse : Nat × Input Char} :
    parse ∈ foundInside input ↔ ∃ inner after, Balanced inner ∧ Balanced after ∧
      input.Spans (inner ++ ')' :: after) parse.2 ∧
      parse.1 = inner.count '(' + 1 + after.count '(' := by
  simp only [foundInside, List.mem_flatMap, List.mem_map]
  constructor
  · rintro ⟨before, inside, close, closes, last, behind, rfl⟩
    obtain ⟨inner, balanced, spans, value⟩ := mem_balancedBeginnings.mp inside
    obtain ⟨after, balanced', spans', value'⟩ := mem_balancedBeginnings.mp behind
    refine ⟨inner, after, balanced, balanced', ?_, by rw [value, value']⟩
    have closed := Input.spans_cons.mpr ⟨_, (Input.mem_firstOf.mp closes).2, spans'⟩
    exact Input.spans_append.mpr ⟨_, spans, closed⟩
  · rintro ⟨inner, after, balanced, balanced', spans, value⟩
    obtain ⟨middle, spans, closed⟩ := Input.spans_append.mp spans
    obtain ⟨close, closes, spans'⟩ := Input.spans_cons.mp closed
    have inside : (inner.count '(', middle) ∈ balancedBeginnings input :=
      mem_balancedBeginnings.mpr ⟨inner, balanced, spans, rfl⟩
    have behind : (after.count '(', parse.2) ∈ balancedBeginnings close :=
      mem_balancedBeginnings.mpr ⟨after, balanced', spans', rfl⟩
    refine ⟨_, inside, (')', close), Input.mem_firstOf.mpr ⟨rfl, closes⟩, _, behind, ?_⟩
    rw [← value]

def Longer (parse parse' : Nat × Input Char) : Prop :=
  parse'.2.offset < parse.2.offset

instance : Std.Asymm Longer :=
  ⟨fun _ _ => Nat.lt_asymm⟩

theorem pairwise_balancedBeginnings (input : Input Char) :
    (balancedBeginnings input).Pairwise Longer := by
  rw [balancedBeginnings, List.pairwise_map]
  apply List.Pairwise.filter
  rw [List.pairwise_reverse]
  exact List.pairwise_lt_range.imp fun less => Nat.add_lt_add_left less input.offset

theorem pairwise_foundInside (input : Input Char) : (foundInside input).Pairwise Longer := by
  rw [foundInside, List.pairwise_flatMap]
  constructor
  · intro inner _
    rw [List.pairwise_flatMap]
    refine ⟨fun close _ => ?_, Input.pairwise_firstOf _ _ _⟩
    rw [List.pairwise_map]
    exact pairwise_balancedBeginnings close.2
  · -- Nothing is found behind a longer text when a closing bracket follows a shorter one.
    apply (pairwise_balancedBeginnings input).imp_of_mem
    intro inner inner' member member' longer _ _ _ later
    obtain ⟨front, balanced, spans, _⟩ := mem_balancedBeginnings.mp member
    obtain ⟨front', balanced', spans', _⟩ := mem_balancedBeginnings.mp member'
    obtain ⟨close, closes, _⟩ := List.mem_flatMap.mp later
    have closed := Input.spans_append.mpr ⟨_, spans', (Input.mem_firstOf.mp closes).2⟩
    have bound := balanced'.length_le closed.starts balanced spans.starts
    rw [Longer, spans.offset_eq, spans'.offset_eq] at longer
    omega

theorem balancedBeginnings_eq (input : Input Char) :
    balancedBeginnings input =
      (input.firstOf (· == '(')).flatMap (fun opening => foundInside opening.2) ++
        [(0, input)] := by
  -- Both lists are in order, so it is enough that they have the same parses.
  apply (pairwise_balancedBeginnings input).eq_of_mem_iff
  · rw [List.pairwise_append, List.pairwise_flatMap]
    refine ⟨⟨fun opening _ => pairwise_foundInside opening.2, input.pairwise_firstOf _ _⟩,
      List.pairwise_singleton _ _, ?_⟩
    intro parse member _ last
    cases List.mem_singleton.mp last
    obtain ⟨opening, opens, member⟩ := List.mem_flatMap.mp member
    obtain ⟨_, _, _, _, spans, _⟩ := mem_foundInside.mp member
    have opened := (Input.mem_firstOf.mp opens).2.offset_eq
    have closed := spans.offset_eq
    rw [List.length_singleton] at opened
    change input.offset < parse.2.offset
    omega
  · intro parse
    rw [mem_balancedBeginnings, List.mem_append, List.mem_flatMap, List.mem_singleton]
    constructor
    · rintro ⟨text, balanced, spans, value⟩
      by_cases empty : text = []
      · right
        subst empty
        exact Prod.ext value spans.rest_eq
      · left
        obtain ⟨inner, after, inside, behind, rfl⟩ := balanced.exists_pair empty
        obtain ⟨rest, opens, spans⟩ := Input.spans_cons.mp spans
        refine ⟨('(', rest), Input.mem_firstOf.mpr ⟨rfl, opens⟩, mem_foundInside.mpr ?_⟩
        exact ⟨inner, after, inside, behind, spans, value.trans (count_pair inner after)⟩
    · rintro (⟨opening, opens, member⟩ | rfl)
      · obtain ⟨inner, after, inside, behind, spans, value⟩ := mem_foundInside.mp member
        have opened := Input.spans_cons.mpr ⟨_, (Input.mem_firstOf.mp opens).2, spans⟩
        exact ⟨_, inside.pair behind, opened, value.trans (count_pair inner after).symm⟩
      · exact ⟨[], balanced_nil, input.spans_nil, rfl⟩

theorem parens_eager (ρ : Scope Char Γ) (input : Input Char) :
    Eager ρ parens input (balancedBeginnings input) := by
  -- The induction is on what is left to read: the handle is used behind a bracket only.
  induction left : input.length using Nat.strongRecOn generalizing input with
  | ind left ih =>
      subst left
      have handle (rest : Input Char) (shorter : rest.length < input.length) :
          Eager (.handle (.site []) parensBody ρ) (.ref .here) rest (balancedBeginnings rest) :=
        .handle rfl (ih _ shorter _ rfl)
      rw [balancedBeginnings_eq]
      apply Eager.recursive
      refine .or (.bind (.filterM _ .item) fun opening opens => ?_) (.result 0)
      have shorter := Input.length_lt_of_mem_firstOf opens
      have inside := handle opening.2 shorter
      refine inside.bind fun inner member => .bind (.filterM _ .item) fun close closes => ?_
      have noLonger := (inside.atOrAfter inner member).length_le
      have closed := Input.length_lt_of_mem_firstOf closes
      exact (handle close.2 (by omega)).mapM fun after => .silent (inner.1 + 1 + after)

theorem completed_balancedBeginnings (input : Input Char) :
    completed (balancedBeginnings input) =
      if Balanced input.remaining then [input.remaining.count '('] else [] := by
  have short : completed (((List.range input.remaining.length).reverse.filter fun length =>
      Balanced (input.remaining.take length)).map fun length =>
        ((input.remaining.take length).count '(', input.advance length)) = [] := by
    rw [completed, List.map_eq_nil_iff, List.filter_eq_nil_iff]
    intro parse member
    obtain ⟨length, among, rfl⟩ := List.mem_map.mp member
    have bound := List.mem_range.mp (List.mem_reverse.mp (List.mem_of_mem_filter among))
    simp only [Input.isEmpty, Input.length_eq, Input.remaining_advance, List.length_drop,
      beq_iff_eq]
    omega
  have whole : (input.advance input.remaining.length).isEmpty = true := by
    simp [Input.isEmpty, Input.length_eq, Input.remaining_advance]
  rw [balancedBeginnings, List.range_succ, List.reverse_append, List.filter_append, List.map_append,
    completed_append, short, List.append_nil]
  by_cases balanced : Balanced input.remaining <;> simp [completed, balanced, whole]

/-- The parses of brackets are one for each balanced beginning of the input, from the longest to
the empty one, with the number of its opening brackets. So completing comes to a number when the
whole text is balanced and has as many pairs, and fails when it is not. -/
theorem parens_balanced (input : Input Char) (live : Owners) :
    let text := input.remaining
    let c : Closure Char Nat := ⟨.empty, parens⟩
    c.Lists live input
      (((List.range (text.length + 1)).reverse.filter fun length =>
        Balanced (text.take length)).map fun length =>
          ((text.take length).count '(', input.advance length)) ∧
    (∀ pairs, c.Completes live input (.ok pairs) ↔ Balanced text ∧ text.count '(' = pairs) ∧
    (c.Completes live input (.error ⟨input.length⟩) ↔ ¬Balanced text) := by
  intro text c
  have drains := (parens_eager .empty input).drains
  have completes := drains.completes live
  rw [completed_balancedBeginnings] at completes
  refine ⟨drains.lists live, fun pairs => ?_, ?_⟩
  · rw [completes.iff_eq]
    by_cases balanced : Balanced text <;> simp [completion, text, balanced, eq_comm]
  · rw [completes.iff_eq]
    by_cases balanced : Balanced text <;> simp [completion, text, balanced]

end Chars

end EveryParse
