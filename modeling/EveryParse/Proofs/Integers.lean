import EveryParse.Chars
import EveryParse.Proofs.Beginnings
import Mathlib.Data.Nat.Find

/-!
Integers. Main statement: the parses of an integer are the beginnings of the run of digits whose
value is an integer of 64 bits, the longest first and none of them left out, with these values. A
decimal text is read back when no digit follows it.
-/

namespace EveryParse.Chars

variable {Γ : List Type}

/-! Values of texts of digits. -/

/-- The value of the digits is an integer of 64 bits, which is at most 2 ^ 63 - 1. -/
def Fits (digits : List Char) : Prop :=
  Nat.ofDigitChars 10 digits 0 ≤ 9223372036854775807

instance : DecidablePred Fits :=
  fun _ => inferInstanceAs (Decidable (_ ≤ _))

def int64 (digits : List Char) : Int64 :=
  Int64.ofNat (Nat.ofDigitChars 10 digits 0)

theorem int64?_eq (digits : List Char) :
    int64? digits = if Fits digits then some (int64 digits) else none := rfl

theorem Fits.toInt_int64 {digits : List Char} (fits : Fits digits) :
    (int64 digits).toInt = Nat.ofDigitChars 10 digits 0 := by
  unfold Fits at fits
  exact Int64.toInt_ofNat_of_lt (by omega)

theorem le_ofDigitChars (digits : List Char) (start : Nat) :
    start ≤ Nat.ofDigitChars 10 digits start := by
  have more : start ≤ 10 ^ digits.length * start :=
    Nat.le_mul_of_pos_left start (Nat.pow_pos (by decide))
  rw [Nat.ofDigitChars_eq_ofDigitChars_zero]
  omega

theorem Fits.take_of_le {digits : List Char} {length longer : Nat} (le : length ≤ longer)
    (fits : Fits (digits.take longer)) : Fits (digits.take length) := by
  obtain ⟨further, same⟩ := List.take_prefix_take_left (l := digits) le
  have grows := le_ofDigitChars further (Nat.ofDigitChars 10 (digits.take length) 0)
  rw [← Nat.ofDigitChars_append, same] at grows
  exact Nat.le_trans grows fits

/-- One more digit behind a number, if the result is an integer of 64 bits. -/
def pushDigit? (n : Int64) (c : Char) : Option Int64 :=
  let pushed : Int := 10 * n.toInt + (c.toNat - '0'.toNat : Nat)
  if pushed ≤ Int64.maxValue.toInt then some (.ofInt pushed) else none

theorem foldlM_pushDigit? (digits : List Char) {n : Int64} {start : Nat} (same : n.toInt = start) :
    digits.foldlM pushDigit? n =
      if Nat.ofDigitChars 10 digits start ≤ 9223372036854775807 then
        some (Int64.ofNat (Nat.ofDigitChars 10 digits start))
      else none := by
  -- The digits follow any number that has been read before them.
  induction digits generalizing n start with
  | nil =>
      have bound := Int64.toInt_le n
      rw [Int64.toInt_maxValue] at bound
      have below : start ≤ 9223372036854775807 := by omega
      have back : Int64.ofNat start = n := by
        rw [← Int64.ofInt_eq_ofNat, ← same, Int64.ofInt_toInt]
      simp [below, back]
  | cons c digits ih =>
      have value : 10 * n.toInt + (c.toNat - '0'.toNat : Nat) =
          ((10 * start + (c.toNat - '0'.toNat) : Nat) : Int) := by
        rw [same]
        simp
      rw [List.foldlM_cons, pushDigit?, Nat.ofDigitChars_cons, value, Int64.toInt_maxValue]
      generalize 10 * start + (c.toNat - '0'.toNat) = pushed
      have grows := le_ofDigitChars digits pushed
      by_cases fits : pushed ≤ 9223372036854775807
      · rw [if_pos (by omega), Int64.ofInt_eq_ofNat]
        apply ih
        exact Int64.toInt_ofNat_of_lt (by omega)
      · rw [if_neg (by omega), if_neg (by omega)]
        rfl

theorem int64?_eq_foldlM (digits : List Char) : int64? digits = digits.foldlM pushDigit? 0 :=
  (foldlM_pushDigit? digits rfl).symm

def lengthsDown (run : List Char) : List Nat :=
  (List.range' 1 run.length).reverse

theorem mem_lengthsDown {run : List Char} {length : Nat} :
    length ∈ lengthsDown run ↔ 0 < length ∧ length ≤ run.length := by
  rw [lengthsDown, List.mem_reverse, List.mem_range'_1]
  omega

theorem take_ne_nil {run : List Char} {length : Nat} (member : length ∈ lengthsDown run) :
    run.take length ≠ [] := by
  obtain ⟨positive, bound⟩ := mem_lengthsDown.mp member
  rw [← List.length_pos_iff, List.length_take]
  omega

theorem beginnings_eq_append (input : Input Char) :
    input.beginnings Char.isDigit =
      (lengthsDown (input.remaining.takeWhile Char.isDigit)).map
          (fun length => ((input.remaining.takeWhile Char.isDigit).take length,
            input.advance length)) ++
        [([], input)] := by
  rw [Input.beginnings, List.range_eq_range', List.range'_succ, List.reverse_cons, List.map_append]
  rfl

/-- The beginnings of the run of digits that fit, with their values. -/
def fitting (input : Input Char) : List (Int64 × Input Char) :=
  let run := input.remaining.takeWhile Char.isDigit
  (lengthsDown run).filterMap fun length =>
    (int64? (run.take length)).map fun n => (n, input.advance length)

theorem nonempty_texts (input : Input Char) :
    ((input.beginnings Char.isDigit).map fun run => (String.ofList run.1, run.2)).filter
        (fun parse => !parse.1.isEmpty) =
      (lengthsDown (input.remaining.takeWhile Char.isDigit)).map fun length =>
        (String.ofList ((input.remaining.takeWhile Char.isDigit).take length),
          input.advance length) := by
  rw [beginnings_eq_append, List.map_append, List.filter_append, List.map_map]
  generalize input.remaining.takeWhile Char.isDigit = run
  have kept : ∀ length ∈ lengthsDown run,
      (!(String.ofList (run.take length)).isEmpty) = true := by
    intro length member
    simpa using take_ne_nil member
  rw [List.filter_eq_self.mpr]
  · simp
  · simpa using kept

theorem fitting_eq_flatMap (input : Input Char) :
    fitting input =
      ((lengthsDown (input.remaining.takeWhile Char.isDigit)).map fun length =>
        (String.ofList ((input.remaining.takeWhile Char.isDigit).take length),
          input.advance length)).flatMap fun text =>
        (int64? text.1.toList).toList.map fun n => (n, text.2) := by
  rw [fitting, List.filterMap_eq_flatMap_toList, List.flatMap_map]
  simp [Option.toList_map]

theorem ints_drains (ρ : Scope Char Γ) (input : Input Char) :
    ints.Drains ρ input (fitting input) := by
  have reads : digit.Reads ρ Char.isDigit := Parser.sat_reads Char.isDigit
  have texts := ((reads.many input).mapM fun run => .silent (String.ofList run)).filterM
    fun text => .silent (!text.isEmpty)
  dsimp only [Logged.silent] at texts
  rw [nonempty_texts] at texts
  rw [fitting_eq_flatMap]
  apply Parser.Drains.alone_iff.mpr
  refine .bind (.ref rfl texts) (fun text _ => ?_) fun text _ => ?_
  · cases int64? text.1.toList with
    | none => exact fun _ _ => Task.comes rfl
    | some n => exact .result n
  · cases int64? text.1.toList with
    | none => exact .fail
    | some n => exact .result n

theorem fitting_eq_map (input : Input Char) :
    let run := input.remaining.takeWhile Char.isDigit
    fitting input = ((lengthsDown run).filter fun length => Fits (run.take length)).map
      fun length => (int64 (run.take length), input.advance length) := by
  intro run
  rw [← List.filterMap_eq_map, List.filterMap_filter]
  apply List.filterMap_congr
  intro length _
  rw [int64?_eq]
  by_cases fits : Fits (run.take length) <;> simp [fits, run]

theorem exists_longest (run : List Char) :
    ∃ longest ≤ run.length, ∀ length ≤ run.length,
      Fits (run.take length) ↔ length ≤ longest := by
  have empty : Fits (run.take 0) := by simp [Fits]
  refine ⟨Nat.findGreatest (fun length => Fits (run.take length)) run.length,
    Nat.findGreatest_le _, fun length bound => ?_⟩
  constructor
  · intro fits
    apply Nat.le_findGreatest bound
    exact fits
  · intro le
    apply Fits.take_of_le le
    exact Nat.findGreatest_spec (P := fun length => Fits (run.take length)) (Nat.zero_le _) empty

theorem filter_fits {run : List Char} {longest : Nat} (bound : longest ≤ run.length)
    (fits : ∀ length ≤ run.length, Fits (run.take length) ↔ length ≤ longest) :
    (List.range' 1 run.length).filter (fun length => Fits (run.take length)) =
      List.range' 1 longest := by
  have split : List.range' 1 longest ++ List.range' (1 + longest) (run.length - longest) =
      List.range' 1 run.length := by
    rw [List.range'_append_1]
    congr 1
    omega
  rw [← split, List.filter_append, List.filter_eq_self.mpr, List.filter_eq_nil_iff.mpr,
    List.append_nil]
  · intro length member
    rw [List.mem_range'_1] at member
    rw [decide_eq_true_eq, fits length (by omega)]
    omega
  · intro length member
    rw [List.mem_range'_1] at member
    rw [decide_eq_true_eq, fits length (by omega)]
    omega

theorem toInt_fitting (input : Input Char) :
    let run := input.remaining.takeWhile Char.isDigit
    (fitting input).map (fun parse => (parse.1.toInt, parse.2)) =
      ((lengthsDown run).filter fun length => Fits (run.take length)).map fun length =>
        ((Nat.ofDigitChars 10 (run.take length) 0 : Int), input.advance length) := by
  intro run
  rw [fitting_eq_map, List.map_map]
  apply List.map_congr_left
  intro length member
  have fits : Fits (run.take length) := by simpa using (List.mem_filter.mp member).2
  rw [Function.comp_apply, fits.toInt_int64]

theorem head?_fitting {input : Input Char} {longest : Nat}
    (bound : longest ≤ (input.remaining.takeWhile Char.isDigit).length)
    (fits : ∀ length ≤ (input.remaining.takeWhile Char.isDigit).length,
      Fits ((input.remaining.takeWhile Char.isDigit).take length) ↔ length ≤ longest) :
    (fitting input).head? =
      if longest = 0 then none
      else some (int64 ((input.remaining.takeWhile Char.isDigit).take longest),
        input.advance longest) := by
  rw [fitting_eq_map, lengthsDown, List.filter_reverse, filter_fits bound fits]
  cases longest with
  | zero => rfl
  | succ longest =>
      rw [List.range'_concat, List.reverse_append, if_neg (Nat.succ_ne_zero longest)]
      simp [Nat.add_comm]

theorem takeWhile_isDigit_toString (n : Nat) {text : List Char}
    (stops : ∀ c ∈ text.head?, c.isDigit = false) :
    ((toString n).toList ++ text).takeWhile Char.isDigit = (toString n).toList := by
  rw [Nat.toString_eq_repr, Nat.toList_repr, List.takeWhile_append_of_pos]
  · cases text with
    | nil => rw [List.takeWhile_nil, List.append_nil]
    | cons c text =>
        have refused : ¬c.isDigit = true := by simp [stops c rfl]
        rw [List.takeWhile_cons, if_neg refused, List.append_nil]
  · intro c member
    exact Nat.isDigit_of_mem_toDigits (by decide) (by decide) member

theorem ofDigitChars_toString (n : Nat) : Nat.ofDigitChars 10 (toString n).toList 0 = n := by
  rw [Nat.toString_eq_repr, Nat.toList_repr, Nat.ofDigitChars_ten_toDigits]

theorem toString_ne_nil (n : Nat) : (toString n).toList ≠ [] := by
  rw [Nat.toString_eq_repr, Nat.toList_repr]
  exact Nat.toDigits_ne_nil

theorem head?_fitting_toString {input : Input Char} {n : Nat} {text : List Char}
    (small : n ≤ 9223372036854775807) (stops : ∀ c ∈ text.head?, c.isDigit = false)
    (starts : input.remaining = (toString n).toList ++ text) :
    (fitting input).head? =
      some (int64 (toString n).toList, input.advance (toString n).toList.length) := by
  have whole : input.remaining.takeWhile Char.isDigit = (toString n).toList := by
    rw [starts, takeWhile_isDigit_toString n stops]
  obtain ⟨longest, bound, fits⟩ := exists_longest (input.remaining.takeWhile Char.isDigit)
  have first := head?_fitting bound fits
  rw [whole] at bound fits first
  have fitsWhole : Fits ((toString n).toList.take (toString n).toList.length) := by
    rwa [List.take_length, Fits, ofDigitChars_toString]
  have reached := (fits _ (Nat.le_refl _)).mp fitsWhole
  have positive : 0 < (toString n).toList.length := List.length_pos_iff.mpr (toString_ne_nil n)
  have all : longest = (toString n).toList.length := by omega
  rwa [if_neg (by omega), all, List.take_length] at first

/-- The parses of an integer are one for each length from that of the whole run of digits down to
one, as long as its digits can be read one by one without leaving the integers of 64 bits. These are
the lengths at which the value is not too large, and all of them up to a longest one. So a decimal
text that no digit follows is read back as a whole first. -/
theorem ints_exact (input : Input Char) (live : Owners) :
    let run := input.remaining.takeWhile Char.isDigit
    let value (length : Nat) : Nat := Nat.ofDigitChars 10 (run.take length) 0
    ∃ parses, (⟨.empty, ints⟩ : Closure Char Int64).Lists live input parses ∧
      (parses = (List.range' 1 run.length).reverse.filterMap fun length =>
        ((run.take length).foldlM pushDigit? 0).map fun n => (n, input.advance length)) ∧
      parses.map (fun parse => (parse.1.toInt, parse.2)) =
        ((List.range' 1 run.length).reverse.filter
          fun length => value length ≤ 9223372036854775807).map
          (fun length => ((value length : Int), input.advance length)) ∧
      (∃ longest ≤ run.length,
        (List.range' 1 run.length).filter (fun length => value length ≤ 9223372036854775807) =
          List.range' 1 longest ∧
        parses.head?.map (fun parse => (parse.1.toInt, parse.2)) =
          if longest = 0 then none else some ((value longest : Int), input.advance longest)) ∧
      ∀ (n : Nat) (text : List Char), n ≤ 9223372036854775807 →
        (∀ c ∈ text.head?, c.isDigit = false) → input.remaining = (toString n).toList ++ text →
        ∃ v rest, parses.head? = some (v, rest) ∧ v.toInt = n ∧ rest.remaining = text := by
  intro run value
  obtain ⟨longest, bound, fits⟩ := exists_longest run
  have first := head?_fitting bound fits
  refine ⟨fitting input, ?_, ?_, toInt_fitting input,
    ⟨longest, bound, filter_fits bound fits, ?_⟩, ?_⟩
  · exact (ints_drains .empty input).lists live
  · simp only [fitting, int64?_eq_foldlM]
    rfl
  · rw [first]
    by_cases none : longest = 0
    · simp [none]
    · have fits : Fits (run.take longest) := (fits longest bound).mpr (Nat.le_refl _)
      simp only [none, if_false, Option.map_some, fits.toInt_int64, value, run]
  · intro n text small stops starts
    have fitsWhole : Fits (toString n).toList := by rwa [Fits, ofDigitChars_toString]
    refine ⟨_, _, head?_fitting_toString small stops starts, ?_, ?_⟩
    · rw [fitsWhole.toInt_int64, ofDigitChars_toString]
    · rw [Input.remaining_advance, starts, List.drop_left]

theorem largest_exact :
    let input : Input Char := ⟨⟨0, "x9223372036854775807,".toList.toArray⟩, 1⟩
    (9223372036854775807 ≤ 9223372036854775807 ∧ (∀ c ∈ [','].head?, c.isDigit = false) ∧
      input.remaining = (toString 9223372036854775807).toList ++ [',']) ∧
    ∃ parses, (⟨.empty, ints⟩ : Closure Char Int64).Lists .nobody input parses ∧
      ∃ v rest, parses.head? = some (v, rest) ∧ v.toInt = (9223372036854775807 : Nat) ∧
        rest.remaining = [','] := by
  intro input
  have stops : ∀ c ∈ [','].head?, c.isDigit = false := by simp
  have starts : input.remaining = (toString 9223372036854775807).toList ++ [','] := by
    rw [Nat.toString_eq_repr, Nat.toList_repr]
    decide
  obtain ⟨parses, lists, -, -, -, back⟩ := ints_exact input .nobody
  exact ⟨⟨Nat.le_refl _, stops, starts⟩, parses, lists, back _ _ (Nat.le_refl _) stops starts⟩

end EveryParse.Chars
