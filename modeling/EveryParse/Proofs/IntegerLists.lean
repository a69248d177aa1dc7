import EveryParse.Proofs.Completion
import EveryParse.Proofs.Integers
import Mathlib.Data.List.TakeWhile

/-!
Integers with single commas between them. Every beginning of a run of digits is tried, but what is
left behind a shorter one begins with a digit, so that at most one parse reads everything. Main
statement: there is one exactly when the text between any two commas is a number, and its value are
these numbers in order.
-/

namespace EveryParse.Chars

variable {Γ : List Type}

def further : Parser Char Γ Int64 :=
  .bind (char ',') .none fun _ => .bind ints .none fun n => .result n

def commaSeparated : Parser Char Γ (List Int64) :=
  .bind ints .none fun first => .bind further.many .none fun rest => .result (first :: rest)

/-- At least one digit and nothing else, with the value of an integer of 64 bits. -/
def IsNumber (text : List Char) : Prop :=
  text ≠ [] ∧ (∀ c ∈ text, c.isDigit = true) ∧ Fits text

instance : DecidablePred IsNumber := fun text =>
  decidable_of_iff (text ≠ [] ∧ text.all Char.isDigit = true ∧ Fits text)
    (by rw [IsNumber, List.all_eq_true])

structure Separated (numbers : List (List Char)) (text : List Char) : Prop where
  nonempty : numbers ≠ []
  each : ∀ number ∈ numbers, IsNumber number
  joined : [','].intercalate numbers = text

theorem IsNumber.comma_notMem {number : List Char} (isNumber : IsNumber number) : ',' ∉ number := by
  intro member
  have digit := isNumber.2.1 ',' member
  revert digit
  decide

theorem Separated.splitOn_eq {numbers : List (List Char)} {text : List Char}
    (separated : Separated numbers text) : text.splitOn ',' = numbers := by
  rw [← separated.joined]
  apply List.splitOn_intercalate ','
  · intro number member
    exact (separated.each number member).comma_notMem
  · exact separated.nonempty

theorem separated_splitOn {text : List Char} (each : ∀ number ∈ text.splitOn ',', IsNumber number) :
    Separated (text.splitOn ',') text :=
  ⟨List.splitOn_ne_nil ',' text, each, List.intercalate_splitOn ','⟩

def listed (text : List Char) : List (List Int64) :=
  if ∀ number ∈ text.splitOn ',', IsNumber number then [(text.splitOn ',').map int64] else []

def listedBehind : List Char → List (List Int64)
  | [] => [[]]
  | c :: text => if c = ',' then listed text else []

theorem Separated.listed_eq {numbers : List (List Char)} {text : List Char}
    (separated : Separated numbers text) : listed text = [numbers.map int64] := by
  rw [listed, separated.splitOn_eq, if_pos separated.each]

theorem listed_eq_nil {text : List Char} (none : ¬∃ numbers, Separated numbers text) :
    listed text = [] := by
  rw [listed, if_neg]
  intro each
  exact none ⟨_, separated_splitOn each⟩

theorem mem_of_mem_intercalate {c : Char} {numbers : List (List Char)}
    (member : c ∈ [','].intercalate numbers) : c = ',' ∨ ∃ number ∈ numbers, c ∈ number := by
  induction numbers with
  | nil => simp at member
  | cons number numbers ih =>
      cases numbers with
      | nil =>
          rw [List.intercalate_singleton] at member
          exact .inr ⟨number, .head _, member⟩
      | cons next numbers =>
          rw [List.intercalate_cons_cons, List.mem_append, List.mem_append] at member
          rcases member with (inside | comma) | later
          · exact .inr ⟨number, .head _, inside⟩
          · exact .inl (List.mem_singleton.mp comma)
          · rcases ih later with comma | ⟨other, among, inside⟩
            · exact .inl comma
            · exact .inr ⟨other, .tail _ among, inside⟩

theorem listed_eq_nil_of_mem {text : List Char} {c : Char} (member : c ∈ text) (other : c ≠ ',')
    (refused : c.isDigit = false) : listed text = [] := by
  apply listed_eq_nil
  rintro ⟨numbers, separated⟩
  rw [← separated.joined] at member
  rcases mem_of_mem_intercalate member with comma | ⟨number, among, inside⟩
  · exact other comma
  · have digit := (separated.each number among).2.1 c inside
    rw [refused] at digit
    cases digit

theorem listed_eq (text : List Char) :
    listed text =
      if IsNumber (text.takeWhile Char.isDigit) then
        (listedBehind (text.dropWhile Char.isDigit)).map (int64 (text.takeWhile Char.isDigit) :: ·)
      else [] := by
  have whole := List.takeWhile_append_dropWhile (p := Char.isDigit) (l := text)
  have stops := List.head?_dropWhile_not Char.isDigit text
  have digits : ',' ∉ text.takeWhile Char.isDigit := by
    intro member
    have digit := List.mem_takeWhile_imp member
    revert digit
    decide
  generalize text.takeWhile Char.isDigit = run at whole digits ⊢
  generalize text.dropWhile Char.isDigit = rest at whole stops ⊢
  subst whole
  cases rest with
  | nil =>
      rw [listed, List.append_nil, List.splitOn_eq_singleton digits]
      by_cases number : IsNumber run <;> simp [number, listedBehind]
  | cons c rest =>
      by_cases comma : c = ','
      · subst comma
        rw [listed, List.splitOn_append_cons_self_of_not_mem digits, listedBehind, if_pos rfl]
        by_cases number : IsNumber run
        · by_cases each : ∀ number ∈ rest.splitOn ',', IsNumber number
          · rw [if_pos (List.forall_mem_cons.mpr ⟨number, each⟩), if_pos number,
              listed, if_pos each]
            rfl
          · rw [if_neg (fun all => each (List.forall_mem_cons.mp all).2), if_pos number, listed,
              if_neg each]
            rfl
        · rw [if_neg (fun all => number (List.forall_mem_cons.mp all).1), if_neg number]
      · have member : c ∈ run ++ c :: rest := by simp
        rw [listed_eq_nil_of_mem member comma (by simpa using stops)]
        simp [listedBehind, comma]

/-! What is found of them. -/

theorem listedBehind_drop {run rest : List Char} (digits : ∀ c ∈ run, c.isDigit = true)
    {length : Nat} (short : length < run.length) :
    listedBehind ((run ++ rest).drop length) = [] := by
  rw [List.drop_append_of_le_length (by omega), List.drop_eq_getElem_cons short,
    List.cons_append, listedBehind, if_neg]
  intro comma
  have digit := digits run[length] (List.getElem_mem short)
  rw [comma] at digit
  revert digit
  decide

theorem lengthsDown_eq_cons {run : List Char} (nonempty : run ≠ []) :
    lengthsDown run = run.length :: (List.range' 1 (run.length - 1)).reverse := by
  obtain ⟨length, same⟩ : ∃ length, run.length = length + 1 :=
    Nat.exists_eq_add_one.mpr (List.length_pos_iff.mpr nonempty)
  rw [lengthsDown, same, List.range'_concat, List.reverse_concat]
  simp [Nat.add_comm]

theorem flatMap_fitting (input : Input Char) :
    ((fitting input).flatMap fun parse =>
        (listedBehind parse.2.remaining).map (parse.1 :: ·)) =
      listed input.remaining := by
  have whole := List.takeWhile_append_dropWhile (p := Char.isDigit) (l := input.remaining)
  have digits : ∀ c ∈ input.remaining.takeWhile Char.isDigit, c.isDigit = true :=
    fun _ => List.mem_takeWhile_imp
  rw [fitting_eq_map, List.flatMap_map, listed_eq]
  simp only [Input.remaining_advance]
  generalize input.remaining.takeWhile Char.isDigit = run at whole digits ⊢
  generalize input.remaining.dropWhile Char.isDigit = rest at whole ⊢
  rw [← whole]
  by_cases nonempty : run = []
  · subst nonempty
    simp [lengthsDown, IsNumber]
  · have shorter : ∀ lengths : List Nat, (∀ length ∈ lengths, length < run.length) →
        lengths.flatMap (fun length =>
          (listedBehind ((run ++ rest).drop length)).map (int64 (run.take length) :: ·)) = [] := by
      intro lengths short
      rw [List.flatMap_eq_nil_iff]
      intro length member
      rw [listedBehind_drop digits (short length member), List.map_nil]
    have below : ∀ length ∈ ((List.range' 1 (run.length - 1)).reverse).filter
        (fun length => Fits (run.take length)), length < run.length := by
      intro length member
      have inside := List.mem_of_mem_filter member
      rw [List.mem_reverse, List.mem_range'_1] at inside
      omega
    rw [lengthsDown_eq_cons nonempty, List.filter_cons, List.take_length]
    by_cases fits : Fits run
    · have number : IsNumber run := ⟨nonempty, digits, fits⟩
      rw [if_pos (by simpa using fits), if_pos number, List.flatMap_cons, shorter _ below,
        List.drop_left, List.take_length, List.append_nil]
    · have noNumber : ¬IsNumber run := fun number => fits number.2.2
      rw [if_neg (by simpa using fits), if_neg noNumber, shorter _ below]

theorem char_reads {ρ : Scope Char Γ} (c : Char) : (char c).Reads ρ (· == c) :=
  Parser.sat_reads _

theorem ints_inert : (ints : Parser Char Γ Int64).Inert :=
  .alone (.filterM (.mapM (.many (.filterM .item _)) _) _) (.bind (.ref _) _ _)

theorem further_inert : (further : Parser Char Γ Int64).Inert :=
  .bind (.filterM .item _) _ _

def fittingFurther (input : Input Char) : List (Int64 × Input Char) :=
  (input.firstOf (· == ',')).flatMap fun comma => fitting comma.2

theorem further_drains (ρ : Scope Char Γ) (input : Input Char) :
    further.Drains ρ input (fittingFurther input) := by
  refine (char_reads ',' input).bind (fun _ _ => ?_) fun comma _ => ?_
  · exact .bind ints_inert _ _
  · simpa using (ints_drains (ρ.captured .none) comma.2).bind_result .none id

theorem length_lt_of_mem_fittingFurther {input : Input Char} {parse : Int64 × Input Char}
    (member : parse ∈ fittingFurther input) : parse.2.length < input.length := by
  obtain ⟨comma, first, member⟩ := List.mem_flatMap.mp member
  have shorter := Input.length_lt_of_mem_firstOf first
  rw [fitting_eq_map] at member
  obtain ⟨length, _, rfl⟩ := List.mem_map.mp member
  simp only [Input.length_eq, Input.remaining_advance, List.length_drop] at shorter ⊢
  omega

theorem listedBehind_remaining (input : Input Char) :
    listedBehind input.remaining =
      (input.firstOf (· == ',')).flatMap (fun comma => listed comma.2.remaining) ++
        completed [([], input)] := by
  have split := input.splitFirst_eq
  have left := input.remaining_advance 1
  have ended : input.isEmpty = (input.remaining.length == 0) := by
    rw [Input.isEmpty, Input.length_eq]
  cases starts : input.remaining with
  | nil =>
      rw [starts] at split ended
      simp [listedBehind, Input.firstOf, split, completed, ended]
  | cons c text =>
      rw [starts] at split left ended
      by_cases comma : c = ','
      · simp [listedBehind, Input.firstOf, split, completed, ended, comma, left]
      · simp [listedBehind, Input.firstOf, split, completed, ended, comma]

theorem further_many_drains (ρ : Scope Char Γ) (input : Input Char) :
    ∃ runs, further.many.Drains ρ input runs ∧ completed runs = listedBehind input.remaining := by
  -- The induction is on what is left to read: each further integer has consumed its comma.
  induction left : input.length using Nat.strongRecOn generalizing input with
  | ind left ih =>
      subst left
      have later : ∀ parse ∈ fittingFurther input, ∃ runs, further.many.Drains ρ parse.2 runs ∧
          completed runs = listedBehind parse.2.remaining :=
        fun parse member => ih _ (length_lt_of_mem_fittingFurther member) _ rfl
      choose! runs drains complete using later
      refine ⟨_, (further_drains ρ input).many drains, ?_⟩
      have behind : completed ((fittingFurther input).flatMap fun parse =>
          (runs parse).map fun run => (parse.1 :: run.1, run.2)) =
          (input.firstOf (· == ',')).flatMap fun comma => listed comma.2.remaining := by
        simp only [fittingFurther, List.flatMap_assoc, completed_flatMap, ← flatMap_fitting]
        apply List.flatMap_congr
        intro comma first
        apply List.flatMap_congr
        intro parse member
        rw [completed_map, complete parse (List.mem_flatMap.mpr ⟨comma, first, member⟩)]
      rw [completed_append, behind, listedBehind_remaining]

theorem commaSeparated_drains (ρ : Scope Char Γ) (input : Input Char) :
    ∃ parses, commaSeparated.Drains ρ input parses ∧ completed parses = listed input.remaining := by
  choose runs drains complete using further_many_drains (ρ.captured .none)
  have found : commaSeparated.Drains ρ input ((fitting input).flatMap fun parse =>
      (runs parse.2).map fun run => (parse.1 :: run.1, run.2)) := by
    apply (ints_drains ρ input).bind
    · intro parse _
      exact .bind further_inert.many _ _
    · intro parse _
      exact (drains parse.2).bind_result .none (parse.1 :: ·)
  refine ⟨_, found, ?_⟩
  rw [completed_flatMap, ← flatMap_fitting]
  apply List.flatMap_congr
  intro parse _
  rw [completed_map, complete]

theorem isNumber_toString {v : Int64} (nonneg : 0 ≤ v) :
    IsNumber (toString v).toList ∧ int64 (toString v).toList = v := by
  obtain ⟨n, value⟩ := Int.eq_ofNat_of_zero_le (Int64.le_iff_toInt_le.mp nonneg)
  have bound := Int64.toInt_le v
  rw [Int64.toInt_maxValue, value] at bound
  have text : toString v = toString n := by
    change toString v.toInt = toString n
    rw [value]
    rfl
  have fits : Fits (toString n).toList := by
    rw [Fits, ofDigitChars_toString]
    omega
  rw [text]
  refine ⟨⟨toString_ne_nil n, fun c member => ?_, fits⟩, ?_⟩
  · rw [Nat.toString_eq_repr, Nat.toList_repr] at member
    exact Nat.isDigit_of_mem_toDigits (by decide) (by decide) member
  · rw [← Int64.toInt_inj, fits.toInt_int64, ofDigitChars_toString, value]

theorem separated_toString {values : List Int64} (nonempty : values ≠ [])
    (nonneg : ∀ v ∈ values, 0 ≤ v) :
    Separated (values.map fun v => (toString v).toList)
      (String.intercalate "," (values.map toString)).toList := by
  refine ⟨?_, ?_, ?_⟩
  · simpa using nonempty
  · intro number member
    obtain ⟨v, among, rfl⟩ := List.mem_map.mp member
    exact (isNumber_toString (nonneg v among)).1
  · rw [String.toList_intercalate, List.map_map]
    rfl

/-- What consists of numbers with single commas between them is read as a whole in one way, with the
values of these numbers in order; nothing else is. So the decimal texts of integers with commas
between them are read back. -/
theorem commaSeparated_exact (input : Input Char) (live : Owners) :
    let c : Closure Char (List Int64) := ⟨.empty, commaSeparated⟩
    (∀ numbers, Separated numbers input.remaining →
      ∃ parses values, c.Lists live input parses ∧
        parses.countP (fun parse => parse.2.isEmpty) = 1 ∧
        c.Completes live input (.ok values) ∧
        values.map Int64.toInt = numbers.map fun number => (Nat.ofDigitChars 10 number 0 : Int)) ∧
    ((¬∃ numbers, Separated numbers input.remaining) →
      ∃ parses, c.Lists live input parses ∧
        parses.countP (fun parse => parse.2.isEmpty) = 0 ∧
        c.Completes live input (.error ⟨input.length⟩)) ∧
    ∀ values : List Int64, values ≠ [] → (∀ v ∈ values, 0 ≤ v) →
      input.remaining = (String.intercalate "," (values.map toString)).toList →
      c.Completes live input (.ok values) := by
  intro c
  obtain ⟨parses, drains, complete⟩ := commaSeparated_drains .empty input
  have lists := drains.lists live
  have completes := drains.completes live
  rw [complete] at completes
  have count := length_completed parses
  rw [complete] at count
  refine ⟨?_, ?_, ?_⟩
  · intro numbers separated
    rw [separated.listed_eq] at completes count
    refine ⟨parses, _, lists, count.symm, completes, ?_⟩
    rw [List.map_map]
    apply List.map_congr_left
    intro number member
    exact (separated.each number member).2.2.toInt_int64
  · intro none
    rw [listed_eq_nil none] at completes count
    exact ⟨parses, lists, count.symm, completes⟩
  · intro values nonempty nonneg starts
    rw [starts, (separated_toString nonempty nonneg).listed_eq, List.map_map] at completes
    have back : values.map (int64 ∘ fun v => (toString v).toList) = values := by
      refine (List.map_congr_left fun v member => ?_).trans (List.map_id values)
      exact (isNumber_toString (nonneg v member)).2
    rwa [back] at completes

theorem three_integers_exact :
    let c : Closure Char (List Int64) := ⟨.empty, commaSeparated⟩
    let input : Input Char := ⟨⟨0, "12,7,300".toList.toArray⟩, 0⟩
    let doubled : Input Char := ⟨⟨1, "12,,7".toList.toArray⟩, 0⟩
    let numbers : List (List Char) := [['1', '2'], ['7'], ['3', '0', '0']]
    let values : List Int64 := [12, 7, 300]
    (Separated numbers input.remaining ∧
      ∃ parses values, c.Lists .nobody input parses ∧
        parses.countP (fun parse => parse.2.isEmpty) = 1 ∧
        c.Completes .nobody input (.ok values) ∧
        values.map Int64.toInt = numbers.map fun number => (Nat.ofDigitChars 10 number 0 : Int)) ∧
    ((¬∃ numbers, Separated numbers doubled.remaining) ∧
      ∃ parses, c.Lists .nobody doubled parses ∧
        parses.countP (fun parse => parse.2.isEmpty) = 0 ∧
        c.Completes .nobody doubled (.error ⟨5⟩)) ∧
    (values ≠ [] ∧ (∀ v ∈ values, 0 ≤ v) ∧
      input.remaining = (String.intercalate "," (values.map toString)).toList) ∧
      c.Completes .nobody input (.ok values) := by
  intro c input doubled numbers values
  have separated : Separated numbers input.remaining :=
    ⟨by decide, by decide, by decide⟩
  have missing : ¬∃ numbers, Separated numbers doubled.remaining := by
    rintro ⟨numbers, separated⟩
    have each := separated.each
    rw [← separated.splitOn_eq] at each
    exact (each [] (by decide)).1 rfl
  have nonneg : ∀ v ∈ values, 0 ≤ v := by simp [values]
  have starts : input.remaining = (String.intercalate "," (values.map toString)).toList := by
    decide
  have whole := commaSeparated_exact input .nobody
  exact ⟨⟨separated, whole.1 numbers separated⟩,
    ⟨missing, (commaSeparated_exact doubled .nobody).2.1 missing⟩,
    ⟨by decide, nonneg, starts⟩, whole.2.2 values (by decide) nonneg starts⟩

end EveryParse.Chars
