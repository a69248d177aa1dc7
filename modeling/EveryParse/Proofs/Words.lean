import EveryParse.Chars
import EveryParse.Proofs.Beginnings
import EveryParse.Proofs.Exhausts
import EveryParse.Proofs.Knot

/-!
Words. Main statement: the parses of a word are the beginnings of the run of alphanumeric
characters, each of them once and the longest first, and repeating the parser of one such character
finds the same texts pull by pull.
-/

namespace EveryParse

variable {τ α : Type} {Γ : List Type}

theorem Parser.Drains.shows {kept : Definition τ → Prop} {building : AnyScope τ → Prop}
    {ρ : Scope τ Γ} (sound : ρ.Sound kept building) {p : Parser τ Γ α} {input : Input τ}
    {parses : List (α × Input τ)} (drains : p.Drains ρ input parses) {live : Owners}
    (cover : live.Cover kept) {lives : List Owners} (covers : ∀ later ∈ lives, later.Cover kept) :
    ∃ seen, p.Shows ρ input live lives seen ∧
      seen.answers = (List.range lives.length).map (parses[·]?) := by
  obtain ⟨s, log, opened, drains⟩ := drains []
  obtain ⟨fuel, found, pulled, same⟩ := drains.answers lives.length
  rw [List.length_map, List.length_range, Parses.pulls_eq_pullsAmong, ← List.map_const'] at pulled
  refine ⟨⟨log.reverse, found⟩, ?_, same⟩
  rw [sound.shows_everybody _ input cover covers]
  exact Parser.shows_iff.mpr ⟨_, opened, ⟨fuel, pulled⟩, rfl⟩

namespace Unicode

theorem not_lower_of_upper {c : Char} (upper : isUpper c = true) : ¬isLower c = true := by
  simp only [isUpper, isLower, beq_iff_eq] at upper ⊢
  rw [upper]
  simp

theorem caseIn_of_lt_first {range : CasedRange} {ranges : List CasedRange} {code : Nat}
    (below : code < range.first) : caseIn (range :: ranges) code = none := by
  rw [caseIn, if_pos below]

theorem case?_of_isDigit {c : Char} (digit : c.isDigit = true) : case? c = none := by
  simp only [Char.isDigit, Bool.and_eq_true, decide_eq_true_eq, ge_iff_le,
    UInt32.le_iff_toNat_le] at digit
  have below : c.toNat < 0x41 := Nat.lt_of_le_of_lt digit.2 (by decide)
  exact caseIn_of_lt_first below

end Unicode

namespace Chars

def isAlphanumeric (c : Char) : Bool :=
  Unicode.isUpper c || Unicode.isLower c || c.isDigit

theorem alphanumeric_reads {ρ : Scope Char Γ} : alphanumeric.Reads ρ isAlphanumeric := by
  have cased : (Parser.or upper lower).Reads ρ fun c => Unicode.isUpper c || Unicode.isLower c :=
    (Parser.sat_reads _).or (Parser.sat_reads _) fun _ => Unicode.not_lower_of_upper
  refine cased.or (Parser.sat_reads Char.isDigit) fun c letter digit => ?_
  have uncased := Unicode.case?_of_isDigit digit
  simp [Unicode.isUpper, Unicode.isLower, uncased] at letter

def wordBody : Parser Char [String, Char] String :=
  .or
    (.bind (.ref (.there .here)) .all fun first =>
      .bind (.ref .here) .all fun rest =>
        .result (String.singleton first ++ rest))
    (.result "")

def texts (input : Input Char) : List (String × Input Char) :=
  (input.beginnings isAlphanumeric).map fun run => (String.ofList run.1, run.2)

theorem wordBody_drains (σ : Scope Char Γ) (input : Input Char) :
    (Parser.recursive (.site []) wordBody).Drains (.link σ alphanumeric .empty) input
      (texts input) := by
  -- The induction is on what is left to read: the handle gives the beginnings of what follows the
  -- first character.
  induction left : input.length using Nat.strongRecOn generalizing input with
  | ind left ih =>
      subst left
      have first : (Parser.ref (.there .here)).Drains
          (.handle (.site []) wordBody (.link σ alphanumeric .empty)) input
          (input.firstOf isAlphanumeric) :=
        .ref rfl (alphanumeric_reads input)
      rw [texts, Input.beginnings_eq, List.map_append, List.map_flatMap]
      apply Parser.Drains.recursive
      refine .or (first.bind ?_ fun parse member => ?_) (.result "")
      · intro parse _
        exact .bind (.ref _) _ _
      · have behind : (Parser.ref .here).Drains
            (.handle (.site []) wordBody (.link σ alphanumeric .empty)) parse.2 (texts parse.2) :=
          .handle rfl (ih _ (Input.length_lt_of_mem_firstOf member) _ rfl)
        have follows := behind.bind_result .all (String.singleton parse.1 ++ ·)
        simpa [texts, Function.comp_def, String.ofList_cons, Scope.captured] using follows

theorem word_drains (σ : Scope Char Γ) (input : Input Char) :
    word.Drains σ input (texts input) :=
  Parser.Drains.alone_iff.mpr (wordBody_drains σ input)

/-- The parses of a word are one for each length from that of the whole run of alphanumeric
characters down to zero, with the beginning of that length and what follows it. Repeating the
parser of one alphanumeric character and joining the characters gives the same answers to every
pull. -/
theorem word_beginnings (input : Input Char) (live : Owners) :
    let run := input.remaining.takeWhile isAlphanumeric
    (⟨.empty, word⟩ : Closure Char String).Lists live input
      ((List.range (run.length + 1)).map fun missing =>
        (String.ofList (run.take (run.length - missing)),
          input.advance (run.length - missing))) ∧
    ∀ lives, ∃ seen seen',
      word.Shows .empty input live lives seen ∧
      (alphanumeric.many.map String.ofList).Shows .empty input live lives seen' ∧
      seen.answers = seen'.answers := by
  intro run
  have closed : (Scope.empty : Scope Char []).Closed := trivial
  have words := word_drains Scope.empty input
  have repeated : (alphanumeric.many.map String.ofList).Drains .empty input (texts input) :=
    (alphanumeric_reads.many input).mapM fun run => .silent (String.ofList run)
  constructor
  · have longestFirst : (List.range (run.length + 1)).reverse =
        (List.range (run.length + 1)).map (run.length - ·) := by
      rw [List.range_eq_range', List.reverse_range', ← List.range_eq_range']
      simp
    rw [texts, Input.beginnings, longestFirst, List.map_map, List.map_map] at words
    exact words.lists live
  · intro lives
    have covers (later : Owners) (_ : later ∈ lives) :
        later.Cover fun _ : Definition Char => False :=
      later.cover_none
    obtain ⟨seen, shows, answers⟩ := words.shows closed live.cover_none covers
    obtain ⟨seen', shows', answers'⟩ := repeated.shows closed live.cover_none covers
    exact ⟨seen, seen', shows, shows', answers.trans answers'.symm⟩

end Chars

end EveryParse
