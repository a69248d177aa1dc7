import EveryParse.Grammar.Script
import EveryParse.Proofs.Recorded

/-!
Whatever grammars mean is sited: a session that is told to use grammars is told nothing irregular
(`Grammar.define_regular`, `Grammar.defineRecursive_regular`).
-/

namespace EveryParse

variable {τ : Type} {Γ : List Type} {α β : Type}

namespace Parser

theorem Sited.map {p : Parser τ Γ α} (sited : p.Sited) (g : α → β) : (p.map g).Sited :=
  sited

theorem Sited.filter {p : Parser τ Γ α} (sited : p.Sited) (keep : α → Bool) :
    (p.filter keep).Sited :=
  sited

theorem sited_sat (keep : τ → Bool) : (sat keep : Parser τ Γ τ).Sited :=
  trivial

theorem Sited.many {p : Parser τ Γ α} (sited : p.Sited) : p.many.Sited :=
  ⟨sited, rfl⟩

theorem sited_sequence {steps : List (Step τ Γ α)}
    (sited : ∀ step ∈ steps, ∀ bound, (step.parser bound).Sited) (value : Bindings α → Logged β)
    (bound : Bindings α) : (sequence steps value bound).Sited := by
  induction steps generalizing bound with
  | nil => trivial
  | cons step steps ih =>
      rw [List.forall_mem_cons] at sited
      exact ⟨sited.1 bound, fun v => ih sited.2 _⟩

end Parser

theorem Lexeme.parser_sited (lexeme : Lexeme) : (lexeme.parser : Parser Char Γ Value).Sited := by
  cases lexeme with
  | char c => exact (Parser.sited_sat _).map _
  | digit => exact (Parser.sited_sat _).map _
  | lower => exact (Parser.sited_sat _).map _
  | upper => exact (Parser.sited_sat _).map _
  | letter => exact ⟨Parser.sited_sat _, Parser.sited_sat _⟩
  | alphanumeric => exact ⟨⟨Parser.sited_sat _, Parser.sited_sat _⟩, Parser.sited_sat _⟩
  | word =>
      refine ⟨⟨⟨Parser.sited_sat _, Parser.sited_sat _⟩, Parser.sited_sat _⟩, ⟨[], rfl⟩, ?_⟩
      exact ⟨⟨trivial, fun _ => ⟨trivial, fun _ => trivial⟩⟩, trivial⟩
  | ints =>
      refine ⟨((Parser.sited_sat _).many.map _).filter _, trivial, fun text => ?_⟩
      dsimp only
      split <;> trivial

section Token

variable [Token τ]

/-- The parsers that tokens provide are sited. -/
def SitedLexemes (τ : Type) [Token τ] : Prop :=
  ∀ (Γ : List Type) (lexeme : Lexeme), (Token.lexeme lexeme : Parser τ Γ Value).Sited

theorem sitedLexemes_char : SitedLexemes Char :=
  fun _ lexeme => lexeme.parser_sited

mutual

theorem Grammar.parser_sited (lexemes : SitedLexemes τ) {Γ : List Type} (names : Names Γ)
    (bound : Bindings Value) (address : List Nat) (g : Grammar τ) :
    (g.parser names bound address).Sited :=
  match g with
  | .result value => trivial
  | .fail => trivial
  | .item => trivial
  | .sat name keep => trivial
  | .bind p name next =>
    ⟨p.parser_sited lexemes names bound _, fun _ => next.parser_sited lexemes names _ _⟩
  | .map p name image => p.parser_sited lexemes names bound _
  | .filter p name keep => p.parser_sited lexemes names bound _
  | .or p q => ⟨p.parser_sited lexemes names bound _, q.parser_sited lexemes names bound _⟩
  | .many p => ((p.parser_sited lexemes names bound _).many).map _
  | .recursive name body => ⟨⟨address, rfl⟩, body.parser_sited lexemes (names.push name) bound _⟩
  | .ref name => by
    unfold Grammar.parser
    split <;> trivial
  | .share name p body =>
    ⟨p.parser_sited lexemes names bound _, body.parser_sited lexemes (names.push name) bound _⟩
  | .sequence steps value =>
    Parser.sited_sequence (steps.parsers_sited lexemes names address) _ bound
  | .cond test yes no => by
    unfold Grammar.parser
    dsimp only [Parser.Sited]
    split
    · exact yes.parser_sited lexemes names bound _
    · exact no.parser_sited lexemes names bound _
  | .each counts => trivial
  | .tap label p => p.parser_sited lexemes names bound _
  | .probe p tokens name next =>
    ⟨p.parser_sited lexemes names bound _, fun _ => next.parser_sited lexemes names _ _⟩
  | .lexeme lexeme => lexemes Γ lexeme

theorem Steps.parsers_sited (lexemes : SitedLexemes τ) {Γ : List Type} (names : Names Γ)
    (address : List Nat) (steps : Steps τ) :
    ∀ step ∈ steps.parsers names address, ∀ bound, (step.parser bound).Sited :=
  match steps with
  | .nil => by simp [Steps.parsers]
  | .cons name p rest => by
    unfold Steps.parsers
    rw [List.forall_mem_cons]
    exact ⟨fun bound => p.parser_sited lexemes names bound _, rest.parsers_sited lexemes names _⟩

end

theorem Grammar.define_regular (lexemes : SitedLexemes τ) (address : List Nat) (name : String)
    (uses : List String) (g : Grammar τ) : (g.define address name uses).Regular :=
  g.parser_sited lexemes _ _ _

theorem Grammar.defineRecursive_regular (lexemes : SitedLexemes τ) (address : List Nat)
    (name handle : String) (uses : List String) (g : Grammar τ) :
    (g.defineRecursive address name handle uses).Regular :=
  g.parser_sited lexemes _ _ _

end Token

end EveryParse
