import EveryParse.Proofs.Strong

/-!
Numbered definitions. A ledger tells which definition has which number; in what a session makes of
sited parsers, a number means the definition that the ledger has under it (`keepsProper_upheld`).
Whoever owns a numbered definition owns what that definition owns.
-/

namespace EveryParse

variable {τ : Type} {α : Type} {Γ : List Type}

abbrev Ledger (τ : Type) := List (Definition τ)

namespace Definition

def keeps (definition : Definition τ) : Owners :=
  (Parser.recursive definition.name definition.body).keeps definition.scope

def Owns (name : Name) (definition : Definition τ) : Prop :=
  (Parser.recursive definition.name definition.body).Owns name definition.scope

end Definition

/-- Definitions inside are named by where they stand, and only a variable that is alone in its scope
is repeated, as in `Parser.many`. -/
def Parser.Sited {Γ : List Type} {α : Type} : Parser τ Γ α → Prop
  | result _ | fail | item | leaf _ | ref _ => True
  | bind p _ f => p.Sited ∧ ∀ v, (f v).Sited
  | mapM _ p | filterM _ p | tap _ p | noted _ p => p.Sited
  | or p q | share p q | alone p q => p.Sited ∧ q.Sited
  | runs (Γ := Γ) _ _ _ => Γ.length = 1
  | recursive name body => (∃ address, name = .site address) ∧ body.Sited
  | probe p _ next => p.Sited ∧ ∀ found, (next found).Sited

section Ledger

variable (known : Ledger τ)

/-- If the definition has a number, it is the one that the ledger has under it. -/
def Definition.Proper (definition : Definition τ) : Prop :=
  definition.body.Sited ∧
    ∀ number, definition.name = .serial number → known[number]? = some definition

/-- All definitions inside are named by where they stand; the parser as a whole may be a numbered
one. -/
def Parser.Proper (ρ : Scope τ Γ) : Parser τ Γ α → Prop
  | recursive name body => Definition.Proper known ⟨ρ, name, body⟩
  | p => p.Sited

def Scope.Proper {Γ : List Type} : Scope τ Γ → Prop
  | empty => True
  | share p ρ => p.Proper known ρ ∧ ρ.Proper
  | handle name body ρ => Definition.Proper known ⟨ρ, name, body⟩ ∧ ρ.Proper
  | pending ρ => ρ.Proper
  | link σ p ρ => (p.Proper known σ ∧ σ.Proper) ∧ ρ.Proper

def Parses.Proper {α : Type} : Parses τ α → Prop
  | listed _ | drawn _ _ => True
  | mapped _ s | filtered _ s | chosen s | tapped _ _ s => s.Proper
  | choosing s ρ q _ => s.Proper ∧ ρ.Proper known ∧ q.Sited
  | nested ρ f outer inner => (ρ.Proper known ∧ ∀ v, (f v).Sited) ∧ outer.Proper ∧ inner.Proper
  | anchored ρ name body s =>
    (Definition.Proper known ⟨ρ, name, body⟩ ∧ ρ.Proper known) ∧ s.Proper

end Ledger

variable {known : Ledger τ} {ρ : Scope τ Γ}

theorem Parser.Sited.proper {p : Parser τ Γ α} (sited : p.Sited) : p.Proper known ρ := by
  cases p with
  | recursive name body =>
      obtain ⟨⟨address, rfl⟩, sited⟩ := sited
      exact ⟨sited, fun _ same => by cases same⟩
  | _ => exact sited

theorem Scope.Proper.get (proper : ρ.Proper known) (x : Var Γ α) :
    match ρ.get x with
    | .parser σ p => p.Proper known σ ∧ σ.Proper known
    | .handle name body σ => Definition.Proper known ⟨σ, name, body⟩ ∧ σ.Proper known
    | .nothing => True := by
  induction x with
  | here =>
      cases ρ with
      | share p ρ => exact proper
      | handle name body ρ => exact proper
      | pending ρ => trivial
      | link σ p ρ => exact proper.1
  | there x ih =>
      cases ρ with
      | share p ρ => exact ih proper.2
      | handle name body ρ => exact ih proper.2
      | pending ρ => exact ih proper
      | link σ p ρ => exact ih proper.2

theorem Scope.Proper.parser (proper : ρ.Proper known) {x : Var Γ α} {Δ : List Type}
    {σ : Scope τ Δ} {p : Parser τ Δ α} (stands : ρ.get x = .parser σ p) :
    p.Proper known σ ∧ σ.Proper known := by
  have found := proper.get x
  rwa [stands] at found

theorem Scope.Proper.captured {Δ : List Type} (proper : ρ.Proper known)
    (captures : Captures Γ Δ) : (ρ.captured captures).Proper known := by
  induction captures with
  | all => exact proper
  | none => trivial
  | also x others ih => exact ⟨⟨trivial, proper⟩, ih⟩

def Ledger.Grows (known longer : Ledger τ) : Prop :=
  ∀ (number : Nat) definition, known[number]? = some definition →
    longer[number]? = some definition

theorem Ledger.grows_append (known added : Ledger τ) : known.Grows (known ++ added) := by
  intro number definition found
  have bound := (List.getElem?_eq_some_iff.mp found).1
  rw [List.getElem?_append_left bound]
  exact found

section Longer

variable {longer : Ledger τ} (grows : known.Grows longer)
include grows

theorem Definition.Proper.mono {definition : Definition τ} (proper : definition.Proper known) :
    definition.Proper longer :=
  ⟨proper.1, fun number same => grows number _ (proper.2 number same)⟩

theorem Parser.Proper.mono {p : Parser τ Γ α} (proper : p.Proper known ρ) :
    p.Proper longer ρ := by
  cases p with
  | recursive name body => exact Definition.Proper.mono grows proper
  | _ => exact proper

theorem Scope.Proper.mono (proper : ρ.Proper known) : ρ.Proper longer := by
  induction ρ with
  | empty => trivial
  | share p ρ ih => exact ⟨proper.1.mono grows, ih proper.2⟩
  | handle name body ρ ih => exact ⟨proper.1.mono grows, ih proper.2⟩
  | pending ρ ih => exact ih proper
  | link σ p ρ ihLinked ih =>
      exact ⟨⟨proper.1.1.mono grows, ihLinked proper.1.2⟩, ih proper.2⟩

theorem Parses.Proper.mono {s : Parses τ α} (proper : s.Proper known) : s.Proper longer := by
  induction s with
  | listed parses | drawn parses index => trivial
  | mapped g s ih | filtered keep s ih | chosen s ih | tapped label ended s ih => exact ih proper
  | choosing s ρ q input ih =>
      exact ⟨ih proper.1, proper.2.1.mono grows, proper.2.2⟩
  | nested ρ f outer inner ihOuter ihInner =>
      exact ⟨⟨proper.1.1.mono grows, proper.1.2⟩, ihOuter proper.2.1, ihInner proper.2.2⟩
  | anchored ρ name body s ih =>
      exact ⟨⟨proper.1.1.mono grows, proper.1.2.mono grows⟩, ih proper.2⟩

end Longer

/-- The ledger has a definition under the number, and what that owns is owned. -/
def Ledger.Passes (known : Ledger τ) (number : Nat) (owns : Name → Prop) : Prop :=
  ∃ definition, known[number]? = some definition ∧ ∀ name, definition.Owns name → owns name

theorem Ledger.Passes.imp {number : Nat} {owns owns' : Name → Prop}
    (passes : known.Passes number owns) (also : ∀ name, owns name → owns' name) :
    known.Passes number owns' := by
  obtain ⟨definition, found, owned⟩ := passes
  exact ⟨definition, found, fun name owns => also name (owned name owns)⟩

theorem Parser.Owns.passes {number : Nat} {p : Parser τ Γ α} (scope : ρ.Proper known)
    (proper : p.Proper known ρ) (owns : p.Owns (.serial number) ρ) :
    known.Passes number (p.Owns · ρ) := by
  induction owns with
  | definition => exact ⟨_, proper.2 number rfl, fun _ => id⟩
  | body _ ih =>
      have inside := proper.1
      exact (ih ⟨proper, scope⟩ inside.proper).imp fun _ => .body
  | ref stands _ ih =>
      obtain ⟨proper, scope⟩ := scope.parser stands
      exact (ih scope proper).imp fun _ => .ref stands
  | runs stands _ ih =>
      obtain ⟨proper, scope⟩ := scope.parser stands
      exact (ih scope proper).imp fun _ => .runs stands
  | @next _ _ _ _ _ _ _ _ captures _ _ _ _ stands _ ih =>
      obtain ⟨proper, scope⟩ := (scope.captured captures).parser stands
      exact (ih scope proper).imp fun _ => .next stands
  | counted stands _ ih =>
      obtain ⟨proper, scope⟩ := scope.parser stands
      exact (ih scope proper).imp fun _ => .counted stands
  | bind _ ih => exact (ih scope (Sited.proper proper.1)).imp fun _ => .bind
  | mapM _ ih => exact (ih scope (Sited.proper proper)).imp fun _ => .mapM
  | filterM _ ih => exact (ih scope (Sited.proper proper)).imp fun _ => .filterM
  | first _ ih => exact (ih scope (Sited.proper proper.1)).imp fun _ => .first
  | second _ ih => exact (ih scope (Sited.proper proper.2)).imp fun _ => .second
  | share _ ih =>
      have owned := ih ⟨Sited.proper proper.1, scope⟩ (Sited.proper proper.2)
      exact owned.imp fun _ => .share
  | alone _ ih =>
      have owned := ih ⟨⟨Sited.proper proper.1, scope⟩, trivial⟩ (Sited.proper proper.2)
      exact owned.imp fun _ => .alone
  | tap _ ih => exact (ih scope (Sited.proper proper)).imp fun _ => .tap
  | noted _ ih => exact (ih scope (Sited.proper proper)).imp fun _ => .noted
  | probed _ ih => exact (ih scope (Sited.proper proper.1)).imp fun _ => .probed

theorem Scope.Owns.passes {number : Nat} (scope : ρ.Proper known)
    (owns : ρ.Owns (.serial number)) : known.Passes number (ρ.Owns ·) := by
  obtain ⟨β, x, Δ, σ, p, stands, owns⟩ := owns
  obtain ⟨proper, scope⟩ := scope.parser stands
  exact (owns.passes scope proper).imp fun _ owned => ⟨β, x, Δ, σ, p, stands, owned⟩

theorem Parses.Owns.passes {number : Nat} {s : Parses τ α} (proper : s.Proper known)
    (owns : s.Owns (.serial number)) : known.Passes number (s.Owns ·) := by
  induction s with
  | listed parses | drawn parses index => exact owns.elim
  | mapped g s ih | filtered keep s ih | chosen s ih | tapped label ended s ih =>
      exact ih proper owns
  | choosing s ρ q input ih =>
      rcases owns with owns | owns
      · exact (ih proper.1 owns).imp fun _ => .inl
      · exact (owns.passes proper.2.1 proper.2.2.proper).imp fun _ => .inr
  | nested ρ f outer inner ihOuter ihInner =>
      rcases owns with owns | owns | owns
      · exact (owns.passes proper.1.1).imp fun _ => .inl
      · exact (ihOuter proper.2.1 owns).imp fun _ owned => .inr (.inl owned)
      · exact (ihInner proper.2.2 owns).imp fun _ owned => .inr (.inr owned)
  | anchored ρ name body s ih =>
      rcases owns with owns | owns
      · have whole : (Parser.recursive name body).Proper known ρ := proper.1.1
        exact (owns.passes proper.1.2 whole).imp fun _ => .inl
      · exact (ih proper.2 owns).imp fun _ => .inr

namespace Owners

def Within (held live : Owners) : Prop :=
  ∀ number, held (.serial number) = true → live (.serial number) = true

def Closed (known : Ledger τ) (live : Owners) : Prop :=
  ∀ (number : Nat) definition, known[number]? = some definition → live (.serial number) = true →
    definition.keeps.Within live

def allBut (number : Nat) : Owners :=
  fun name => name != .serial number

@[simp]
theorem add_eq_true {live held : Owners} {name : Name} :
    (live.add held) name = true ↔ live name = true ∨ held name = true := by
  simp [add, or_comm]

variable {held held' live live' : Owners}

theorem Within.refl (live : Owners) : live.Within live :=
  fun _ => id

theorem Within.trans (first : held.Within live) (second : live.Within live') :
    held.Within live' :=
  fun number holds => second number (first number holds)

theorem within_add_left (live held : Owners) : live.Within (live.add held) := by
  intro number alive
  exact add_eq_true.mpr (.inl alive)

theorem within_add_right (live held : Owners) : held.Within (live.add held) := by
  intro number holds
  exact add_eq_true.mpr (.inr holds)

theorem add_within (first : held.Within live) (second : held'.Within live) :
    (held.add held').Within live := by
  intro number holds
  rcases add_eq_true.mp holds with holds | holds
  · exact first number holds
  · exact second number holds

theorem Closed.add (closed : live.Closed known) (closedHeld : held.Closed known) :
    (live.add held).Closed known := by
  intro number definition found alive
  rcases add_eq_true.mp alive with alive | holds
  · exact (closed number definition found alive).trans (within_add_left live held)
  · exact (closedHeld number definition found holds).trans (within_add_right live held)

theorem Closed.of_passes {owns : Name → Prop} (same : ∀ name, live name = true ↔ owns name)
    (passes : ∀ number, owns (.serial number) → known.Passes number owns) :
    live.Closed known := by
  intro number definition found alive other kept
  obtain ⟨_, found', owned⟩ := passes number ((same _).mp alive)
  cases found.symm.trans found'
  exact (same _).mpr (owned _ (Parser.keeps_iff.mp kept))

end Owners

theorem Parser.Proper.keeps_closed {p : Parser τ Γ α} (scope : ρ.Proper known)
    (proper : p.Proper known ρ) : Owners.Closed known (p.keeps ρ) :=
  .of_passes (fun _ => Parser.keeps_iff) fun _ owns => owns.passes scope proper

theorem Scope.Proper.holds_closed (scope : ρ.Proper known) : Owners.Closed known ρ.holds :=
  .of_passes (fun _ => Scope.holds_iff) fun _ owns => owns.passes scope

theorem Parses.Proper.holds_closed {s : Parses τ α} (proper : s.Proper known) :
    Owners.Closed known s.holds :=
  .of_passes (fun _ => Parses.holds_iff) fun _ owns => owns.passes proper

theorem Captures.any_of_held {Δ : List Type} {captures : Captures Γ Δ} {scope : List Bool}
    (held : (captures.held scope).any id = true) : scope.any id = true := by
  induction captures with
  | all => exact held
  | none => cases held
  | also x others ih =>
      simp only [Captures.held, List.any_cons, Bool.or_eq_true, id] at held
      rcases held with here | held
      · exact Scope.any_of_getD here
      · exact ih held

theorem Parser.Sited.any_of_holds {p : Parser τ Γ α} (sited : p.Sited) {number : Nat}
    {scope : List Bool} (holds : p.holds (.serial number) scope = true) :
    scope.any id = true := by
  induction p generalizing scope with
  | result v | fail | item | leaf parses => cases holds
  | bind p captures f ih _ =>
      simp only [Parser.holds, Bool.or_eq_true] at holds
      rcases holds with holds | captured
      · exact ih sited.1 holds
      · exact Captures.any_of_held captured
  | probe p input next ih _ =>
      simp only [Parser.holds, Bool.or_eq_true] at holds
      rcases holds with holds | inScope
      · exact ih sited.1 holds
      · exact inScope
  | mapM g p ih | filterM keep p ih | tap label p ih | noted events p ih => exact ih sited holds
  | or p q ih ihSecond =>
      simp only [Parser.holds, Bool.or_eq_true] at holds
      rcases holds with holds | holds
      · exact ih sited.1 holds
      · exact ihSecond sited.2 holds
  | runs x stop extend | ref x => exact Scope.any_of_getD holds
  | recursive name body ih =>
      obtain ⟨⟨address, rfl⟩, sited⟩ := sited
      simp only [Parser.holds, Bool.or_eq_true, beq_iff_eq, reduceCtorEq, false_or] at holds
      simpa using ih sited holds
  | share p q ih ihSecond =>
      have either : p.holds (.serial number) scope = true ∨ scope.any id = true := by
        simpa using ihSecond sited.2 holds
      exact either.elim (ih sited.1) id
  | alone p q ih ihSecond =>
      have linked : p.holds (.serial number) scope = true := by
        simpa using ihSecond sited.2 holds
      exact ih sited.1 linked

theorem Parser.Sited.keeps_within {p : Parser τ Γ α} (sited : p.Sited) (ρ : Scope τ Γ) :
    Owners.Within (p.keeps ρ) ρ.holds :=
  fun _ => sited.any_of_holds

theorem Var.index_lt {Γ : List Type} (x : Var Γ α) : x.index < Γ.length := by
  induction x with
  | here => simp [Var.index]
  | there x ih => simpa [Var.index] using ih

theorem Scope.length_held (ρ : Scope τ Γ) (name : Name) : (ρ.held name).length = Γ.length := by
  induction ρ with
  | empty => rfl
  | share p ρ ih | handle other body ρ ih | pending ρ ih => simpa [Scope.held] using ih
  | link σ p ρ _ ih => simpa [Scope.held] using ih

theorem Parser.keeps_unrolled (alone : Γ.length = 1) (ρ : Scope τ Γ) {β : Type} (x : Var Γ α)
    (stop : β) (extend : α → β → β) :
    (unrolled x stop extend).keeps ρ = (runs x stop extend).keeps ρ := by
  funext name
  obtain ⟨held, only⟩ := List.length_eq_one_iff.mp ((ρ.length_held name).trans alone)
  have first : x.index = 0 := by
    have bound := x.index_lt
    omega
  simp [Parser.keeps, unrolled, Parser.map, Parser.holds, Captures.held, only, first]

/-! Building, invoking and pulling keep to the ledger. -/

/-- Sited parsers are built from sited ones, and what is opened on them and left by pulls keeps to
the ledger. -/
def keepsProper (known : Ledger τ) : Contract τ where
  call _ _ := True
  ask _ _ := True
  result
    | .build _ p, built => p.Sited → built.value.Sited
    | .invoke ρ p _, opened => ρ.Proper known → p.Proper known ρ → opened.value.Proper known
    | .pull s, answer => s.Proper known → answer.value.next.Proper known
    | .count _ _, _ => True

theorem keepsProper_build (live : Owners) (ρ : Scope τ Γ) (p : Parser τ Γ α) (log : List Event) :
    ((Task.build ρ p).course log).Meets (keepsProper known) live
      ((keepsProper known).result (.build ρ p)) := by
  cases p with
  | result v | fail | item | leaf parses | runs x stop extend | ref x => exact id
  | bind p captures f => exact ⟨trivial, fun _ builds sited => ⟨builds sited.1, sited.2⟩⟩
  | recursive name body => exact ⟨trivial, fun _ builds sited => ⟨sited.1, builds sited.2⟩⟩
  | mapM g p | filterM keep p | tap label p | noted events p =>
      exact ⟨trivial, fun _ builds sited => builds sited⟩
  | or p q | share p q | alone p q =>
      exact ⟨trivial, fun _ builds => ⟨trivial, fun _ builds' sited =>
        ⟨builds sited.1, builds' sited.2⟩⟩⟩
  | probe p input next =>
      refine ⟨trivial, fun _ _ => ⟨trivial, fun _ _ => ⟨trivial, fun found _ => ?_⟩⟩⟩
      exact ⟨trivial, fun _ builds sited => builds (sited.2 found.value)⟩

theorem Parser.sited_unrolled (alone : Γ.length = 1) {β : Type} (x : Var Γ α) (stop : β)
    (extend : α → β → β) : (unrolled (τ := τ) x stop extend).Sited := by
  simp [unrolled, Parser.map, Parser.Sited, alone]

theorem keepsProper_invoke (live : Owners) (ρ : Scope τ Γ) (p : Parser τ Γ α) (input : Input τ)
    (log : List Event) :
    ((Task.invoke ρ p input).course log).Meets (keepsProper known) live
      ((keepsProper known).result (.invoke ρ p input)) := by
  cases p with
  | result v | fail | item | leaf parses => exact fun _ _ => trivial
  | bind p captures f =>
      exact ⟨trivial, fun _ opens scope sited =>
        ⟨⟨scope.captured captures, sited.2⟩, opens scope (Parser.Sited.proper sited.1), trivial⟩⟩
  | mapM g p | filterM keep p | tap label p | noted events p =>
      exact ⟨trivial, fun _ opens scope sited => opens scope (Parser.Sited.proper sited)⟩
  | or p q =>
      exact ⟨trivial, fun _ opens scope sited =>
        ⟨opens scope (Parser.Sited.proper sited.1), scope, sited.2⟩⟩
  | runs x stop extend =>
      exact ⟨trivial, fun _ opens scope alone =>
        opens scope (Parser.sited_unrolled alone x stop extend).proper⟩
  | recursive name body =>
      exact ⟨trivial, fun _ opens scope proper =>
        ⟨⟨proper, scope⟩, opens ⟨proper, scope⟩ (Parser.Sited.proper proper.1)⟩⟩
  | share p q =>
      exact ⟨trivial, fun _ opens scope sited =>
        opens ⟨Parser.Sited.proper sited.1, scope⟩ (Parser.Sited.proper sited.2)⟩
  | alone p q =>
      exact ⟨trivial, fun _ opens scope sited =>
        opens ⟨⟨Parser.Sited.proper sited.1, scope⟩, trivial⟩ (Parser.Sited.proper sited.2)⟩
  | ref x =>
      have stands (scope : ρ.Proper known) := scope.get x
      simp only [Task.course]
      cases found : ρ.get x with
      | parser σ p =>
          rw [found] at stands
          exact ⟨trivial, fun _ opens scope _ => opens (stands scope).2 (stands scope).1⟩
      | handle name body σ =>
          rw [found] at stands
          refine ⟨trivial, fun _ => ⟨trivial, fun _ opens scope _ => ?_⟩, fun _ _ _ => trivial⟩
          exact opens (stands scope).2 (stands scope).1
      | nothing => exact fun _ _ => trivial
  | probe p probed next =>
      exact ⟨trivial, fun _ builds => ⟨trivial, fun _ opens scope sited =>
        opens scope (builds sited).proper⟩⟩

theorem keepsProper_pull (live : Owners) (s : Parses τ α) (log : List Event) :
    ((Task.pull s).course log).Meets (keepsProper known) live
      ((keepsProper known).result (.pull s)) := by
  cases s with
  | listed parses => cases parses <;> exact fun _ => trivial
  | drawn parses index =>
      simp only [Task.course]
      cases parses index <;> exact fun _ => trivial
  | mapped g s | tapped label ended s =>
      refine ⟨trivial, ?_⟩
      rintro ⟨_ | _, _⟩ leaves proper <;> exact leaves proper
  | anchored ρ name body s =>
      refine ⟨trivial, ?_⟩
      rintro ⟨_ | _, _⟩ leaves proper <;> exact ⟨proper.1, leaves proper.2⟩
  | filtered keep s =>
      refine ⟨trivial, ?_⟩
      rintro ⟨⟨v, rest, s⟩ | s, log⟩ leaves
      · dsimp only
        split
        · exact fun proper => leaves proper
        · exact ⟨trivial, fun _ later proper => later (leaves proper)⟩
      · exact fun proper => leaves proper
  | choosing s ρ q input =>
      refine ⟨trivial, ?_⟩
      rintro ⟨⟨v, rest, s⟩ | s, log⟩ leaves
      · exact fun proper => ⟨leaves proper.1, proper.2⟩
      · exact ⟨trivial, fun _ opens => ⟨trivial, fun _ later proper =>
          later (opens proper.2.1 proper.2.2.proper)⟩⟩
  | chosen s =>
      refine ⟨trivial, ?_⟩
      rintro ⟨⟨v, rest, s⟩ | s, log⟩ leaves
      · exact fun proper => leaves proper
      · exact fun _ => trivial
  | nested ρ f outer inner =>
      refine ⟨trivial, ?_⟩
      rintro ⟨⟨v, rest, inner⟩ | inner, log⟩ leaves
      · exact fun proper => ⟨proper.1, proper.2.1, leaves proper.2.2⟩
      · refine ⟨trivial, ?_⟩
        rintro ⟨⟨v, rest, outer⟩ | outer, log⟩ leavesOuter
        · refine ⟨trivial, fun _ builds => ⟨trivial, fun _ opens => ⟨trivial, fun _ later => ?_⟩⟩⟩
          intro proper
          have following := opens proper.1.1 (builds (proper.1.2 v)).proper
          exact later ⟨proper.1, leavesOuter proper.2.1, following⟩
        · exact fun _ => trivial

theorem keepsProper_upheld (known : Ledger τ) : (keepsProper known).Upheld := by
  intro live task log _
  cases task with
  | build ρ p => exact keepsProper_build live ρ p log
  | invoke ρ p input => exact keepsProper_invoke live ρ p input log
  | pull s => exact keepsProper_pull live s log
  | count s found =>
      exact Course.meets_of_forall (fun _ _ => trivial) (fun _ _ => trivial) (fun _ => trivial) _

end EveryParse
