import EveryParse.Proofs.Ownership
import EveryParse.Session

/-!
What keeps a definition alive: chains of strong references that lead to it, from parsers to the
parsers that they are made of or that they find in their scope, and from open sequences to what they
still have to run. The handle of a definition is no such reference. The tables that are computed of
what is held say the same (`Parser.keeps_iff`, `Parses.holds_iff`, `Session.holds_iff`).
-/

namespace EveryParse

variable {τ : Type}

/-- A chain of strong references leads from the parser to the definition `name`. A continuation
refers to what it has captured. -/
inductive Parser.Owns (name : Name) :
    {Γ : List Type} → {α : Type} → Scope τ Γ → Parser τ Γ α → Prop
  | definition {Γ α} {ρ : Scope τ Γ} {body : Parser τ (α :: Γ) α} :
      Owns name ρ (.recursive name body)
  | body {Γ α} {ρ : Scope τ Γ} {other} {body : Parser τ (α :: Γ) α}
      (owns : Owns name (.handle other body ρ) body) : Owns name ρ (.recursive other body)
  | ref {Γ Δ α} {ρ : Scope τ Γ} {x : Var Γ α} {σ : Scope τ Δ} {p}
      (stands : ρ.get x = .parser σ p) (owns : Owns name σ p) : Owns name ρ (.ref x)
  | runs {Γ Δ α β} {ρ : Scope τ Γ} {x : Var Γ α} {stop : β} {extend} {σ : Scope τ Δ} {p}
      (stands : ρ.get x = .parser σ p) (owns : Owns name σ p) :
      Owns name ρ (.runs x stop extend)
  | bind {Γ Δ α β} {ρ : Scope τ Γ} {p : Parser τ Γ α} {captures : Captures Γ Δ}
      {f : α → Parser τ Δ β} (owns : Owns name ρ p) : Owns name ρ (.bind p captures f)
  | next {Γ Δ Θ α β γ} {ρ : Scope τ Γ} {p : Parser τ Γ α} {captures : Captures Γ Δ}
      {f : α → Parser τ Δ β} {x : Var Δ γ} {σ : Scope τ Θ} {q}
      (stands : (ρ.captured captures).get x = .parser σ q) (owns : Owns name σ q) :
      Owns name ρ (.bind p captures f)
  | mapM {Γ α β} {ρ : Scope τ Γ} {g : α → Logged β} {p} (owns : Owns name ρ p) :
      Owns name ρ (.mapM g p)
  | filterM {Γ α} {ρ : Scope τ Γ} {keep : α → Logged Bool} {p} (owns : Owns name ρ p) :
      Owns name ρ (.filterM keep p)
  | first {Γ α} {ρ : Scope τ Γ} {p q : Parser τ Γ α} (owns : Owns name ρ p) : Owns name ρ (.or p q)
  | second {Γ α} {ρ : Scope τ Γ} {p q : Parser τ Γ α} (owns : Owns name ρ q) : Owns name ρ (.or p q)
  | share {Γ α β} {ρ : Scope τ Γ} {p : Parser τ Γ α} {q : Parser τ (α :: Γ) β}
      (owns : Owns name (.share p ρ) q) : Owns name ρ (.share p q)
  | alone {Γ α β} {ρ : Scope τ Γ} {p : Parser τ Γ α} {q : Parser τ [α] β}
      (owns : Owns name (.link ρ p .empty) q) : Owns name ρ (.alone p q)
  | tap {Γ α} {ρ : Scope τ Γ} {label} {p : Parser τ Γ α} (owns : Owns name ρ p) :
      Owns name ρ (.tap label p)
  | noted {Γ α} {ρ : Scope τ Γ} {events} {p : Parser τ Γ α} (owns : Owns name ρ p) :
      Owns name ρ (.noted events p)
  | probed {Γ α β} {ρ : Scope τ Γ} {p : Parser τ Γ α} {input} {next : Nat → Parser τ Γ β}
      (owns : Owns name ρ p) : Owns name ρ (.probe p input next)
  | counted {Γ Δ α β γ} {ρ : Scope τ Γ} {p : Parser τ Γ α} {input} {next : Nat → Parser τ Γ β}
      {x : Var Γ γ} {σ : Scope τ Δ} {q} (stands : ρ.get x = .parser σ q) (owns : Owns name σ q) :
      Owns name ρ (.probe p input next)

variable {α : Type} {Γ : List Type} {name : Name}

def Scope.Owns (name : Name) (ρ : Scope τ Γ) : Prop :=
  ∃ (β : Type) (x : Var Γ β) (Δ : List Type) (σ : Scope τ Δ) (p : Parser τ Δ β),
    ρ.get x = .parser σ p ∧ p.Owns name σ

def Parses.Owns (name : Name) {α : Type} : Parses τ α → Prop
  | listed _ | drawn _ _ => False
  | mapped _ s | filtered _ s | chosen s | tapped _ _ s => s.Owns name
  | choosing s ρ q _ => s.Owns name ∨ q.Owns name ρ
  | nested ρ _ outer inner => ρ.Owns name ∨ outer.Owns name ∨ inner.Owns name
  | anchored ρ other body s => Parser.Owns name ρ (.recursive other body) ∨ s.Owns name

def Closure.Owns (name : Name) (c : Closure τ α) : Prop :=
  c.parser.Owns name c.scope

def Session.Owns (name : Name) (session : Session τ α) : Prop :=
  (∃ entry ∈ session.parsers, entry.2.Owns name) ∨ ∃ entry ∈ session.sequences, entry.2.Owns name

/-! The tables say the same. -/

namespace Scope

theorem held_getD (ρ : Scope τ Γ) (x : Var Γ α) (name : Name) :
    (ρ.held name).getD x.index false =
      match ρ.get x with
      | .parser σ p => p.keeps σ name
      | .handle _ _ _ | .nothing => false := by
  induction x with
  | here => cases ρ <;> rfl
  | there x ih => cases ρ <;> exact ih _

theorem any_of_getD {held : List Bool} {index : Nat} (here : held.getD index false = true) :
    held.any id = true := by
  rw [List.getD_eq_getElem?_getD] at here
  cases found : held[index]? with
  | none => simp [found] at here
  | some kept =>
      have kept : kept = true := by simpa [found] using here
      exact List.any_eq_true.mpr ⟨true, List.mem_of_getElem? (kept ▸ found), rfl⟩

theorem holds_iff_get {ρ : Scope τ Γ} :
    ρ.holds name = true ↔
      ∃ (β : Type) (x : Var Γ β) (Δ : List Type) (σ : Scope τ Δ) (p : Parser τ Δ β),
        ρ.get x = .parser σ p ∧ p.keeps σ name = true := by
  constructor
  · intro holds
    induction ρ with
    | empty => cases holds
    | share p ρ ih | link σ p ρ _ ih =>
        simp only [Scope.holds, Scope.held, List.any_cons, Bool.or_eq_true, id] at holds
        rcases holds with keeps | holds
        · exact ⟨_, .here, _, _, p, rfl, keeps⟩
        · obtain ⟨β, x, found⟩ := ih holds
          exact ⟨β, .there x, found⟩
    | handle other body ρ ih | pending ρ ih =>
        obtain ⟨β, x, found⟩ := ih (by simpa [Scope.holds, Scope.held] using holds)
        exact ⟨β, .there x, found⟩
  · rintro ⟨β, x, Δ, σ, p, found, keeps⟩
    have held := ρ.held_getD x name
    rw [found] at held
    exact any_of_getD (held.trans keeps)

end Scope

namespace Parser

theorem Owns.keeps {ρ : Scope τ Γ} {p : Parser τ Γ α} (owns : p.Owns name ρ) :
    p.keeps ρ name = true := by
  induction owns with
  | definition => exact keeps_recursive _ _ _
  | body _ ih =>
      simp only [Parser.keeps, Parser.holds, Bool.or_eq_true]
      exact .inr ih
  | @ref Γ _ _ ρ x _ _ stands _ ih | @runs Γ _ _ _ ρ x _ _ _ _ stands _ ih =>
      have held := ρ.held_getD x name
      rw [stands] at held
      exact held.trans ih
  | bind _ ih | probed _ ih =>
      simp only [Parser.keeps, Parser.holds, Bool.or_eq_true]
      exact .inl ih
  | next stands _ ih =>
      simp only [Parser.keeps_bind, Bool.or_eq_true]
      exact .inr (Scope.holds_iff_get.mpr ⟨_, _, _, _, _, stands, ih⟩)
  | counted stands _ ih =>
      simp only [Parser.keeps, Parser.holds, Bool.or_eq_true]
      exact .inr (Scope.holds_iff_get.mpr ⟨_, _, _, _, _, stands, ih⟩)
  | mapM _ ih | filterM _ ih | tap _ ih | noted _ ih | share _ ih | alone _ ih => exact ih
  | first _ ih =>
      simp only [Parser.keeps, Parser.holds, Bool.or_eq_true]
      exact .inl ih
  | second _ ih =>
      simp only [Parser.keeps, Parser.holds, Bool.or_eq_true]
      exact .inr ih

def Grounded (name : Name) (ρ : Scope τ Γ) : Prop :=
  ∀ (β : Type) (x : Var Γ β) (Δ : List Type) (σ : Scope τ Δ) (p : Parser τ Δ β),
    ρ.get x = .parser σ p → p.keeps σ name = true → p.Owns name σ

theorem Grounded.referent {ρ : Scope τ Γ} (grounded : Grounded name ρ) {x : Var Γ α}
    (kept : (ρ.held name).getD x.index false = true) : ∃ (Δ : List Type) (σ : Scope τ Δ)
      (p : Parser τ Δ α), ρ.get x = .parser σ p ∧ p.Owns name σ := by
  have held := ρ.held_getD x name
  cases stands : ρ.get x with
  | parser σ p =>
      rw [stands] at held
      exact ⟨_, σ, p, rfl, grounded _ _ _ _ _ stands (held.symm.trans kept)⟩
  | handle | nothing =>
      rw [stands] at held
      cases held.symm.trans kept

theorem Grounded.captured {Δ : List Type} {ρ : Scope τ Γ} (grounded : Grounded name ρ)
    (captures : Captures Γ Δ) : Grounded name (ρ.captured captures) := by
  induction captures with
  | all => exact grounded
  | none => exact fun _ x => nomatch x
  | also x others ih =>
      intro β y Θ σ p stands keeps
      cases y with
      | here =>
          cases stands
          obtain ⟨_, _, _, stands, owns⟩ := grounded.referent keeps
          exact .ref stands owns
      | there y => exact ih β y Θ σ p stands keeps

theorem Grounded.of_holds {ρ : Scope τ Γ} (grounded : Grounded name ρ)
    (holds : ρ.holds name = true) : ρ.Owns name := by
  obtain ⟨β, x, Δ, σ, p, stands, keeps⟩ := Scope.holds_iff_get.mp holds
  exact ⟨β, x, Δ, σ, p, stands, grounded β x Δ σ p stands keeps⟩

theorem owns_of_keeps {ρ : Scope τ Γ} (grounded : Grounded name ρ) {p : Parser τ Γ α}
    (keeps : p.keeps ρ name = true) : p.Owns name ρ := by
  -- The scope grows on the way into the parser, by parsers that have been dealt with.
  induction p with
  | result v | fail | item | leaf parses => cases keeps
  | bind p captures f ih _ =>
      simp only [Parser.keeps_bind, Bool.or_eq_true] at keeps
      rcases keeps with keeps | holds
      · exact .bind (ih grounded keeps)
      · obtain ⟨_, _, _, _, _, stands, owns⟩ := (grounded.captured captures).of_holds holds
        exact .next stands owns
  | mapM g p ih => exact .mapM (ih grounded keeps)
  | filterM keep p ih => exact .filterM (ih grounded keeps)
  | or p q ih ihSecond =>
      simp only [Parser.keeps, Parser.holds, Bool.or_eq_true] at keeps
      rcases keeps with keeps | keeps
      · exact .first (ih grounded keeps)
      · exact .second (ihSecond grounded keeps)
  | runs x stop extend =>
      obtain ⟨_, _, _, stands, owns⟩ := grounded.referent keeps
      exact .runs stands owns
  | ref x =>
      obtain ⟨_, _, _, stands, owns⟩ := grounded.referent keeps
      exact .ref stands owns
  | recursive other body ih =>
      simp only [Parser.keeps, Parser.holds, Bool.or_eq_true, beq_iff_eq] at keeps
      rcases keeps with rfl | keeps
      · exact .definition
      · refine .body (ih ?_ keeps)
        intro β x Δ σ p stands
        cases x with
        | here => cases stands
        | there x => exact grounded β x Δ σ p stands
  | share p q ih ihSecond =>
      refine .share (ihSecond ?_ keeps)
      intro β x Δ σ p' stands keeps
      cases x with
      | here =>
          cases stands
          exact ih grounded keeps
      | there x => exact grounded β x Δ σ p' stands keeps
  | alone p q ih ihSecond =>
      refine .alone (ihSecond ?_ keeps)
      intro β x Δ σ p' stands keeps
      cases x with
      | here =>
          cases stands
          exact ih grounded keeps
      | there x => cases x
  | tap label p ih => exact .tap (ih grounded keeps)
  | noted events p ih => exact .noted (ih grounded keeps)
  | probe p input next ih _ =>
      simp only [Parser.keeps, Parser.holds, Bool.or_eq_true] at keeps
      rcases keeps with keeps | holds
      · exact .probed (ih grounded keeps)
      · obtain ⟨_, _, _, _, _, stands, owns⟩ := grounded.of_holds holds
        exact .counted stands owns

end Parser

theorem Scope.grounded (name : Name) (ρ : Scope τ Γ) : Parser.Grounded name ρ := by
  induction ρ with
  | empty => exact fun _ x => nomatch x
  | share p ρ ih =>
      intro β x Δ σ q stands keeps
      cases x with
      | here =>
          cases stands
          exact Parser.owns_of_keeps ih keeps
      | there x => exact ih β x Δ σ q stands keeps
  | handle other body ρ ih | pending ρ ih =>
      intro β x Δ σ q stands keeps
      cases x with
      | here => cases stands
      | there x => exact ih β x Δ σ q stands keeps
  | link σ p ρ ihLinked ih =>
      intro β x Δ σ' q stands keeps
      cases x with
      | here =>
          cases stands
          exact Parser.owns_of_keeps ihLinked keeps
      | there x => exact ih β x Δ σ' q stands keeps

theorem Parser.keeps_iff {ρ : Scope τ Γ} {p : Parser τ Γ α} :
    p.keeps ρ name = true ↔ p.Owns name ρ :=
  ⟨owns_of_keeps (ρ.grounded name), Owns.keeps⟩

theorem Scope.holds_iff {ρ : Scope τ Γ} : ρ.holds name = true ↔ ρ.Owns name := by
  simp only [holds_iff_get, Parser.keeps_iff, Scope.Owns]

theorem Parses.holds_iff {s : Parses τ α} : s.holds name = true ↔ s.Owns name := by
  induction s with
  | listed parses | drawn parses index => simp [Parses.holds, Parses.Owns]
  | mapped g s ih | filtered keep s ih | chosen s ih | tapped label ended s ih => exact ih
  | choosing s ρ q input ih =>
      simp only [Parses.holds, Parses.Owns, Bool.or_eq_true, ih, Parser.keeps_iff]
      exact Or.comm
  | nested ρ f outer inner ihOuter ihInner =>
      simp only [Parses.holds, Parses.Owns, Bool.or_eq_true, ihOuter, ihInner, Scope.holds_iff,
        or_assoc]
  | anchored ρ other body s ih =>
      simp only [Parses.holds, Parses.Owns, Bool.or_eq_true, ih, Parser.keeps_iff]

theorem Closure.holds_iff {c : Closure τ α} : c.holds name = true ↔ c.Owns name :=
  Parser.keeps_iff

theorem Session.holds_iff {session : Session τ α} :
    session.holds name = true ↔ session.Owns name := by
  simp only [Session.holds, Session.Owns, Bool.or_eq_true, List.any_eq_true, Closure.holds_iff,
    Parses.holds_iff]

end EveryParse
