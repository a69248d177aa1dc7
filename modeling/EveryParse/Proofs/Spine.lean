import EveryParse.Proofs.Exchange
import Mathlib.Logic.Relation

/-!
The first spine of a parser: what its invocation comes by. A parser is left recursive if the spine
comes back to where it has been. It is so exactly if the spine has no end
(`Station.leftRecursive_iff`), and if it is not, the spine comes by each parser once
(`Station.Spine.nodup`).
-/

namespace EveryParse

variable {τ : Type} {α : Type} {Γ : List Type}

structure Place (τ : Type) : Type 1 where
  {context : List Type}
  {value : Type}
  scope : Scope τ context
  parser : Parser τ context value

/-- A parser is invoked while `live` tells which definitions are kept alive. -/
structure Station (τ : Type) : Type 1 where
  live : Owners
  place : Place τ

namespace Station

def first? : Station τ → Option (Station τ)
  | ⟨live, ⟨ρ, p⟩⟩ =>
    match p with
    | .result _ | .fail | .item | .leaf _ | .probe _ _ _ => none
    | .bind p _ _ | .mapM _ p | .filterM _ p | .or p _ | .tap _ p | .noted _ p =>
        some ⟨live, ⟨ρ, p⟩⟩
    | .runs x stop extend => some ⟨live, ⟨ρ, Parser.unrolled x stop extend⟩⟩
    | .recursive name body =>
      some ⟨live.add ((Parser.recursive name body).keeps ρ), ⟨.handle name body ρ, body⟩⟩
    | .share p q => some ⟨live, ⟨.share p ρ, q⟩⟩
    | .alone p q => some ⟨live, ⟨.link ρ p .empty, q⟩⟩
    | .ref x =>
      match ρ.get x with
      | .parser σ p => some ⟨live, ⟨σ, p⟩⟩
      | .handle name body σ =>
        if live name then some ⟨live, ⟨σ, Parser.recursive name body⟩⟩ else none
      | .nothing => none

def Next (s t : Station τ) : Prop :=
  s.first? = some t

inductive Spine : Station τ → List (Station τ) → Prop
  | last {s} (none : s.first? = none) : Spine s [s]
  | cons {s t spine} (next : s.Next t) (later : Spine t spine) : Spine s (s :: spine)

def Ends (s : Station τ) : Prop :=
  ∃ spine, s.Spine spine

/-- Some parser on the way is invoked again, in the same scope and before its own invocation is
over. -/
def LeftRecursive (s : Station τ) : Prop :=
  ∃ t u, Relation.ReflTransGen Next s t ∧ Relation.TransGen Next t u ∧ t.place = u.place

variable {s t u : Station τ}

theorem LeftRecursive.of_later (leads : Relation.ReflTransGen Next s t)
    (later : t.LeftRecursive) : s.LeftRecursive := by
  obtain ⟨u, v, leads', again, same⟩ := later
  exact ⟨u, v, leads.trans leads', again, same⟩

theorem Ends.of_none (none : s.first? = none) : s.Ends :=
  ⟨_, .last none⟩

theorem Ends.of_next (next : s.Next t) (ends : t.Ends) : s.Ends := by
  obtain ⟨spine, later⟩ := ends
  exact ⟨s :: spine, .cons next later⟩

/-! Without left recursion, the spine has an end. -/

def Finite (s : Station τ) (ρ : Scope τ Γ) : Prop :=
  ∀ (β : Type) (x : Var Γ β) live u, Next ⟨live, ⟨ρ, .ref x⟩⟩ u →
    Relation.ReflTransGen Next s u → u.Ends

theorem Finite.later {ρ : Scope τ Γ} (finite : s.Finite ρ)
    (leads : Relation.ReflTransGen Next s t) : t.Finite ρ :=
  fun β x live u next further => finite β x live u next (leads.trans further)

theorem Finite.reference {ρ : Scope τ Γ} (finite : s.Finite ρ) {live : Owners} {x : Var Γ α}
    (leads : Relation.ReflTransGen Next s ⟨live, ⟨ρ, .ref x⟩⟩) : Ends ⟨live, ⟨ρ, .ref x⟩⟩ := by
  cases next : first? ⟨live, ⟨ρ, .ref x⟩⟩ with
  | none => exact .of_none next
  | some u => exact .of_next next (finite α x live u next (leads.tail next))

section Scopes

variable {ρ : Scope τ Γ} {Δ : List Type} {σ : Scope τ Δ}

theorem Finite.empty : s.Finite .empty := by
  intro β x
  cases x

theorem Finite.push {ρ' : Scope τ (α :: Γ)} (finite : s.Finite ρ)
    (behind : ∀ (β : Type) (x : Var Γ β), ρ'.get (.there x) = ρ.get x)
    (first : ∀ live u, Next ⟨live, ⟨ρ', .ref .here⟩⟩ u → Relation.ReflTransGen Next s u → u.Ends) :
    s.Finite ρ' := by
  intro β x live u next leads
  cases x with
  | here => exact first live u next leads
  | there x =>
      refine finite β x live u ?_ leads
      simpa only [Next, first?, behind] using next

theorem Finite.share {p : Parser τ Γ α} (finite : s.Finite ρ)
    (first : ∀ live, Relation.ReflTransGen Next s ⟨live, ⟨ρ, p⟩⟩ → Ends ⟨live, ⟨ρ, p⟩⟩) :
    s.Finite (.share p ρ) := by
  refine finite.push (fun _ _ => rfl) fun live u next leads => ?_
  cases next
  exact first live leads

theorem Finite.link {p : Parser τ Δ α} (finite : s.Finite ρ)
    (first : ∀ live, Relation.ReflTransGen Next s ⟨live, ⟨σ, p⟩⟩ → Ends ⟨live, ⟨σ, p⟩⟩) :
    s.Finite (.link σ p ρ) := by
  refine finite.push (fun _ _ => rfl) fun live u next leads => ?_
  cases next
  exact first live leads

theorem Finite.handle {name : Name} {body : Parser τ (α :: Γ) α} (finite : s.Finite ρ)
    (first : ∀ live, Relation.ReflTransGen Next s ⟨live, ⟨ρ, .recursive name body⟩⟩ →
      Ends ⟨live, ⟨ρ, .recursive name body⟩⟩) : s.Finite (.handle name body ρ) := by
  refine finite.push (fun _ _ => rfl) fun live u next leads => ?_
  simp only [Next, first?, Scope.get, Option.ite_none_right_eq_some] at next
  obtain ⟨_, same⟩ := next
  cases same
  exact first live leads

theorem Finite.pending (finite : s.Finite ρ) : s.Finite (.pending ρ : Scope τ (α :: Γ)) :=
  finite.push (fun _ _ => rfl) fun _ _ next _ => nomatch next

end Scopes

theorem ends_of_finite {live : Owners} {ρ : Scope τ Γ} {p : Parser τ Γ α}
    (acyclic : ¬LeftRecursive ⟨live, ⟨ρ, p⟩⟩) (finite : Finite ⟨live, ⟨ρ, p⟩⟩ ρ) :
    Ends ⟨live, ⟨ρ, p⟩⟩ := by
  -- By induction on the parser. Where it is a definition, its handle is not come to inside it, for
  -- that would be left recursion.
  induction p generalizing live with
  | result v | fail | item | leaf parses | probe p input next => exact .of_none rfl
  | bind p captures f ih | mapM g p ih | filterM keep p ih | tap label p ih | noted events p ih
  | or p q ih =>
      refine .of_next rfl (ih (fun later => acyclic ?_) ?_)
      · exact later.of_later (.single rfl)
      · exact finite.later (.single rfl)
  | ref x => exact finite.reference .refl
  | runs x stop extend =>
      refine .of_next rfl (.of_next rfl (.of_next rfl (finite.reference ?_)))
      exact .tail (.tail (.single rfl) rfl) rfl
  | share p q ihFirst ih =>
      have next : Next ⟨live, ⟨ρ, .share p q⟩⟩ ⟨live, ⟨.share p ρ, q⟩⟩ := rfl
      have first (live') (leads : Relation.ReflTransGen Next ⟨live, ⟨.share p ρ, q⟩⟩
          ⟨live', ⟨ρ, p⟩⟩) : Ends ⟨live', ⟨ρ, p⟩⟩ :=
        ihFirst (fun later => acyclic (later.of_later (.head next leads)))
          (finite.later (.head next leads))
      refine .of_next next (ih (fun later => acyclic (later.of_later (.single next))) ?_)
      exact (finite.later (.single next)).share first
  | alone p q ihFirst ih =>
      have next : Next ⟨live, ⟨ρ, .alone p q⟩⟩ ⟨live, ⟨.link ρ p .empty, q⟩⟩ := rfl
      have first (live') (leads : Relation.ReflTransGen Next ⟨live, ⟨.link ρ p .empty, q⟩⟩
          ⟨live', ⟨ρ, p⟩⟩) : Ends ⟨live', ⟨ρ, p⟩⟩ :=
        ihFirst (fun later => acyclic (later.of_later (.head next leads)))
          (finite.later (.head next leads))
      refine .of_next next (ih (fun later => acyclic (later.of_later (.single next))) ?_)
      exact Finite.empty.link first
  | recursive name body ih =>
      let inside : Station τ :=
        ⟨live.add ((Parser.recursive name body).keeps ρ), ⟨.handle name body ρ, body⟩⟩
      have next : Next ⟨live, ⟨ρ, .recursive name body⟩⟩ inside := rfl
      refine .of_next next (ih (fun later => acyclic (later.of_later (.single next))) ?_)
      refine (finite.later (.single next)).handle fun live' leads => ?_
      exact (acyclic ⟨_, _, .refl, .head' next leads, rfl⟩).elim

theorem finite_of_acyclic (acyclic : ¬s.LeftRecursive) (ρ : Scope τ Γ) : s.Finite ρ := by
  have ends {Δ : List Type} {σ : Scope τ Δ} (finite : s.Finite σ) {β : Type} (p : Parser τ Δ β)
      (live : Owners) (leads : Relation.ReflTransGen Next s ⟨live, ⟨σ, p⟩⟩) :
      Ends ⟨live, ⟨σ, p⟩⟩ :=
    ends_of_finite (fun later => acyclic (later.of_later leads)) (finite.later leads)
  induction ρ with
  | empty => exact .empty
  | share p ρ ih => exact ih.share (ends ih p)
  | handle name body ρ ih => exact ih.handle (ends ih _)
  | pending ρ ih => exact ih.pending
  | link σ p ρ ihLinked ih => exact ih.link (ends ihLinked p)

theorem ends_of_acyclic (acyclic : ¬s.LeftRecursive) : s.Ends :=
  ends_of_finite acyclic (finite_of_acyclic acyclic s.place.scope)

/-! With left recursion, it has none. -/

structure Covers (t s : Station τ) : Prop where
  place : s.place = t.place
  live : t.live.Includes s.live

theorem Next.unique (first : s.Next t) (second : s.Next u) : t = u :=
  Option.some.inj (first.symm.trans second)

theorem Next.includes (next : s.Next t) : t.live.Includes s.live := by
  obtain ⟨live, ρ, p⟩ := s
  cases p with
  | recursive name body =>
      cases next
      intro name' alive
      simp only [Owners.add, Bool.or_eq_true]
      exact .inr alive
  | ref x =>
      simp only [Next, first?] at next
      split at next
      · cases next
        exact fun _ alive => alive
      · simp only [Option.ite_none_right_eq_some] at next
        obtain ⟨_, same⟩ := next
        cases same
        exact fun _ alive => alive
      · cases next
  | _ => cases next <;> exact fun _ alive => alive

theorem Covers.next (covers : u.Covers s) (next : s.Next t) : ∃ v, u.Next v ∧ v.Covers t := by
  obtain ⟨live, ρ, p⟩ := s
  obtain ⟨live', place⟩ := u
  obtain ⟨same, includes⟩ := covers
  cases same
  cases p with
  | recursive name body =>
      cases next
      refine ⟨_, rfl, rfl, fun name' alive => ?_⟩
      simp only [Owners.add, Bool.or_eq_true] at alive ⊢
      exact alive.imp_right (includes name')
  | ref x =>
      simp only [Next, first?] at next ⊢
      split at next
      · cases next
        exact ⟨_, rfl, rfl, includes⟩
      · simp only [Option.ite_none_right_eq_some] at next
        obtain ⟨alive, same⟩ := next
        cases same
        exact ⟨_, if_pos (includes _ alive), rfl, includes⟩
      · cases next
  | _ => cases next <;> exact ⟨_, rfl, rfl, includes⟩

theorem includes_of_leads (leads : Relation.ReflTransGen Next s t) :
    t.live.Includes s.live := by
  induction leads with
  | refl => exact fun _ alive => alive
  | tail _ next ih => exact fun name alive => next.includes name (ih name alive)

theorem Covers.later (covers : u.Covers s) (leads : Relation.TransGen Next s t) :
    ∃ v, Relation.TransGen Next u v ∧ v.Covers t := by
  induction leads with
  | single next =>
      obtain ⟨v, next', covers'⟩ := covers.next next
      exact ⟨v, .single next', covers'⟩
  | tail _ next ih =>
      obtain ⟨v, leads, covers'⟩ := ih
      obtain ⟨w, next', covers''⟩ := covers'.next next
      exact ⟨w, leads.tail next', covers''⟩

theorem Spine.tail {spine : List (Station τ)} (follows : s.Spine spine) (next : s.Next t) :
    ∃ later, spine = s :: later ∧ t.Spine later := by
  cases follows with
  | last none => cases none.symm.trans next
  | cons next' later => exact ⟨_, rfl, next.unique next' ▸ later⟩

theorem Spine.later {spine : List (Station τ)} (follows : s.Spine spine)
    (leads : Relation.TransGen Next s t) :
    ∃ later, t.Spine later ∧ later.length < spine.length := by
  induction leads with
  | single next =>
      obtain ⟨later, rfl, follows'⟩ := follows.tail next
      exact ⟨later, follows', by simp⟩
  | tail _ next ih =>
      obtain ⟨later, follows', shorter⟩ := ih
      obtain ⟨later', rfl, follows''⟩ := follows'.tail next
      exact ⟨later', follows'', by simp at shorter; omega⟩

theorem Spine.not_again {s t : Station τ} {spine : List (Station τ)} (follows : s.Spine spine)
    (leads : Relation.TransGen Next s t) : ¬t.Covers s := by
  intro covers
  obtain ⟨later, follows', shorter⟩ := follows.later leads
  obtain ⟨v, leads', covers'⟩ := covers.later leads
  exact not_again follows' leads' covers'
termination_by spine.length

theorem Ends.of_leads (ends : s.Ends) (leads : Relation.ReflTransGen Next s t) : t.Ends := by
  induction leads with
  | refl => exact ends
  | tail _ next ih =>
      obtain ⟨spine, follows⟩ := ih
      obtain ⟨later, _, follows'⟩ := follows.tail next
      exact ⟨later, follows'⟩

theorem leftRecursive_iff : s.LeftRecursive ↔ ¬s.Ends := by
  constructor
  · rintro ⟨t, u, leads, again, same⟩ ends
    obtain ⟨spine, follows⟩ := ends.of_leads leads
    exact follows.not_again again ⟨same, includes_of_leads again.to_reflTransGen⟩
  · intro endless
    exact Classical.byContradiction fun acyclic => endless (ends_of_acyclic acyclic)

theorem Spine.unique {spine spine' : List (Station τ)} (first : s.Spine spine)
    (second : s.Spine spine') : spine = spine' := by
  induction first generalizing spine' with
  | last none =>
      cases second with
      | last => rfl
      | cons next => cases none.symm.trans next
  | cons next _ ih =>
      obtain ⟨later, rfl, follows⟩ := second.tail next
      rw [ih follows]

theorem Spine.leads {spine : List (Station τ)} (follows : s.Spine spine) (inside : t ∈ spine) :
    Relation.ReflTransGen Next s t := by
  induction follows with
  | last =>
      rw [List.mem_singleton.mp inside]
  | cons next _ ih =>
      rcases List.mem_cons.mp inside with rfl | inside
      · exact .refl
      · exact .head next (ih inside)

theorem Spine.nodup {spine : List (Station τ)} (follows : s.Spine spine)
    (acyclic : ¬s.LeftRecursive) : (spine.map Station.place).Nodup := by
  induction follows with
  | last => simp
  | @cons s t spine next follows ih =>
      refine List.nodup_cons.mpr ⟨?_, ih fun later => acyclic (later.of_later (.single next))⟩
      intro again
      obtain ⟨u, inside, same⟩ := List.mem_map.mp again
      exact acyclic ⟨s, u, .refl, .head' next (follows.leads inside), same.symm⟩

end Station

end EveryParse
