import EveryParse.Listing
import EveryParse.Proofs.Bisimulation
import EveryParse.Proofs.Drains

/-!
Draining by listing the parses. That listing them comes to their end says of a parser whose handles
have their definitions kept alive that draining it does (`Closure.exhausts_iff_drains`); without
handles from outside, it makes no difference who keeps definitions alive (`Closure.exhausts_iff`).
-/

namespace EveryParse

variable {τ α : Type} {Γ : List Type}

theorem Parses.Over.spent {s : Parses τ α} (finished : s.Over) : s.Spent := by
  induction s with
  | listed parses => exact finished
  | mapped g s ih | filtered keep s ih | anchored ρ name body s ih => exact ih finished
  | tapped label ended s ih => exact ih finished.2
  | drawn parses index | choosing s ρ q input ih | chosen s ih | nested ρ f outer inner _ _ =>
      exact finished

theorem Parses.Drains.of_parse {s left : Parses τ α} {v : α} {rest : Input τ} {log log'}
    (found : (Task.pull s).Comes log ⟨.parse v rest left, log'⟩) {parses : List (α × Input τ)}
    (later : left.Drains parses) : s.Drains ((v, rest) :: parses) := by
  intro start
  obtain ⟨log'', found⟩ := pull_at_any_log found start
  exact ⟨left, log'', found, later⟩

theorem Parses.Drains.of_ended {s left : Parses τ α} {log log'}
    (ended : (Task.pull s).Comes log ⟨.ended left, log'⟩) : s.Drains [] := by
  have finished : left.Over := Parses.over_of_ended ended
  intro start
  obtain ⟨log'', ended⟩ := pull_at_any_log ended start
  exact ⟨left, log'', ended, finished.spent⟩

namespace Listing

variable {listing : Listing τ α}

theorem extend_everybody {kept : Definition τ → Prop} {building : AnyScope τ → Prop}
    {s : Parses τ α} (sound : s.Sound kept building) {live : Owners} (cover : live.Cover kept)
    (fuel limit : Nat) (found : Listing τ α) :
    extend fuel live limit s found = extend fuel .everybody limit s found := by
  induction limit generalizing s found with
  | zero => rfl
  | succ limit ih =>
      simp only [extend, sound.pull_covered cover]
      cases ran : s.pull fuel .everybody [] with
      | none => rfl
      | some answer =>
          have left := sound.of_pull ran
          obtain ⟨⟨v, rest, next⟩ | next, log⟩ := answer
          · exact ih left _
          · rfl

theorem extend_mono {fuel fuel' : Nat} (enough : fuel ≤ fuel') {live : Owners} {limit : Nat}
    {s : Parses τ α} {found : Listing τ α} (ran : extend fuel live limit s found = some listing) :
    extend fuel' live limit s found = some listing := by
  induction limit generalizing s found with
  | zero => exact ran
  | succ limit ih =>
      simp only [extend] at ran ⊢
      cases pulled : s.pull fuel live [] with
      | none => simp [pulled] at ran
      | some answer =>
          rw [Parses.pull_mono enough pulled]
          rw [pulled] at ran
          obtain ⟨⟨v, rest, next⟩ | next, log⟩ := answer
          · exact ih ran
          · exact ran

theorem drains_of_extend {fuel limit : Nat} {s : Parses τ α} {parses : Array (α × Input τ)}
    {events : Array (List Event)}
    (ran : extend fuel .everybody limit s ⟨parses, false, events⟩ = some listing)
    (ended : listing.ended = true) :
    ∃ found, s.Drains found ∧ listing.parses.toList = parses.toList ++ found := by
  induction limit generalizing s parses events with
  | zero =>
      cases ran
      cases ended
  | succ limit ih =>
      simp only [extend] at ran
      cases pulled : s.pull fuel .everybody [] with
      | none => simp [pulled] at ran
      | some answer =>
          rw [pulled] at ran
          rw [(carried fuel).pull] at pulled
          obtain ⟨⟨v, rest, left⟩ | left, log⟩ := answer
          · obtain ⟨found, drains, same⟩ := ih ran
            refine ⟨(v, rest) :: found, .of_parse ⟨fuel, pulled⟩ drains, ?_⟩
            simp [same]
          · cases ran
            exact ⟨[], .of_ended ⟨fuel, pulled⟩, by simp⟩

theorem extend_of_drains {s : Parses τ α} {found : List (α × Input τ)} (drains : s.Drains found)
    (parses : Array (α × Input τ)) (events : Array (List Event)) :
    ∃ fuel limit listing, extend fuel .everybody limit s ⟨parses, false, events⟩ = some listing ∧
      listing.ended = true ∧ listing.parses.toList = parses.toList ++ found := by
  induction found generalizing s parses events with
  | nil =>
      obtain ⟨left, log, ⟨fuel, ran⟩, _⟩ := drains []
      rw [← (carried fuel).pull] at ran
      refine ⟨fuel, 1, ⟨parses, true, events.push log.reverse⟩, ?_, rfl, by simp⟩
      simp [extend, ran]
  | cons parse found ih =>
      obtain ⟨left, log, ⟨fuel, ran⟩, later⟩ := drains []
      rw [← (carried fuel).pull] at ran
      obtain ⟨fuel', limit, listing, extended, ended, same⟩ :=
        ih later (parses.push parse) (events.push log.reverse)
      refine ⟨max fuel fuel', limit + 1, listing, ?_, ended, by simp [same]⟩
      have pulled := Parses.pull_mono (Nat.le_max_left fuel fuel') ran
      have extended := extend_mono (Nat.le_max_right fuel fuel') extended
      simpa [extend, pulled] using extended

end Listing

/-- Listing the parses comes to the end of them. -/
def Closure.Lists (c : Closure τ α) (live : Owners) (input : Input τ)
    (parses : List (α × Input τ)) : Prop :=
  ∃ fuel limit listing, c.parser.listing fuel live c.scope input limit = some listing ∧
    listing.ended = true ∧ listing.parses.toList = parses

/-- Listing the parses comes to the end of them, and these are their values and where their
remainders begin. -/
def Closure.Exhausts (c : Closure τ α) (live : Owners) (input : Input τ)
    (found : List (α × Nat)) : Prop :=
  ∃ fuel limit listing, c.parser.listing fuel live c.scope input limit = some listing ∧
    listing.ended = true ∧
    listing.parses.toList.map (fun parse => (parse.1, parse.2.offset)) = found

theorem Closure.exhausts_iff_lists {c : Closure τ α} {live : Owners} {input : Input τ}
    {found : List (α × Nat)} :
    c.Exhausts live input found ↔ ∃ parses, c.Lists live input parses ∧
      parses.map (fun parse => (parse.1, parse.2.offset)) = found := by
  constructor
  · rintro ⟨fuel, limit, listing, ran, ended, same⟩
    exact ⟨_, ⟨fuel, limit, listing, ran, ended, rfl⟩, same⟩
  · rintro ⟨_, ⟨fuel, limit, listing, ran, ended, rfl⟩, same⟩
    exact ⟨fuel, limit, listing, ran, ended, same⟩

section Covered

variable {kept : Definition τ → Prop} {building : AnyScope τ → Prop} {live : Owners}

theorem Parser.listing_everybody {ρ : Scope τ Γ} (sound : ρ.Sound kept building)
    (cover : live.Cover kept) (p : Parser τ Γ α) (fuel : Nat) (input : Input τ) (limit : Nat) :
    p.listing fuel live ρ input limit = p.listing fuel .everybody ρ input limit := by
  simp only [Parser.listing, sound.invoke_covered cover]
  cases ran : p.invoke fuel .everybody ρ input [] with
  | none => rfl
  | some opened => exact Listing.extend_everybody (sound.of_invoke ran) cover fuel limit _

theorem Closure.lists_iff_drains {c : Closure τ α} (sound : c.scope.Sound kept building)
    (cover : live.Cover kept) {input : Input τ} {parses : List (α × Input τ)} :
    c.Lists live input parses ↔ c.parser.Drains c.scope input parses := by
  have everybody := Parser.listing_everybody sound cover c.parser
  simp only [Closure.Lists, everybody]
  simp only [Parser.listing, Option.bind_eq_some_iff]
  constructor
  · rintro ⟨fuel, limit, listing, ⟨opened, ran, extended⟩, ended, rfl⟩
    obtain ⟨parses, drains, same⟩ := Listing.drains_of_extend extended ended
    obtain rfl : listing.parses.toList = parses := by simpa using same
    intro log
    rw [(carried fuel).invoke] at ran
    obtain ⟨log', invoked⟩ := invoke_at_any_log ⟨fuel, ran⟩ log
    exact ⟨opened.value, log', invoked, drains⟩
  · intro drains
    obtain ⟨s, log, ⟨fuel, ran⟩, drains⟩ := drains []
    rw [← (carried fuel).invoke] at ran
    obtain ⟨fuel', limit, listing, extended, ended, same⟩ :=
      Listing.extend_of_drains drains #[] #[log.reverse]
    refine ⟨max fuel fuel', limit, listing, ⟨⟨s, log⟩, ?_, ?_⟩, ended, by simpa using same⟩
    · exact Parser.invoke_mono (Nat.le_max_left _ _) ran
    · exact Listing.extend_mono (Nat.le_max_right _ _) extended

theorem Closure.exhausts_iff_drains {c : Closure τ α} (sound : c.scope.Sound kept building)
    (cover : live.Cover kept) {input : Input τ} {found : List (α × Nat)} :
    c.Exhausts live input found ↔ ∃ parses, c.parser.Drains c.scope input parses ∧
      parses.map (fun parse => (parse.1, parse.2.offset)) = found := by
  simp only [exhausts_iff_lists, lists_iff_drains sound cover]

end Covered

theorem Closure.exhausts_iff {c : Closure τ α} (closed : c.scope.Closed) {live : Owners}
    {input : Input τ} {found : List (α × Nat)} :
    c.Exhausts live input found ↔ ∃ parses, c.parser.Drains c.scope input parses ∧
      parses.map (fun parse => (parse.1, parse.2.offset)) = found :=
  exhausts_iff_drains closed live.cover_none

theorem Parser.Drains.lists {p : Parser τ [] α} {input : Input τ} {parses : List (α × Input τ)}
    (drains : p.Drains .empty input parses) (live : Owners) :
    (⟨.empty, p⟩ : Closure τ α).Lists live input parses := by
  have closed : (⟨.empty, p⟩ : Closure τ α).scope.Closed := trivial
  exact (Closure.lists_iff_drains closed live.cover_none).mpr drains

end EveryParse
