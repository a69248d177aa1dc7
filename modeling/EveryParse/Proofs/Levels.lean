import EveryParse.Proofs.Exhausts
import EveryParse.Proofs.Knot
import Mathlib.Data.List.Basic

/-!
Left recursion in the second alternative. `p` or `f` behind the whole again: the parses come in
levels, first those of `p`, then in each level those of what `f` makes of the level before. Main
statement: the parses are found level by level, as far as the levels come to an end, whatever there
is behind them.

To find a level, the whole is run once more on the same input inside itself, and that run has to
come only to the end of the level before.
-/

namespace EveryParse

variable {τ : Type} {α β : Type} {Γ Δ : List Type} {ρ : Scope τ Γ}

/-- Pulling finds `parses` one after the other. There may be more, or no end to the next pull. -/
def Parses.StartsWith (s : Parses τ α) : List (α × Input τ) → Prop
  | [] => True
  | parse :: parses => ∀ log, ∃ left log',
    (Task.pull s).Comes log ⟨.parse parse.1 parse.2 left, log'⟩ ∧ left.StartsWith parses

def Parser.StartsWith (ρ : Scope τ Γ) (p : Parser τ Γ α) (input : Input τ)
    (parses : List (α × Input τ)) : Prop :=
  ∀ log, ∃ s log', (Task.invoke ρ p input).Comes log ⟨s, log'⟩ ∧ s.StartsWith parses

def Parser.Continues (ρ : Scope τ Γ) (p : Parser τ Γ α) (input : Input τ)
    (parses : List (α × Input τ)) : Prop :=
  ∀ log, ∃ q log', (Task.build ρ p).Comes log ⟨q, log'⟩ ∧ q.Drains ρ input parses

theorem Parser.Continues.unique {p : Parser τ Γ α} {input : Input τ}
    {parses parses' : List (α × Input τ)} (first : p.Continues ρ input parses)
    (second : p.Continues ρ input parses') : parses = parses' := by
  obtain ⟨q, log, built, drains⟩ := first []
  obtain ⟨q', log', built', drains'⟩ := second []
  cases built.unique built'
  exact drains.unique drains'

namespace Parses

theorem StartsWith.of_later {s : Parses τ α} {parses : List (α × Input τ)}
    (goes : ∀ log, ∃ (t : Parses τ α) (log' : List Event), t.StartsWith parses ∧
      ∀ answer, (Task.pull t).Comes log' answer → (Task.pull s).Comes log answer) :
    s.StartsWith parses := by
  cases parses with
  | nil => trivial
  | cons parse parses =>
      intro log
      obtain ⟨t, log', starts, same⟩ := goes log
      obtain ⟨left, log'', found, later⟩ := starts log'
      exact ⟨left, log'', same _ found, later⟩

theorem Drains.followed_by (wrap : Parses τ α → Parses τ α) {others : List (α × Input τ)}
    (passes : ∀ {s log v rest left log'}, (Task.pull s).Comes log ⟨.parse v rest left, log'⟩ →
      (Task.pull (wrap s)).Comes log ⟨.parse v rest (wrap left), log'⟩)
    (ends : ∀ s, s.Drains [] → (wrap s).StartsWith others)
    {s : Parses τ α} {parses : List (α × Input τ)} (drains : s.Drains parses) :
    (wrap s).StartsWith (parses ++ others) := by
  induction parses generalizing s with
  | nil => exact ends s drains
  | cons parse parses ih =>
      intro log
      obtain ⟨left, log', found, later⟩ := drains log
      exact ⟨wrap left, log', passes found, ih later⟩

namespace StartsWith

theorem passed_on (wrap : Parses τ α → Parses τ α)
    (passes : ∀ {s log v rest left log'}, (Task.pull s).Comes log ⟨.parse v rest left, log'⟩ →
      (Task.pull (wrap s)).Comes log ⟨.parse v rest (wrap left), log'⟩)
    {s : Parses τ α} {parses : List (α × Input τ)} (starts : s.StartsWith parses) :
    (wrap s).StartsWith parses := by
  induction parses generalizing s with
  | nil => trivial
  | cons parse parses ih =>
      intro log
      obtain ⟨left, log', found, later⟩ := starts log
      exact ⟨wrap left, log', passes found, ih later⟩

theorem choosing {s : Parses τ α} {parses others : List (α × Input τ)} (drains : s.Drains parses)
    {q : Parser τ Γ α} {input : Input τ} (second : q.StartsWith ρ input others) :
    (Parses.choosing s ρ q input).StartsWith (parses ++ others) := by
  apply drains.followed_by (Parses.choosing · ρ q input)
  · intro s log v rest left log' found
    exact Task.comes ⟨_, found, rfl⟩
  · intro s drains
    apply of_later
    intro log
    obtain ⟨left, log', ended, _⟩ := drains log
    obtain ⟨t, log'', opened, starts⟩ := second log'
    refine ⟨.chosen t, log'', starts.passed_on Parses.chosen ?_, fun answer ran => ?_⟩
    · intro s log v rest left log' found
      exact Task.comes ⟨_, found, rfl⟩
    · exact Task.comes ⟨_, ended, _, opened, _, ran, rfl⟩

theorem nested {f : α → Parser τ Γ β} {outer : Parses τ α} {parses : List (α × Input τ)}
    (starts : outer.StartsWith parses) {each : α × Input τ → List (β × Input τ)}
    (follow : ∀ parse ∈ parses, (f parse.1).Continues ρ parse.2 (each parse))
    {inner : Parses τ β} {found : List (β × Input τ)} (inside : inner.Drains found) :
    (Parses.nested ρ f outer inner).StartsWith (found ++ parses.flatMap each) := by
  have passes {outer : Parses τ α} {inner log v rest left log'}
      (found : (Task.pull inner).Comes log ⟨.parse v rest left, log'⟩) :
      (Task.pull (.nested ρ f outer inner)).Comes log
        ⟨.parse v rest (.nested ρ f outer left), log'⟩ :=
    Task.comes ⟨_, found, rfl⟩
  -- The induction is on what the outer sequence begins with: it is not asked for more than that.
  induction parses generalizing outer inner found with
  | nil =>
      rw [List.flatMap_nil]
      apply inside.followed_by (Parses.nested ρ f outer) passes
      exact fun _ _ => trivial
  | cons parse parses ih =>
      rw [List.forall_mem_cons] at follow
      apply inside.followed_by (Parses.nested ρ f outer) passes
      intro inner ended
      apply of_later
      intro log
      obtain ⟨_, log₁, innerEnded, _⟩ := ended log
      obtain ⟨left, log₂, outerFound, later⟩ := starts log₁
      obtain ⟨q, log₃, built, drains⟩ := follow.1 log₂
      obtain ⟨s, log₄, opened, inside⟩ := drains log₃
      refine ⟨.nested ρ f left s, log₄, ih later follow.2 inside, fun answer ran => ?_⟩
      exact Task.comes ⟨_, innerEnded, _, outerFound, _, built, _, opened, _, ran, rfl⟩

theorem shows {s : Parses τ α} {parses : List (α × Input τ)} (starts : s.StartsWith parses)
    {lives : List Owners} (times : lives.length = parses.length) :
    ∃ found, s.Shows (lives.map fun _ => .everybody) found ∧
      found.map Prod.fst = parses.map some := by
  induction parses generalizing s lives with
  | nil =>
      obtain rfl : lives = [] := List.length_eq_zero_iff.mp times
      exact ⟨[], Parses.shows_nil.mpr rfl, rfl⟩
  | cons parse parses ih =>
      obtain ⟨live, lives, rfl⟩ := List.exists_cons_of_length_eq_add_one times
      obtain ⟨left, log, pulled, later⟩ := starts []
      obtain ⟨found, shows, same⟩ := ih later (Nat.succ.inj times)
      refine ⟨_, Parses.shows_cons.mpr ⟨_, found, pulled, shows, rfl⟩, ?_⟩
      rw [List.map_cons, List.map_cons, same]
      rfl

end StartsWith

end Parses

namespace Parser

def orAgain (p : Parser τ (α :: Γ) α) (captures : Captures (α :: Γ) Δ) (f : α → Parser τ Δ α) :
    Parser τ (α :: Γ) α :=
  .or p (.bind (.ref .here) captures f)

/-- The lists of parses by how often `f` has been applied to get there, as far as they come to an
end. -/
inductive Level (live : Owners) (ρ : Scope τ Γ) (p : Parser τ Γ α) (captures : Captures Γ Δ)
    (f : α → Parser τ Δ α) (input : Input τ) : Nat → List (α × Input τ) → Prop
  | first {parses} (lists : (⟨ρ, p⟩ : Closure τ α).Lists live input parses) :
      Level live ρ p captures f input 0 parses
  | next {index parses} (each : α × Input τ → List (α × Input τ))
      (before : Level live ρ p captures f input index parses)
      (follow : ∀ parse ∈ parses, ∃ fuel q,
        (f parse.1).build fuel live (ρ.captured captures) [] = some q ∧
          (⟨ρ.captured captures, q.value⟩ : Closure τ α).Lists live parse.2 (each parse)) :
      Level live ρ p captures f input (index + 1) (parses.flatMap each)

section Covered

variable {kept : Definition τ → Prop} {building : AnyScope τ → Prop} {live : Owners}
variable {p : Parser τ Γ α} {captures : Captures Γ Δ} {f : α → Parser τ Δ α} {input : Input τ}
variable (sound : ρ.Sound kept building) (cover : live.Cover kept)
include sound cover

theorem continues_of_build {q : Parser τ Γ α} {fuel : Nat} {built : Outcome (Parser τ Γ α)}
    (ran : q.build fuel live ρ [] = some built) {parses : List (α × Input τ)}
    (lists : (⟨ρ, built.value⟩ : Closure τ α).Lists live input parses) :
    q.Continues ρ input parses := by
  intro log
  rw [sound.build_covered cover, (carried fuel).build] at ran
  obtain ⟨log', built⟩ := build_at_any_log ⟨fuel, ran⟩ log
  exact ⟨_, log', built, (Closure.lists_iff_drains sound cover).mp lists⟩

theorem Level.unique {index : Nat} {parses parses' : List (α × Input τ)}
    (first : Level live ρ p captures f input index parses)
    (second : Level live ρ p captures f input index parses') : parses = parses' := by
  induction first generalizing parses' with
  | first lists =>
      obtain ⟨lists'⟩ := second
      rw [Closure.lists_iff_drains sound cover] at lists lists'
      exact lists.unique lists'
  | next each _ follow ih =>
      cases second with
      | next each' before follow' =>
          cases ih before
          refine List.flatMap_congr fun parse member => ?_
          obtain ⟨fuel, q, ran, lists⟩ := follow parse member
          obtain ⟨fuel', q', ran', lists'⟩ := follow' parse member
          rw [(carried _).build] at ran ran'
          cases Task.Returns.unique ⟨fuel, ran⟩ ⟨fuel', ran'⟩
          rw [Closure.lists_iff_drains (sound.captured captures) cover] at lists lists'
          exact lists.unique lists'

theorem Level.step {index : Nat} {parses parses' : List (α × Input τ)}
    (level : Level live ρ p captures f input index parses)
    (after : Level live ρ p captures f input (index + 1) parses') :
    ∃ each,
      (∀ parse ∈ parses, (f parse.1).Continues (ρ.captured captures) parse.2 (each parse)) ∧
      parses' = parses.flatMap each := by
  cases after with
  | next each before follow =>
      cases level.unique sound cover before
      refine ⟨each, fun parse member => ?_, rfl⟩
      obtain ⟨fuel, q, ran, lists⟩ := follow parse member
      exact continues_of_build (sound.captured captures) cover ran lists

theorem exists_next_levels {level : Nat → List (α × Input τ)} {count : Nat}
    (levels : ∀ index ≤ count, Level live ρ p captures f input index (level index)) :
    ∃ next : α × Input τ → List (α × Input τ),
      (∀ parse ∈ (List.range count).flatMap level,
        (f parse.1).Continues (ρ.captured captures) parse.2 (next parse)) ∧
      (List.range count).flatMap (fun index => level (index + 1)) =
        ((List.range count).flatMap level).flatMap next := by
  have step (index : Nat) (bound : index < count) :=
    (levels index bound.le).step sound cover (levels (index + 1) bound)
  have follow : ∀ parse ∈ (List.range count).flatMap level,
      ∃ parses, (f parse.1).Continues (ρ.captured captures) parse.2 parses := by
    intro parse member
    obtain ⟨index, inRange, member⟩ := List.mem_flatMap.mp member
    obtain ⟨each, follow, _⟩ := step index (List.mem_range.mp inRange)
    exact ⟨each parse, follow parse member⟩
  choose! next follow using follow
  refine ⟨next, follow, ?_⟩
  rw [List.flatMap_assoc]
  refine List.flatMap_congr fun index inRange => ?_
  obtain ⟨each, followEach, same⟩ := step index (List.mem_range.mp inRange)
  rw [same]
  refine List.flatMap_congr fun parse member => ?_
  exact (followEach parse member).unique (follow parse (List.mem_flatMap_of_mem inRange member))

end Covered

end Parser

section Levels

variable {kept : Definition τ → Prop} {building : AnyScope τ → Prop} {live : Owners}
variable {name : Name} {p : Parser τ (α :: Γ) α} {captures : Captures (α :: Γ) Δ}
  {f : α → Parser τ Δ α} {input : Input τ}

theorem Parser.orAgain_starts_with (sound : ρ.Sound kept building) (cover : live.Cover kept)
    {level : Nat → List (α × Input τ)} {last : Nat}
    (levels : ∀ index ≤ last,
      Level (live.add ((Parser.recursive name (p.orAgain captures f)).keeps ρ))
        (.handle name (p.orAgain captures f) ρ) p captures f input index (level index))
    {count : Nat} (bound : count ≤ last + 1) :
    (Parser.recursive name (p.orAgain captures f)).StartsWith ρ input
      ((List.range count).flatMap level) := by
  let σ : Scope τ (α :: Γ) := .handle name (p.orAgain captures f) ρ
  have inside := sound.define name (p.orAgain captures f)
  have coverInside := cover.define ρ name (p.orAgain captures f)
  have first : p.Drains σ input (level 0) := by
    obtain ⟨lists⟩ := levels 0 (Nat.zero_le last)
    exact (Closure.lists_iff_drains inside coverInside).mp lists
  have opens {parses} (starts : ∀ s, s.Drains (level 0) →
      (Parses.choosing s σ (.bind (.ref .here) captures f) input).StartsWith parses) :
      (Parser.recursive name (p.orAgain captures f)).StartsWith ρ input parses := by
    intro log
    obtain ⟨s, log', opened, drains⟩ := first log
    refine ⟨_, log', Task.comes ⟨_, Task.comes ⟨_, opened, rfl⟩, rfl⟩, ?_⟩
    refine (starts s drains).passed_on (Parses.anchored ρ name (p.orAgain captures f)) ?_
    intro s log v rest left log' found
    exact Task.comes ⟨_, found, rfl⟩
  -- For one more level, the run inside has to find one less.
  induction count with
  | zero => exact opens fun _ _ => trivial
  | succ count ih =>
      obtain ⟨next, follow, same⟩ := exists_next_levels inside coverInside
        fun index (le : index ≤ count) => levels index (by omega)
      rw [List.range_succ_eq_map, List.flatMap_cons, List.flatMap_map, same]
      refine opens fun s drains => .choosing drains fun log => ?_
      obtain ⟨t, log', opened, starts⟩ := ih (by omega) log
      refine ⟨_, log', Task.comes ⟨_, Task.comes ⟨_, opened, rfl⟩, rfl⟩, ?_⟩
      exact starts.nested follow (.listed [])

/-- Where the levels up to `last` are finite, so many pulls as there are parses in them come to an
end, and find these parses level by level. Those behind may be without end, or the next pull may. -/
theorem left_recursion_level_by_level (sound : ρ.Sound kept building) (cover : live.Cover kept)
    {level : Nat → List (α × Input τ)} {last : Nat}
    (levels : ∀ index ≤ last,
      Parser.Level (live.add ((Parser.recursive name (p.orAgain captures f)).keeps ρ))
        (.handle name (p.orAgain captures f) ρ) p captures f input index (level index))
    {lives : List Owners} (covers : ∀ later ∈ lives, later.Cover kept)
    (times : lives.length = ((List.range (last + 1)).flatMap level).length) :
    ∃ seen, (Parser.recursive name (p.orAgain captures f)).Shows ρ input live lives seen ∧
      seen.answers = ((List.range (last + 1)).flatMap level).map some := by
  obtain ⟨s, log, opened, starts⟩ :=
    Parser.orAgain_starts_with sound cover levels (Nat.le_refl _) []
  obtain ⟨found, shows, same⟩ := starts.shows times
  refine ⟨⟨log.reverse, found⟩, ?_, same⟩
  rw [sound.shows_everybody _ input cover covers]
  exact Parser.shows_iff.mpr ⟨_, opened, shows, rfl⟩

def rising : Parser Char [Char] Char :=
  Parser.orAgain (.or .item (.result 'x')) .none fun v => .sat (v < ·)

/-- What `x` is followed by is smaller, and behind `b` there is nothing. The pull behind the last
parse would not come to an end. -/
theorem rising_level_by_level :
    let ρ : Scope Char [] := .empty
    let input : Input Char := ⟨⟨0, #['a', 'b']⟩, 0⟩
    let IsLevel := Parser.Level (Owners.nobody.add ((Parser.recursive (.site []) rising).keeps ρ))
      (.handle (.site []) rising ρ) (.or .item (.result 'x')) .none (fun v => .sat (v < ·)) input
    let level : Nat → List (Char × Input Char)
      | 0 => [('a', input.advance 1), ('x', input)]
      | 1 => [('b', input.advance 2)]
      | _ => []
    ρ.Closed ∧ (∀ index ≤ 2, IsLevel index (level index)) ∧
      ∃ seen, (Parser.recursive (.site []) rising).Shows ρ input .nobody
        [.nobody, .nobody, .nobody] seen ∧
        seen.answers =
          [some ('a', input.advance 1), some ('x', input), some ('b', input.advance 2)] := by
  intro ρ input IsLevel level
  have closed : ρ.Closed := trivial
  have first : IsLevel 0 (level 0) := .first ⟨9, 3, _, rfl, rfl, rfl⟩
  have second : IsLevel 1 (level 1) := by
    refine .next (fun parse => if parse.1 = 'a' then level 1 else []) first ?_
    simp only [level, List.forall_mem_cons]
    exact ⟨⟨9, _, rfl, 9, 3, _, rfl, rfl, rfl⟩, ⟨9, _, rfl, 9, 3, _, rfl, rfl, rfl⟩, nofun⟩
  have third : IsLevel 2 (level 2) := by
    refine .next (fun _ => []) second (List.forall_mem_singleton.mpr ?_)
    exact ⟨9, _, rfl, 9, 3, _, rfl, rfl, rfl⟩
  have levels : ∀ index ≤ 2, IsLevel index (level index)
    | 0, _ => first
    | 1, _ => second
    | 2, _ => third
  have covers : ∀ later ∈ [Owners.nobody, .nobody, .nobody],
      later.Cover fun _ : Definition Char => False := fun _ _ => Owners.cover_none _
  exact ⟨closed, levels,
    left_recursion_level_by_level closed (Owners.cover_none _) levels covers rfl⟩

end Levels

end EveryParse
