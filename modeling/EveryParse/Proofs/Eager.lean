import EveryParse.Proofs.Drains
import EveryParse.Proofs.Pulls

/-!
Parsing as plain lists of parses, worked out before anything is pulled. Main statement: where the
lists are finite, pulling gives the list of the parser, one parse after the other, and then the end.
-/

namespace EveryParse

variable {τ : Type}

/-- The list of all parses of a parser on an input, if working it out comes to an end. -/
inductive Eager : {Γ : List Type} → {α : Type} → Scope τ Γ → Parser τ Γ α → Input τ →
    List (α × Input τ) → Prop
  | result {Γ α} {ρ : Scope τ Γ} {input} (v : α) : Eager ρ (.result v) input [(v, input)]
  | fail {Γ α} {ρ : Scope τ Γ} {input} : Eager ρ (.fail : Parser τ Γ α) input []
  | item {Γ} {ρ : Scope τ Γ} {input} : Eager ρ .item input input.splitFirst.toList
  | bind {Γ Δ α β} {ρ : Scope τ Γ} {p : Parser τ Γ α} {captures : Captures Γ Δ}
      {f : α → Parser τ Δ β} {input parses} {each : α × Input τ → List (β × Input τ)}
      (first : Eager ρ p input parses)
      (next : ∀ parse ∈ parses, Eager (ρ.captured captures) (f parse.1) parse.2 (each parse)) :
      Eager ρ (.bind p captures f) input (parses.flatMap each)
  | mapM {Γ α β} {ρ : Scope τ Γ} {p : Parser τ Γ α} {input parses} (g : α → Logged β)
      (first : Eager ρ p input parses) :
      Eager ρ (.mapM g p) input (parses.map fun parse => ((g parse.1).value, parse.2))
  | filterM {Γ α} {ρ : Scope τ Γ} {p : Parser τ Γ α} {input parses} (keep : α → Logged Bool)
      (first : Eager ρ p input parses) :
      Eager ρ (.filterM keep p) input (parses.filter fun parse => (keep parse.1).value)
  | or {Γ α} {ρ : Scope τ Γ} {p q : Parser τ Γ α} {input parses others}
      (first : Eager ρ p input parses) (second : Eager ρ q input others) :
      Eager ρ (.or p q) input (parses ++ others)
  | many {Γ α} {ρ : Scope τ Γ} {p : Parser τ Γ α} {input parses}
      {runs : α × Input τ → List (List α × Input τ)} (first : Eager ρ p input parses)
      (next : ∀ parse ∈ parses, Eager ρ p.many parse.2 (runs parse)) :
      Eager ρ p.many input
        (parses.flatMap (fun parse => (runs parse).map fun run => (parse.1 :: run.1, run.2)) ++
          [([], input)])
  | recursive {Γ α} {ρ : Scope τ Γ} {name} {body : Parser τ (α :: Γ) α} {input parses}
      (inside : Eager (.handle name body ρ) body input parses) :
      Eager ρ (.recursive name body) input parses
  | handle {Γ Δ α} {ρ : Scope τ Γ} {σ : Scope τ Δ} {x : Var Γ α} {name}
      {body : Parser τ (α :: Δ) α} {input parses} (stands : ρ.get x = .handle name body σ)
      (definition : Eager σ (.recursive name body) input parses) : Eager ρ (.ref x) input parses
  | ref {Γ Δ α} {ρ : Scope τ Γ} {σ : Scope τ Δ} {x : Var Γ α} {p : Parser τ Δ α} {input parses}
      (stands : ρ.get x = .parser σ p) (parser : Eager σ p input parses) :
      Eager ρ (.ref x) input parses

variable {α β : Type} {Γ : List Type} {ρ : Scope τ Γ} {input : Input τ}

theorem Parser.Inert.many {p : Parser τ Γ α} (inert : p.Inert) : p.many.Inert := by
  intro ρ log
  refine Task.comes ⟨_, Task.comes ⟨_, inert ρ log, _, Task.comes rfl, rfl⟩, rfl⟩

theorem Eager.inert {p : Parser τ Γ α} {parses : List (α × Input τ)}
    (eager : Eager ρ p input parses) : p.Inert := by
  induction eager with
  | result v | fail | item | handle stands _ _ | ref stands _ _ =>
      intro ρ log
      exact Task.comes rfl
  | bind _ _ ih _ | mapM g _ ih | filterM keep _ ih =>
      intro ρ log
      exact Task.comes ⟨_, ih ρ log, rfl⟩
  | or _ _ ihFirst ihSecond =>
      intro ρ log
      exact Task.comes ⟨_, ihFirst ρ log, _, ihSecond ρ log, rfl⟩
  | many _ _ ih _ => exact ih.many
  | recursive _ ih =>
      intro ρ log
      exact Task.comes ⟨_, ih (.pending ρ) log, rfl⟩

theorem Parser.Drains.runs {x : Var Γ α} {stop : β} {extend : α → β → β}
    {parses : List (α × Input τ)} {each : α × Input τ → List (β × Input τ)}
    (first : (Parser.ref x).Drains ρ input parses)
    (next : ∀ parse ∈ parses, (Parser.runs x stop extend).Drains ρ parse.2 (each parse)) :
    (Parser.runs x stop extend).Drains ρ input
      (parses.flatMap (fun parse => (each parse).map fun run => (extend parse.1 run.1, run.2)) ++
        [(stop, input)]) := by
  have inert (v : α) : (Parser.map (extend v) (.runs x stop extend : Parser τ Γ β)).Inert := by
    intro ρ log
    exact Task.comes ⟨_, Task.comes rfl, rfl⟩
  have follow (parse : α × Input τ) (member : parse ∈ parses) :
      (Parser.map (extend parse.1) (.runs x stop extend : Parser τ Γ β)).Drains ρ parse.2
        ((each parse).map fun run => (extend parse.1 run.1, run.2)) :=
    (next parse member).mapM fun run => .silent (extend parse.1 run)
  have repeated : (Parser.bind (.ref x) .all fun v =>
      Parser.map (extend v) (.runs x stop extend : Parser τ Γ β)).Drains ρ input _ :=
    first.bind (fun parse _ => inert parse.1) follow
  have unrolled : (Parser.unrolled x stop extend).Drains ρ input _ := repeated.or (.result stop)
  exact unrolled.of_unrolled

/-- The repetition behind `many` collects each run in the opposite order. -/
theorem Parser.Drains.runs_of_many {p : Parser τ Γ α} {runs : List (List α × Input τ)}
    (drains : p.many.Drains ρ input runs) :
    (Parser.runs .here #[] fun first rest => rest.push first).Drains (.link ρ p .empty) input
      (runs.map fun run => (run.1.reverse.toArray, run.2)) := by
  have undo (collected : Array α) : collected.toList.reverse.reverse.toArray = collected := by simp
  exact alone_iff.mp (drains.of_mapM (fun run => run.reverse.toArray) undo)

theorem Parser.Drains.many {p : Parser τ Γ α} {parses : List (α × Input τ)}
    {runs : α × Input τ → List (List α × Input τ)} (first : p.Drains ρ input parses)
    (next : ∀ parse ∈ parses, p.many.Drains ρ parse.2 (runs parse)) :
    p.many.Drains ρ input
      (parses.flatMap (fun parse => (runs parse).map fun run => (parse.1 :: run.1, run.2)) ++
        [([], input)]) := by
  have shared : (Parser.ref .here).Drains (.link ρ p .empty) input parses := .ref rfl first
  have repeated := shared.runs fun parse member => (next parse member).runs_of_many
  have turned : p.many.Drains ρ input _ :=
    (alone_iff.mpr repeated).mapM fun collected => .silent collected.toList.reverse
  simpa [List.map_flatMap, Function.comp_def, Logged.silent] using turned

theorem Eager.drains {p : Parser τ Γ α} {parses : List (α × Input τ)}
    (eager : Eager ρ p input parses) : p.Drains ρ input parses := by
  induction eager with
  | result v => exact .result v
  | fail => exact .fail
  | item => exact .item
  | bind _ next ihFirst ihNext =>
      exact ihFirst.bind (fun parse member => (next parse member).inert) ihNext
  | mapM g _ ih => exact ih.mapM g
  | filterM keep _ ih => exact ih.filterM keep
  | or _ _ ihFirst ihSecond => exact ihFirst.or ihSecond
  | many _ _ ihFirst ihNext => exact ihFirst.many ihNext
  | recursive _ ih => exact ih.recursive
  | handle stands _ ih => exact .handle stands ih
  | ref stands _ ih => exact .ref stands ih

theorem Eager.unique {p : Parser τ Γ α} {parses parses' : List (α × Input τ)}
    (first : Eager ρ p input parses) (second : Eager ρ p input parses') : parses = parses' :=
  first.drains.unique second.drains

/-- Where the list of a parser comes to an end, building changes nothing, and pull number `n` gives
parse number `n` of the list, or the end where the list has none, however often it is pulled. -/
theorem pulls_eager (c : Closure τ α) (closed : c.scope.Closed) {parses : List (α × Input τ)}
    (eager : Eager c.scope c.parser input parses) (live : Owners) (times : Nat) :
    ∃ enough, ∀ fuel ≥ enough,
      c.parser.build fuel live c.scope [] = some ⟨c.parser, []⟩ ∧
      ∃ opened found, c.parser.invoke fuel live c.scope input [] = some opened ∧
        opened.value.pulls fuel live times = some found ∧
        found.map Prod.fst = (List.range times).map (parses[·]?) := by
  have sound : c.scope.Sound (fun _ => False) fun _ => False := closed
  obtain ⟨fuel₁, built⟩ := eager.inert c.scope []
  obtain ⟨s, log, ⟨fuel₂, opened⟩, drains⟩ := eager.drains []
  obtain ⟨fuel₃, found, pulled, same⟩ := drains.answers times
  rw [← (carried _).build] at built
  rw [← (carried _).invoke] at opened
  rw [List.length_map, List.length_range] at pulled
  refine ⟨max fuel₁ (max fuel₂ fuel₃), fun fuel enough => ?_⟩
  have enough₁ : fuel₁ ≤ fuel := by omega
  have enough₂ : fuel₂ ≤ fuel := by omega
  have enough₃ : fuel₃ ≤ fuel := by omega
  rw [sound.build_everybody live, sound.invoke_everybody live]
  have invoked := Parser.invoke_mono enough₂ opened
  refine ⟨Parser.build_mono enough₁ built, ⟨s, log⟩, found, invoked, ?_, same⟩
  have left : s.Sound (fun _ => False) fun _ => False := sound.of_invoke opened
  rw [left.pulls_everybody live]
  exact Parses.pulls_mono enough₃ pulled

/-- The body of a definition that gives the number of characters of every beginning of a text. -/
def tally : Parser Char [Nat] Nat :=
  .or (.bind .item .all fun _ => .map (· + 1) (.ref .here)) (.result 0)

def lengths : Parser Char [] Nat :=
  .or (.recursive (.site []) tally)
    (.map List.length (Parser.sat Char.isAlpha).many)

theorem eager_lengths (buffer : Buffer Char) (one : buffer.tokens = #['a']) :
    Eager .empty lengths ⟨buffer, 0⟩
      [(1, ⟨buffer, 1⟩), (0, ⟨buffer, 0⟩), (1, ⟨buffer, 1⟩), (0, ⟨buffer, 0⟩)] := by
  obtain ⟨serial, tokens⟩ := buffer
  subst one
  let buffer : Buffer Char := ⟨serial, #['a']⟩
  have atEnd : Eager .empty (.recursive (.site []) tally) ⟨buffer, 1⟩ [(0, ⟨buffer, 1⟩)] :=
    .recursive (.or (@Eager.bind _ _ _ _ _ _ _ _ _ _ [] (fun _ => []) .item (by simp)) (.result 0))
  have recursion : Eager .empty (.recursive (.site []) tally) ⟨buffer, 0⟩
      [(1, ⟨buffer, 1⟩), (0, ⟨buffer, 0⟩)] := by
    refine .recursive (.or (@Eager.bind _ _ _ _ _ _ _ _ _ _ [('a', ⟨buffer, 1⟩)]
      (fun _ => [(1, ⟨buffer, 1⟩)]) .item ?_) (.result 0))
    intro parse member
    cases List.mem_singleton.mp member
    exact .mapM _ (.handle rfl atEnd)
  have letter : Eager .empty (Parser.sat Char.isAlpha) ⟨buffer, 0⟩ [('a', ⟨buffer, 1⟩)] :=
    .filterM _ .item
  have noLetter : Eager .empty (Parser.sat Char.isAlpha) ⟨buffer, 1⟩ [] := .filterM _ .item
  have emptyRun : Eager .empty (Parser.sat Char.isAlpha).many ⟨buffer, 1⟩ [([], ⟨buffer, 1⟩)] :=
    @Eager.many _ _ _ _ _ _ [] (fun _ => []) noLetter (by simp)
  have repetition : Eager .empty (Parser.sat Char.isAlpha).many ⟨buffer, 0⟩
      [(['a'], ⟨buffer, 1⟩), ([], ⟨buffer, 0⟩)] := by
    refine @Eager.many _ _ _ _ _ _ _ (fun _ => [([], ⟨buffer, 1⟩)]) letter ?_
    intro parse member
    cases List.mem_singleton.mp member
    exact emptyRun
  exact .or recursion (.mapM _ repetition)

theorem pulls_lengths :
    let c : Closure Char Nat := ⟨.empty, lengths⟩
    let buffer : Buffer Char := ⟨0, #['a']⟩
    c.scope.Closed ∧ ∃ enough, ∀ fuel ≥ enough,
      c.parser.build fuel .nobody c.scope [] = some ⟨c.parser, []⟩ ∧
      ∃ opened found, c.parser.invoke fuel .nobody c.scope ⟨buffer, 0⟩ [] = some opened ∧
        opened.value.pulls fuel .nobody 6 = some found ∧
        found.map Prod.fst = [some (1, ⟨buffer, 1⟩), some (0, ⟨buffer, 0⟩),
          some (1, ⟨buffer, 1⟩), some (0, ⟨buffer, 0⟩), none, none] :=
  ⟨trivial, pulls_eager ⟨.empty, lengths⟩ trivial (eager_lengths _ rfl) .nobody 6⟩

end EveryParse
