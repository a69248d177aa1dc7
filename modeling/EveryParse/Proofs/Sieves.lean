import EveryParse.Proofs.MonadLaws

/-!
Sequences that let through some of the parses of another one, each with a value made of its own.
`map` and `filter` open such sequences, and so does a `bind` whose continuation gives at most one
parse, on the spot. Main statement: pull by pull, `map` and `filter` are seen to do what a bind of
that kind does.
-/

namespace EveryParse

variable {τ : Type} {α β : Type} {Γ : List Type}

abbrev Sieve (α β : Type) := α → Logged (Option β)

namespace Sieve

def image (g : α → Logged β) : Sieve α β :=
  fun v => ⟨some (g v).value, (g v).events⟩

def keeping (keep : α → Logged Bool) : Sieve α α :=
  fun v => ⟨if (keep v).value then some v else none, (keep v).events⟩

def parser (sieve : Sieve α β) (v : α) : Parser τ Γ β :=
  .noted (sieve v).events
    (match (sieve v).value with
    | some w => .result w
    | none => .fail)

theorem parser_image (g : α → Logged β) :
    (image g).parser = fun v => (.evaluated (g v) : Parser τ Γ β) := rfl

theorem parser_keeping (keep : α → Logged Bool) :
    (keeping keep).parser = fun v =>
      (.noted (keep v).events (if (keep v).value then .result v else .fail) : Parser τ Γ α) := by
  funext v
  cases kept : (keep v).value <;> simp [parser, keeping, kept]

end Sieve

/-- A pull of a sequence around `s`: parses of `s` are taken until one is let through. What is left
of `s` is put into `wrap` then, and into `finish` when `s` has ended. -/
inductive SievePull (sieve : Sieve α β) (wrap finish : Parses τ α → Parses τ β) (live : Owners) :
    Parses τ α → List Event → Outcome (Answer τ β) → Prop
  | ended {s log left log'} (inside : (Task.pull s).Returns live log ⟨.ended left, log'⟩) :
      SievePull sieve wrap finish live s log ⟨.ended (finish left), log'⟩
  | through {s log v rest left log' w}
      (inside : (Task.pull s).Returns live log ⟨.parse v rest left, log'⟩)
      (value : (sieve v).value = some w) :
      SievePull sieve wrap finish live s log ⟨.parse w rest (wrap left), (sieve v).onto log'⟩
  | stopped {s log v rest left log' answer}
      (inside : (Task.pull s).Returns live log ⟨.parse v rest left, log'⟩)
      (value : (sieve v).value = none)
      (later : SievePull sieve wrap finish live left ((sieve v).onto log') answer) :
      SievePull sieve wrap finish live s log answer

/-- A pull of `wrap s` takes parses of `s` through the sieve, and keeps alive what is in `held`. -/
def Sieves (sieve : Sieve α β) (wrap : Parses τ α → Parses τ β) (held : Owners) : Prop :=
  ∃ finish, ∀ s live log answer, (Task.pull (wrap s)).Returns live log answer ↔
    SievePull sieve wrap finish (live.add held) s log answer

theorem sieves_mapped (g : α → Logged β) :
    Sieves (Sieve.image g) (.mapped g : Parses τ α → Parses τ β) .nobody := by
  refine ⟨.mapped g, fun s live log answer => ⟨fun pulled => ?_, fun pull => ?_⟩⟩
  · obtain ⟨⟨⟨v, rest, left⟩ | left, log'⟩, inside, found⟩ := Task.returns_iff_course.mp pulled
    · cases found
      exact .through inside rfl
    · cases found
      exact .ended inside
  · cases pull with
    | ended inside => exact Task.returns ⟨_, inside, rfl⟩
    | through inside value =>
        cases value
        exact Task.returns ⟨_, inside, rfl⟩
    | stopped _ value => cases value

theorem SievePull.of_run {keep : α → Logged Bool} {s : Parses τ α} {fuel : Nat} {live : Owners}
    {log : List Event} {answer : Outcome (Answer τ α)}
    (ran : (Task.pull (.filtered keep s)).run fuel live log = some answer) :
    SievePull (Sieve.keeping keep) (.filtered keep) (.filtered keep) live s log answer := by
  induction fuel generalizing s log with
  | zero => simp [Task.run] at ran
  | succ fuel ih =>
      obtain ⟨⟨⟨v, rest, left⟩ | left, log'⟩, inside, ran⟩ := Option.bind_eq_some_iff.mp ran
      · dsimp only at ran
        split at ran
        next kept =>
          cases ran
          exact .through (.of_run inside) (by simp [Sieve.keeping, kept])
        next dropped =>
          obtain ⟨later, ran, same⟩ := Option.bind_eq_some_iff.mp ran
          cases same
          exact .stopped (.of_run inside) (by simp [Sieve.keeping, dropped]) (ih ran)
      · cases ran
        exact .ended (.of_run inside)

theorem sieves_filtered (keep : α → Logged Bool) :
    Sieves (Sieve.keeping keep) (.filtered keep : Parses τ α → Parses τ α) .nobody := by
  refine ⟨.filtered keep, fun s live log answer => ⟨fun ⟨_, ran⟩ => .of_run ran, fun pull => ?_⟩⟩
  induction pull with
  | ended inside => exact Task.returns ⟨_, inside, rfl⟩
  | @through s log v rest left log' w inside value =>
      have kept : (keep v).value = true ∧ v = w := by simpa [Sieve.keeping] using value
      obtain ⟨kept, rfl⟩ := kept
      refine Task.returns ⟨_, inside, ?_⟩
      simp [Course.Returns, kept, Sieve.keeping, Logged.onto]
  | @stopped s log v rest left log' answer inside value _ ih =>
      have dropped : (keep v).value = false := by simpa [Sieve.keeping] using value
      refine Task.returns ⟨_, inside, ?_⟩
      simpa [Course.Returns, dropped, Sieve.keeping, Logged.onto, Owners.add_nobody] using ih

theorem refills_sieve {sieve : Sieve α β} {ρ : Scope τ Γ} {live : Owners} {outer : Parses τ α}
    {v : α} {rest : Input τ} {log} {opened : Outcome (Parses τ β)} :
    Refills ρ sieve.parser live outer v rest log opened ↔
      opened = ⟨.listed ((sieve v).value.map (·, rest)).toList, (sieve v).onto log⟩ := by
  obtain ⟨p, built, invoked⟩ : ∃ p : Parser τ Γ β,
      (Task.build ρ (sieve.parser v)).Returns (live.around ρ outer) log
        ⟨p, (sieve v).onto log⟩ ∧
      (Task.invoke ρ p rest).Returns (live.around ρ outer) ((sieve v).onto log)
        ⟨.listed ((sieve v).value.map (·, rest)).toList, (sieve v).onto log⟩ := by
    simp only [Sieve.parser]
    cases (sieve v).value with
    | none => exact ⟨.fail, Task.returns ⟨_, Task.returns rfl, rfl⟩, Task.returns rfl⟩
    | some w => exact ⟨.result w, Task.returns ⟨_, Task.returns rfl, rfl⟩, Task.returns rfl⟩
  constructor
  · rintro ⟨built', invoked'⟩
    cases built'.unique built
    exact invoked'.unique invoked
  · rintro rfl
    exact .through built invoked

theorem NestedPull.sieve {sieve : Sieve α β} {ρ : Scope τ Γ} {live : Owners} {outer : Parses τ α}
    {log answer} (pull : NestedPull ρ sieve.parser live outer .empty log answer) :
    SievePull sieve (.nested ρ sieve.parser · .empty) (fun _ => .empty) (live.add ρ.holds) outer log
      answer := by
  generalize same : (.empty : Parses τ β) = inner at pull
  induction pull with
  | found inside =>
      subst same
      cases (Parses.empty_pull _ _).unique inside
  | ended inside outside =>
      subst same
      cases (Parses.empty_pull _ _).unique inside
      exact .ended outside
  | @next outer inner log spent log' v rest left log'' opened answer inside outside refills later
      ih =>
      subst same
      cases (Parses.empty_pull _ _).unique inside
      obtain rfl := refills_sieve.mp refills
      cases value : (sieve v).value with
      | none =>
          simp only [value] at ih
          exact .stopped outside value (ih rfl)
      | some w =>
          -- The one parse that the continuation gives is found, and nothing is left of it.
          simp only [value] at later
          cases later with
          | found inside =>
              cases (Parses.single_pull _ _ _ _).unique inside
              exact .through outside value
          | ended inside _ | next inside _ _ _ =>
              cases (Parses.single_pull _ _ _ _).unique inside

theorem sieves_nested (sieve : Sieve α β) (ρ : Scope τ Γ) :
    Sieves sieve (.nested ρ sieve.parser · .empty) ρ.holds := by
  refine ⟨fun _ => .empty, fun s live log answer => ?_⟩
  rw [NestedPull.iff_returns]
  constructor
  · exact NestedPull.sieve
  · intro pull
    induction pull with
    | ended inside => exact .ended (Parses.empty_pull _ _) inside
    | @through s log v rest left log' w inside value =>
        refine .next (Parses.empty_pull _ _) inside (refills_sieve.mpr rfl) ?_
        rw [value]
        exact .found (Parses.single_pull _ _ w rest)
    | @stopped s log v rest left log' answer inside value _ ih =>
        refine .next (Parses.empty_pull _ _) inside (refills_sieve.mpr rfl) ?_
        rw [value]
        exact ih

inductive BothAround (wrap wrap' : Parses τ α → Parses τ β) : Parses τ β → Parses τ β → Prop
  | around (s) : BothAround wrap wrap' (wrap s) (wrap' s)

section Around

variable {sieve : Sieve α β} {wrap wrap' finish finish' : Parses τ α → Parses τ β}

theorem SievePull.agree {live : Owners} {s : Parses τ α} {log answer}
    (pull : SievePull sieve wrap finish live s log answer)
    (wrap' finish' : Parses τ α → Parses τ β) :
    ∃ answer', SievePull sieve wrap' finish' live s log answer' ∧
      Answer.Agree (BothAround wrap wrap') answer answer' := by
  induction pull with
  | ended inside => exact ⟨_, .ended inside, .ended⟩
  | through inside value => exact ⟨_, .through inside value, .parse (.around _)⟩
  | stopped inside value _ ih =>
      obtain ⟨answer', later, agree⟩ := ih
      exact ⟨answer', .stopped inside value later, agree⟩

theorem Sieves.bisimulation {held held' : Owners} (sieves : Sieves sieve wrap held)
    (sieves' : Sieves sieve wrap' held') {first second : Owners → Owners}
    (same : ∀ live : Owners, (first live).add held = (second live).add held') :
    Bisimulation (BothAround wrap wrap') first second := by
  obtain ⟨finish, pulls⟩ := sieves
  obtain ⟨finish', pulls'⟩ := sieves'
  constructor
  · rintro _ _ live log answer ⟨s⟩ pulled
    rw [pulls, same] at pulled
    obtain ⟨answer', pull, agree⟩ := pulled.agree wrap' finish'
    exact ⟨answer', (pulls' _ _ _ _).mpr pull, agree⟩
  · rintro _ _ live log answer' ⟨s⟩ pulled
    rw [pulls', ← same] at pulled
    obtain ⟨answer, pull, agree⟩ := pulled.agree wrap finish
    refine ⟨answer, (pulls _ _ _ _).mpr pull, ?_⟩
    cases agree with
    | parse later =>
        cases later
        exact .parse (.around _)
    | ended => exact .ended

end Around

section Shows

variable {ρ : Scope τ Γ} {input : Input τ} {p : Parser τ Γ α} {live : Owners} {lives : List Owners}
variable {Δ : List Type} (captures : Captures Γ Δ)

theorem sieve_shows {sieve : Sieve α β} {wrap : Parses τ α → Parses τ β}
    (sieves : Sieves sieve wrap .nobody) {q : Parser τ Γ β} (opens : q.OpensAround ρ input wrap p)
    (seen : Observation τ β) :
    q.Shows ρ input live (lives.map (·.add (ρ.captured captures).holds)) seen ↔
      (Parser.bind p captures sieve.parser).Shows ρ input live lives seen := by
  have bisimulation : Bisimulation (BothAround wrap (.nested _ sieve.parser · .empty))
      (·.add (ρ.captured captures).holds) id :=
    sieves.bisimulation (sieves_nested sieve (ρ.captured captures)) fun _ => rfl
  have bound := Parser.opensAround_bind ρ input p captures sieve.parser
  have same := opens.shows_iff bound bisimulation .around live lives seen
  simpa only [List.map_id] using same

theorem map_shows (g : α → Logged β) (seen : Observation τ β) :
    (Parser.mapM g p).Shows ρ input live (lives.map (·.add (ρ.captured captures).holds)) seen ↔
      (Parser.bind p captures fun v => .evaluated (g v)).Shows ρ input live lives seen := by
  rw [← Sieve.parser_image]
  exact sieve_shows captures (sieves_mapped g) (Parser.opensAround_mapM ρ input g p) seen

theorem filter_shows (keep : α → Logged Bool) (seen : Observation τ α) :
    (Parser.filterM keep p).Shows ρ input live (lives.map (·.add (ρ.captured captures).holds))
        seen ↔
      (Parser.bind p captures fun v => .noted (keep v).events
        (if (keep v).value then .result v else .fail)).Shows ρ input live lives seen := by
  rw [← Sieve.parser_keeping]
  exact sieve_shows captures (sieves_filtered keep) (Parser.opensAround_filterM ρ input keep p) seen

end Shows

/-- Pull by pull, `map` is seen to do what binding to the image does, and `filter` what binding to
the value or to failure does, however many parses are skipped in a pull. A continuation keeps alive
what it has captured; where `p` stands by itself, whoever pulls it has to. Where that is so anyway,
and so if nothing is captured, both sides meet with the same owners. -/
theorem map_and_filter_as_binds {Δ : List Type} (ρ : Scope τ Γ) (captures : Captures Γ Δ)
    (p : Parser τ Γ α) (input : Input τ) (live : Owners) (lives : List Owners) :
    (∀ (g : α → Logged β) (seen : Observation τ β),
      (Parser.mapM g p).Shows ρ input live (lives.map (·.add (ρ.captured captures).holds)) seen ↔
        (Parser.bind p captures fun v => .evaluated (g v)).Shows ρ input live lives seen) ∧
    (∀ (keep : α → Logged Bool) (seen : Observation τ α),
      (Parser.filterM keep p).Shows ρ input live (lives.map (·.add (ρ.captured captures).holds))
          seen ↔
        (Parser.bind p captures fun v => .noted (keep v).events
          (if (keep v).value then .result v else .fail)).Shows ρ input live lives seen) ∧
    ((∀ live ∈ lives, (ρ.captured captures).KeptBy live) →
      (∀ (g : α → Logged β) (seen : Observation τ β),
        (Parser.mapM g p).Shows ρ input live lives seen ↔
          (Parser.bind p captures fun v => .evaluated (g v)).Shows ρ input live lives seen) ∧
      ∀ (keep : α → Logged Bool) (seen : Observation τ α),
        (Parser.filterM keep p).Shows ρ input live lives seen ↔
          (Parser.bind p captures fun v => .noted (keep v).events
            (if (keep v).value then .result v else .fail)).Shows ρ input live lives seen) := by
  refine ⟨map_shows captures, filter_shows captures, fun kept => ?_⟩
  have same := Scope.KeptBy.map_add_holds kept
  refine ⟨fun g seen => ?_, fun keep seen => ?_⟩
  · rw [← map_shows captures, same]
  · rw [← filter_shows captures, same]

theorem map_and_filter_as_binds_digit :
    let digit (c : Char) : Logged Bool := ⟨c.isDigit, [.note "digit"]⟩
    let input : Input Char := ⟨⟨0, #['x', '7']⟩, 0⟩
    let lives : List Owners := [.nobody, .nobody]
    let p : Parser Char [] Char := .or .item (.bind .item .none fun _ => .item)
    (∀ live ∈ lives, ((.empty : Scope Char []).captured .none).KeptBy live) ∧
      (Parser.bind p .none fun v => .noted (digit v).events
        (if (digit v).value then .result v else .fail)).Shows .empty input .nobody lives
          ⟨[], [(some ('7', ⟨⟨0, #['x', '7']⟩, 2⟩), [.note "digit", .note "digit"]),
            (none, [])]⟩ := by
  intro digit input lives p
  have kept : ∀ live ∈ lives, ((.empty : Scope Char []).captured .none).KeptBy live :=
    fun live _ => Scope.keptBy_empty live
  obtain ⟨-, -, same⟩ := map_and_filter_as_binds (β := Char) .empty .none p input .nobody lives
  exact ⟨kept, ((same kept).2 digit _).mp ⟨20, rfl⟩⟩

end EveryParse
