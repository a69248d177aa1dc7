import EveryParse.Proofs.Sieves

/-!
The laws of `or`. Main statement: pull by pull and event by event, choices may be regrouped; `bind`,
`map` and `filter` may be moved into both branches; and failure is no second choice at all. The
second branch runs in the pull that finds the end of the first one, wherever it stands.
-/

namespace EveryParse

variable {τ : Type} {α β : Type} {Γ Δ : List Type}

inductive Stays : Outcome (Answer τ α) → Outcome (Answer τ α) → Prop
  | found {v rest left log} : Stays ⟨.parse v rest left, log⟩ ⟨.parse v rest (.chosen left), log⟩
  | ended {left log} : Stays ⟨.ended left, log⟩ ⟨.ended .empty, log⟩

inductive Turns (ρ : Scope τ Γ) (q : Parser τ Γ α) (input : Input τ) (live : Owners) :
    Outcome (Answer τ α) → Outcome (Answer τ α) → Prop
  | found {v rest left log} :
      Turns ρ q input live ⟨.parse v rest left, log⟩ ⟨.parse v rest (.choosing left ρ q input), log⟩
  | turned {left log opened answer}
      (invoked : (Task.invoke ρ q input).Returns (live.add (q.keeps ρ)) log opened)
      (later : (Task.pull (.chosen opened.value)).Returns live opened.log answer) :
      Turns ρ q input live ⟨.ended left, log⟩ answer

section Pulls

variable {ρ : Scope τ Γ} {q : Parser τ Γ α} {input : Input τ} {live : Owners} {s s' : Parses τ α}
  {log log' : List Event} {answer : Outcome (Answer τ α)}

theorem pull_chosen_returns :
    (Task.pull (.chosen s)).Returns live log answer ↔
      ∃ reply, (Task.pull s).Returns live log reply ∧ Stays reply answer := by
  rw [Task.returns_iff_course]
  constructor
  · rintro ⟨⟨⟨v, rest, left⟩ | left, log'⟩, inside, rfl⟩
    · exact ⟨_, inside, .found⟩
    · exact ⟨_, inside, .ended⟩
  · rintro ⟨reply, inside, stays⟩
    cases stays <;> exact ⟨_, inside, rfl⟩

theorem pull_choosing_returns :
    (Task.pull (.choosing s ρ q input)).Returns live log answer ↔
      ∃ reply, (Task.pull s).Returns (live.add (q.keeps ρ)) log reply ∧
        Turns ρ q input live reply answer := by
  rw [Task.returns_iff_course]
  constructor
  · rintro ⟨⟨⟨v, rest, left⟩ | left, log'⟩, inside, course⟩
    · cases course
      exact ⟨_, inside, .found⟩
    · obtain ⟨opened, invoked, answer, later, rfl⟩ := course
      exact ⟨_, inside, .turned invoked later⟩
  · rintro ⟨reply, inside, turns⟩
    cases turns with
    | found => exact ⟨_, inside, rfl⟩
    | turned invoked later => exact ⟨_, inside, _, invoked, _, later, rfl⟩

theorem chosen_transfer
    (same : ∀ reply, (Task.pull s').Returns live log' reply → (Task.pull s).Returns live log reply)
    (pulled : (Task.pull (.chosen s')).Returns live log' answer) :
    (Task.pull (.chosen s)).Returns live log answer := by
  obtain ⟨reply, inside, stays⟩ := pull_chosen_returns.mp pulled
  exact pull_chosen_returns.mpr ⟨reply, same reply inside, stays⟩

theorem choosing_transfer
    (same : ∀ reply, (Task.pull s').Returns (live.add (q.keeps ρ)) log' reply →
      (Task.pull s).Returns (live.add (q.keeps ρ)) log reply)
    (pulled : (Task.pull (.choosing s' ρ q input)).Returns live log' answer) :
    (Task.pull (.choosing s ρ q input)).Returns live log answer := by
  obtain ⟨reply, inside, turns⟩ := pull_choosing_returns.mp pulled
  exact pull_choosing_returns.mpr ⟨reply, same reply inside, turns⟩

end Pulls

/-- Two groupings of three branches while the first, the second and the third one is pulled. -/
inductive Rechosen (ρ : Scope τ Γ) (q r : Parser τ Γ α) (input : Input τ) :
    Parses τ α → Parses τ α → Prop
  | first (s) :
      Rechosen ρ q r input (.choosing (.choosing s ρ q input) ρ r input)
        (.choosing s ρ (.or q r) input)
  | second (s) :
      Rechosen ρ q r input (.choosing (.chosen s) ρ r input) (.chosen (.choosing s ρ r input))
  | third (s) : Rechosen ρ q r input (.chosen s) (.chosen (.chosen s))

section Regrouped

variable {ρ : Scope τ Γ} {q r : Parser τ Γ α} {input : Input τ} {live : Owners} {s : Parses τ α}
  {log : List Event} {answer answer' : Outcome (Answer τ α)}

theorem Owners.add_keeps_or (live : Owners) :
    live.add (Parser.keeps ρ (.or q r)) = (live.add (r.keeps ρ)).add (q.keeps ρ) := by
  funext name
  simp [add, Parser.keeps, Parser.holds, Bool.or_assoc]

theorem rechosen_third_forth (pulled : (Task.pull (.chosen s)).Returns live log answer) :
    ∃ answer', (Task.pull (.chosen (.chosen s))).Returns live log answer' ∧
      Answer.Agree (Rechosen ρ q r input) answer answer' := by
  obtain ⟨reply, inside, stays⟩ := pull_chosen_returns.mp pulled
  cases stays with
  | found =>
      have again := pull_chosen_returns.mpr ⟨_, inside, .found⟩
      exact ⟨_, pull_chosen_returns.mpr ⟨_, again, .found⟩, .parse (.third _)⟩
  | ended =>
      have again := pull_chosen_returns.mpr ⟨_, inside, .ended⟩
      exact ⟨_, pull_chosen_returns.mpr ⟨_, again, .ended⟩, .ended⟩

theorem rechosen_third_back (pulled : (Task.pull (.chosen (.chosen s))).Returns live log answer') :
    ∃ answer, (Task.pull (.chosen s)).Returns live log answer ∧
      Answer.Agree (Rechosen ρ q r input) answer answer' := by
  obtain ⟨reply, again, stays⟩ := pull_chosen_returns.mp pulled
  obtain ⟨_, _, inner⟩ := pull_chosen_returns.mp again
  refine ⟨reply, again, ?_⟩
  cases inner <;> cases stays
  · exact .parse (.third _)
  · exact .ended

theorem rechosen_second_forth
    (pulled : (Task.pull (.choosing (.chosen s) ρ r input)).Returns live log answer) :
    ∃ answer', (Task.pull (.chosen (.choosing s ρ r input))).Returns live log answer' ∧
      Answer.Agree (Rechosen ρ q r input) answer answer' := by
  obtain ⟨reply, pulled, turns⟩ := pull_choosing_returns.mp pulled
  obtain ⟨innermost, inside, stays⟩ := pull_chosen_returns.mp pulled
  cases stays with
  | found =>
      cases turns
      exact ⟨_, pull_chosen_returns.mpr ⟨_, pull_choosing_returns.mpr ⟨_, inside, .found⟩, .found⟩,
        .parse (.second _)⟩
  | ended =>
      cases turns with
      | turned invoked later =>
          obtain ⟨answer', again, agree⟩ := rechosen_third_forth later
          obtain ⟨reply, turned, stays⟩ := pull_chosen_returns.mp again
          have turned := pull_choosing_returns.mpr ⟨_, inside, .turned invoked turned⟩
          exact ⟨answer', pull_chosen_returns.mpr ⟨_, turned, stays⟩, agree⟩

theorem rechosen_second_back
    (pulled : (Task.pull (.chosen (.choosing s ρ r input))).Returns live log answer') :
    ∃ answer, (Task.pull (.choosing (.chosen s) ρ r input)).Returns live log answer ∧
      Answer.Agree (Rechosen ρ q r input) answer answer' := by
  obtain ⟨reply, pulled, stays⟩ := pull_chosen_returns.mp pulled
  obtain ⟨innermost, inside, turns⟩ := pull_choosing_returns.mp pulled
  cases turns with
  | found =>
      cases stays
      have found := pull_chosen_returns.mpr ⟨_, inside, .found⟩
      exact ⟨_, pull_choosing_returns.mpr ⟨_, found, .found⟩, .parse (.second _)⟩
  | turned invoked later =>
      obtain ⟨answer, again, agree⟩ :=
        rechosen_third_back (pull_chosen_returns.mpr ⟨_, later, stays⟩)
      have ended := pull_chosen_returns.mpr ⟨_, inside, .ended⟩
      exact ⟨answer, pull_choosing_returns.mpr ⟨_, ended, .turned invoked again⟩, agree⟩

theorem rechosen_first_forth
    (pulled : (Task.pull (.choosing (.choosing s ρ q input) ρ r input)).Returns live log answer) :
    ∃ answer', (Task.pull (.choosing s ρ (.or q r) input)).Returns live log answer' ∧
      Answer.Agree (Rechosen ρ q r input) answer answer' := by
  obtain ⟨reply, pulled, turns⟩ := pull_choosing_returns.mp pulled
  obtain ⟨innermost, inside, turnsFirst⟩ := pull_choosing_returns.mp pulled
  rw [← Owners.add_keeps_or] at inside
  cases turnsFirst with
  | found =>
      cases turns
      exact ⟨_, pull_choosing_returns.mpr ⟨_, inside, .found⟩, .parse (.first _)⟩
  | turned invoked later =>
      rw [← Owners.add_keeps_or] at invoked
      obtain ⟨answer', later, agree⟩ :=
        rechosen_second_forth (pull_choosing_returns.mpr ⟨_, later, turns⟩)
      refine ⟨answer', pull_choosing_returns.mpr ⟨_, inside, ?_⟩, agree⟩
      exact .turned ((Parser.opensAround_or ρ input q r _ _ _).mpr ⟨_, invoked, rfl⟩) later

theorem rechosen_first_back
    (pulled : (Task.pull (.choosing s ρ (.or q r) input)).Returns live log answer') :
    ∃ answer, (Task.pull (.choosing (.choosing s ρ q input) ρ r input)).Returns live log answer ∧
      Answer.Agree (Rechosen ρ q r input) answer answer' := by
  obtain ⟨innermost, inside, turns⟩ := pull_choosing_returns.mp pulled
  rw [Owners.add_keeps_or] at inside
  cases turns with
  | found =>
      refine ⟨_, pull_choosing_returns.mpr ⟨_, ?_, .found⟩, .parse (.first _)⟩
      exact pull_choosing_returns.mpr ⟨_, inside, .found⟩
  | turned opened later =>
      obtain ⟨first, invoked, rfl⟩ := (Parser.opensAround_or ρ input q r _ _ _).mp opened
      rw [Owners.add_keeps_or] at invoked
      obtain ⟨answer, again, agree⟩ := rechosen_second_back later
      obtain ⟨reply, turned, turns⟩ := pull_choosing_returns.mp again
      have turned := pull_choosing_returns.mpr ⟨_, inside, .turned invoked turned⟩
      exact ⟨answer, pull_choosing_returns.mpr ⟨_, turned, turns⟩, agree⟩

theorem rechosen_bisimulation : Bisimulation (Rechosen ρ q r input) id id where
  forth start pulled := by
    cases start with
    | first => exact rechosen_first_forth pulled
    | second => exact rechosen_second_forth pulled
    | third => exact rechosen_third_forth pulled
  back start pulled := by
    cases start with
    | first => exact rechosen_first_back pulled
    | second => exact rechosen_second_back pulled
    | third => exact rechosen_third_back pulled

end Regrouped

/-- A choice that is bound and a choice between binds, while the first or the second branch is
pulled. -/
inductive BoundChoice (ρ : Scope τ Γ) (q : Parser τ Γ α) (captures : Captures Γ Δ)
    (f : α → Parser τ Δ β) (input : Input τ) : Parses τ β → Parses τ β → Prop
  | first (s inner) :
      BoundChoice ρ q captures f input
        (.nested (ρ.captured captures) f (.choosing s ρ q input) inner)
        (.choosing (.nested (ρ.captured captures) f s inner) ρ (.bind q captures f) input)
  | second (s inner) :
      BoundChoice ρ q captures f input (.nested (ρ.captured captures) f (.chosen s) inner)
        (.chosen (.nested (ρ.captured captures) f s inner))

section Bound

variable {ρ : Scope τ Γ} {q : Parser τ Γ α} {captures : Captures Γ Δ} {f : α → Parser τ Δ β}
  {input : Input τ} {live live' : Owners} {outer outer' s : Parses τ α} {inner : Parses τ β}
  {log : List Event}

namespace Owners

variable (live : Owners)

theorem add_keeps_bind :
    live.add (Parser.keeps ρ (.bind q captures f)) =
      (live.add (ρ.captured captures).holds).add (q.keeps ρ) := by
  funext name
  simp only [add, Parser.keeps_bind, Bool.or_assoc]

theorem add_keeps_bind_holds :
    (live.add (Parser.keeps ρ (.bind q captures f))).add (ρ.captured captures).holds =
      (live.add (ρ.captured captures).holds).add (q.keeps ρ) := by
  funext name
  simp only [add, Parser.keeps_bind]
  cases (ρ.captured captures).holds name <;> simp

theorem around_choosing (f : α → Parser τ Δ β) (input : Input τ) :
    live.around (ρ.captured captures) (.choosing s ρ q input) =
      (live.add (Parser.keeps ρ (.bind q captures f))).around (ρ.captured captures) s := by
  funext name
  simp only [around, add, Parses.holds, Parser.keeps_bind]
  simp only [Parser.keeps]
  cases (ρ.captured captures).holds name <;> cases q.holds name (ρ.held name) <;> simp

end Owners

theorem Refills.among {v rest} {opened : Outcome (Parses τ β)}
    (refills : Refills (ρ.captured captures) f live outer v rest log opened)
    (same : live.around (ρ.captured captures) outer = live'.around (ρ.captured captures) outer') :
    Refills (ρ.captured captures) f live' outer' v rest log opened := by
  obtain ⟨built, invoked⟩ := refills
  rw [same] at built invoked
  exact .through built invoked

theorem bound_second_forth {answer}
    (pull : NestedPull (ρ.captured captures) f live (.chosen s) inner log answer) :
    ∃ answer', (Task.pull (.chosen (.nested (ρ.captured captures) f s inner))).Returns live log
      answer' ∧
      Answer.Agree (BoundChoice ρ q captures f input) answer answer' := by
  generalize same : Parses.chosen s = outer at pull
  induction pull generalizing s with
  | found inside =>
      subst same
      have found : NestedPull (ρ.captured captures) f live s _ _ _ := .found inside
      exact ⟨_, pull_chosen_returns.mpr ⟨_, found.returns, .found⟩, .parse (.second _ _)⟩
  | ended inside outside =>
      subst same
      obtain ⟨reply, ends, stays⟩ := pull_chosen_returns.mp outside
      cases stays
      have ended : NestedPull (ρ.captured captures) f live s _ _ _ := .ended inside ends
      exact ⟨_, pull_chosen_returns.mpr ⟨_, ended.returns, .ended⟩, .ended⟩
  | next inside outside refills _ ih =>
      subst same
      obtain ⟨reply, answers, stays⟩ := pull_chosen_returns.mp outside
      cases stays
      obtain ⟨answer', later, agree⟩ := ih rfl
      refine ⟨answer', chosen_transfer (fun reply pulled => ?_) later, agree⟩
      have pull := NestedPull.iff_returns.mp pulled
      exact NestedPull.returns (.next inside answers (refills.among rfl) pull)

theorem bound_second_back {reply answer'}
    (pull : NestedPull (ρ.captured captures) f live s inner log reply)
    (stays : Stays reply answer') :
    ∃ answer, NestedPull (ρ.captured captures) f live (.chosen s) inner log answer ∧
      Answer.Agree (BoundChoice ρ q captures f input) answer answer' := by
  induction pull with
  | @found s inner log v rest left log' inside =>
      cases stays
      have found : NestedPull (ρ.captured captures) f live (.chosen s) _ _ _ := .found inside
      exact ⟨_, found, .parse (.second _ _)⟩
  | ended inside outside =>
      cases stays
      exact ⟨_, .ended inside (pull_chosen_returns.mpr ⟨_, outside, .ended⟩), .ended⟩
  | next inside outside refills _ ih =>
      obtain ⟨answer, later, agree⟩ := ih stays
      have outside := pull_chosen_returns.mpr ⟨_, outside, .found⟩
      exact ⟨answer, .next inside outside (refills.among rfl) later, agree⟩

theorem bound_turned {spent left log' log'' opened answer}
    (inside : (Task.pull inner).Returns
      ((live.add (Parser.keeps ρ (.bind q captures f))).around (ρ.captured captures) s) log
      ⟨.ended spent, log'⟩)
    (ends : (Task.pull s).Returns ((live.add (ρ.captured captures).holds).add (q.keeps ρ)) log'
      ⟨.ended left, log''⟩)
    (invoked : (Task.invoke ρ q input).Returns
      ((live.add (ρ.captured captures).holds).add (q.keeps ρ)) log'' opened)
    (later : NestedPull (ρ.captured captures) f live (.chosen opened.value) .empty opened.log
      answer) :
    ∃ answer', (Task.pull (.choosing (.nested (ρ.captured captures) f s inner) ρ
        (.bind q captures f) input)).Returns live log answer' ∧
      Answer.Agree (BoundChoice ρ q captures f input) answer answer' := by
  rw [← Owners.add_keeps_bind_holds (f := f)] at ends
  rw [← Owners.add_keeps_bind (f := f)] at invoked
  obtain ⟨answer', second, agree⟩ := bound_second_forth later
  have first := (NestedPull.ended (f := f) inside ends).returns
  have opens := (Parser.opensAround_bind ρ input q captures f _ _ _).mpr ⟨_, invoked, rfl⟩
  exact ⟨answer', pull_choosing_returns.mpr ⟨_, first, .turned opens second⟩, agree⟩

theorem bound_first_forth {answer}
    (pull : NestedPull (ρ.captured captures) f live (.choosing s ρ q input) inner log answer) :
    ∃ answer', (Task.pull (.choosing (.nested (ρ.captured captures) f s inner) ρ
        (.bind q captures f) input)).Returns live log answer' ∧
      Answer.Agree (BoundChoice ρ q captures f input) answer answer' := by
  generalize same : Parses.choosing s ρ q input = outer at pull
  induction pull generalizing s with
  | found inside =>
      subst same
      rw [live.around_choosing f] at inside
      have found := (NestedPull.found (f := f) inside).returns
      exact ⟨_, pull_choosing_returns.mpr ⟨_, found, .found⟩, .parse (.first _ _)⟩
  | ended inside outside =>
      subst same
      rw [live.around_choosing f] at inside
      obtain ⟨reply, ends, turns⟩ := pull_choosing_returns.mp outside
      cases turns with
      | turned invoked opens =>
          exact bound_turned inside ends invoked (.ended (Parses.empty_pull _ _) opens)
  | next inside outside refills later ih =>
      subst same
      rw [live.around_choosing f] at inside
      obtain ⟨reply, answers, turns⟩ := pull_choosing_returns.mp outside
      cases turns with
      | found =>
          obtain ⟨answer', later, agree⟩ := ih rfl
          rw [← Owners.add_keeps_bind_holds (f := f)] at answers
          refine ⟨answer', choosing_transfer (fun reply pulled => ?_) later, agree⟩
          have pull := NestedPull.iff_returns.mp pulled
          exact NestedPull.returns
            (.next inside answers (refills.among (live.around_choosing f input)) pull)
      | turned invoked opens =>
          exact bound_turned inside answers invoked
            (.next (Parses.empty_pull _ _) opens refills later)

theorem bound_first_back {reply answer'}
    (pull : NestedPull (ρ.captured captures) f (live.add (Parser.keeps ρ (.bind q captures f))) s
      inner log reply)
    (turns : Turns ρ (.bind q captures f) input live reply answer') :
    ∃ answer, NestedPull (ρ.captured captures) f live (.choosing s ρ q input) inner log answer ∧
      Answer.Agree (BoundChoice ρ q captures f input) answer answer' := by
  induction pull with
  | found inside =>
      cases turns
      rw [← live.around_choosing f input] at inside
      exact ⟨_, .found inside, .parse (.first _ _)⟩
  | ended inside outside =>
      rw [← live.around_choosing f input] at inside
      rw [Owners.add_keeps_bind_holds] at outside
      cases turns with
      | turned opens later =>
          obtain ⟨opened, invoked, rfl⟩ :=
            (Parser.opensAround_bind ρ input q captures f _ _ _).mp opens
          rw [Owners.add_keeps_bind] at invoked
          obtain ⟨reply, pulled, stays⟩ := pull_chosen_returns.mp later
          have second := NestedPull.iff_returns.mp pulled
          obtain ⟨answer, second, agree⟩ := bound_second_back second stays
          obtain ⟨last, pulled, resumes⟩ := second.resumes
          have outside := pull_choosing_returns.mpr ⟨_, outside, .turned invoked pulled⟩
          exact ⟨answer, .resume inside outside resumes, agree⟩
  | next inside outside refills _ ih =>
      rw [← live.around_choosing f input] at inside
      rw [Owners.add_keeps_bind_holds] at outside
      obtain ⟨answer, later, agree⟩ := ih turns
      have refills := refills.among (live.around_choosing f input).symm
      exact ⟨answer, .next inside (pull_choosing_returns.mpr ⟨_, outside, .found⟩) refills later,
        agree⟩

theorem boundChoice_bisimulation : Bisimulation (BoundChoice ρ q captures f input) id id where
  forth start pulled := by
    cases start with
    | first => exact bound_first_forth (NestedPull.iff_returns.mp pulled)
    | second => exact bound_second_forth (NestedPull.iff_returns.mp pulled)
  back start pulled := by
    cases start with
    | first =>
        obtain ⟨reply, pulled, turns⟩ := pull_choosing_returns.mp pulled
        obtain ⟨answer, pull, agree⟩ := bound_first_back (NestedPull.iff_returns.mp pulled) turns
        exact ⟨answer, pull.returns, agree⟩
    | second =>
        obtain ⟨reply, pulled, stays⟩ := pull_chosen_returns.mp pulled
        obtain ⟨answer, pull, agree⟩ := bound_second_back (NestedPull.iff_returns.mp pulled) stays
        exact ⟨answer, pull.returns, agree⟩

end Bound

inductive SievedChoice (wrap : Parses τ α → Parses τ β) (ρ : Scope τ Γ) (q : Parser τ Γ α)
    (q' : Parser τ Γ β) (input : Input τ) : Parses τ β → Parses τ β → Prop
  | first (s) :
      SievedChoice wrap ρ q q' input (wrap (.choosing s ρ q input))
        (.choosing (wrap s) ρ q' input)
  | second (s) : SievedChoice wrap ρ q q' input (wrap (.chosen s)) (.chosen (wrap s))

theorem SievePull.transfer {sieve : Sieve α β} {wrap finish : Parses τ α → Parses τ β}
    {live : Owners} {s s' : Parses τ α} {log log' answer}
    (same : ∀ reply, (Task.pull s').Returns live log' reply → (Task.pull s).Returns live log reply)
    (pull : SievePull sieve wrap finish live s' log' answer) :
    SievePull sieve wrap finish live s log answer := by
  cases pull with
  | ended inside => exact .ended (same _ inside)
  | through inside value => exact .through (same _ inside) value
  | stopped inside value later => exact .stopped (same _ inside) value later

section Sieved

variable {sieve : Sieve α β} {wrap finish : Parses τ α → Parses τ β} {ρ : Scope τ Γ}
  {q : Parser τ Γ α} {q' : Parser τ Γ β} {input : Input τ} {live : Owners} {s : Parses τ α}
  {log : List Event}

theorem sieved_second_back {reply answer'} (pull : SievePull sieve wrap finish live s log reply)
    (stays : Stays reply answer') :
    ∃ answer, SievePull sieve wrap finish live (.chosen s) log answer ∧
      Answer.Agree (SievedChoice wrap ρ q q' input) answer answer' := by
  induction pull with
  | ended inside =>
      cases stays
      exact ⟨_, .ended (pull_chosen_returns.mpr ⟨_, inside, .ended⟩), .ended⟩
  | through inside value =>
      cases stays
      exact ⟨_, .through (pull_chosen_returns.mpr ⟨_, inside, .found⟩) value, .parse (.second _)⟩
  | stopped inside value _ ih =>
      obtain ⟨answer, later, agree⟩ := ih stays
      exact ⟨answer, .stopped (pull_chosen_returns.mpr ⟨_, inside, .found⟩) value later, agree⟩

variable (pulls : ∀ s live log answer, (Task.pull (wrap s)).Returns live log answer ↔
  SievePull sieve wrap finish live s log answer)
include pulls

theorem sieved_second_forth {answer}
    (pull : SievePull sieve wrap finish live (.chosen s) log answer) :
    ∃ answer', (Task.pull (.chosen (wrap s))).Returns live log answer' ∧
      Answer.Agree (SievedChoice wrap ρ q q' input) answer answer' := by
  generalize same : Parses.chosen s = outer at pull
  induction pull generalizing s with
  | ended inside =>
      subst same
      obtain ⟨reply, ends, stays⟩ := pull_chosen_returns.mp inside
      cases stays
      have ended := (pulls _ _ _ _).mpr (.ended ends)
      exact ⟨_, pull_chosen_returns.mpr ⟨_, ended, .ended⟩, .ended⟩
  | through inside value =>
      subst same
      obtain ⟨reply, answers, stays⟩ := pull_chosen_returns.mp inside
      cases stays
      have found := (pulls _ _ _ _).mpr (.through answers value)
      exact ⟨_, pull_chosen_returns.mpr ⟨_, found, .found⟩, .parse (.second _)⟩
  | stopped inside value _ ih =>
      subst same
      obtain ⟨reply, answers, stays⟩ := pull_chosen_returns.mp inside
      cases stays
      obtain ⟨answer', later, agree⟩ := ih rfl
      refine ⟨answer', chosen_transfer (fun reply pulled => ?_) later, agree⟩
      exact (pulls _ _ _ _).mpr (.stopped answers value ((pulls _ _ _ _).mp pulled))

section First

variable (opens : q'.OpensAround ρ input wrap q) (same : q'.keeps ρ = q.keeps ρ)
include opens same

theorem sieved_turned {left log' opened answer}
    (ends : (Task.pull s).Returns (live.add (q.keeps ρ)) log ⟨.ended left, log'⟩)
    (invoked : (Task.invoke ρ q input).Returns (live.add (q.keeps ρ)) log' opened)
    (later : SievePull sieve wrap finish live (.chosen opened.value) opened.log answer) :
    ∃ answer', (Task.pull (.choosing (wrap s) ρ q' input)).Returns live log answer' ∧
      Answer.Agree (SievedChoice wrap ρ q q' input) answer answer' := by
  rw [← same] at ends invoked
  obtain ⟨answer', second, agree⟩ := sieved_second_forth pulls later
  have first := (pulls _ _ _ _).mpr (.ended ends)
  have opened := (opens _ _ _).mpr ⟨_, invoked, rfl⟩
  exact ⟨answer', pull_choosing_returns.mpr ⟨_, first, .turned opened second⟩, agree⟩

theorem sieved_first_forth {answer}
    (pull : SievePull sieve wrap finish live (.choosing s ρ q input) log answer) :
    ∃ answer', (Task.pull (.choosing (wrap s) ρ q' input)).Returns live log answer' ∧
      Answer.Agree (SievedChoice wrap ρ q q' input) answer answer' := by
  generalize choice : Parses.choosing s ρ q input = outer at pull
  induction pull generalizing s with
  | ended inside =>
      subst choice
      obtain ⟨reply, ends, turns⟩ := pull_choosing_returns.mp inside
      cases turns with
      | turned invoked later => exact sieved_turned pulls opens same ends invoked (.ended later)
  | through inside value =>
      subst choice
      obtain ⟨reply, answers, turns⟩ := pull_choosing_returns.mp inside
      cases turns with
      | found =>
          rw [← same] at answers
          have first := (pulls _ _ _ _).mpr (.through answers value)
          exact ⟨_, pull_choosing_returns.mpr ⟨_, first, .found⟩, .parse (.first _)⟩
      | turned invoked later =>
          exact sieved_turned pulls opens same answers invoked (.through later value)
  | stopped inside value later ih =>
      subst choice
      obtain ⟨reply, answers, turns⟩ := pull_choosing_returns.mp inside
      cases turns with
      | found =>
          rw [← same] at answers
          obtain ⟨answer', later, agree⟩ := ih rfl
          refine ⟨answer', choosing_transfer (fun reply pulled => ?_) later, agree⟩
          exact (pulls _ _ _ _).mpr (.stopped answers value ((pulls _ _ _ _).mp pulled))
      | turned invoked opened =>
          exact sieved_turned pulls opens same answers invoked (.stopped opened value later)

theorem sieved_first_back {reply answer'}
    (pull : SievePull sieve wrap finish (live.add (q.keeps ρ)) s log reply)
    (turns : Turns ρ q' input live reply answer') :
    ∃ answer, SievePull sieve wrap finish live (.choosing s ρ q input) log answer ∧
      Answer.Agree (SievedChoice wrap ρ q q' input) answer answer' := by
  induction pull with
  | ended inside =>
      cases turns with
      | turned opened later =>
          obtain ⟨first, invoked, rfl⟩ := (opens _ _ _).mp opened
          rw [same] at invoked
          obtain ⟨reply, pulled, stays⟩ := pull_chosen_returns.mp later
          obtain ⟨answer, second, agree⟩ := sieved_second_back ((pulls _ _ _ _).mp pulled) stays
          refine ⟨answer, second.transfer fun reply pulled => ?_, agree⟩
          exact pull_choosing_returns.mpr ⟨_, inside, .turned invoked pulled⟩
  | through inside value =>
      cases turns
      exact ⟨_, .through (pull_choosing_returns.mpr ⟨_, inside, .found⟩) value, .parse (.first _)⟩
  | stopped inside value _ ih =>
      obtain ⟨answer, later, agree⟩ := ih turns
      exact ⟨answer, .stopped (pull_choosing_returns.mpr ⟨_, inside, .found⟩) value later, agree⟩

end First

end Sieved

theorem Sieves.choice_bisimulation {sieve : Sieve α β} {wrap : Parses τ α → Parses τ β}
    (sieves : Sieves sieve wrap .nobody) {ρ : Scope τ Γ} {input : Input τ} {q : Parser τ Γ α}
    {q' : Parser τ Γ β} (opens : q'.OpensAround ρ input wrap q) (same : q'.keeps ρ = q.keeps ρ) :
    Bisimulation (SievedChoice wrap ρ q q' input) id id := by
  obtain ⟨finish, pulls⟩ := sieves
  constructor
  · intro s s' live log answer start pulled
    cases start with
    | first => exact sieved_first_forth pulls opens same ((pulls _ _ _ _).mp pulled)
    | second => exact sieved_second_forth pulls ((pulls _ _ _ _).mp pulled)
  · intro s s' live log answer' start pulled
    cases start with
    | first =>
        obtain ⟨reply, pulled, turns⟩ := pull_choosing_returns.mp pulled
        rw [same] at pulled
        obtain ⟨answer, pull, agree⟩ :=
          sieved_first_back pulls opens same ((pulls _ _ _ _).mp pulled) turns
        exact ⟨answer, (pulls _ _ _ _).mpr pull, agree⟩
    | second =>
        obtain ⟨reply, pulled, stays⟩ := pull_chosen_returns.mp pulled
        obtain ⟨answer, pull, agree⟩ := sieved_second_back ((pulls _ _ _ _).mp pulled) stays
        exact ⟨answer, (pulls _ _ _ _).mpr pull, agree⟩

inductive FailedLast (ρ : Scope τ Γ) (input : Input τ) : Parses τ α → Parses τ α → Prop
  | between (s) : FailedLast ρ input (.choosing s ρ .fail input) s

theorem failedLast_bisimulation (ρ : Scope τ Γ) (input : Input τ) :
    Bisimulation (FailedLast ρ input : Parses τ α → Parses τ α → Prop) id id where
  forth := by
    rintro _ s live log answer ⟨⟩ pulled
    obtain ⟨reply, inside, turns⟩ := pull_choosing_returns.mp pulled
    cases turns with
    | found => exact ⟨_, inside, .parse (.between _)⟩
    | turned invoked later =>
        cases invoked.unique (Task.returns rfl)
        obtain ⟨last, ends, stays⟩ := pull_chosen_returns.mp later
        cases (Parses.empty_pull _ _).unique ends
        cases stays
        exact ⟨_, inside, .ended⟩
  back := by
    rintro _ s live log ⟨⟨v, rest, left⟩ | left, log'⟩ ⟨⟩ pulled
    · exact ⟨_, pull_choosing_returns.mpr ⟨_, pulled, .found⟩, .parse (.between _)⟩
    · refine ⟨⟨.ended .empty, log'⟩, pull_choosing_returns.mpr ⟨_, pulled, ?_⟩, .ended⟩
      exact .turned (Task.returns rfl) (pull_chosen_returns.mpr ⟨_, Parses.empty_pull _ _, .ended⟩)

inductive FailureBound (ρ : Scope τ Γ) (f : α → Parser τ Γ β) : Parses τ β → Parses τ β → Prop
  | between : FailureBound ρ f (.nested ρ f .empty .empty) .empty

theorem failureBound_bisimulation (ρ : Scope τ Γ) (f : α → Parser τ Γ β) :
    Bisimulation (FailureBound ρ f) id id := by
  have ended live log : (Task.pull (.nested ρ f .empty .empty)).Returns live log
      ⟨.ended .empty, log⟩ :=
    (NestedPull.ended (Parses.empty_pull _ _) (Parses.empty_pull _ _)).returns
  constructor
  · rintro _ _ live log answer ⟨⟩ pulled
    cases (ended live log).unique pulled
    exact ⟨_, Parses.empty_pull _ _, .ended⟩
  · rintro _ _ live log answer ⟨⟩ pulled
    cases (Parses.empty_pull _ _).unique pulled
    exact ⟨_, ended _ _, .ended⟩

inductive AlreadyChosen : Parses τ α → Parses τ α → Prop
  | between (s) : AlreadyChosen (.chosen s) s

theorem alreadyChosen_bisimulation :
    Bisimulation (AlreadyChosen : Parses τ α → Parses τ α → Prop) id id where
  forth := by
    rintro _ s live log answer ⟨⟩ pulled
    obtain ⟨reply, inside, stays⟩ := pull_chosen_returns.mp pulled
    cases stays with
    | found => exact ⟨_, inside, .parse (.between _)⟩
    | ended => exact ⟨_, inside, .ended⟩
  back := by
    rintro _ s live log ⟨⟨v, rest, left⟩ | left, log'⟩ ⟨⟩ pulled
    · exact ⟨_, pull_chosen_returns.mpr ⟨_, pulled, .found⟩, .parse (.between _)⟩
    · exact ⟨_, pull_chosen_returns.mpr ⟨_, pulled, .ended⟩, .ended⟩

section Laws

variable {ρ : Scope τ Γ} {input : Input τ} {live : Owners} {lives : List Owners}

theorem or_assoc_shows (p q r : Parser τ Γ α) (seen : Observation τ α) :
    (Parser.or (.or p q) r).Shows ρ input live lives seen ↔
      (Parser.or p (.or q r)).Shows ρ input live lives seen := by
  have first := Parser.opensAround_or ρ input p q
  have left := first.trans (Parser.opensAround_or ρ input (.or p q) r)
  have right := Parser.opensAround_or ρ input p (.or q r)
  have same := left.shows_iff right rechosen_bisimulation .first live lives seen
  simpa only [List.map_id] using same

theorem or_bind_shows (p q : Parser τ Γ α) (captures : Captures Γ Δ) (f : α → Parser τ Δ β)
    (seen : Observation τ β) :
    (Parser.bind (.or p q) captures f).Shows ρ input live lives seen ↔
      (Parser.or (.bind p captures f) (.bind q captures f)).Shows ρ input live lives seen := by
  have choice := Parser.opensAround_or ρ input p q
  have left := choice.trans (Parser.opensAround_bind ρ input (.or p q) captures f)
  have bound := Parser.opensAround_bind ρ input p captures f
  have branches := Parser.opensAround_or ρ input (.bind p captures f) (.bind q captures f)
  have right := bound.trans branches
  have same := left.shows_iff right boundChoice_bisimulation (.first · .empty) live lives seen
  simpa only [List.map_id] using same

theorem or_sieve_shows {sieve : Sieve α β} {wrap : Parses τ α → Parses τ β}
    (sieves : Sieves sieve wrap .nobody) {around : Parser τ Γ α → Parser τ Γ β}
    (opens : ∀ r, (around r).OpensAround ρ input wrap r)
    (same : ∀ r, (around r).keeps ρ = r.keeps ρ) (p q : Parser τ Γ α) (seen : Observation τ β) :
    (around (.or p q)).Shows ρ input live lives seen ↔
      (Parser.or (around p) (around q)).Shows ρ input live lives seen := by
  have left := (Parser.opensAround_or ρ input p q).trans (opens (.or p q))
  have right := (opens p).trans (Parser.opensAround_or ρ input (around p) (around q))
  have bisimulation := sieves.choice_bisimulation (opens q) (same q)
  have same := left.shows_iff right bisimulation .first live lives seen
  simpa only [List.map_id] using same

theorem or_fail_shows (p : Parser τ Γ α) (seen : Observation τ α) :
    (Parser.or p .fail).Shows ρ input live lives seen ↔ p.Shows ρ input live lives seen := by
  have left := Parser.opensAround_or ρ input p .fail
  have right := p.opensAround_self ρ input
  have same := left.shows_iff right (failedLast_bisimulation ρ input) .between live lives seen
  simpa only [List.map_id] using same

theorem fail_bind_shows (captures : Captures Γ Δ) (f : α → Parser τ Δ β)
    (seen : Observation τ β) :
    (Parser.bind .fail captures f).Shows ρ input live lives seen ↔
      (Parser.fail : Parser τ Γ β).Shows ρ input live lives seen := by
  have same :=
    (failureBound_bisimulation (ρ.captured captures) f).shows_iff .between lives seen.pulls
  simp only [List.map_id] at same
  have opens : (Task.invoke ρ (.bind .fail captures f) input).Returns live []
      ⟨.nested (ρ.captured captures) f .empty .empty, []⟩ :=
    (Parser.opensAround_bind _ _ _ _ _ _ _ _).mpr ⟨_, Task.returns rfl, rfl⟩
  have fails : (Task.invoke ρ (.fail : Parser τ Γ β) input).Returns live [] ⟨.empty, []⟩ :=
    Task.returns rfl
  rw [Parser.shows_iff, Parser.shows_iff]
  constructor
  · rintro ⟨_, invoked, shows, events⟩
    cases opens.unique invoked
    exact ⟨_, fails, same.mp shows, events⟩
  · rintro ⟨_, invoked, shows, events⟩
    cases fails.unique invoked
    exact ⟨_, opens, same.mpr shows, events⟩

theorem choosing_empty_pull {p : Parser τ Γ α} {log answer} :
    (Task.pull (.choosing .empty ρ p input)).Returns live log answer ↔
      ∃ opened, (Task.invoke ρ p input).Returns (live.add (p.keeps ρ)) log opened ∧
        (Task.pull (.chosen opened.value)).Returns live opened.log answer := by
  rw [pull_choosing_returns]
  constructor
  · rintro ⟨reply, inside, turns⟩
    cases (Parses.empty_pull _ _).unique inside
    cases turns with
    | turned invoked later => exact ⟨_, invoked, later⟩
  · rintro ⟨opened, invoked, later⟩
    exact ⟨_, Parses.empty_pull _ _, .turned invoked later⟩

theorem fail_or_shows (p : Parser τ Γ α) (first : Owners) (answers : List (Option (α × Input τ))) :
    (∃ seen, (Parser.or .fail p).Shows ρ input live (first :: lives) seen ∧
        seen.answers = answers) ↔
      ∃ seen, p.Shows ρ input (first.add (p.keeps ρ)) (first :: lives) seen ∧
        seen.answers = answers := by
  have same (s : Parses τ α) := alreadyChosen_bisimulation.shows_iff (.between s) (first :: lives)
  simp only [List.map_id] at same
  have opens : (Task.invoke ρ (.or .fail p) input).Returns live []
      ⟨.choosing .empty ρ p input, []⟩ :=
    (Parser.opensAround_or _ _ _ _ _ _ _).mpr ⟨_, Task.returns rfl, rfl⟩
  simp only [Parser.shows_iff]
  constructor
  · rintro ⟨seen, ⟨opened, invoked, shows, _⟩, rfl⟩
    cases opens.unique invoked
    obtain ⟨answer, later, pulled, rest, found⟩ := Parses.shows_cons.mp shows
    obtain ⟨s, invoked, pulled⟩ := choosing_empty_pull.mp pulled
    obtain ⟨log, pulled⟩ := pull_at_any_log pulled []
    have shown := Parses.shows_cons.mpr ⟨_, later, pulled, rest, rfl⟩
    refine ⟨⟨s.log.reverse, _⟩, ⟨s, invoked, (same s.value _).mp shown, rfl⟩, ?_⟩
    rw [Observation.answers, Observation.answers, ← found]
    rfl
  · rintro ⟨seen, ⟨s, invoked, shows, _⟩, rfl⟩
    obtain ⟨answer, later, pulled, rest, found⟩ :=
      Parses.shows_cons.mp ((same s.value _).mpr shows)
    obtain ⟨log, pulled⟩ := pull_at_any_log pulled s.log
    have pulled := choosing_empty_pull.mpr ⟨s, invoked, pulled⟩
    have shown := Parses.shows_cons.mpr ⟨_, later, pulled, rest, rfl⟩
    refine ⟨⟨[], _⟩, ⟨_, opens, shown, rfl⟩, ?_⟩
    rw [Observation.answers, Observation.answers, ← found]
    rfl

end Laws

/-- Regrouping choices, moving `bind`, `map` and `filter` into both branches, and a failure as the
second branch or as what is bound, change nothing about what is seen: the invocation causes the same
events, and each pull comes to an end when it does without, with the same find and the same events.
A failure as the first branch puts off the invocation of `p` to the first pull, and what is found is
the same. -/
theorem choice_laws (ρ : Scope τ Γ) (input : Input τ) (live : Owners) (lives : List Owners) :
    (∀ (p q r : Parser τ Γ α) (seen : Observation τ α),
      (Parser.or (.or p q) r).Shows ρ input live lives seen ↔
        (Parser.or p (.or q r)).Shows ρ input live lives seen) ∧
    (∀ (p q : Parser τ Γ α) (captures : Captures Γ Δ) (f : α → Parser τ Δ β)
      (seen : Observation τ β),
      (Parser.bind (.or p q) captures f).Shows ρ input live lives seen ↔
        (Parser.or (.bind p captures f) (.bind q captures f)).Shows ρ input live lives seen) ∧
    (∀ (p q : Parser τ Γ α) (g : α → Logged β) (seen : Observation τ β),
      (Parser.mapM g (.or p q)).Shows ρ input live lives seen ↔
        (Parser.or (.mapM g p) (.mapM g q)).Shows ρ input live lives seen) ∧
    (∀ (p q : Parser τ Γ α) (keep : α → Logged Bool) (seen : Observation τ α),
      (Parser.filterM keep (.or p q)).Shows ρ input live lives seen ↔
        (Parser.or (.filterM keep p) (.filterM keep q)).Shows ρ input live lives seen) ∧
    (∀ (p : Parser τ Γ α) (seen : Observation τ α),
      (Parser.or p .fail).Shows ρ input live lives seen ↔ p.Shows ρ input live lives seen) ∧
    (∀ (captures : Captures Γ Δ) (f : α → Parser τ Δ β) (seen : Observation τ β),
      (Parser.bind .fail captures f).Shows ρ input live lives seen ↔
        (Parser.fail : Parser τ Γ β).Shows ρ input live lives seen) ∧
    ∀ (p : Parser τ Γ α) (first : Owners) (answers : List (Option (α × Input τ))),
      (∃ seen, (Parser.or .fail p).Shows ρ input live (first :: lives) seen ∧
          seen.answers = answers) ↔
        ∃ seen, p.Shows ρ input (first.add (p.keeps ρ)) (first :: lives) seen ∧
          seen.answers = answers := by
  refine ⟨or_assoc_shows, or_bind_shows, fun p q g seen => ?_, fun p q keep seen => ?_,
    or_fail_shows, fail_bind_shows, fail_or_shows⟩
  · have opens := Parser.opensAround_mapM ρ input g
    exact or_sieve_shows (sieves_mapped g) opens (fun _ => rfl) p q seen
  · have opens := Parser.opensAround_filterM ρ input keep
    exact or_sieve_shows (sieves_filtered keep) opens (fun _ => rfl) p q seen

end EveryParse
