import EveryParse.Proofs.Guarded
import EveryParse.Proofs.Knot
import EveryParse.Proofs.Uses

/-!
The first run of a repetition. On each input that the repetition comes to, it takes the first match
and goes on behind that. Main statement: with the first pull it finds all these matches as one run;
on the way the operand is invoked once on each of the inputs, and of each of its sequences there is
one pull, however many matches there may be behind the first one.

To see this, the operand is tapped and its calls are watched.
-/

namespace EveryParse

variable {τ α β : Type} {Γ Δ : List Type}

section Repetition

variable {watched : Task τ → Prop} {kept : Definition τ → Prop}

def Parser.OpensWith (watched : Task τ → Prop) (kept : Definition τ → Prop) (ρ : Scope τ Γ)
    (p : Parser τ Γ α) (input : Input τ) (s : Parses τ α) (uses : List (Task τ)) : Prop :=
  ∀ live : Owners, live.Cover kept → ∀ log, ∃ log',
    (Task.invoke ρ p input).Called watched live log ⟨s, log'⟩ uses

def Parses.AnswersWith (watched : Task τ → Prop) (kept : Definition τ → Prop) (s : Parses τ α)
    (answer : Answer τ α) (uses : List (Task τ)) : Prop :=
  ∀ live : Owners, live.Cover kept → ∀ log, ∃ log',
    (Task.pull s).Called watched live log ⟨answer, log'⟩ uses

/-- Always the first parse: the one that `s` finds, the one that `p` finds behind that, and so on
until there is none. -/
inductive FirstRun (watched : Task τ → Prop) (kept : Definition τ → Prop) (ρ : Scope τ Γ)
    (p : Parser τ Γ α) : Parses τ α → Input τ → List α → Input τ → List (Task τ) → Prop
  | stop {s input left pulled} (ended : s.AnswersWith watched kept (.ended left) pulled) :
      FirstRun watched kept ρ p s input [] input pulled
  | next {s input v rest left pulled t opened values last uses}
      (found : s.AnswersWith watched kept (.parse v rest left) pulled)
      (opens : p.OpensWith watched kept ρ rest t opened)
      (later : FirstRun watched kept ρ p t rest values last uses) :
      FirstRun watched kept ρ p s input (v :: values) last (pulled ++ (opened ++ uses))

def Parses.repetition (σ : Scope τ Δ) (x : Var Δ α) (stop : β) (extend : α → β → β)
    (s : Parses τ α) (input : Input τ) : Parses τ β :=
  .choosing (.nested σ (fun first => .map (extend first) (.runs x stop extend)) s .empty) σ
    (.result stop) input

variable {σ : Scope τ Δ} {x : Var Δ α} {ρ : Scope τ Γ} {p : Parser τ Γ α} (stop : β)
  (extend : α → β → β)
variable (taps : ∀ task, watched task → task.IsTap)
include taps

theorem runs_opens (stands : σ.get x = .parser ρ p) {input : Input τ} {s : Parses τ α}
    {uses : List (Task τ)} (opens : p.OpensWith watched kept ρ input s uses) :
    (Parser.runs x stop extend).OpensWith watched kept σ input
      (.repetition σ x stop extend s input) uses := by
  intro live cover log
  obtain ⟨log', operand⟩ := opens live cover log
  have ref : (Task.invoke σ (.ref x) input).Uses watched live log ⟨s, log'⟩ uses := by
    simp only [Task.Uses, Task.course, stands]
    exact .last operand (.done _)
  have bind : (Task.invoke σ (.bind (.ref x) .all fun first =>
      .map (extend first) (.runs x stop extend)) input).Uses watched live log _ uses :=
    .last (.of_uses taps id ref) (.done _)
  have unrolled : (Task.invoke σ (Parser.unrolled x stop extend) input).Uses watched live log
      ⟨.repetition σ x stop extend s input, log'⟩ uses :=
    .last (.of_uses taps id bind) (.done _)
  have runs : (Task.invoke σ (.runs x stop extend) input).Uses watched live log
      ⟨.repetition σ x stop extend s input, log'⟩ uses :=
    .last (.of_uses taps id unrolled) (.done _)
  exact ⟨log', .of_uses taps id runs⟩

theorem Parses.AnswersWith.mapped {γ : Type} (g : β → Logged γ) {s left : Parses τ β} {v : β}
    {rest : Input τ} {uses : List (Task τ)}
    (answers : s.AnswersWith watched kept (.parse v rest left) uses) :
    (Parses.mapped g s).AnswersWith watched kept (.parse (g v).value rest (.mapped g left))
      uses := by
  intro live cover log
  obtain ⟨log', inside⟩ := answers live cover log
  exact ⟨_, .of_uses taps id (.last inside (.done _))⟩

theorem FirstRun.answers (stands : σ.get x = .parser ρ p) {s : Parses τ α} {input last : Input τ}
    {values : List α} {uses : List (Task τ)}
    (run : FirstRun watched kept ρ p s input values last uses) :
    ∃ left, (Parses.repetition σ x stop extend s input).AnswersWith watched kept
      (.parse (values.foldr extend stop) last left) uses := by
  have empty (live : Owners) (log : List Event) :
      (Task.pull (.empty : Parses τ β)).Called watched live log ⟨.ended .empty, log⟩ [] :=
    Task.Called.of_uses taps id (.done _)
  induction run with
  | @stop s input left pulled ended =>
      refine ⟨.chosen .empty, fun live cover log => ?_⟩
      obtain ⟨log', outer⟩ := ended _ ((cover.add _).add _) log
      have nested : (Task.pull (.nested σ (fun first => .map (extend first)
          (.runs x stop extend)) s .empty)).Uses watched _ log ⟨.ended .empty, log'⟩ pulled :=
        .silent (empty _ log) (.last outer (.done _))
      have second : (Task.pull (.chosen (.listed [(stop, input)]))).Uses watched live log'
          ⟨.parse stop input (.chosen .empty), log'⟩ [] :=
        .last (.of_uses taps id (.done _)) (.done _)
      have choosing : (Task.pull (.repetition σ x stop extend s input)).Uses watched live log
          ⟨.parse stop input (.chosen .empty), log'⟩ pulled :=
        .last (.of_uses taps id nested)
          (.silent (.of_uses taps id (.done _)) (.last (.of_uses taps id second) (.done _)))
      exact ⟨log', .of_uses taps id choosing⟩
  | @next s input v rest left pulled t opened values last uses found opens later ih =>
      obtain ⟨inner, answers⟩ := ih
      let f (first : α) : Parser τ Δ β := .map (extend first) (.runs x stop extend)
      let image (collected : β) : Logged β := .silent (extend v collected)
      refine ⟨.choosing (.nested σ f left (.mapped image inner)) σ (.result stop) input,
        fun live cover log => ?_⟩
      have built (live : Owners) (log : List Event) :
          (Task.build σ (f v)).Called watched live log ⟨f v, log⟩ [] :=
        .of_uses taps id (.silent (.of_uses taps id (.done _)) (.done _))
      obtain ⟨log₁, outer⟩ := found _ ((cover.add _).add _) log
      have again := runs_opens stop extend taps stands opens
      obtain ⟨log₂, operand⟩ := again _ (((cover.add _).add _).add _) log₁
      obtain ⟨log₃, behind⟩ := answers.mapped taps image _ (((cover.add _).add _).add _) log₂
      have further : (Task.pull (.nested σ f left (.mapped image
          (.repetition σ x stop extend t rest)))).Uses watched _ log₂ _ uses :=
        .last behind (.done _)
      have opening : (Task.invoke σ (f v) rest).Uses watched _ log₁ ⟨_, log₂⟩ opened :=
        .last operand (.done _)
      have nested : (Task.pull (.nested σ f s .empty)).Uses watched
          (live.add ((Parser.result stop).keeps σ)) log _ (pulled ++ (opened ++ uses)) :=
        .silent (empty _ log) (.call outer (.silent (built _ log₁)
          (.call (.of_uses taps id opening) (.last (.of_uses taps id further) (.done _)))))
      exact ⟨log₃, .of_uses taps id (.last (.of_uses taps id nested) (.done _))⟩

theorem FirstRun.many {s : Parses τ α} {input last : Input τ} {values : List α}
    {opened uses : List (Task τ)} (opens : p.OpensWith watched kept ρ input s opened)
    (run : FirstRun watched kept ρ p s input values last uses) :
    ∃ (s : Parses τ (Array α)) (left : Parses τ (List α)),
      let runs : Parses τ (List α) := .mapped (fun collected => .silent collected.toList.reverse) s
      p.many.OpensWith watched kept ρ input runs opened ∧
        runs.AnswersWith watched kept (.parse values last left) uses := by
  let image (collected : Array α) : Logged (List α) := .silent collected.toList.reverse
  let push (first : α) (rest : Array α) : Array α := rest.push first
  have stands : (Scope.link ρ p .empty).get .here = .parser ρ p := rfl
  obtain ⟨left, answers⟩ := run.answers #[] push taps stands
  have opens := runs_opens #[] push taps stands opens
  have answers := answers.mapped taps image
  have order : (image (values.foldr push #[])).value = values := by
    simp [image, push, Logged.silent]
  rw [order] at answers
  refine ⟨_, _, fun live cover log => ?_, answers⟩
  obtain ⟨log', operand⟩ := opens _ ((cover.add _).add _) log
  have alone : (Task.invoke ρ (.alone p (.runs .here #[] push)) input).Uses watched _ log _ _ :=
    .last operand (.done _)
  have map : (Task.invoke ρ p.many input).Uses watched live log _ _ :=
    .last (.of_uses taps id alone) (.done _)
  exact ⟨log', .of_uses taps id map⟩

end Repetition

inductive Parser.FirstMatches (live : Owners) (ρ : Scope τ Γ) (p : Parser τ Γ α) :
    Input τ → List α → Input τ → List (Input τ × Parses τ α) → Prop
  | stop {input s log left log'} (opened : (Task.invoke ρ p input).Returns live [] ⟨s, log⟩)
      (ended : (Task.pull s).Returns live [] ⟨.ended left, log'⟩) :
      FirstMatches live ρ p input [] input [(input, s)]
  | next {input s log v rest left log' values last sequences}
      (opened : (Task.invoke ρ p input).Returns live [] ⟨s, log⟩)
      (found : (Task.pull s).Returns live [] ⟨.parse v rest left, log'⟩)
      (later : FirstMatches live ρ p rest values last sequences) :
      FirstMatches live ρ p input (v :: values) last ((input, s) :: sequences)

def Parser.FirstAdvances (live : Owners) (ρ : Scope τ Γ) (p : Parser τ Γ α) (input : Input τ) :
    Prop :=
  ∃ opened answer, (Task.invoke ρ p input).Returns live [] opened ∧
    (Task.pull opened.value).Returns live [] answer ∧
    ∀ v rest left, answer.value = .parse v rest left → rest.After input

theorem Parser.FirstAdvances.exists_matches {live : Owners} {ρ : Scope τ Γ} {p : Parser τ Γ α}
    {input : Input τ}
    (firsts : ∀ rest : Input τ, rest.AtOrAfter input → p.FirstAdvances live ρ rest) :
    ∃ values last sequences, p.FirstMatches live ρ input values last sequences := by
  induction left : input.length using Nat.strongRecOn generalizing input with
  | ind left ih =>
      subst left
      obtain ⟨opened, ⟨answer, log⟩, ran, pulled, after⟩ := firsts input (.inl rfl)
      cases answer with
      | ended left => exact ⟨_, _, _, .stop ran pulled⟩
      | parse v rest left =>
          have further := after v rest left rfl
          obtain ⟨values, last, sequences, matching⟩ := ih _ further.length_lt
            (fun rest' behind => firsts rest' (.inr (behind.trans_after further).toIsSuffixOf)) rfl
          exact ⟨_, _, _, .next ran pulled matching⟩

theorem Parser.FirstMatches.length {live : Owners} {ρ : Scope τ Γ} {p : Parser τ Γ α}
    {input last : Input τ} {values : List α} {sequences : List (Input τ × Parses τ α)}
    (matching : p.FirstMatches live ρ input values last sequences) :
    sequences.length = values.length + 1 := by
  induction matching with
  | stop => rfl
  | next _ _ _ ih => simp [ih]

theorem Parser.FirstMatches.unique {live : Owners} {ρ : Scope τ Γ} {p : Parser τ Γ α}
    {input last last' : Input τ} {values values' : List α}
    {sequences sequences' : List (Input τ × Parses τ α)}
    (first : p.FirstMatches live ρ input values last sequences)
    (second : p.FirstMatches live ρ input values' last' sequences') :
    values = values' ∧ last = last' ∧ sequences = sequences' := by
  induction first generalizing values' sequences' with
  | stop opened ended =>
      cases second with
      | stop opened' ended' =>
          cases opened.unique opened'
          exact ⟨rfl, rfl, rfl⟩
      | next opened' found =>
          cases opened.unique opened'
          cases ended.unique found
  | next opened found _ ih =>
      cases second with
      | stop opened' ended =>
          cases opened.unique opened'
          cases found.unique ended
      | next opened' found' later =>
          cases opened.unique opened'
          cases found.unique found'
          obtain ⟨rfl, rfl, rfl⟩ := ih later
          exact ⟨rfl, rfl, rfl⟩

/-- A parser and its sequences as they are looked at: `q` opens what `wrap` makes of the sequences
of `p`, with the calls `invoked` in the invocation and `pulled` in a pull. -/
structure View (watched : Task τ → Prop) (kept : Definition τ → Prop) (live : Owners)
    (ρ : Scope τ Γ) (p q : Parser τ Γ α) (wrap : Parses τ α → Parses τ α)
    (invoked : Input τ → List (Task τ)) (pulled : Parses τ α → List (Task τ)) : Prop where
  opens {input s log} (opened : (Task.invoke ρ p input).Returns live [] ⟨s, log⟩) :
    q.OpensWith watched kept ρ input (wrap s) (invoked input)
  finds {input s log v rest left log'} (opened : (Task.invoke ρ p input).Returns live [] ⟨s, log⟩)
    (found : (Task.pull s).Returns live [] ⟨.parse v rest left, log'⟩) :
    (wrap s).AnswersWith watched kept (.parse v rest (wrap left)) (pulled s)
  ends {input s log left log'} (opened : (Task.invoke ρ p input).Returns live [] ⟨s, log⟩)
    (ended : (Task.pull s).Returns live [] ⟨.ended left, log'⟩) :
    ∃ left', (wrap s).AnswersWith watched kept (.ended left') (pulled s)

theorem View.firstRun {watched : Task τ → Prop} {kept : Definition τ → Prop} {live : Owners}
    {ρ : Scope τ Γ} {p q : Parser τ Γ α} {wrap : Parses τ α → Parses τ α}
    {invoked : Input τ → List (Task τ)} {pulled : Parses τ α → List (Task τ)}
    (view : View watched kept live ρ p q wrap invoked pulled) {input last : Input τ}
    {values : List α} {sequences : List (Input τ × Parses τ α)}
    (matching : p.FirstMatches live ρ input values last sequences) :
    ∃ s uses, q.OpensWith watched kept ρ input s (invoked input) ∧
      FirstRun watched kept ρ q s input values last uses ∧
      invoked input ++ uses = sequences.flatMap fun place => invoked place.1 ++ pulled place.2 := by
  induction matching with
  | stop opened ended =>
      obtain ⟨_, ends⟩ := view.ends opened ended
      exact ⟨_, _, view.opens opened, .stop ends, by simp⟩
  | next opened found _ ih =>
      obtain ⟨_, _, opens, run, same⟩ := ih
      refine ⟨_, _, view.opens opened, .next (view.finds opened found) opens run, ?_⟩
      rw [List.flatMap_cons, ← same, List.append_assoc]

section Views

variable {kept : Definition τ → Prop} {building : AnyScope τ → Prop} {live : Owners}
variable {ρ : Scope τ Γ} (sound : ρ.Sound kept building) (cover : live.Cover kept)
include sound cover

theorem Parser.opens_any {p : Parser τ Γ α} {input : Input τ} {s : Parses τ α} {log : List Event}
    (opened : (Task.invoke ρ p input).Returns live [] ⟨s, log⟩) {live' : Owners}
    (cover' : live'.Cover kept) (log' : List Event) :
    ∃ log'', (Task.invoke ρ p input).Returns live' log' ⟨s, log''⟩ := by
  have invoked : (Task.invoke ρ p input).Sound kept building := sound
  rw [invoked.returns_iff cover cover'] at opened
  exact invoke_at_any_log opened log'

theorem Parses.answers_any {p : Parser τ Γ α} {input : Input τ} {s : Parses τ α} {log : List Event}
    (opened : (Task.invoke ρ p input).Returns live [] ⟨s, log⟩) {answer : Answer τ α}
    {log₁ : List Event} (pulled : (Task.pull s).Returns live [] ⟨answer, log₁⟩) {live' : Owners}
    (cover' : live'.Cover kept) (log' : List Event) :
    ∃ log'', (Task.pull s).Returns live' log' ⟨answer, log''⟩ := by
  obtain ⟨fuel, ran⟩ := opened
  have invoked : (Task.invoke ρ p input).Sound kept building := sound
  have found : (Task.pull s).Sound kept building := Task.LeavesSound.of_run ran invoked
  rw [found.returns_iff cover cover'] at pulled
  exact pull_at_any_log pulled log'

def Task.IsUse (label : String) : Task τ → Prop
  | .invoke _ (.tap other _) _ => other = label
  | .pull (.tapped other _ _) => other = label
  | _ => False

omit sound cover in
theorem Task.IsUse.isTap {label : String} (task : Task τ) (use : task.IsUse label) :
    task.IsTap := by
  unfold IsUse at use
  split at use
  · trivial
  · trivial
  · exact use.elim

theorem view_tapped (label : String) (p : Parser τ Γ α) :
    View (Task.IsUse label) kept live ρ p (.tap label p) (.tapped label false)
      (fun input => [.invoke ρ (.tap label p) input]) fun s => [.pull (.tapped label false s)] where
  opens opened live' cover' log' := by
    obtain ⟨log'', ran⟩ := Parser.opens_any sound cover opened cover' (.run label _ :: log')
    exact ⟨log'', .inl ⟨rfl, Task.returns ⟨_, ran, rfl⟩, rfl⟩⟩
  finds opened found live' cover' log' := by
    obtain ⟨log'', ran⟩ := Parses.answers_any sound cover opened found cover' log'
    exact ⟨_, .inl ⟨rfl, Task.returns ⟨_, ran, rfl⟩, rfl⟩⟩
  ends {_ _ _ left _} opened ended := by
    refine ⟨.tapped label true left, fun live' cover' log' => ?_⟩
    obtain ⟨log'', ran⟩ := Parses.answers_any sound cover opened ended cover' log'
    exact ⟨_, .inl ⟨rfl, Task.returns ⟨_, ran, rfl⟩, rfl⟩⟩

theorem view_self (p : Parser τ Γ α) :
    View (fun _ => False) kept live ρ p p id (fun _ => []) fun _ => [] where
  opens opened live' cover' log' := by
    obtain ⟨log'', ran⟩ := Parser.opens_any sound cover opened cover' log'
    exact ⟨log'', ran.called⟩
  finds opened found live' cover' log' := by
    obtain ⟨log'', ran⟩ := Parses.answers_any sound cover opened found cover' log'
    exact ⟨log'', ran.called⟩
  ends {_ _ _ left _} opened ended := by
    refine ⟨left, fun live' cover' log' => ?_⟩
    obtain ⟨log'', ran⟩ := Parses.answers_any sound cover opened ended cover' log'
    exact ⟨log'', ran.called⟩

end Views

/-- With `p` tapped: it is invoked on each of the inputs, and before it is invoked again, the
sequence that this opened is pulled. -/
def Parser.onceEach (p : Parser τ Γ α) (label : String) (ρ : Scope τ Γ)
    (sequences : List (Input τ × Parses τ α)) : List (Task τ) :=
  sequences.flatMap fun place =>
    [.invoke ρ (.tap label p) place.1, .pull (.tapped label false place.2)]

/-- The first pull of a repetition finds the first parses of `p` as one run. On each input that it
comes to on the way, `p` is invoked once and the sequence is pulled once; the first invocation is
that of the repetition. There is a last input where each first parse reads a token. -/
theorem first_run_of_many {ρ : Scope τ Γ} {kept : Definition τ → Prop}
    {building : AnyScope τ → Prop} (sound : ρ.Sound kept building) {live later : Owners}
    (cover : live.Cover kept) (coverLater : later.Cover kept) (p : Parser τ Γ α) (input : Input τ)
    (label : String) :
    ((∀ rest : Input τ, rest.AtOrAfter input → p.FirstAdvances live ρ rest) →
      ∃ values last sequences, p.FirstMatches live ρ input values last sequences) ∧
    ∀ values last sequences, p.FirstMatches live ρ input values last sequences →
      sequences.length = values.length + 1 ∧
      (∃ seen, p.many.Shows ρ input live [later] seen ∧ seen.answers = [some (values, last)]) ∧
      ∃ s log left log' uses,
        (Task.invoke ρ (Parser.tap label p).many input).Uses (Task.IsUse label) live [] ⟨s, log⟩
          [.invoke ρ (.tap label p) input] ∧
        (Task.pull s).Uses (Task.IsUse label) later [] ⟨.parse values last left, log'⟩ uses ∧
        .invoke ρ (.tap label p) input :: uses = p.onceEach label ρ sequences := by
  refine ⟨Parser.FirstAdvances.exists_matches, fun values last sequences matching => ?_⟩
  refine ⟨matching.length, ?_, ?_⟩
  · obtain ⟨s, uses, opens, run, _⟩ := (view_self sound cover p).firstRun matching
    obtain ⟨s, left, opens, answers⟩ := run.many (fun _ => False.elim) opens
    obtain ⟨log, opened⟩ := opens live cover []
    obtain ⟨log', found⟩ := answers later coverLater []
    have opened := (opened.uses (fun _ => False.elim) id).returns
    have found := (found.uses (fun _ => False.elim) id).returns
    have shows := Parses.shows_cons.mpr ⟨_, [], found, Parses.shows_nil.mpr rfl, rfl⟩
    exact ⟨⟨_, _⟩, Parser.shows_iff.mpr ⟨_, opened, shows, rfl⟩, rfl⟩
  · obtain ⟨s, uses, opens, run, same⟩ := (view_tapped sound cover label p).firstRun matching
    obtain ⟨s, left, opens, answers⟩ := run.many Task.IsUse.isTap opens
    obtain ⟨log, opened⟩ := opens live cover []
    obtain ⟨log', found⟩ := answers later coverLater []
    exact ⟨_, log, left, log', uses, opened.uses Task.IsUse.isTap id,
      found.uses Task.IsUse.isTap id, same⟩

def endless : Parser Char [] Char :=
  .bind .item .none fun v => .leaf fun rest _ => some (v, rest)

theorem endless_first_run :
    let ρ : Scope Char [] := .empty
    let input : Input Char := ⟨⟨0, #['a', 'b']⟩, 0⟩
    ρ.Closed ∧ (∀ rest : Input Char, rest.AtOrAfter input → endless.FirstAdvances .nobody ρ rest) ∧
      ∃ sequences,
        endless.FirstMatches .nobody ρ input ['a', 'b'] (input.advance 2) sequences ∧
        sequences.length = 3 ∧
        (∃ seen, endless.many.Shows ρ input .nobody [.nobody] seen ∧
          seen.answers = [some (['a', 'b'], input.advance 2)]) ∧
        ∃ s log left log' uses,
          (Task.invoke ρ (Parser.tap "one" endless).many input).Uses (Task.IsUse "one") .nobody []
            ⟨s, log⟩ [.invoke ρ (.tap "one" endless) input] ∧
          (Task.pull s).Uses (Task.IsUse "one") .nobody []
            ⟨.parse ['a', 'b'] (input.advance 2) left, log'⟩ uses ∧
          .invoke ρ (.tap "one" endless) input :: uses = endless.onceEach "one" ρ sequences := by
  intro ρ input
  have closed : ρ.Closed := trivial
  have cover : Owners.nobody.Cover fun _ : Definition Char => False := Owners.cover_none _
  have firsts (rest : Input Char) (_ : rest.AtOrAfter input) :
      endless.FirstAdvances .nobody ρ rest := by
    have opened : (Task.invoke ρ endless rest).Returns .nobody []
        ⟨.nested ρ _ (.listed rest.splitFirst.toList) .empty, []⟩ := ⟨2, rfl⟩
    cases split : rest.splitFirst with
    | none =>
        rw [split] at opened
        exact ⟨_, ⟨.ended .empty, []⟩, opened, ⟨2, rfl⟩, nofun⟩
    | some parse =>
        rw [split] at opened
        refine ⟨_, _, opened, ⟨4, rfl⟩, ?_⟩
        rintro v _ _ ⟨⟩
        exact Input.splitFirst_after (by simp [split])
  have expected : endless.FirstMatches .nobody ρ input ['a', 'b'] (input.advance 2) _ :=
    .next ⟨2, rfl⟩ ⟨4, rfl⟩ (.next ⟨2, rfl⟩ ⟨4, rfl⟩ (.stop ⟨2, rfl⟩ ⟨4, rfl⟩))
  obtain ⟨comes, found⟩ := first_run_of_many closed cover cover endless input "one"
  obtain ⟨values, last, sequences, matching⟩ := comes firsts
  obtain ⟨rfl, rfl, rfl⟩ := expected.unique matching
  exact ⟨closed, firsts, _, matching, found _ _ _ matching⟩

end EveryParse
