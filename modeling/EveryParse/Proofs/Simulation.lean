import EveryParse.Proofs.Watched

/-!
Sequences that follow one another. A sequence follows another one if it answers whenever that does,
with the same remainder, the same events, the same watched calls and a corresponding value. Main
statement: a parser whose sequences follow those of another one, with equal values, is seen to do
what that is seen to do (`Parser.ShowsWith.follow`). For all this some definitions may have to be
kept alive all along; they are named by `always`.
-/

namespace EveryParse

variable {τ α β γ β' γ' : Type} {watched : Task τ → Prop} {always live : Owners}

theorem Owners.Includes.add (includes : live.Includes always) (held : Owners) :
    (live.add held).Includes always := by
  intro name kept
  simp [Owners.add, includes name kept]

theorem Owners.includes_nobody (live : Owners) : live.Includes .nobody := nofun

section Through

variable {β : Type 1}

def Course.Through
    (calls : Owners → (task : Task τ) → List Event → task.Result → List (Task τ) → Prop)
    (live : Owners) (result : β) : Course τ β → List (Task τ) → Prop
  | done found, uses => found = result ∧ [] = uses
  | call held task log next, uses =>
    ∃ found first later, calls (live.add held) task log found first ∧
      (next found).Through calls live result later ∧ first ++ later = uses
  | alive name yes no, uses =>
    if live name then yes.Through calls live result uses else no.Through calls live result uses

section Calls

variable {calls : Owners → (task : Task τ) → List Event → task.Result → List (Task τ) → Prop}
  {held : Owners} {task : Task τ} {log : List Event} {next : task.Result → Course τ β}
  {found : task.Result} {result : β} {uses uses' : List (Task τ)}

theorem Course.Through.done (result : β) : (Course.done result).Through calls live result [] :=
  ⟨rfl, rfl⟩

theorem Course.Through.call (called : calls (live.add held) task log found uses)
    (later : (next found).Through calls live result uses') :
    (Course.call held task log next).Through calls live result (uses ++ uses') :=
  ⟨found, uses, uses', called, later, rfl⟩

theorem Course.Through.silent (called : calls (live.add held) task log found [])
    (later : (next found).Through calls live result uses) :
    (Course.call held task log next).Through calls live result uses :=
  call called later

end Calls

theorem Course.through_iff_uses {course : Course τ β} {result : β} {uses : List (Task τ)} :
    course.Through (Task.Called watched) live result uses ↔
      course.Uses watched live result uses := by
  induction course generalizing uses with
  | done found =>
      constructor
      · rintro ⟨rfl, rfl⟩
        exact .done found
      · rintro ⟨⟩
        exact ⟨rfl, rfl⟩
  | call held task log next ih =>
      constructor
      · rintro ⟨found, first, later, called, rest, rfl⟩
        exact .call called ((ih found).mp rest)
      · rintro (_ | ⟨use, ran, later⟩ | ⟨unwatched, called, later⟩)
        · exact .call (.inl ⟨use, ran, rfl⟩) ((ih _).mpr later)
        · exact .call (.inr ⟨unwatched, called⟩) ((ih _).mpr later)
  | alive name yes no ihYes ihNo =>
      unfold Course.Through
      constructor
      · intro rest
        split at rest
        next alive => exact .there alive (ihYes.mp rest)
        next gone => exact .gone (by simpa using gone) (ihNo.mp rest)
      · rintro (_ | _ | _ | ⟨alive, later⟩ | ⟨gone, later⟩)
        · simpa [alive] using ihYes.mpr later
        · simpa [gone] using ihNo.mpr later

end Through

def Task.CalledWith (watched : Task τ → Prop) (fuel : Nat) (live : Owners) (task : Task τ)
    (log : List Event) (found : task.Result) (uses : List (Task τ)) : Prop :=
  task.run fuel live log = some found ∧ task.Called watched live log found uses

section Calls

variable {task : Task τ} {log : List Event} {found : task.Result} {listed : List (Task τ)}

theorem Task.called_iff_course (unwatched : ¬watched task) :
    task.Called watched live log found listed ↔
      (task.course log).Through (Task.Called watched) live found listed := by
  rw [Course.through_iff_uses]
  constructor
  · rintro (⟨use, _⟩ | ⟨_, run⟩)
    · exact absurd use unwatched
    · exact run
  · exact fun run => .inr ⟨unwatched, run⟩

theorem Task.CalledWith.mono {fuel fuel' : Nat} (le : fuel ≤ fuel')
    (called : task.CalledWith watched fuel live log found listed) :
    task.CalledWith watched fuel' live log found listed :=
  ⟨Task.run_mono le called.1, called.2⟩

theorem Task.CalledWith.course {fuel : Nat} (unwatched : ¬watched task)
    (called : task.CalledWith watched (fuel + 1) live log found listed) :
    (task.course log).Through (Task.CalledWith watched fuel) live found listed := by
  obtain ⟨ran, called⟩ := called
  have followed {β : Type 1} {course : Course τ β} {result : β} {uses : List (Task τ)}
      (ran : course.follow (Task.run fuel) live = some result)
      (run : course.Through (Task.Called watched) live result uses) :
      course.Through (Task.CalledWith watched fuel) live result uses := by
    induction course generalizing uses with
    | done found => exact run
    | call held task log next ih =>
        obtain ⟨found, first, later, called, rest, rfl⟩ := run
        obtain ⟨found', ran', ran⟩ := Option.bind_eq_some_iff.mp ran
        cases called.returns.unique ⟨fuel, ran'⟩
        exact .call ⟨ran', called⟩ (ih found ran rest)
    | alive name yes no ihYes ihNo =>
        simp only [Course.follow, Course.Through] at ran run ⊢
        split
        next alive => exact ihYes (by simpa [alive] using ran) (by simpa [alive] using run)
        next gone => exact ihNo (by simpa [gone] using ran) (by simpa [gone] using run)
  exact followed ran ((Task.called_iff_course unwatched).mp called)

end Calls

inductive Answer.AgreeUpTo (same : β → γ → Prop) (related : Parses τ β → Parses τ γ → Prop) :
    Outcome (Answer τ β) → Outcome (Answer τ γ) → Prop
  | parse {v v' rest s s' log} (values : same v v') (later : related s s') :
      AgreeUpTo same related ⟨.parse v rest s, log⟩ ⟨.parse v' rest s', log⟩
  | ended {s s' log} (later : related s s') :
      AgreeUpTo same related ⟨.ended s, log⟩ ⟨.ended s', log⟩

theorem Answer.AgreeUpTo.mono {same : β → γ → Prop}
    {related related' : Parses τ β → Parses τ γ → Prop}
    (more : ∀ s s', related s s' → related' s s') {answer : Outcome (Answer τ β)}
    {answer' : Outcome (Answer τ γ)} (agree : AgreeUpTo same related answer answer') :
    AgreeUpTo same related' answer answer' := by
  cases agree with
  | parse values later => exact .parse values (more _ _ later)
  | ended later => exact .ended (more _ _ later)

/-- When a pull of the first sequence comes to an end with this much fuel, then so does one of the
second sequence, with the same watched calls, and the answers agree. -/
def Simulates (watched : Task τ → Prop) (always : Owners) (same : β → γ → Prop)
    (related : Parses τ β → Parses τ γ → Prop) (fuel : Nat) : Prop :=
  ∀ s s' live log answer uses, related s s' → live.Includes always →
    (Task.pull s).CalledWith watched fuel live log answer uses →
    ∃ answer', (Task.pull s').Called watched live log answer' uses ∧
      Answer.AgreeUpTo same related answer answer'

section Simulates

variable {same : β → γ → Prop} {related : Parses τ β → Parses τ γ → Prop} {fuel : Nat}

theorem Simulates.zero : Simulates watched always same related 0 := by
  intro s s' live log answer uses _ _ called
  cases called.1

theorem Simulates.mono {fuel' : Nat} (simulates : Simulates watched always same related fuel)
    (le : fuel' ≤ fuel) : Simulates watched always same related fuel' :=
  fun s s' live log answer uses start includes called =>
    simulates s s' live log answer uses start includes (called.mono le)

end Simulates

def Answer.around (wrap : Parses τ β → Parses τ γ) (image : β → γ) : Answer τ β → Answer τ γ
  | parse v rest s => parse (image v) rest (wrap s)
  | ended s => ended (wrap s)

/-- A pull of `wrap s` is a pull of `s`, and `image` is put to the value. -/
structure Wraps (watched : Task τ → Prop) (always : Owners) (wrap : Parses τ β → Parses τ γ)
    (image : β → γ) : Prop where
  inside {fuel s live log answer uses} (includes : live.Includes always)
    (called : (Task.pull (wrap s)).CalledWith watched fuel live log answer uses) :
    ∃ reply, (Task.pull s).CalledWith watched fuel live log reply uses ∧
      ⟨reply.value.around wrap image, reply.log⟩ = answer
  outside {s live log reply uses} (includes : live.Includes always)
    (called : (Task.pull s).Called watched live log reply uses) :
    (Task.pull (wrap s)).Called watched live log ⟨reply.value.around wrap image, reply.log⟩ uses

theorem wraps_id : Wraps watched always (id : Parses τ β → Parses τ β) id where
  inside {_ _ _ _ answer _} _ called := by
    obtain ⟨_ | _, _⟩ := answer <;> exact ⟨_, called, rfl⟩
  outside {_ _ _ reply _} _ called := by
    obtain ⟨_ | _, _⟩ := reply <;> exact called

section Wraps

variable {wrap : Parses τ β → Parses τ γ} {image : β → γ}

theorem Wraps.of_course (unwatched : ∀ s, ¬watched (.pull (wrap s))) {held : Owners}
    (alive : always.Includes held)
    (course : ∀ s log, ∃ next, (Task.pull (wrap s)).course log = .call held (.pull s) log next ∧
      ∀ reply, next reply = .done ⟨reply.value.around wrap image, reply.log⟩) :
    Wraps watched always wrap image where
  inside {fuel s live log answer uses} includes called := by
    cases fuel with
    | zero => cases called.1
    | succ fuel =>
        obtain ⟨next, same, finish⟩ := course s log
        have through := called.course (unwatched s)
        rw [same] at through
        obtain ⟨reply, first, later, inside, rest, rfl⟩ := through
        rw [finish] at rest
        obtain ⟨rfl, rfl⟩ := rest
        rw [includes.add_of_includes alive] at inside
        exact ⟨reply, by simpa using inside.mono (Nat.le_succ fuel), rfl⟩
  outside {s live log reply uses} includes called := by
    obtain ⟨next, same, finish⟩ := course s log
    rw [Task.called_iff_course (unwatched s), same]
    refine ⟨reply, uses, [], ?_, ?_, List.append_nil uses⟩
    · rwa [includes.add_of_includes alive]
    · rw [finish]
      exact .done _

variable (taps : ∀ task, watched task → task.IsTap)
include taps

theorem wraps_mapped (image : β → γ) :
    Wraps watched always (Parses.mapped fun v => .silent (image v)) image :=
  .of_course (fun _ => taps _) always.includes_nobody fun s log =>
    ⟨_, rfl, by rintro ⟨_ | _, _⟩ <;> rfl⟩

theorem wraps_anchored {Γ : List Type} {ρ : Scope τ Γ} {name : Name} {body : Parser τ (β :: Γ) β}
    (alive : always.Includes ((Parser.recursive name body).keeps ρ)) :
    Wraps watched always (Parses.anchored ρ name body) id :=
  .of_course (fun _ => taps _) alive fun s log => ⟨_, rfl, by rintro ⟨_ | _, _⟩ <;> rfl⟩

end Wraps

inductive Wrapped (wrap : Parses τ β → Parses τ β') (wrap' : Parses τ γ → Parses τ γ')
    (related : Parses τ β → Parses τ γ → Prop) : Parses τ β' → Parses τ γ' → Prop
  | wrapped {s s'} (inside : related s s') : Wrapped wrap wrap' related (wrap s) (wrap' s')

theorem Simulates.wrapped {same : β → γ → Prop} {same' : β' → γ' → Prop}
    {related : Parses τ β → Parses τ γ → Prop} {fuel : Nat} {wrap : Parses τ β → Parses τ β'}
    {image : β → β'} {wrap' : Parses τ γ → Parses τ γ'} {image' : γ → γ'}
    (simulates : Simulates watched always same related fuel)
    (wraps : Wraps watched always wrap image) (wraps' : Wraps watched always wrap' image')
    (values : ∀ v v', same v v' → same' (image v) (image' v')) :
    Simulates watched always same' (Wrapped wrap wrap' related) fuel := by
  rintro _ _ live log _ uses ⟨inside⟩ includes called
  obtain ⟨reply, pulled, rfl⟩ := wraps.inside includes called
  obtain ⟨reply', called', agree⟩ := simulates _ _ _ _ _ _ inside includes pulled
  refine ⟨_, wraps'.outside includes called', ?_⟩
  cases agree with
  | parse correspond later => exact .parse (values _ _ correspond) ⟨later⟩
  | ended later => exact .ended ⟨later⟩

section Follows

variable {Γ Δ : List Type}

/-- To invoke `r` is to invoke `p` and to start from the sequence that this opens. -/
def Parser.StartsFrom (watched : Task τ → Prop) (always : Owners) (σ : Scope τ Δ)
    (r : Parser τ Δ β) (ρ : Scope τ Γ) (p : Parser τ Γ α)
    (start : Parses τ α → Input τ → Parses τ β) : Prop :=
  ∀ live, live.Includes always → ∀ input log opened uses,
    (Task.invoke σ r input).Called watched live log opened uses ↔
      ∃ operand, (Task.invoke ρ p input).Called watched live log operand uses ∧
        operand.map (start · input) = opened

def Follows (watched : Task τ → Prop) (always : Owners) (same : β → γ → Prop)
    (start : Parses τ α → Input τ → Parses τ β) (start' : Parses τ α → Input τ → Parses τ γ) :
    Prop :=
  ∃ related : Parses τ β → Parses τ γ → Prop,
    (∀ s input, related (start s input) (start' s input)) ∧
    ∀ fuel, Simulates watched always same related fuel

theorem Follows.wrapped {same : β → γ → Prop} {same' : β' → γ' → Prop}
    {start : Parses τ α → Input τ → Parses τ β} {start' : Parses τ α → Input τ → Parses τ γ}
    {wrap : Parses τ β → Parses τ β'} {image : β → β'} {wrap' : Parses τ γ → Parses τ γ'}
    {image' : γ → γ'} (follows : Follows watched always same start start')
    (wraps : Wraps watched always wrap image) (wraps' : Wraps watched always wrap' image')
    (values : ∀ v v', same v v' → same' (image v) (image' v')) :
    Follows watched always same' (fun s input => wrap (start s input))
      fun s input => wrap' (start' s input) := by
  obtain ⟨related, starts, simulates⟩ := follows
  exact ⟨Wrapped wrap wrap' related, fun s input => .wrapped (starts s input),
    fun fuel => (simulates fuel).wrapped wraps wraps' values⟩

theorem Parses.ShowsWith.follow {related : Parses τ β → Parses τ β → Prop}
    (simulates : ∀ fuel, Simulates watched always Eq related fuel) {s s' : Parses τ β}
    (start : related s s') {lives : List Owners} (stays : ∀ live ∈ lives, live.Includes always)
    {found : List (Option (β × Input τ) × List Event)} {calls : List (List (Task τ))}
    (shows : s.ShowsWith watched lives found calls) : s'.ShowsWith watched lives found calls := by
  induction shows generalizing s' with
  | nil => exact .nil
  | cons pulled _ ih =>
      obtain ⟨fuel, ran⟩ := pulled.returns
      obtain ⟨includes, stays⟩ := List.forall_mem_cons.mp stays
      obtain ⟨_, pulled', agree⟩ := simulates fuel _ _ _ _ _ _ start includes ⟨ran, pulled⟩
      cases agree with
      | parse values next =>
          obtain rfl := values
          have shows := Parses.ShowsWith.cons pulled' (ih next stays)
          exact shows
      | ended next =>
          have shows := Parses.ShowsWith.cons pulled' (ih next stays)
          exact shows

theorem Parser.ShowsWith.follow {Δ' : List Type} {ρ : Scope τ Γ} {p : Parser τ Γ α} {σ : Scope τ Δ}
    {σ' : Scope τ Δ'} {r : Parser τ Δ β} {r' : Parser τ Δ' β}
    {start start' : Parses τ α → Input τ → Parses τ β}
    (starts : r.StartsFrom watched always σ ρ p start)
    (starts' : r'.StartsFrom watched always σ' ρ p start')
    (follows : Follows watched always Eq start start') {input : Input τ} {lives : List Owners}
    (stays : ∀ later ∈ live :: lives, later.Includes always) {seen : Observation τ β}
    {calls : List (List (Task τ))} (shows : r.ShowsWith watched σ input live lives seen calls) :
    r'.ShowsWith watched σ' input live lives seen calls := by
  obtain ⟨related, begin, simulates⟩ := follows
  obtain ⟨includes, stays⟩ := List.forall_mem_cons.mp stays
  obtain ⟨invoked, pulls⟩ := shows
  obtain ⟨operand, opened, rfl⟩ := (starts live includes _ _ _ _).mp invoked
  have invoked' := (starts' live includes _ _ _ _).mpr ⟨operand, opened, rfl⟩
  have pulls' := Parses.ShowsWith.follow simulates (begin operand.value input) stays pulls
  have shows := Parser.ShowsWith.shows invoked' pulls'
  exact shows

/-! One invocation inside of another. -/

variable {ρ : Scope τ Γ} {p : Parser τ Γ α}

theorem Parser.startsFrom_self : p.StartsFrom watched always ρ ρ p fun s _ => s := by
  intro live _ input log opened uses
  constructor
  · exact fun called => ⟨opened, called, rfl⟩
  · rintro ⟨operand, called, rfl⟩
    exact called

section Inside

variable {Δ' : List Type} {σ : Scope τ Δ} {σ' : Scope τ Δ'}
  {start : Parses τ α → Input τ → Parses τ β}

theorem Parser.StartsFrom.around {r : Parser τ Δ β} {r' : Parser τ Δ' γ}
    (starts : r.StartsFrom watched always σ ρ p start) (wrap : Input τ → Parses τ β → Parses τ γ)
    (unwatched : ∀ input, ¬watched (.invoke σ' r' input))
    (course : ∀ live : Owners, live.Includes always → ∀ input log opened uses,
      ((Task.invoke σ' r' input).course log).Through (Task.Called watched) live opened uses ↔
        (Course.call .nobody (.invoke σ r input) log fun inside =>
          .done (inside.map (wrap input))).Through (Task.Called watched) live opened uses) :
    r'.StartsFrom watched always σ' ρ p fun s input => wrap input (start s input) := by
  intro live includes input log opened uses
  rw [Task.called_iff_course (unwatched input), course live includes]
  constructor
  · rintro ⟨inside, first, _, called, ⟨rfl, rfl⟩, rfl⟩
    obtain ⟨operand, opens, rfl⟩ := (starts live includes _ _ _ _).mp called
    exact ⟨operand, by simpa using opens, rfl⟩
  · rintro ⟨operand, called, rfl⟩
    have inside := (starts live includes _ _ _ _).mpr ⟨operand, called, rfl⟩
    exact ⟨_, uses, [], inside, .done _, List.append_nil uses⟩

variable (taps : ∀ task, watched task → task.IsTap)
include taps

theorem Parser.StartsFrom.ref {x : Var Δ' β} {r : Parser τ Δ β}
    (starts : r.StartsFrom watched always σ ρ p start) (stands : σ'.get x = .parser σ r) :
    (Parser.ref x).StartsFrom watched always σ' ρ p start := by
  refine starts.around (fun _ => id) (fun _ => taps _) fun live _ input log opened uses => ?_
  simp only [Task.course, stands]
  exact Iff.rfl

theorem Parser.StartsFrom.handle {x : Var Δ' β} {name : Name} {body : Parser τ (β :: Δ) β}
    (starts : (Parser.recursive name body).StartsFrom watched always σ ρ p start)
    (alive : always.Includes ((Parser.recursive name body).keeps σ))
    (stands : σ'.get x = .handle name body σ) :
    (Parser.ref x).StartsFrom watched always σ' ρ p start := by
  refine starts.around (fun _ => id) (fun _ => taps _) fun live includes input log opened uses => ?_
  have here : live name = true := includes name (alive name (Parser.keeps_recursive σ name body))
  simp only [Task.course, stands, Course.Through, here]
  exact Iff.rfl

theorem Parser.StartsFrom.recursive {name : Name} {body : Parser τ (β :: Δ) β}
    (starts : body.StartsFrom watched always (.handle name body σ) ρ p start)
    (alive : always.Includes ((Parser.recursive name body).keeps σ)) :
    (Parser.recursive name body).StartsFrom watched always σ ρ p fun s input =>
      .anchored σ name body (start s input) := by
  refine starts.around (fun _ => .anchored σ name body) (fun _ => taps _)
    fun live includes input log opened uses => ?_
  simp only [Task.course, Course.Through, includes.add_of_includes alive]
  exact Iff.rfl

theorem Parser.StartsFrom.alone {q : Parser τ Δ γ} {r : Parser τ [γ] β}
    (starts : r.StartsFrom watched always (.link σ q .empty) ρ p start) :
    (Parser.alone q r).StartsFrom watched always σ ρ p start :=
  starts.around (fun _ => id) (fun _ => taps _) fun _ _ _ _ _ _ => Iff.rfl

theorem Parser.StartsFrom.map {r : Parser τ Δ β} (image : β → γ)
    (starts : r.StartsFrom watched always σ ρ p start) :
    (r.map image).StartsFrom watched always σ ρ p fun s input =>
      .mapped (fun v => .silent (image v)) (start s input) :=
  starts.around (fun _ => .mapped fun v => .silent (image v)) (fun _ => taps _)
    fun _ _ _ _ _ _ => Iff.rfl

end Inside

end Follows

end EveryParse
