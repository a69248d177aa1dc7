import EveryParse.Proofs.Lockstep
import EveryParse.Proofs.Pulls
import Mathlib.Data.List.Forall2

/-!
Runs on inputs that are alike. If reading keeps a likeness of inputs, and so do the parsers from
outside, then the runs of a parser on two inputs that are alike go in step, and find parses with the
same values and with remainders that are alike. The events before a run have no influence on it.
-/

namespace EveryParse

variable {τ : Type}

abbrev Likeness (τ : Type) := Input τ → Input τ → Prop

namespace Likeness

inductive Parse (alike : Likeness τ) {α : Type} : α × Input τ → α × Input τ → Prop
  | leaving {v rest rest'} (left : alike rest rest') : Parse alike (v, rest) (v, rest')

def Readable (alike : Likeness τ) : Prop :=
  ∀ input input', alike input input' →
    Option.Rel alike.Parse input.splitFirst input'.splitFirst

end Likeness

/-- Every parser from outside among the parts keeps the likeness. Of a probed parser only the number
of parses matters, and that is found on an input of its own. -/
def Parser.Respects (alike : Likeness τ) {Γ : List Type} {α : Type} : Parser τ Γ α → Prop
  | result _ | fail | item | runs _ _ _ | ref _ => True
  | leaf parses => ∀ input input', alike input input' → ∀ index,
      Option.Rel alike.Parse (parses input index) (parses input' index)
  | bind p _ f => p.Respects alike ∧ ∀ v, (f v).Respects alike
  | mapM _ p | filterM _ p | tap _ p | noted _ p => p.Respects alike
  | or p q | share p q | alone p q => p.Respects alike ∧ q.Respects alike
  | recursive _ body => body.Respects alike
  | probe _ _ next => ∀ found, (next found).Respects alike

def Scope.Respects (alike : Likeness τ) {Γ : List Type} : Scope τ Γ → Prop
  | empty => True
  | share p ρ => p.Respects alike ∧ ρ.Respects alike
  | handle _ body ρ => body.Respects alike ∧ ρ.Respects alike
  | pending ρ => ρ.Respects alike
  | link σ p ρ => (σ.Respects alike ∧ p.Respects alike) ∧ ρ.Respects alike

inductive Parses.Alike (alike : Likeness τ) : {α : Type} → Parses τ α → Parses τ α → Prop
  | listed {α} {parses parses' : List (α × Input τ)}
      (same : List.Forall₂ alike.Parse parses parses') :
      Alike alike (.listed parses) (.listed parses')
  | drawn {α} {parses parses' : Nat → Option (α × Input τ)} {index}
      (same : ∀ n, Option.Rel alike.Parse (parses n) (parses' n)) :
      Alike alike (.drawn parses index) (.drawn parses' index)
  | mapped {α β} {g : α → Logged β} {s s'} (inside : Alike alike s s') :
      Alike alike (.mapped g s) (.mapped g s')
  | filtered {α} {keep : α → Logged Bool} {s s'} (inside : Alike alike s s') :
      Alike alike (.filtered keep s) (.filtered keep s')
  | choosing {Γ α} {ρ : Scope τ Γ} {q : Parser τ Γ α} {s s' input input'}
      (inside : Alike alike s s') (respects : ρ.Respects alike ∧ q.Respects alike)
      (start : alike input input') :
      Alike alike (.choosing s ρ q input) (.choosing s' ρ q input')
  | chosen {α} {s s' : Parses τ α} (inside : Alike alike s s') :
      Alike alike (.chosen s) (.chosen s')
  | nested {Γ α β} {ρ : Scope τ Γ} {f : α → Parser τ Γ β} {outer outer' inner inner'}
      (respects : ρ.Respects alike ∧ ∀ v, (f v).Respects alike) (outside : Alike alike outer outer')
      (inside : Alike alike inner inner') :
      Alike alike (.nested ρ f outer inner) (.nested ρ f outer' inner')
  | anchored {Γ α} {ρ : Scope τ Γ} {name} {body : Parser τ (α :: Γ) α} {s s'}
      (inside : Alike alike s s') : Alike alike (.anchored ρ name body s) (.anchored ρ name body s')
  | tapped {α} {label ended} {s s' : Parses τ α} (inside : Alike alike s s') :
      Alike alike (.tapped label ended s) (.tapped label ended s')

variable {α : Type} {Γ : List Type}

inductive Answer.Alike (alike : Likeness τ) : Answer τ α → Answer τ α → Prop
  | parse {v rest rest' s s'} (left : alike rest rest') (later : s.Alike alike s') :
      Alike alike (.parse v rest s) (.parse v rest' s')
  | ended {s s'} (later : s.Alike alike s') : Alike alike (.ended s) (.ended s')

theorem Answer.Alike.found {alike : Likeness τ} {answer answer' : Answer τ α}
    (same : answer.Alike alike answer') : Option.Rel alike.Parse answer.found answer'.found := by
  cases same with
  | parse left later => exact .some (.leaving left)
  | ended later => exact .none

theorem Answer.Alike.next {alike : Likeness τ} {answer answer' : Answer τ α}
    (same : answer.Alike alike answer') : answer.next.Alike alike answer'.next := by
  cases same with
  | parse left later => exact later
  | ended later => exact later

theorem Parses.Alike.empty {alike : Likeness τ} :
    (Parses.empty : Parses τ α).Alike alike .empty :=
  .listed .nil

theorem Parses.Alike.holds {alike : Likeness τ} {s s' : Parses τ α} (same : s.Alike alike s') :
    s.holds = s'.holds := by
  induction same with
  | listed _ | drawn _ => rfl
  | mapped _ ih | filtered _ ih | chosen _ ih | tapped _ ih =>
      funext name
      simp only [Parses.holds, ih]
  | choosing _ _ _ ih | anchored _ ih =>
      funext name
      simp only [Parses.holds, ih]
  | nested _ _ _ ihOutside ihInside =>
      funext name
      simp only [Parses.holds, ihOutside, ihInside]

theorem Scope.Respects.get {alike : Likeness τ} {ρ : Scope τ Γ} (respects : ρ.Respects alike)
    (x : Var Γ α) :
    match ρ.get x with
    | .parser σ p => σ.Respects alike ∧ p.Respects alike
    | .handle _ body σ => body.Respects alike ∧ σ.Respects alike
    | .nothing => True := by
  induction x with
  | here =>
      cases ρ with
      | share p ρ => exact respects.symm
      | handle name body ρ => exact respects
      | pending ρ => trivial
      | link σ p ρ => exact respects.1
  | there x ih =>
      cases ρ with
      | share p ρ => exact ih respects.2
      | handle name body ρ => exact ih respects.2
      | pending ρ => exact ih respects
      | link σ p ρ => exact ih respects.2

theorem Scope.Respects.captured {alike : Likeness τ} {Δ : List Type} {ρ : Scope τ Γ}
    (respects : ρ.Respects alike) (captures : Captures Γ Δ) :
    (ρ.captured captures).Respects alike := by
  induction captures with
  | all => exact respects
  | none => trivial
  | also x others ih => exact ⟨⟨respects, trivial⟩, ih⟩

theorem Likeness.Parse.refl {alike : Likeness τ} (refl : ∀ input, alike input input)
    (found : Option (α × Input τ)) : Option.Rel alike.Parse found found := by
  cases found with
  | none => exact .none
  | some found => exact .some (.leaving (refl found.2))

theorem Likeness.readable_eq : Likeness.Readable (Eq : Likeness τ) := by
  rintro input _ rfl
  exact Likeness.Parse.refl (fun _ => rfl) input.splitFirst

theorem Parser.respects_eq (p : Parser τ Γ α) : p.Respects Eq := by
  induction p with
  | result v | fail | item | runs x stop extend | ref x => trivial
  | leaf parses =>
      rintro input _ rfl index
      exact Likeness.Parse.refl (fun _ => rfl) (parses input index)
  | bind p captures f ih ihNext => exact ⟨ih, ihNext⟩
  | mapM g p ih | filterM keep p ih | tap label p ih | noted events p ih => exact ih
  | or p q ih ihSecond | share p q ih ihSecond | alone p q ih ihSecond => exact ⟨ih, ihSecond⟩
  | recursive name body ih => exact ih
  | probe p input next _ ihNext => exact ihNext

theorem Scope.respects_eq (ρ : Scope τ Γ) : ρ.Respects Eq := by
  induction ρ with
  | empty => trivial
  | share p ρ ih => exact ⟨p.respects_eq, ih⟩
  | handle name body ρ ih => exact ⟨body.respects_eq, ih⟩
  | pending ρ ih => exact ih
  | link σ p ρ ihLinked ih => exact ⟨⟨ihLinked, p.respects_eq⟩, ih⟩

/-! Runs on inputs that are alike go in step. -/

inductive Twin (τ : Type) : Type 1
  | build {Γ : List Type} {α : Type} (ρ : Scope τ Γ) (p : Parser τ Γ α)
  | invoke {Γ : List Type} {α : Type} {alike : Likeness τ} (readable : alike.Readable)
      {ρ : Scope τ Γ} {p : Parser τ Γ α} (respects : ρ.Respects alike ∧ p.Respects alike)
      {input input' : Input τ} (start : alike input input')
  | pull {α : Type} {alike : Likeness τ} (readable : alike.Readable) {s s' : Parses τ α}
      (same : s.Alike alike s')
  | count {α : Type} {alike : Likeness τ} (readable : alike.Readable) {s s' : Parses τ α}
      (same : s.Alike alike s') (found : Nat)

namespace Twin

abbrev first : Twin τ → Task τ
  | build ρ p => .build ρ p
  | @invoke _ _ _ _ _ ρ p _ input _ _ => .invoke ρ p input
  | @pull _ _ _ _ s _ _ => .pull s
  | @count _ _ _ _ s _ _ found => .count s found

abbrev second : Twin τ → Task τ
  | build ρ p => .build ρ p
  | @invoke _ _ _ _ _ ρ p _ _ input' _ => .invoke ρ p input'
  | @pull _ _ _ _ _ s' _ => .pull s'
  | @count _ _ _ _ _ s' _ found => .count s' found

def result : (twin : Twin τ) → twin.first.Result → twin.second.Result → Prop
  | build _ p, built, built' =>
    built.value = built'.value ∧ ∀ alike, p.Respects alike → built.value.Respects alike
  | @invoke _ _ _ alike _ _ _ _ _ _ _, opened, opened' => opened.value.Alike alike opened'.value
  | @pull _ _ alike _ _ _ _, answer, answer' => answer.value.Alike alike answer'.value
  | count _ _ _, found, found' => found.value = found'.value

end Twin

def twins (τ : Type) : Pairing τ where
  Pair := Twin τ
  first := Twin.first
  second := Twin.second
  result := Twin.result

theorem Twin.calls {β γ : Type 1} {goal : β → γ → Prop} (twin : Twin τ) {held held' : Owners}
    (kept : held = held') {log log' : List Event} {next next'}
    (later : ∀ result result', twin.result result result' →
      Course.InStep (twins τ) goal (next result) (next' result')) :
    Course.InStep (twins τ) goal (.call held twin.first log next)
      (.call held' twin.second log' next') :=
  @Course.InStep.call _ _ _ (twins τ) goal _ _ kept twin _ _ _ _ later

theorem twins_build (ρ : Scope τ Γ) (p : Parser τ Γ α) (log log' : List Event) :
    ((Task.build ρ p).course log).InStep (twins τ) (Twin.result (.build ρ p))
      ((Task.build ρ p).course log') := by
  cases p with
  | result v | fail | item | leaf parses | runs x stop extend | ref x =>
      exact .done ⟨rfl, fun _ => id⟩
  | bind p captures f =>
      refine Twin.calls (.build ρ p) rfl ?_
      rintro ⟨p, _⟩ ⟨_, _⟩ ⟨rfl, keeps⟩
      exact .done ⟨rfl, fun alike respects => ⟨keeps alike respects.1, respects.2⟩⟩
  | mapM g p | filterM keep p | tap label p | noted events p =>
      refine Twin.calls (.build ρ p) rfl ?_
      rintro ⟨p, _⟩ ⟨_, _⟩ ⟨rfl, keeps⟩
      exact .done ⟨rfl, keeps⟩
  | recursive name body =>
      refine Twin.calls (.build (.pending ρ) body) rfl ?_
      rintro ⟨body, _⟩ ⟨_, _⟩ ⟨rfl, keeps⟩
      exact .done ⟨rfl, keeps⟩
  | or p q =>
      refine Twin.calls (.build ρ p) rfl ?_
      rintro ⟨p, _⟩ ⟨_, _⟩ ⟨rfl, keeps⟩
      refine Twin.calls (.build ρ q) rfl ?_
      rintro ⟨q, _⟩ ⟨_, _⟩ ⟨rfl, keeps'⟩
      exact .done ⟨rfl, fun alike respects => ⟨keeps alike respects.1, keeps' alike respects.2⟩⟩
  | share p q =>
      refine Twin.calls (.build ρ p) rfl ?_
      rintro ⟨p, _⟩ ⟨_, _⟩ ⟨rfl, keeps⟩
      refine Twin.calls (.build (.share p ρ) q) rfl ?_
      rintro ⟨q, _⟩ ⟨_, _⟩ ⟨rfl, keeps'⟩
      exact .done ⟨rfl, fun alike respects => ⟨keeps alike respects.1, keeps' alike respects.2⟩⟩
  | alone p q =>
      refine Twin.calls (.build ρ p) rfl ?_
      rintro ⟨p, _⟩ ⟨_, _⟩ ⟨rfl, keeps⟩
      refine Twin.calls (.build (.link ρ p .empty) q) rfl ?_
      rintro ⟨q, _⟩ ⟨_, _⟩ ⟨rfl, keeps'⟩
      exact .done ⟨rfl, fun alike respects => ⟨keeps alike respects.1, keeps' alike respects.2⟩⟩
  | probe p input next =>
      refine Twin.calls (.build ρ p) rfl ?_
      rintro ⟨p, _⟩ ⟨_, _⟩ ⟨rfl, _⟩
      refine Twin.calls (.invoke Likeness.readable_eq ⟨ρ.respects_eq, p.respects_eq⟩
        (Eq.refl input)) rfl ?_
      rintro ⟨s, _⟩ ⟨s', _⟩ opened
      refine Twin.calls (.count Likeness.readable_eq opened 0) rfl ?_
      rintro ⟨found, _⟩ ⟨_, _⟩ rfl
      refine Twin.calls (.build ρ (next found)) rfl ?_
      rintro ⟨q, _⟩ ⟨_, _⟩ ⟨rfl, keeps⟩
      exact .done ⟨rfl, fun alike respects => keeps alike (respects found)⟩

section Alike

variable {alike : Likeness τ} (readable : alike.Readable)
include readable

theorem twins_invoke {ρ : Scope τ Γ} {p : Parser τ Γ α}
    (respects : ρ.Respects alike ∧ p.Respects alike) {input input' : Input τ}
    (start : alike input input') (log log' : List Event) :
    ((Task.invoke ρ p input).course log).InStep (twins τ)
      (Twin.result (.invoke readable respects start))
      ((Task.invoke ρ p input').course log') := by
  obtain ⟨scope, respects⟩ := respects
  cases p with
  | result v => exact .done (.listed (.cons (.leaving start) .nil))
  | fail => exact .done .empty
  | item =>
      have split := readable input input' start
      refine .done (.listed ?_)
      generalize input.splitFirst = found at split ⊢
      generalize input'.splitFirst = found' at split ⊢
      cases split with
      | none => exact .nil
      | some fits => exact .cons fits .nil
  | leaf parses => exact .done (.drawn (respects input input' start))
  | bind p captures f =>
      refine Twin.calls (.invoke readable ⟨scope, respects.1⟩ start) rfl ?_
      intro opened opened' same
      exact .done (.nested ⟨scope.captured captures, respects.2⟩ same .empty)
  | mapM g p =>
      have inside : p.Respects alike := respects
      refine Twin.calls (.invoke readable ⟨scope, inside⟩ start) rfl ?_
      intro opened opened' same
      exact .done (.mapped same)
  | filterM keep p =>
      have inside : p.Respects alike := respects
      refine Twin.calls (.invoke readable ⟨scope, inside⟩ start) rfl ?_
      intro opened opened' same
      exact .done (.filtered same)
  | tap label p =>
      have inside : p.Respects alike := respects
      refine Twin.calls (.invoke readable ⟨scope, inside⟩ start) rfl ?_
      intro opened opened' same
      exact .done (.tapped same)
  | or p q =>
      refine Twin.calls (.invoke readable ⟨scope, respects.1⟩ start) rfl ?_
      intro opened opened' same
      exact .done (.choosing same ⟨scope, respects.2⟩ start)
  | runs x stop extend =>
      have unrolled : (Parser.unrolled x stop extend).Respects alike := by
        simp [Parser.unrolled, Parser.map, Parser.Respects]
      refine Twin.calls (.invoke readable ⟨scope, unrolled⟩ start) rfl ?_
      exact fun _ _ same => .done same
  | noted events p =>
      have inside : p.Respects alike := respects
      refine Twin.calls (.invoke readable ⟨scope, inside⟩ start) rfl ?_
      exact fun _ _ same => .done same
  | recursive name body =>
      have inside : (Scope.handle name body ρ).Respects alike ∧ body.Respects alike :=
        ⟨⟨respects, scope⟩, respects⟩
      refine Twin.calls (.invoke readable inside start) rfl ?_
      intro opened opened' same
      exact .done (.anchored same)
  | share p q =>
      have shared : (Scope.share p ρ).Respects alike := ⟨respects.1, scope⟩
      refine Twin.calls (.invoke readable ⟨shared, respects.2⟩ start) rfl ?_
      exact fun _ _ same => .done same
  | alone p q =>
      have linked : (Scope.link ρ p .empty).Respects alike := ⟨⟨scope, respects.1⟩, trivial⟩
      refine Twin.calls (.invoke readable ⟨linked, respects.2⟩ start) rfl ?_
      exact fun _ _ same => .done same
  | ref x =>
      have stands := scope.get x
      simp only [Task.course]
      cases found : ρ.get x with
      | parser σ p =>
          rw [found] at stands
          refine Twin.calls (.invoke readable stands start) rfl ?_
          exact fun _ _ same => .done same
      | handle name body σ =>
          rw [found] at stands
          have definition : (Parser.recursive name body).Respects alike := stands.1
          refine .alive ?_ (.done .empty)
          refine Twin.calls (.invoke readable ⟨stands.2, definition⟩ start) rfl ?_
          exact fun _ _ same => .done same
      | nothing => exact .done .empty
  | probe p probed next =>
      refine Twin.calls (.build ρ (.probe p probed next)) rfl ?_
      rintro ⟨q, _⟩ ⟨_, _⟩ ⟨rfl, keeps⟩
      refine Twin.calls (.invoke readable ⟨scope, keeps alike respects⟩ start) rfl ?_
      exact fun _ _ same => .done same

theorem twins_pull {s s' : Parses τ α} (same : s.Alike alike s') (log log' : List Event) :
    ((Task.pull s).course log).InStep (twins τ) (Twin.result (.pull readable same))
      ((Task.pull s').course log') := by
  cases same with
  | @listed _ parses parses' same =>
      cases same with
      | nil => exact .done (.ended .empty)
      | cons fits later =>
          cases fits with
          | leaving left => exact .done (.parse left (.listed later))
  | @drawn _ parses parses' index same =>
      have fits := same index
      simp only [Task.course]
      generalize parses index = found at fits ⊢
      generalize parses' index = found' at fits ⊢
      cases fits with
      | none => exact .done (.ended .empty)
      | some fits =>
          cases fits with
          | leaving left => exact .done (.parse left (.drawn same))
  | mapped inside =>
      refine Twin.calls (.pull readable inside) rfl ?_
      rintro ⟨_, _⟩ ⟨_, _⟩ (⟨left, later⟩ | later)
      · exact .done (.parse left (.mapped later))
      · exact .done (.ended (.mapped later))
  | tapped inside =>
      refine Twin.calls (.pull readable inside) rfl ?_
      rintro ⟨_, _⟩ ⟨_, _⟩ (⟨left, later⟩ | later)
      · exact .done (.parse left (.tapped later))
      · exact .done (.ended (.tapped later))
  | anchored inside =>
      refine Twin.calls (.pull readable inside) rfl ?_
      rintro ⟨_, _⟩ ⟨_, _⟩ (⟨left, later⟩ | later)
      · exact .done (.parse left (.anchored later))
      · exact .done (.ended (.anchored later))
  | @filtered _ keep s s' inside =>
      refine Twin.calls (.pull readable inside) rfl ?_
      rintro ⟨_, _⟩ ⟨_, _⟩ (@⟨v, _, _, _, _, left, later⟩ | later)
      · dsimp only
        split
        · exact .done (.parse left (.filtered later))
        · refine Twin.calls (.pull readable (.filtered later)) rfl ?_
          exact fun _ _ found => .done found
      · exact .done (.ended (.filtered later))
  | choosing inside respects start =>
      refine Twin.calls (.pull readable inside) rfl ?_
      rintro ⟨_, _⟩ ⟨_, _⟩ (⟨left, later⟩ | later)
      · exact .done (.parse left (.choosing later respects start))
      · refine Twin.calls (.invoke readable respects start) rfl ?_
        intro opened opened' second
        refine Twin.calls (.pull readable (.chosen second)) rfl ?_
        exact fun _ _ found => .done found
  | chosen inside =>
      refine Twin.calls (.pull readable inside) rfl ?_
      rintro ⟨_, _⟩ ⟨_, _⟩ (⟨left, later⟩ | later)
      · exact .done (.parse left (.chosen later))
      · exact .done (.ended .empty)
  | @nested _ γ _ ρ f outer outer' inner inner' respects outside inside =>
      have kept (s s' : Parses τ γ) (same : s.Alike alike s') :
          Owners.add ρ.holds s.holds = Owners.add ρ.holds s'.holds := by rw [same.holds]
      refine Twin.calls (.pull readable inside) (kept _ _ outside) ?_
      rintro ⟨_, _⟩ ⟨_, _⟩ (⟨left, later⟩ | later)
      · exact .done (.parse left (.nested respects outside later))
      · refine Twin.calls (.pull readable outside) rfl ?_
        rintro ⟨_, _⟩ ⟨_, _⟩ (@⟨v, rest, rest', outer, outer', left, outside⟩ | later)
        · refine Twin.calls (.build ρ (f v)) (kept _ _ outside) ?_
          rintro ⟨p, _⟩ ⟨_, _⟩ ⟨rfl, keeps⟩
          have respectsNext := keeps alike (respects.2 v)
          refine Twin.calls (.invoke readable ⟨respects.1, respectsNext⟩ left)
            (kept _ _ outside) ?_
          intro opened opened' inside
          refine Twin.calls (.pull readable (.nested respects outside inside)) rfl ?_
          exact fun _ _ found => .done found
        · exact .done (.ended .empty)

theorem twins_count {s s' : Parses τ α} (same : s.Alike alike s') (found : Nat)
    (log log' : List Event) :
    ((Task.count s found).course log).InStep (twins τ) (Twin.result (.count readable same found))
      ((Task.count s' found).course log') := by
  refine Twin.calls (.pull readable same) rfl ?_
  rintro ⟨_, _⟩ ⟨_, _⟩ (⟨left, later⟩ | later)
  · refine Twin.calls (.count readable later (found + 1)) rfl ?_
    exact fun _ _ counted => .done counted
  · exact .done rfl

end Alike

theorem twins_upheld : (twins τ).Upheld := by
  intro twin log log'
  cases twin with
  | build ρ p => exact twins_build ρ p log log'
  | invoke readable respects start => exact twins_invoke readable respects start log log'
  | pull readable same => exact twins_pull readable same log log'
  | count readable same found => exact twins_count readable same found log log'

theorem Parser.build_alike (fuel : Nat) (live : Owners) (ρ : Scope τ Γ) (p : Parser τ Γ α)
    (log log' : List Event) :
    Option.Rel
      (fun built built' => built.value = built'.value ∧
        ∀ alike, p.Respects alike → built.value.Respects alike)
      (p.build fuel live ρ log) (p.build fuel live ρ log') := by
  simp only [(carried fuel).build]
  exact twins_upheld.run fuel live (Twin.build ρ p) log log'

section Runs

variable {alike : Likeness τ} (readable : alike.Readable) (fuel : Nat) (live : Owners)
include readable

theorem Parser.invoke_alike {ρ : Scope τ Γ} {p : Parser τ Γ α}
    (respects : ρ.Respects alike ∧ p.Respects alike) {input input' : Input τ}
    (start : alike input input') (log log' : List Event) :
    Option.Rel (fun opened opened' => opened.value.Alike alike opened'.value)
      (p.invoke fuel live ρ input log) (p.invoke fuel live ρ input' log') := by
  simp only [(carried fuel).invoke]
  exact twins_upheld.run fuel live (Twin.invoke readable respects start) log log'

theorem Parses.Alike.pull {s s' : Parses τ α} (same : s.Alike alike s') (log log' : List Event) :
    Option.Rel (fun answer answer' => answer.value.Alike alike answer'.value)
      (s.pull fuel live log) (s'.pull fuel live log') := by
  simp only [(carried fuel).pull]
  exact twins_upheld.run fuel live (Twin.pull readable same) log log'

theorem Parses.Alike.pullsAmong {s s' : Parses τ α} (same : s.Alike alike s')
    (lives : List Owners) :
    Option.Rel
      (fun found found' => List.Forall₂ (Option.Rel alike.Parse) (found.map Prod.fst)
        (found'.map Prod.fst))
      (s.pullsAmong fuel lives) (s'.pullsAmong fuel lives) := by
  induction lives generalizing s s' with
  | nil => exact .some .nil
  | cons live lives ih =>
      refine (same.pull readable fuel live [] []).bind fun answer answer' fits => ?_
      refine (ih fits.next).map fun found found' later => ?_
      exact .cons fits.found later

theorem Parser.observe_alike {ρ : Scope τ Γ} {p : Parser τ Γ α}
    (respects : ρ.Respects alike ∧ p.Respects alike) {input input' : Input τ}
    (start : alike input input') (lives : List Owners) :
    Option.Rel
      (fun seen seen' => List.Forall₂ (Option.Rel alike.Parse) seen.answers seen'.answers)
      (p.observe fuel ρ input live lives) (p.observe fuel ρ input' live lives) := by
  refine (Parser.invoke_alike readable fuel live respects start [] []).bind ?_
  intro opened opened' same
  exact (same.pullsAmong readable fuel lives).map fun _ _ => id

end Runs

end EveryParse
