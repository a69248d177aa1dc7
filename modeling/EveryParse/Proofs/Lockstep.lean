import EveryParse.Proofs.Course

/-!
Two runs in step. Courses that make the same calls one after the other, on tasks that form a pair,
come to results that fit together, and the same fuel is enough for both: one run comes to an end
whenever the other does (`Pairing.Upheld.run`).
-/

universe u v

namespace Option.Rel

variable {α β : Type u} {γ δ : Type v} {r : α → β → Prop} {first : Option α} {second : Option β}

theorem bind (fits : Option.Rel r first second) {goal : γ → δ → Prop} {next : α → Option γ}
    {next' : β → Option δ} (later : ∀ a b, r a b → Option.Rel goal (next a) (next' b)) :
    Option.Rel goal (first.bind next) (second.bind next') := by
  cases fits with
  | none => exact .none
  | some fits => exact later _ _ fits

theorem map (fits : Option.Rel r first second) {goal : γ → δ → Prop} {image : α → γ}
    {image' : β → δ} (later : ∀ a b, r a b → goal (image a) (image' b)) :
    Option.Rel goal (first.map image) (second.map image') := by
  cases fits with
  | none => exact .none
  | some fits => exact .some (later _ _ fits)

theorem mono (fits : Option.Rel r first second) {r' : α → β → Prop}
    (more : ∀ a b, r a b → r' a b) : Option.Rel r' first second := by
  cases fits with
  | none => exact .none
  | some fits => exact .some (more _ _ fits)

theorem map_eq (fits : Option.Rel r first second) {image : α → γ} {image' : β → γ}
    (later : ∀ a b, r a b → image a = image' b) : first.map image = second.map image' := by
  cases fits with
  | none => rfl
  | some fits => simp only [Option.map_some, later _ _ fits]

end Option.Rel

namespace EveryParse

variable {τ : Type} {β γ : Type 1}

/-- Tasks that go in pairs, and what their results have to do with each other. -/
structure Pairing (τ : Type) where
  Pair : Type 1
  first : Pair → Task τ
  second : Pair → Task τ
  result : (pair : Pair) → (first pair).Result → (second pair).Result → Prop

inductive Course.InStep (pairing : Pairing τ) (goal : β → γ → Prop) :
    Course τ β → Course τ γ → Prop
  | done {result result'} (reached : goal result result') :
      InStep pairing goal (.done result) (.done result')
  | call {held held' : Owners} (kept : held = held') (pair : pairing.Pair) {log log' : List Event}
      {next next'}
      (later : ∀ result result', pairing.result pair result result' →
        InStep pairing goal (next result) (next' result')) :
      InStep pairing goal (.call held (pairing.first pair) log next)
        (.call held' (pairing.second pair) log' next')
  | alive {name : Name} {yes yes' no no'} (there : InStep pairing goal yes yes')
      (gone : InStep pairing goal no no') :
      InStep pairing goal (.alive name yes no) (.alive name yes' no')

def Pairing.Upheld (pairing : Pairing τ) : Prop :=
  ∀ pair log log', ((pairing.first pair).course log).InStep pairing (pairing.result pair)
    ((pairing.second pair).course log')

theorem Course.InStep.follow {pairing : Pairing τ} {goal : β → γ → Prop} {live : Owners}
    {run : Owners → (task : Task τ) → List Event → Option task.Result}
    (runs : ∀ live pair log log', Option.Rel (pairing.result pair)
      (run live (pairing.first pair) log) (run live (pairing.second pair) log'))
    {course : Course τ β} {course' : Course τ γ} (inStep : course.InStep pairing goal course') :
    Option.Rel goal (course.follow run live) (course'.follow run live) := by
  induction inStep with
  | done reached => exact .some reached
  | @call held _ kept pair log log' next next' later ih =>
      subst kept
      simp only [Course.follow]
      exact (runs (live.add held) pair log log').bind fun _ _ fits => ih _ _ fits
  | @alive name _ _ _ _ _ _ ihThere ihGone =>
      simp only [Course.follow]
      by_cases alive : live name = true
      · simpa [alive] using ihThere
      · simpa [alive] using ihGone

theorem Pairing.Upheld.run {pairing : Pairing τ} (upheld : pairing.Upheld) (fuel : Nat)
    (live : Owners) (pair : pairing.Pair) (log log' : List Event) :
    Option.Rel (pairing.result pair) ((pairing.first pair).run fuel live log)
      ((pairing.second pair).run fuel live log') := by
  induction fuel generalizing live pair log log' with
  | zero => exact .none
  | succ fuel ih => exact (upheld pair log log').follow ih

end EveryParse
