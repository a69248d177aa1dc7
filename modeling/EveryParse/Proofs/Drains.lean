import EveryParse.Proofs.Ownership
import EveryParse.Proofs.Returns

/-!
Sequences that come to an end. With every definition kept alive, what a task comes to is read off
its course and fuel is out of sight (`Task.comes_iff_course`). `Parses.Drains` says which parses a
sequence gives before it ends; each kind of sequence has what it gives from what its parts give.
-/

namespace EveryParse

variable {τ : Type} {α β : Type} {Γ : List Type} {ρ : Scope τ Γ}

def Task.Comes (task : Task τ) (log : List Event) (result : task.Result) : Prop :=
  ∃ fuel, task.run fuel .everybody log = some result

def Course.Comes {β : Type 1} (result : β) : Course τ β → Prop
  | done found => found = result
  | call _ task log next => ∃ found, task.Comes log found ∧ (next found).Comes result
  | alive _ yes _ => yes.Comes result

theorem Course.comes_iff_returns {β : Type 1} {course : Course τ β} {result : β} :
    course.Comes result ↔ course.Returns .everybody result := by
  induction course with
  | done found => exact Iff.rfl
  | call held task log next ih =>
      simp only [Course.Comes, Course.Returns, Owners.everybody_add, ih]
      exact Iff.rfl
  | alive name yes no ihYes _ => simpa [Course.Comes, Course.Returns, Owners.everybody] using ihYes

theorem Task.comes_iff_course {task : Task τ} {log : List Event} {result : task.Result} :
    task.Comes log result ↔ (task.course log).Comes result :=
  Task.returns_iff_course.trans Course.comes_iff_returns.symm

theorem Task.Comes.unique {task : Task τ} {log : List Event} {result result' : task.Result}
    (first : task.Comes log result) (second : task.Comes log result') : result = result' :=
  Task.Returns.unique first second

theorem Task.comes {task : Task τ} {log : List Event} {result : task.Result}
    (course : (task.course log).Comes result) : task.Comes log result :=
  Task.comes_iff_course.mpr course

namespace Parses

def Spent {α : Type} : Parses τ α → Prop
  | listed parses => parses = []
  | mapped _ s | filtered _ s | anchored _ _ _ s | tapped _ _ s => s.Spent
  | drawn _ _ | choosing _ _ _ _ | chosen _ | nested _ _ _ _ => False

/-- Pulling finds `parses` one after the other and then the end. -/
def Drains {α : Type} (s : Parses τ α) : List (α × Input τ) → Prop
  | [] => ∀ log, ∃ left log', (Task.pull s).Comes log ⟨.ended left, log'⟩ ∧ left.Spent
  | parse :: parses => ∀ log, ∃ left log',
    (Task.pull s).Comes log ⟨.parse parse.1 parse.2 left, log'⟩ ∧ left.Drains parses

theorem Spent.drains {s : Parses τ α} (spent : s.Spent) : s.Drains [] := by
  induction s with
  | listed parses =>
      cases spent
      intro log
      exact ⟨.empty, log, Task.comes rfl, rfl⟩
  | mapped g s ih | filtered keep s ih | anchored ρ name body s ih | tapped label ended s ih =>
      intro log
      obtain ⟨left, log', found, spent⟩ := ih spent log
      exact ⟨_, _, Task.comes ⟨_, found, rfl⟩, spent⟩
  | drawn parses index | choosing s ρ q input ih | chosen s ih | nested ρ f outer inner _ _ =>
      exact spent.elim

namespace Drains

theorem of_later {s : Parses τ α} {parses : List (α × Input τ)}
    (goes : ∀ log, ∃ (t : Parses τ α) (log' : List Event), t.Drains parses ∧
      ∀ answer, (Task.pull t).Comes log' answer → (Task.pull s).Comes log answer) :
    s.Drains parses := by
  cases parses with
  | nil | cons parse parses =>
      intro log
      obtain ⟨t, log', drains, same⟩ := goes log
      obtain ⟨left, log'', found, later⟩ := drains log'
      exact ⟨left, log'', same _ found, later⟩

theorem listed (parses : List (α × Input τ)) : (Parses.listed parses).Drains parses := by
  induction parses with
  | nil => exact Spent.drains rfl
  | cons parse parses ih =>
      intro log
      exact ⟨.listed parses, log, Task.comes rfl, ih⟩

theorem passed_on (wrap : Parses τ α → Parses τ β) {image : α × Input τ → β × Input τ}
    {others : List (β × Input τ)}
    (passes : ∀ {s log} {parse : α × Input τ} {left log'},
      (Task.pull s).Comes log ⟨.parse parse.1 parse.2 left, log'⟩ →
        ∃ log'', (Task.pull (wrap s)).Comes log
          ⟨.parse (image parse).1 (image parse).2 (wrap left), log''⟩)
    (ends : ∀ s, s.Drains [] → (wrap s).Drains others)
    {s : Parses τ α} {parses : List (α × Input τ)} (drains : s.Drains parses) :
    (wrap s).Drains (parses.map image ++ others) := by
  induction parses generalizing s with
  | nil => exact ends s drains
  | cons parse parses ih =>
      intro log
      obtain ⟨left, log', found, later⟩ := drains log
      obtain ⟨log'', found⟩ := passes found
      exact ⟨wrap left, log'', found, ih later⟩

theorem mapped (g : α → Logged β) {s : Parses τ α} {parses : List (α × Input τ)}
    (drains : s.Drains parses) :
    (Parses.mapped g s).Drains (parses.map fun parse => ((g parse.1).value, parse.2)) := by
  rw [← List.append_nil (parses.map _)]
  apply passed_on (Parses.mapped g) _ _ drains
  · intro s log parse left log' found
    exact ⟨_, Task.comes ⟨_, found, rfl⟩⟩
  · intro s drains log
    obtain ⟨left, log', found, spent⟩ := drains log
    exact ⟨_, _, Task.comes ⟨_, found, rfl⟩, spent⟩

theorem of_mapped {g : α → Logged β} {back : β → α} (undo : ∀ v, back (g v).value = v)
    {s : Parses τ α} {parses : List (β × Input τ)} (drains : (Parses.mapped g s).Drains parses) :
    s.Drains (parses.map fun parse => (back parse.1, parse.2)) := by
  induction parses generalizing s with
  | nil =>
      intro log
      obtain ⟨left, log', ran, spent⟩ := drains log
      obtain ⟨⟨⟨v, rest, t⟩ | t, log''⟩, found, same⟩ := Task.comes_iff_course.mp ran
      · cases same
      · cases same
        exact ⟨t, log', found, spent⟩
  | cons parse parses ih =>
      intro log
      obtain ⟨left, log', ran, later⟩ := drains log
      obtain ⟨image, remainder⟩ := parse
      obtain ⟨⟨⟨v, rest, t⟩ | t, log''⟩, found, same⟩ := Task.comes_iff_course.mp ran
      · cases same
        refine ⟨t, log'', ?_, ih later⟩
        simpa only [undo] using found
      · cases same

theorem filtered (keep : α → Logged Bool) {s : Parses τ α} {parses : List (α × Input τ)}
    (drains : s.Drains parses) :
    (Parses.filtered keep s).Drains (parses.filter fun parse => (keep parse.1).value) := by
  induction parses generalizing s with
  | nil =>
      intro log
      obtain ⟨left, log', found, spent⟩ := drains log
      exact ⟨_, _, Task.comes ⟨_, found, rfl⟩, spent⟩
  | cons parse parses ih =>
      rw [List.filter_cons]
      split
      next kept =>
        intro log
        obtain ⟨left, log', found, later⟩ := drains log
        refine ⟨.filtered keep left, (keep parse.1).onto log', Task.comes ⟨_, found, ?_⟩, ih later⟩
        simp [kept, Course.Comes]
      next unkept =>
        apply of_later
        intro log
        obtain ⟨left, log', found, later⟩ := drains log
        refine ⟨.filtered keep left, (keep parse.1).onto log', ih later, fun answer ran => ?_⟩
        refine Task.comes ⟨_, found, ?_⟩
        simpa [unkept, Course.Comes] using ran

theorem anchored (name : Name) (body : Parser τ (α :: Γ) α) {s : Parses τ α}
    {parses : List (α × Input τ)} (drains : s.Drains parses) :
    (Parses.anchored ρ name body s).Drains parses := by
  rw [← List.append_nil parses, ← List.map_id parses]
  apply passed_on (Parses.anchored ρ name body) _ _ drains
  · intro s log parse left log' found
    exact ⟨_, Task.comes ⟨_, found, rfl⟩⟩
  · intro s drains log
    obtain ⟨left, log', found, spent⟩ := drains log
    exact ⟨_, _, Task.comes ⟨_, found, rfl⟩, spent⟩

theorem chosen {s : Parses τ α} {parses : List (α × Input τ)} (drains : s.Drains parses) :
    (Parses.chosen s).Drains parses := by
  rw [← List.append_nil parses, ← List.map_id parses]
  apply passed_on Parses.chosen _ _ drains
  · intro s log parse left log' found
    exact ⟨_, Task.comes ⟨_, found, rfl⟩⟩
  · intro s drains log
    obtain ⟨left, log', found, _⟩ := drains log
    exact ⟨.empty, _, Task.comes ⟨_, found, rfl⟩, rfl⟩

end Drains

end Parses

namespace Parser

def Drains (ρ : Scope τ Γ) (p : Parser τ Γ α) (input : Input τ) (parses : List (α × Input τ)) :
    Prop :=
  ∀ log, ∃ s log', (Task.invoke ρ p input).Comes log ⟨s, log'⟩ ∧ s.Drains parses

/-- Building the parser changes nothing. -/
def Inert (p : Parser τ Γ α) : Prop :=
  ∀ (ρ : Scope τ Γ) log, (Task.build ρ p).Comes log ⟨p, log⟩

namespace Inert

variable {p : Parser τ Γ α}

theorem result (v : α) : (Parser.result v : Parser τ Γ α).Inert :=
  fun _ _ => Task.comes rfl

theorem item : (Parser.item : Parser τ Γ τ).Inert :=
  fun _ _ => Task.comes rfl

theorem ref (x : Var Γ α) : (Parser.ref x : Parser τ Γ α).Inert :=
  fun _ _ => Task.comes rfl

theorem bind {Δ : List Type} (inert : p.Inert) (captures : Captures Γ Δ) (f : α → Parser τ Δ β) :
    (Parser.bind p captures f).Inert :=
  fun ρ log => Task.comes ⟨_, inert ρ log, rfl⟩

theorem mapM (inert : p.Inert) (g : α → Logged β) : (Parser.mapM g p).Inert :=
  fun ρ log => Task.comes ⟨_, inert ρ log, rfl⟩

theorem filterM (inert : p.Inert) (keep : α → Logged Bool) : (Parser.filterM keep p).Inert :=
  fun ρ log => Task.comes ⟨_, inert ρ log, rfl⟩

theorem alone (inert : p.Inert) {q : Parser τ [α] β} (inside : q.Inert) :
    (Parser.alone p q).Inert :=
  fun ρ log => Task.comes ⟨_, inert ρ log, _, inside _ log, rfl⟩

end Inert

end Parser

namespace Parses.Drains

theorem choosing {s : Parses τ α} {parses others : List (α × Input τ)} (drains : s.Drains parses)
    {q : Parser τ Γ α} {input : Input τ} (second : q.Drains ρ input others) :
    (Parses.choosing s ρ q input).Drains (parses ++ others) := by
  rw [← List.map_id parses]
  apply passed_on (Parses.choosing · ρ q input) _ _ drains
  · intro s log parse left log' found
    exact ⟨_, Task.comes ⟨_, found, rfl⟩⟩
  · intro s drains
    apply of_later
    intro log
    obtain ⟨left, log', ended, _⟩ := drains log
    obtain ⟨t, log'', opened, later⟩ := second log'
    refine ⟨.chosen t, log'', later.chosen, fun answer ran => ?_⟩
    exact Task.comes ⟨_, ended, _, opened, _, ran, rfl⟩

theorem nested {f : α → Parser τ Γ β} {outer : Parses τ α} {parses : List (α × Input τ)}
    (drains : outer.Drains parses) {each : α × Input τ → List (β × Input τ)}
    (inert : ∀ parse ∈ parses, (f parse.1).Inert)
    (opens : ∀ parse ∈ parses, (f parse.1).Drains ρ parse.2 (each parse))
    {inner : Parses τ β} {found : List (β × Input τ)} (inside : inner.Drains found) :
    (Parses.nested ρ f outer inner).Drains (found ++ parses.flatMap each) := by
  -- The outer parses are taken one by one; each time, all inner parses come first.
  induction parses generalizing outer inner found with
  | nil =>
      rw [← List.map_id found]
      apply passed_on (Parses.nested ρ f outer) _ _ inside
      · intro s log parse left log' found
        exact ⟨_, Task.comes ⟨_, found, rfl⟩⟩
      · intro inner ended log
        obtain ⟨_, log', innerEnded, _⟩ := ended log
        obtain ⟨_, log'', outerEnded, _⟩ := drains log'
        exact ⟨.empty, log'', Task.comes ⟨_, innerEnded, _, outerEnded, rfl⟩, rfl⟩
  | cons parse parses ih =>
      rw [List.forall_mem_cons] at inert opens
      rw [← List.map_id found]
      apply passed_on (Parses.nested ρ f outer) _ _ inside
      · intro s log parse left log' found
        exact ⟨_, Task.comes ⟨_, found, rfl⟩⟩
      · intro inner ended
        apply of_later
        intro log
        obtain ⟨_, log₁, innerEnded, _⟩ := ended log
        obtain ⟨left, log₂, outerFound, later⟩ := drains log₁
        obtain ⟨s, log₃, opened, starts⟩ := opens.1 log₂
        refine ⟨.nested ρ f left s, log₃, ih later inert.2 opens.2 starts, fun answer ran => ?_⟩
        exact Task.comes
          ⟨_, innerEnded, _, outerFound, _, inert.1 ρ log₂, _, opened, _, ran, rfl⟩

end Parses.Drains

theorem Parses.Drains.unique {s : Parses τ α} {parses parses' : List (α × Input τ)}
    (first : s.Drains parses) (second : s.Drains parses') : parses = parses' := by
  induction parses generalizing s parses' with
  | nil =>
      obtain ⟨_, _, ended, _⟩ := first []
      cases parses' with
      | nil => rfl
      | cons parse parses' =>
          obtain ⟨_, _, found, _⟩ := second []
          cases ended.unique found
  | cons parse parses ih =>
      obtain ⟨_, _, found, later⟩ := first []
      cases parses' with
      | nil =>
          obtain ⟨_, _, ended, _⟩ := second []
          cases found.unique ended
      | cons parse' parses' =>
          obtain ⟨_, _, found', later'⟩ := second []
          have same := found.unique found'
          simp only [Outcome.mk.injEq, Answer.parse.injEq] at same
          obtain ⟨⟨value, rest, rfl⟩, _⟩ := same
          rw [Prod.ext value rest, ih later later']

theorem Parses.pulls_mono {fuel fuel' : Nat} (enough : fuel ≤ fuel') {live : Owners} {times : Nat}
    {s : Parses τ α} {found : List (Option (α × Input τ) × List Event)}
    (ran : s.pulls fuel live times = some found) : s.pulls fuel' live times = some found := by
  rw [Parses.pulls_eq_pullsAmong] at ran ⊢
  exact Parses.pullsAmong_mono enough ran

def Parses.Answers (s : Parses τ α) (answers : List (Option (α × Input τ))) : Prop :=
  ∃ fuel found, s.pulls fuel .everybody answers.length = some found ∧ found.map Prod.fst = answers

theorem Parses.Answers.cons {s : Parses τ α} {answer : Answer τ α} {log : List Event}
    (pulled : (Task.pull s).Comes [] ⟨answer, log⟩) {answers : List (Option (α × Input τ))}
    (later : answer.next.Answers answers) : s.Answers (answer.found :: answers) := by
  obtain ⟨fuel, ran⟩ := pulled
  obtain ⟨fuel', found, ran', same⟩ := later
  rw [← (carried fuel).pull] at ran
  have first := Parses.pull_mono (Nat.le_max_left fuel fuel') ran
  have others := Parses.pulls_mono (Nat.le_max_right fuel fuel') ran'
  refine ⟨max fuel fuel', (answer.found, log.reverse) :: found, ?_, by simp [same]⟩
  simp [Parses.pulls, first, others]

theorem Parses.Drains.answers {s : Parses τ α} {parses : List (α × Input τ)}
    (drains : s.Drains parses) (times : Nat) :
    s.Answers ((List.range times).map (parses[·]?)) := by
  induction times generalizing s parses with
  | zero => exact ⟨0, [], rfl, rfl⟩
  | succ times ih =>
      rw [List.range_succ_eq_map, List.map_cons, List.map_map]
      cases parses with
      | nil =>
          obtain ⟨left, log, pulled, spent⟩ := drains []
          exact .cons pulled (ih spent.drains)
      | cons parse parses =>
          obtain ⟨left, log, pulled, later⟩ := drains []
          exact .cons pulled (ih later)

namespace Parser.Drains

variable {input : Input τ} {p : Parser τ Γ α} {parses : List (α × Input τ)}

theorem result (v : α) : (Parser.result v).Drains ρ input [(v, input)] :=
  fun log => ⟨_, log, Task.comes rfl, .listed _⟩

theorem fail : (Parser.fail : Parser τ Γ α).Drains ρ input [] :=
  fun log => ⟨_, log, Task.comes rfl, .listed _⟩

theorem item : Parser.item.Drains ρ input input.splitFirst.toList :=
  fun log => ⟨_, log, Task.comes rfl, .listed _⟩

/-- A parser that opens what another one opens, wrapped up in a sequence of its own. -/
theorem of_invoke {Δ : List Type} {σ : Scope τ Δ} {q : Parser τ Δ β} {start : Input τ}
    {images : List (β × Input τ)} (wrap : Parses τ α → Parses τ β)
    (invokes : ∀ {log s log'}, (Task.invoke ρ p input).Comes log ⟨s, log'⟩ →
      (Task.invoke σ q start).Comes log ⟨wrap s, log'⟩)
    (gives : ∀ s, s.Drains parses → (wrap s).Drains images) (drains : p.Drains ρ input parses) :
    q.Drains σ start images := by
  intro log
  obtain ⟨s, log', opened, drains⟩ := drains log
  exact ⟨wrap s, log', invokes opened, gives s drains⟩

theorem unique {parses' : List (α × Input τ)} (first : p.Drains ρ input parses)
    (second : p.Drains ρ input parses') : parses = parses' := by
  obtain ⟨_, _, opened, gives⟩ := first []
  obtain ⟨_, _, opened', gives'⟩ := second []
  cases opened.unique opened'
  exact gives.unique gives'

theorem bind (drains : p.Drains ρ input parses) {Δ : List Type} {captures : Captures Γ Δ}
    {f : α → Parser τ Δ β} {each : α × Input τ → List (β × Input τ)}
    (inert : ∀ parse ∈ parses, (f parse.1).Inert)
    (opens : ∀ parse ∈ parses, (f parse.1).Drains (ρ.captured captures) parse.2 (each parse)) :
    (Parser.bind p captures f).Drains ρ input (parses.flatMap each) := by
  apply of_invoke (Parses.nested (ρ.captured captures) f · .empty) _ _ drains
  · intro log s log' opened
    exact Task.comes ⟨_, opened, rfl⟩
  · intro s drains
    exact drains.nested inert opens (.listed [])

theorem bind_result (drains : p.Drains ρ input parses) {Δ : List Type} (captures : Captures Γ Δ)
    (g : α → β) :
    (Parser.bind p captures fun v => .result (g v)).Drains ρ input
      (parses.map fun parse => (g parse.1, parse.2)) := by
  rw [List.map_eq_flatMap]
  apply drains.bind
  · intro parse _
    exact .result (g parse.1)
  · intro parse _
    exact .result (g parse.1)

theorem mapM (drains : p.Drains ρ input parses) (g : α → Logged β) :
    (Parser.mapM g p).Drains ρ input (parses.map fun parse => ((g parse.1).value, parse.2)) := by
  apply of_invoke (Parses.mapped g) _ _ drains
  · intro log s log' opened
    exact Task.comes ⟨_, opened, rfl⟩
  · intro s drains
    exact drains.mapped g

theorem of_mapM {g : α → Logged β} (back : β → α) (undo : ∀ v, back (g v).value = v)
    {images : List (β × Input τ)} (drains : (Parser.mapM g p).Drains ρ input images) :
    p.Drains ρ input (images.map fun parse => (back parse.1, parse.2)) := by
  intro log
  obtain ⟨t, log', found, gives⟩ := drains log
  obtain ⟨⟨s, _⟩, opened, same⟩ := Task.comes_iff_course.mp found
  cases same
  exact ⟨s, _, opened, gives.of_mapped undo⟩

theorem filterM (drains : p.Drains ρ input parses) (keep : α → Logged Bool) :
    (Parser.filterM keep p).Drains ρ input
      (parses.filter fun parse => (keep parse.1).value) := by
  apply of_invoke (Parses.filtered keep) _ _ drains
  · intro log s log' opened
    exact Task.comes ⟨_, opened, rfl⟩
  · intro s drains
    exact drains.filtered keep

theorem or (drains : p.Drains ρ input parses) {q : Parser τ Γ α} {others : List (α × Input τ)}
    (second : q.Drains ρ input others) : (Parser.or p q).Drains ρ input (parses ++ others) := by
  apply of_invoke (Parses.choosing · ρ q input) _ _ drains
  · intro log s log' opened
    exact Task.comes ⟨_, opened, rfl⟩
  · intro s drains
    exact drains.choosing second

theorem recursive {name : Name} {body : Parser τ (α :: Γ) α}
    (drains : body.Drains (.handle name body ρ) input parses) :
    (Parser.recursive name body).Drains ρ input parses := by
  apply of_invoke (Parses.anchored ρ name body) _ _ drains
  · intro log s log' opened
    exact Task.comes ⟨_, opened, rfl⟩
  · intro s drains
    exact drains.anchored name body

theorem of_unrolled {x : Var Γ α} {stop : β} {extend : α → β → β}
    {runs : List (β × Input τ)} (drains : (Parser.unrolled x stop extend).Drains ρ input runs) :
    (Parser.runs x stop extend).Drains ρ input runs :=
  drains.of_invoke id (fun opened => Task.comes ⟨_, opened, rfl⟩) fun _ => id

theorem alone_iff {q : Parser τ [α] β} {others : List (β × Input τ)} :
    (Parser.alone p q).Drains ρ input others ↔ q.Drains (.link ρ p .empty) input others := by
  constructor
  · intro drains log
    obtain ⟨s, log', ran, gives⟩ := drains log
    obtain ⟨⟨t, _⟩, opened, same⟩ := Task.comes_iff_course.mp ran
    cases same
    exact ⟨_, _, opened, gives⟩
  · exact of_invoke id (fun opened => Task.comes ⟨_, opened, rfl⟩) fun _ => id

theorem ref {x : Var Γ α} {Δ : List Type} {σ : Scope τ Δ} {q : Parser τ Δ α}
    (stands : ρ.get x = .parser σ q) (drains : q.Drains σ input parses) :
    (Parser.ref x).Drains ρ input parses := by
  apply of_invoke id _ (fun _ => id) drains
  intro log s log' opened
  apply Task.comes
  simp only [Task.course, stands]
  exact ⟨_, opened, rfl⟩

theorem handle {x : Var Γ α} {Δ : List Type} {σ : Scope τ Δ} {name : Name}
    {body : Parser τ (α :: Δ) α} (stands : ρ.get x = .handle name body σ)
    (drains : (Parser.recursive name body).Drains σ input parses) :
    (Parser.ref x).Drains ρ input parses := by
  apply of_invoke id _ (fun _ => id) drains
  intro log s log' opened
  apply Task.comes
  simp only [Task.course, stands]
  exact ⟨_, opened, rfl⟩

end Parser.Drains

end EveryParse
