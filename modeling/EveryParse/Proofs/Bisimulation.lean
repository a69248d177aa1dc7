import EveryParse.Proofs.Ownership
import EveryParse.Proofs.Returns

/-!
Sequences that answer alike, pull by pull and event by event, although they are kept in different
forms. A sequence that has ended stays as it is (`Parses.Over.pull`), so it is enough that a pull
that finds a parse leaves related sequences related (`Bisimulation.shows_iff`).
-/

namespace EveryParse

variable {τ : Type} {α β : Type} {Γ : List Type}

/-! Sequences that have ended. -/

/-- The sequence has found its end, and that has been logged. -/
def Parses.Over {α : Type} : Parses τ α → Prop
  | listed parses => parses = []
  | mapped _ s | filtered _ s | anchored _ _ _ s => s.Over
  | tapped _ ended s => ended = true ∧ s.Over
  | drawn _ _ | choosing _ _ _ _ | chosen _ | nested _ _ _ _ => False

theorem Parses.Over.pull {s : Parses τ α} (finished : s.Over) (live : Owners) (log : List Event) :
    (Task.pull s).Returns live log ⟨.ended s, log⟩ := by
  induction s generalizing live with
  | listed parses =>
      cases finished
      exact Task.returns rfl
  | mapped g s ih | filtered keep s ih | anchored ρ name body s ih =>
      exact Task.returns ⟨_, ih finished _, rfl⟩
  | tapped label ended s ih =>
      obtain ⟨rfl, finished⟩ := finished
      exact Task.returns ⟨_, ih finished _, rfl⟩
  | drawn parses index | choosing s ρ q input ih | chosen s ih | nested ρ f outer inner _ _ =>
      exact finished.elim

def endsOver (τ : Type) : Contract τ where
  call _ _ := True
  ask _ _ := True
  result
    | .pull _, answer => ∀ s, answer.value = .ended s → s.Over
    | .build _ _, _ | .invoke _ _ _, _ | .count _ _, _ => True

theorem endsOver_upheld : (endsOver τ).Upheld := by
  intro live task log _
  cases task with
  | build ρ p | invoke ρ p input | count s found =>
      exact Course.meets_of_forall (fun _ _ => trivial) (fun _ _ => trivial) (fun _ => trivial) _
  | pull s =>
      cases s with
      | listed parses =>
          cases parses with
          | nil => exact fun _ same => by cases same; rfl
          | cons parse parses => exact fun _ same => by cases same
      | drawn parses index =>
          simp only [Task.course]
          cases parses index with
          | none => exact fun _ same => by cases same; rfl
          | some parse => exact fun _ same => by cases same
      | mapped g s | anchored ρ name body s =>
          refine ⟨trivial, ?_⟩
          rintro ⟨⟨v, rest, s⟩ | s, log⟩ finished _ same
          · cases same
          · cases same
            exact finished s rfl
      | tapped label ended s =>
          refine ⟨trivial, ?_⟩
          rintro ⟨⟨v, rest, s⟩ | s, log⟩ finished _ same
          · cases same
          · cases same
            exact ⟨rfl, finished s rfl⟩
      | filtered keep s =>
          refine ⟨trivial, ?_⟩
          rintro ⟨⟨v, rest, s⟩ | s, log⟩ finished
          · dsimp only
            split
            · exact fun _ same => by cases same
            · exact ⟨trivial, fun _ => id⟩
          · exact fun _ same => by cases same; exact finished s rfl
      | choosing s ρ q input =>
          refine ⟨trivial, ?_⟩
          rintro ⟨⟨v, rest, s⟩ | s, log⟩ _
          · exact fun _ same => by cases same
          · exact ⟨trivial, fun _ _ => ⟨trivial, fun _ => id⟩⟩
      | chosen s =>
          refine ⟨trivial, ?_⟩
          rintro ⟨⟨v, rest, s⟩ | s, log⟩ _
          · exact fun _ same => by cases same
          · exact fun _ same => by cases same; rfl
      | nested ρ f outer inner =>
          refine ⟨trivial, ?_⟩
          rintro ⟨⟨v, rest, inner⟩ | inner, log⟩ _
          · exact fun _ same => by cases same
          · refine ⟨trivial, ?_⟩
            rintro ⟨⟨v, rest, outer⟩ | outer, log⟩ _
            · exact ⟨trivial, fun _ _ => ⟨trivial, fun _ _ => ⟨trivial, fun _ => id⟩⟩⟩
            · exact fun _ same => by cases same; rfl

theorem Parses.over_of_ended {s left : Parses τ α} {live : Owners} {log log' : List Event}
    (ended : (Task.pull s).Returns live log ⟨.ended left, log'⟩) : left.Over := by
  obtain ⟨fuel, ran⟩ := ended
  exact endsOver_upheld.result_of_run trivial ran left rfl

theorem Parses.Over.shows_iff {s : Parses τ α} (finished : s.Over) {lives : List Owners}
    {found : List (Option (α × Input τ) × List Event)} :
    s.Shows lives found ↔ found = List.replicate lives.length (none, []) := by
  induction lives generalizing found with
  | nil => simp [Parses.shows_nil, eq_comm]
  | cons live lives ih =>
      rw [Parses.shows_cons, List.length_cons, List.replicate_succ]
      constructor
      · rintro ⟨answer, later, pulled, shows, rfl⟩
        cases (finished.pull live []).unique pulled
        rw [ih.mp shows]
        rfl
      · rintro rfl
        exact ⟨_, _, finished.pull live [], ih.mpr rfl, rfl⟩

inductive Answer.Agree (related : Parses τ α → Parses τ α → Prop) :
    Outcome (Answer τ α) → Outcome (Answer τ α) → Prop
  | parse {v rest s s' log} (later : related s s') :
      Agree related ⟨.parse v rest s, log⟩ ⟨.parse v rest s', log⟩
  | ended {s s' log} : Agree related ⟨.ended s, log⟩ ⟨.ended s', log⟩

/-- A pull of one sequence comes to an end when a pull of the related one does, and the answers
agree. Those who keep definitions alive may differ, as `first` and `second` say. -/
structure Bisimulation (related : Parses τ α → Parses τ α → Prop) (first second : Owners → Owners) :
    Prop where
  forth {s s' live log answer} (start : related s s')
    (pulled : (Task.pull s).Returns (first live) log answer) :
    ∃ answer', (Task.pull s').Returns (second live) log answer' ∧
      Answer.Agree related answer answer'
  back {s s' live log answer'} (start : related s s')
    (pulled : (Task.pull s').Returns (second live) log answer') :
    ∃ answer, (Task.pull s).Returns (first live) log answer ∧ Answer.Agree related answer answer'

theorem Bisimulation.shows_iff {related : Parses τ α → Parses τ α → Prop}
    {first second : Owners → Owners} (bisimulation : Bisimulation related first second)
    {s s' : Parses τ α} (start : related s s') (lives : List Owners)
    (found : List (Option (α × Input τ) × List Event)) :
    s.Shows (lives.map first) found ↔ s'.Shows (lives.map second) found := by
  induction lives generalizing s s' found with
  | nil => simp only [List.map_nil, Parses.shows_nil]
  | cons live lives ih =>
      simp only [List.map_cons, Parses.shows_cons]
      constructor
      · rintro ⟨answer, later, pulled, shows, same⟩
        obtain ⟨answer', pulled', agree⟩ := bisimulation.forth start pulled
        cases agree with
        | parse next => exact ⟨_, later, pulled', (ih next later).mp shows, same⟩
        | ended =>
            have ends := (Parses.over_of_ended pulled).shows_iff.mp shows
            rw [List.length_map, ← lives.length_map second] at ends
            exact ⟨_, later, pulled', (Parses.over_of_ended pulled').shows_iff.mpr ends, same⟩
      · rintro ⟨answer', later, pulled', shows, same⟩
        obtain ⟨answer, pulled, agree⟩ := bisimulation.back start pulled'
        cases agree with
        | parse next => exact ⟨_, later, pulled, (ih next later).mpr shows, same⟩
        | ended =>
            have ends := (Parses.over_of_ended pulled').shows_iff.mp shows
            rw [List.length_map, ← lives.length_map first] at ends
            exact ⟨_, later, pulled, (Parses.over_of_ended pulled).shows_iff.mpr ends, same⟩

/-! Parsers that open sequences around those of another one. -/

/-- To invoke `q` on `input` is to invoke `p` on it and to put what that opens into `wrap`. -/
def Parser.OpensAround (ρ : Scope τ Γ) (input : Input τ) (q : Parser τ Γ β)
    (wrap : Parses τ α → Parses τ β) (p : Parser τ Γ α) : Prop :=
  ∀ live log opened, (Task.invoke ρ q input).Returns live log opened ↔
    ∃ inside, (Task.invoke ρ p input).Returns live log inside ∧ inside.map wrap = opened

namespace Parser

section Openings

variable (ρ : Scope τ Γ) (input : Input τ)

theorem opensAround_self (p : Parser τ Γ α) : p.OpensAround ρ input id p := by
  intro live log opened
  constructor
  · exact fun invoked => ⟨opened, invoked, rfl⟩
  · rintro ⟨inside, invoked, rfl⟩
    exact invoked

theorem opensAround_bind {Δ : List Type} (p : Parser τ Γ α) (captures : Captures Γ Δ)
    (f : α → Parser τ Δ β) :
    (bind p captures f).OpensAround ρ input (.nested (ρ.captured captures) f · .empty) p :=
  fun _ _ _ => Task.returns_iff_course

theorem opensAround_mapM (g : α → Logged β) (p : Parser τ Γ α) :
    (mapM g p).OpensAround ρ input (.mapped g) p :=
  fun _ _ _ => Task.returns_iff_course

theorem opensAround_filterM (keep : α → Logged Bool) (p : Parser τ Γ α) :
    (filterM keep p).OpensAround ρ input (.filtered keep) p :=
  fun _ _ _ => Task.returns_iff_course

theorem opensAround_or (p q : Parser τ Γ α) :
    (or p q).OpensAround ρ input (.choosing · ρ q input) p :=
  fun _ _ _ => Task.returns_iff_course

end Openings

variable {ρ : Scope τ Γ} {input : Input τ}

theorem OpensAround.trans {γ : Type} {p : Parser τ Γ α} {q : Parser τ Γ β} {r : Parser τ Γ γ}
    {wrap : Parses τ α → Parses τ β} {wrap' : Parses τ β → Parses τ γ}
    (first : q.OpensAround ρ input wrap p) (second : r.OpensAround ρ input wrap' q) :
    r.OpensAround ρ input (fun s => wrap' (wrap s)) p := by
  intro live log opened
  rw [second]
  constructor
  · rintro ⟨_, around, rfl⟩
    obtain ⟨inside, invoked, rfl⟩ := (first _ _ _).mp around
    exact ⟨inside, invoked, rfl⟩
  · rintro ⟨inside, invoked, rfl⟩
    exact ⟨_, (first _ _ _).mpr ⟨inside, invoked, rfl⟩, rfl⟩

theorem OpensAround.shows_iff {p : Parser τ Γ α} {q q' : Parser τ Γ β}
    {wrap wrap' : Parses τ α → Parses τ β} (opens : q.OpensAround ρ input wrap p)
    (opens' : q'.OpensAround ρ input wrap' p) {related : Parses τ β → Parses τ β → Prop}
    {first second : Owners → Owners} (bisimulation : Bisimulation related first second)
    (start : ∀ s, related (wrap s) (wrap' s)) (live : Owners) (lives : List Owners)
    (seen : Observation τ β) :
    q.Shows ρ input live (lives.map first) seen ↔
      q'.Shows ρ input live (lives.map second) seen := by
  have same s := bisimulation.shows_iff (start s) lives seen.pulls
  rw [Parser.shows_iff, Parser.shows_iff]
  constructor
  · rintro ⟨_, around, shows, events⟩
    obtain ⟨inside, invoked, rfl⟩ := (opens _ _ _).mp around
    exact ⟨_, (opens' _ _ _).mpr ⟨inside, invoked, rfl⟩, (same _).mp shows, events⟩
  · rintro ⟨_, around, shows, events⟩
    obtain ⟨inside, invoked, rfl⟩ := (opens' _ _ _).mp around
    exact ⟨_, (opens _ _ _).mpr ⟨inside, invoked, rfl⟩, (same _).mpr shows, events⟩

end Parser

end EveryParse
