import EveryParse.Proofs.Simulation

/-!
Repetitions that are set up in different ways. A frame says how a repetition goes on behind a match
and what it puts together there. Two frames around the same operand go on in step, with values that
correspond, if what they start behind a match does (`Follows.framed`). So two repetitions that go on
as themselves behind each match follow one another (`follows_repeating`).
-/

namespace EveryParse

variable {τ α β γ : Type} {Γ : List Type} {watched : Task τ → Prop} {always : Owners}

section Last

variable (taps : ∀ task, watched task → task.IsTap) (live : Owners) (log : List Event)
include taps

theorem empty_called :
    (Task.pull (.empty : Parses τ β)).Called watched live log ⟨.ended .empty, log⟩ [] :=
  (Task.called_iff_course (taps _)).mpr (.done _)

theorem chosen_empty_called :
    (Task.pull (.chosen (.empty : Parses τ β))).Called watched live log ⟨.ended .empty, log⟩ [] :=
  (Task.called_iff_course (taps _)).mpr (.silent (empty_called taps _ log) (.done _))

theorem chosen_single_called (v : β) (rest : Input τ) :
    (Task.pull (.chosen (.listed [(v, rest)]))).Called watched live log
      ⟨.parse v rest (.chosen .empty), log⟩ [] := by
  have single : (Task.pull (.listed [(v, rest)])).Called watched live log
      ⟨.parse v rest .empty, log⟩ [] :=
    (Task.called_iff_course (taps _)).mpr (.done _)
  exact (Task.called_iff_course (taps _)).mpr (.silent single (.done _))

theorem result_called (ρ : Scope τ Γ) (v : β) (input : Input τ) :
    (Task.invoke ρ (.result v) input).Called watched live log ⟨.listed [(v, input)], log⟩ [] :=
  (Task.called_iff_course (taps _)).mpr (.done _)

end Last

/-- Behind each match of the operand the parser `again` runs in `scope`; to what it finds the match
is put by `extend`. The last thing found is `stop`. -/
structure Frame (τ α β : Type) : Type 1 where
  {context : List Type}
  scope : Scope τ context
  again : Parser τ context β
  extend : α → β → β
  stop : β

namespace Frame

def next (F : Frame τ α β) (v : α) : Parser τ F.context β :=
  .map (F.extend v) F.again

def start (F : Frame τ α β) (outer : Parses τ α) (input : Input τ) : Parses τ β :=
  .choosing (.nested F.scope F.next outer .empty) F.scope (.result F.stop) input

def behind (F : Frame τ α β) (v : α) (s : Parses τ β) : Parses τ β :=
  .mapped (fun rest => .silent (F.extend v rest)) s

/-- The frame keeps alive what the operand `p` does. Building the parser behind a match changes
nothing, and it starts from `p`. -/
structure Around (watched : Task τ → Prop) (always : Owners) (F : Frame τ α β) (ρ : Scope τ Γ)
    (p : Parser τ Γ α) (begin : Parses τ α → Input τ → Parses τ β) : Prop where
  holds : F.scope.holds = p.keeps ρ
  builds (live : Owners) (log : List Event) :
    (Task.build F.scope F.again).Called watched live log ⟨F.again, log⟩ []
  opens : F.again.StartsFrom watched always F.scope ρ p begin

section Around

variable {F : Frame τ α β} {ρ : Scope τ Γ} {p : Parser τ Γ α}
  {begin : Parses τ α → Input τ → Parses τ β}
variable (taps : ∀ task, watched task → task.IsTap)
include taps

theorem Around.builds_next (around : F.Around watched always ρ p begin) (v : α) (live : Owners)
    (log : List Event) :
    (Task.build F.scope (F.next v)).Called watched live log ⟨F.next v, log⟩ [] :=
  (Task.called_iff_course (taps _)).mpr (.silent (around.builds live log) (.done _))

theorem Around.opens_next (around : F.Around watched always ρ p begin) (v : α) :
    (F.next v).StartsFrom watched always F.scope ρ p fun s input => F.behind v (begin s input) :=
  around.opens.around (fun _ => F.behind v) (fun _ => taps _) fun _ _ _ _ _ _ => Iff.rfl

theorem startsFrom_or {x : Parser τ F.context α}
    (operand : x.StartsFrom watched always F.scope ρ p fun s _ => s) :
    (Parser.or (.bind x .all F.next) (.result F.stop)).StartsFrom watched always F.scope ρ p
      F.start := by
  have bind : (Parser.bind x .all F.next).StartsFrom watched always F.scope ρ p fun s _ =>
      .nested F.scope F.next s .empty :=
    operand.around (fun _ s => .nested F.scope F.next s .empty) (fun _ => taps _)
      fun _ _ _ _ _ _ => Iff.rfl
  exact bind.around (fun input s => .choosing s F.scope (.result F.stop) input) (fun _ => taps _)
    fun _ _ _ _ _ _ => Iff.rfl

end Around

end Frame

/-! Two frames around the same operand. -/

section Framed

section Relations

variable (F : Frame τ α β) (F' : Frame τ α γ) (related : Parses τ β → Parses τ γ → Prop)

inductive Behind : Parses τ β → Parses τ γ → Prop
  | fresh : Behind .empty .empty
  | behind (v : α) {s s'} (later : related s s') : Behind (F.behind v s) (F'.behind v s')

inductive Between : Parses τ β → Parses τ γ → Prop
  | between (outer : Parses τ α) {inner inner'} (inside : Behind F F' related inner inner') :
      Between (.nested F.scope F.next outer inner) (.nested F'.scope F'.next outer inner')
  | ended : Between .empty .empty

inductive Framed : Parses τ β → Parses τ γ → Prop
  | framed {s s'} (inside : Between F F' related s s') (input : Input τ) :
      Framed (.choosing s F.scope (.result F.stop) input)
        (.choosing s' F'.scope (.result F'.stop) input)
  | chosen : Framed (.chosen .empty) (.chosen .empty)
  | ended : Framed .empty .empty

end Relations

variable {F : Frame τ α β} {F' : Frame τ α γ} {related : Parses τ β → Parses τ γ → Prop}
  {same : β → γ → Prop} {fuel : Nat} {ρ : Scope τ Γ} {p : Parser τ Γ α}
  {begin : Parses τ α → Input τ → Parses τ β} {begin' : Parses τ α → Input τ → Parses τ γ}
variable (taps : ∀ task, watched task → task.IsTap)
include taps

theorem behind_simulates
    (extend : ∀ v rest rest', same rest rest' → same (F.extend v rest) (F'.extend v rest'))
    (simulates : Simulates watched always same related fuel) :
    Simulates watched always same (Behind F F' related) fuel := by
  intro s s' live log answer uses start includes called
  cases start with
  | fresh =>
      obtain ⟨rfl, rfl⟩ := called.2.unique (empty_called taps live log)
      exact ⟨_, empty_called taps live log, .ended .fresh⟩
  | behind v later =>
      have passed := simulates.wrapped (wraps_mapped taps (F.extend v))
        (wraps_mapped taps (F'.extend v)) (extend v)
      obtain ⟨answer', called', agree⟩ := passed _ _ _ _ _ _ ⟨later⟩ includes called
      exact ⟨answer', called', agree.mono fun _ _ ⟨later⟩ => .behind v later⟩

variable (around : F.Around watched always ρ p begin)
  (around' : F'.Around watched always ρ p begin')
include around around'

theorem behind_opens (starts : ∀ s input, related (begin s input) (begin' s input)) {v : α}
    {further : Input τ} {live : Owners} {log built opened first second}
    (includes : live.Includes always)
    (build : (Task.build F.scope (F.next v)).Called watched live log built first)
    (invoked : (Task.invoke F.scope built.value further).Called watched
      live built.log opened second) :
    first = [] ∧ ∃ opened',
      (Task.invoke F'.scope (F'.next v) further).Called watched live log opened' second ∧
      opened.log = opened'.log ∧ Behind F F' related opened.value opened'.value := by
  obtain ⟨rfl, rfl⟩ := build.unique (around.builds_next taps v live log)
  obtain ⟨operand, opens, rfl⟩ := (around.opens_next taps v live includes _ _ _ _).mp invoked
  have opens' := (around'.opens_next taps v live includes _ _ _ _).mpr ⟨operand, opens, rfl⟩
  exact ⟨rfl, _, opens', rfl, .behind v (starts operand.value further)⟩

theorem between_simulates (starts : ∀ s input, related (begin s input) (begin' s input))
    (extend : ∀ v rest rest', same rest rest' → same (F.extend v rest) (F'.extend v rest'))
    (simulates : Simulates watched always same related fuel) :
    Simulates watched always same (Between F F' related) fuel := by
  -- A match that nothing is found behind is left for the next one inside the same pull, so the
  -- induction is on the fuel.
  induction fuel with
  | zero => exact .zero
  | succ fuel ih =>
      have simulates := simulates.mono (Nat.le_succ fuel)
      have behind := behind_simulates taps extend simulates
      have holds : F.scope.holds = F'.scope.holds := around.holds.trans around'.holds.symm
      intro s s' live log answer uses start includes called
      cases start with
      | ended =>
          obtain ⟨rfl, rfl⟩ := called.2.unique (empty_called taps live log)
          exact ⟨_, empty_called taps live log, .ended .ended⟩
      | between outer inside =>
          obtain ⟨reply, first, later, found, rest, rfl⟩ := called.course (taps _)
          rw [holds] at found
          obtain ⟨reply', found', agree⟩ := behind _ _ _ _ _ _ inside (includes.add _) found
          cases agree with
          | parse values next =>
              obtain ⟨rfl, rfl⟩ := rest
              exact ⟨_, (Task.called_iff_course (taps _)).mpr (.call found' (.done _)),
                .parse values (.between outer next)⟩
          | ended _ =>
              obtain ⟨⟨⟨v, further, left⟩ | left, log₂⟩, second, last, outside, onward, rfl⟩ := rest
              · obtain ⟨_, _, _, built, ⟨opened, third, _, invoked, onward, rfl⟩, rfl⟩ := onward
                obtain ⟨answer, _, _, again, ⟨rfl, rfl⟩, rfl⟩ := onward
                rw [holds] at outside built invoked
                obtain ⟨rfl, opened', opens', same, next⟩ :=
                  behind_opens taps around around' starts (includes.add _) built.2 invoked.2
                rw [same] at again
                obtain ⟨answer', again', agree⟩ :=
                  ih simulates _ _ _ _ _ _ (.between left next) includes again
                refine ⟨answer', (Task.called_iff_course (taps _)).mpr ?_, agree⟩
                exact .call found' (.call outside.2 (.call (around'.builds_next taps v _ _)
                  (.call opens' (.call again' (.done _)))))
              · obtain ⟨rfl, rfl⟩ := onward
                rw [holds] at outside
                exact ⟨_, (Task.called_iff_course (taps _)).mpr
                  (.call found' (.call outside.2 (.done _))), .ended .ended⟩

theorem framed_simulates (starts : ∀ s input, related (begin s input) (begin' s input))
    (stop : same F.stop F'.stop)
    (extend : ∀ v rest rest', same rest rest' → same (F.extend v rest) (F'.extend v rest'))
    (simulates : Simulates watched always same related fuel) :
    Simulates watched always same (Framed F F' related) (fuel + 1) := by
  intro s s' live log answer uses start includes called
  cases start with
  | ended =>
      obtain ⟨rfl, rfl⟩ := called.2.unique (empty_called taps live log)
      exact ⟨_, empty_called taps live log, .ended .ended⟩
  | chosen =>
      obtain ⟨rfl, rfl⟩ := called.2.unique (chosen_empty_called taps live log)
      exact ⟨_, chosen_empty_called taps live log, .ended .ended⟩
  | framed inside input =>
      obtain ⟨reply, first, later, found, rest, rfl⟩ := called.course (taps _)
      have between := between_simulates taps around around' starts extend simulates
      obtain ⟨reply', found', agree⟩ := between _ _ _ _ _ _ inside (includes.add _) found
      cases agree with
      | parse values next =>
          obtain ⟨rfl, rfl⟩ := rest
          exact ⟨_, (Task.called_iff_course (taps _)).mpr (.call found' (.done _)),
            .parse values (.framed next input)⟩
      | ended _ =>
          obtain ⟨opened, second, _, invoked, onward, rfl⟩ := rest
          obtain ⟨reply, third, _, chosen, ⟨rfl, rfl⟩, rfl⟩ := onward
          obtain ⟨rfl, rfl⟩ := invoked.2.unique (result_called taps _ _ F.scope F.stop input)
          obtain ⟨rfl, rfl⟩ := chosen.2.unique (chosen_single_called taps _ _ F.stop input)
          refine ⟨_, (Task.called_iff_course (taps _)).mpr ?_, .parse stop .chosen⟩
          exact .call found' (.call (result_called taps _ _ F'.scope F'.stop input)
            (.call (chosen_single_called taps _ _ F'.stop input) (.done _)))

theorem Follows.framed (follows : Follows watched always same begin begin')
    (stop : same F.stop F'.stop)
    (extend : ∀ v rest rest', same rest rest' → same (F.extend v rest) (F'.extend v rest')) :
    Follows watched always same F.start F'.start := by
  obtain ⟨related, starts, simulates⟩ := follows
  refine ⟨Framed F F' related, fun s input => .framed (.between s .fresh) input, fun fuel => ?_⟩
  have framed := framed_simulates taps around around' starts stop extend (simulates fuel)
  exact framed.mono (Nat.le_succ fuel)

end Framed

section Repeating

inductive Repeating (F : Frame τ α β) (F' : Frame τ α γ) (wrap : Parses τ β → Parses τ β)
    (wrap' : Parses τ γ → Parses τ γ) : Parses τ β → Parses τ γ → Prop
  | repeating {s s'} (inside : Framed F F' (Repeating F F' wrap wrap') s s') :
      Repeating F F' wrap wrap' (wrap s) (wrap' s')

variable {same : β → γ → Prop} {ρ : Scope τ Γ} {p : Parser τ Γ α} {wrap : Parses τ β → Parses τ β}
  {wrap' : Parses τ γ → Parses τ γ}

theorem follows_repeating (F : Frame τ α β) (F' : Frame τ α γ)
    (taps : ∀ task, watched task → task.IsTap)
    (around : F.Around watched always ρ p fun s input => wrap (F.start s input))
    (around' : F'.Around watched always ρ p fun s input => wrap' (F'.start s input))
    (wraps : Wraps watched always wrap id) (wraps' : Wraps watched always wrap' id)
    (stop : same F.stop F'.stop)
    (extend : ∀ v rest rest', same rest rest' → same (F.extend v rest) (F'.extend v rest')) :
    Follows watched always same (fun s input => wrap (F.start s input))
      fun s input => wrap' (F'.start s input) := by
  have starts (s : Parses τ α) (input : Input τ) :
      Repeating F F' wrap wrap' (wrap (F.start s input)) (wrap' (F'.start s input)) :=
    .repeating (.framed (.between s .fresh) input)
  refine ⟨Repeating F F' wrap wrap', starts, fun fuel => ?_⟩
  induction fuel with
  | zero => exact .zero
  | succ fuel ih =>
      have framed := framed_simulates taps around around' starts stop extend ih
      intro s s' live log answer uses related includes called
      cases related with
      | repeating inside =>
          have wrapped := framed.wrapped wraps wraps' fun _ _ => id
          obtain ⟨answer', called', agree⟩ := wrapped _ _ _ _ _ _ ⟨inside⟩ includes called
          exact ⟨answer', called', agree.mono fun _ _ ⟨inside⟩ => .repeating inside⟩

end Repeating

end EveryParse
