import EveryParse.Desk
import EveryParse.Proofs.Suffix
import Mathlib.Logic.Relation

/-!
Positions. Whatever has been done on a desk, every input on it stands inside its buffer. Main
statement: so its length is that of a slice inside the buffer, it is the position that its offset
names, and the tokens consumed from one input to the next and on to a third are put together.
-/

namespace EveryParse

variable {τ α : Type}

/-- The tokens between two positions, if they are positions of the buffer and in this order. -/
def Buffer.slice? (buffer : Buffer τ) (start stop : Nat) : Option (List τ) :=
  if start ≤ stop ∧ stop ≤ buffer.tokens.size then
    some ((buffer.tokens.toList.take stop).drop start)
  else
    none

def Input.skip? : Nat → Input τ → Option (Input τ)
  | 0, input => some input
  | count + 1, input => input.splitFirst.bind fun split => skip? count split.2

namespace Input

variable {a b c : Input τ} {tokens tokens' : List τ}

theorem Inside.length_add_offset (inside : a.Inside) :
    a.length + a.offset = a.buffer.tokens.size :=
  Nat.sub_add_cancel inside

theorem Inside.slice?_remaining (inside : a.Inside) :
    a.buffer.slice? a.offset a.buffer.tokens.size = some a.remaining := by
  have bound : a.offset ≤ a.buffer.tokens.size := inside
  have whole : a.buffer.tokens.toList.take a.buffer.tokens.size = a.buffer.tokens.toList :=
    List.take_length
  simp [Buffer.slice?, remaining, bound, whole]

theorem at?_eq_ok_iff {buffer : Buffer τ} {start : Nat} :
    at? buffer start = .ok a ↔ start ≤ buffer.tokens.size ∧ ⟨buffer, start⟩ = a := by
  simp only [at?]
  split
  next bound => simp [bound]
  next beyond => simp [beyond]

theorem skip?_eq (count : Nat) (within : count ≤ a.length) :
    a.skip? count = some (a.advance count) := by
  induction count generalizing a with
  | zero => rfl
  | succ count ih =>
      have bound : a.offset < a.buffer.tokens.size := by
        simp only [length] at within
        omega
      have split : a.splitFirst = some (a.buffer.tokens[a.offset], a.advance 1) := by
        simp [splitFirst, advance, bound]
      have later : count ≤ (a.advance 1).length := by
        simp only [length, advance] at within ⊢
        omega
      rw [skip?, split, Option.bind_some, ih later, advance, advance, advance, Nat.add_assoc,
        Nat.add_comm 1]

theorem Inside.skip?_offset (inside : a.Inside) : (new a.buffer).skip? a.offset = some a := by
  rw [skip?_eq _ inside, advance, new, Nat.zero_add]

theorem consumed_of_serial_ne (apart : a.buffer.serial ≠ b.buffer.serial) :
    a.consumed b = .error (.differentBuffers a b) := by
  simp [consumed, apart]

theorem consumed_of_before (same : a.buffer = b.buffer) (before : b.offset < a.offset) :
    a.consumed b = .error (.remainderBefore a.offset b.offset) := by
  simp [consumed, same, before]

theorem Inside.consumed_eq_ok_iff (inside : b.Inside) (same : a.buffer = b.buffer) :
    a.consumed b = .ok tokens ↔ a.buffer.slice? a.offset b.offset = some tokens := by
  have bound : b.offset ≤ b.buffer.tokens.size := inside
  by_cases before : b.offset < a.offset
  · simp [consumed_of_before same before, Buffer.slice?, Nat.not_le.mpr before]
  · simp [consumed, Buffer.slice?, same, before, Nat.not_lt.mp before, bound]

theorem slice?_append {buffer : Buffer τ} {start middle stop : Nat}
    (first : buffer.slice? start middle = some tokens)
    (second : buffer.slice? middle stop = some tokens') :
    buffer.slice? start stop = some (tokens ++ tokens') := by
  simp only [Buffer.slice?, Option.ite_none_right_eq_some, Option.some.injEq] at first second ⊢
  obtain ⟨⟨starts, _⟩, rfl⟩ := first
  obtain ⟨⟨stops, bound⟩, rfl⟩ := second
  refine ⟨⟨Nat.le_trans starts stops, bound⟩, ?_⟩
  have together : stop - start = (middle - start) + (stop - middle) := by omega
  have further : start + (middle - start) = middle := Nat.add_sub_cancel' starts
  simp only [List.drop_take]
  rw [together, List.take_add, List.drop_drop, further]

end Input

def Desk.Command.Honest : Desk.Command τ α → Prop
  | .run _ _ p _ => p.Honest
  | .buffer _ _ | .start _ _ | .startAt _ _ _ | .fresh _ _ | .copy _ _ | .split _ _ | .describe _
  | .write _ | .writeInLines _ | .equal _ _ | .equalTokens _ _ | .consumed _ _ => True

namespace Desk

def Has (desk : Desk τ) (input : Input τ) : Prop :=
  ∃ name, (name, input) ∈ desk.inputs

def Knows (desk : Desk τ) (buffer : Buffer τ) : Prop :=
  (∃ name, (name, buffer) ∈ desk.buffers) ∨ ∃ input, desk.Has input ∧ input.buffer = buffer

/-- A command is carried out, or what a parse leaves of an input is put on the desk. The parser may
stand in any scope there. -/
inductive Step [Shown τ] [BEq τ] (desk : Desk τ) : Desk τ → Prop
  | command {β : Type} {fuel desk' reply} {command : Command τ β} (honest : command.Honest)
      (ran : desk.run fuel command = some (desk', reply)) : Step desk desk'
  | remainder {β : Type} {c : Closure τ β} {input v rest} (honest : c.Honest)
      (has : desk.Has input) (gives : c.Gives input v rest) (name : String) :
      Step desk (desk.put name rest)

def Reached [Shown τ] [BEq τ] (desk : Desk τ) : Prop :=
  Relation.ReflTransGen Step empty desk

structure Sound (desk : Desk τ) : Prop where
  numbered {buffer} (known : desk.Knows buffer) : buffer.serial < desk.made
  identified {buffer buffer'} (known : desk.Knows buffer) (known' : desk.Knows buffer')
    (same : buffer.serial = buffer'.serial) : buffer = buffer'
  inside {input} (has : desk.Has input) : input.Inside

inductive Grows (desk : Desk τ) : Desk τ → Prop
  | same : Grows desk desk
  | buffer (name : String) (tokens : Array τ) :
      Grows desk { desk with
        buffers := (name, ⟨desk.made, tokens⟩) :: desk.buffers, made := desk.made + 1 }
  | fresh (name : String) (tokens : Array τ) :
      Grows desk { desk.put name (.new ⟨desk.made, tokens⟩) with made := desk.made + 1 }
  | input (name : String) {input : Input τ} (known : desk.Knows input.buffer)
      (inside : input.Inside) : Grows desk (desk.put name input)

variable {desk desk' : Desk τ} {name : String} {input other : Input τ} {buffer : Buffer τ}

@[simp]
theorem has_put : (desk.put name input).Has other ↔ other = input ∨ desk.Has other := by
  simp [Has, put, exists_or]

@[simp]
theorem knows_put :
    (desk.put name input).Knows buffer ↔ buffer = input.buffer ∨ desk.Knows buffer := by
  constructor
  · rintro (stored | ⟨other, has, rfl⟩)
    · exact .inr (.inl stored)
    · rcases has_put.mp has with rfl | has
      · exact .inl rfl
      · exact .inr (.inr ⟨other, has, rfl⟩)
  · rintro (rfl | stored | ⟨other, has, rfl⟩)
    · exact .inr ⟨input, has_put.mpr (.inl rfl), rfl⟩
    · exact .inl stored
    · exact .inr ⟨other, has_put.mpr (.inr has), rfl⟩

theorem has_of_lookup (found : desk.inputs.lookup name = some input) : desk.Has input := by
  obtain ⟨before, after, same, _⟩ := List.lookup_eq_some_iff.mp found
  exact ⟨name, by simp [same]⟩

theorem knows_of_lookup (found : desk.buffers.lookup name = some buffer) : desk.Knows buffer := by
  obtain ⟨before, after, same, _⟩ := List.lookup_eq_some_iff.mp found
  exact .inl ⟨name, by simp [same]⟩

theorem Has.knows (has : desk.Has input) : desk.Knows input.buffer :=
  .inr ⟨input, has, rfl⟩

theorem sound_empty : (empty : Desk τ).Sound where
  numbered known := by simp [Knows, Has, empty] at known
  identified known := by simp [Knows, Has, empty] at known
  inside has := by simp [Has, empty] at has

theorem Sound.make (sound : desk.Sound) (tokens : Array τ) (made : desk'.made = desk.made + 1)
    (knows : ∀ buffer, desk'.Knows buffer → buffer = ⟨desk.made, tokens⟩ ∨ desk.Knows buffer)
    (inside : ∀ input, desk'.Has input → input.Inside) : desk'.Sound where
  numbered {buffer} known := by
    rw [made]
    rcases knows buffer known with rfl | known
    · exact Nat.lt_succ_self _
    · exact Nat.lt_succ_of_lt (sound.numbered known)
  identified {buffer buffer'} known known' same := by
    rcases knows buffer known with rfl | known <;> rcases knows buffer' known' with rfl | known'
    · rfl
    · exact absurd same.symm (Nat.ne_of_lt (sound.numbered known'))
    · exact absurd same (Nat.ne_of_lt (sound.numbered known))
    · exact sound.identified known known' same
  inside has := inside _ has

theorem Grows.sound (grows : desk.Grows desk') (sound : desk.Sound) : desk'.Sound := by
  cases grows with
  | same => exact sound
  | buffer name tokens =>
      refine sound.make tokens rfl (fun buffer known => ?_) fun input => sound.inside
      rcases known with ⟨other, member⟩ | under
      · rcases List.mem_cons.mp member with same | member
        · cases same
          exact .inl rfl
        · exact .inr (.inl ⟨other, member⟩)
      · exact .inr (.inr under)
  | fresh name tokens =>
      let first : Input τ := .new ⟨desk.made, tokens⟩
      refine sound.make tokens rfl (fun buffer known => ?_) fun input has => ?_
      · exact knows_put.mp (show (desk.put name first).Knows buffer from known)
      · rcases has_put.mp (show (desk.put name first).Has input from has) with rfl | has
        · exact Nat.zero_le _
        · exact sound.inside has
  | @input name input known inside =>
      have knows {buffer} (known' : (desk.put name input).Knows buffer) : desk.Knows buffer := by
        rcases knows_put.mp known' with rfl | known'
        · exact known
        · exact known'
      exact {
        numbered := fun known => sound.numbered (knows known)
        identified := fun known known' => sound.identified (knows known) (knows known')
        inside := fun has => (has_put.mp has).elim (fun same => same ▸ inside) sound.inside }

theorem gives_of_nth {c : Closure τ α} {s : Parses τ α} (opened : c.Opened input s) {fuel : Nat}
    {live : Owners} {index : Nat} {v : α} {rest : Input τ}
    (found : nth fuel live index s = some (some (v, rest))) : c.Gives input v rest := by
  induction index generalizing s with
  | zero =>
      unfold nth at found
      rcases pulled : s.pull fuel live [] with _ | ⟨⟨w, left, t⟩ | t, log⟩
      · simp [pulled] at found
      · rw [pulled] at found
        cases found
        exact ⟨s, fuel, live, [], t, log, opened, pulled⟩
      · simp [pulled] at found
  | succ index ih =>
      unfold nth at found
      rcases pulled : s.pull fuel live [] with _ | ⟨⟨w, left, t⟩ | t, log⟩
      · simp [pulled] at found
      · rw [pulled] at found
        exact ih (opened.pulled pulled) found
      · simp [pulled] at found

section Run

variable {β : Type} {reply : Reply τ β}

theorem grows_withBuffer {act : Buffer τ → Option (Desk τ × Reply τ β)}
    (ran : desk.withBuffer name act = some (desk', reply))
    (acts : ∀ buffer, desk.Knows buffer → act buffer = some (desk', reply) → desk.Grows desk') :
    desk.Grows desk' := by
  simp only [withBuffer] at ran
  cases found : desk.buffers.lookup name with
  | none =>
      rw [found] at ran
      cases ran
      exact .same
  | some buffer =>
      rw [found] at ran
      exact acts buffer (knows_of_lookup found) ran

theorem grows_withInput {act : Input τ → Option (Desk τ × Reply τ β)}
    (ran : desk.withInput name act = some (desk', reply))
    (acts : ∀ input, desk.Has input → act input = some (desk', reply) → desk.Grows desk') :
    desk.Grows desk' := by
  simp only [withInput] at ran
  cases found : desk.inputs.lookup name with
  | none =>
      rw [found] at ran
      cases ran
      exact .same
  | some input =>
      rw [found] at ran
      exact acts input (has_of_lookup found) ran

theorem grows_put (has : desk.Has input) {rest : Input τ}
    (suffix : rest.IsSuffixOf input) (name : String) : desk.Grows (desk.put name rest) :=
  .input name (suffix.buffer ▸ has.knows) suffix.inside

theorem grows_run [Shown τ] [BEq τ] (sound : desk.Sound) {fuel : Nat} {command : Command τ β}
    (honest : command.Honest) (ran : desk.run fuel command = some (desk', reply)) :
    desk.Grows desk' := by
  cases command with
  | buffer name tokens =>
      cases ran
      exact .buffer name tokens
  | start name source =>
      refine grows_withBuffer ran fun buffer known ran => ?_
      cases ran
      exact .input name known (Nat.zero_le _)
  | startAt name source offset =>
      refine grows_withBuffer ran fun buffer known ran => ?_
      cases stands : Input.at? buffer offset with
      | ok input =>
          rw [stands] at ran
          cases ran
          obtain ⟨bound, rfl⟩ := Input.at?_eq_ok_iff.mp stands
          exact .input name known bound
      | error error =>
          rw [stands] at ran
          cases ran
          exact .same
  | fresh name tokens =>
      cases ran
      exact .fresh name tokens
  | copy name source =>
      refine grows_withInput ran fun input has ran => ?_
      cases ran
      exact .input name has.knows (sound.inside has)
  | split name source =>
      refine grows_withInput ran fun input has ran => ?_
      cases split : input.splitFirst with
      | none =>
          rw [split] at ran
          cases ran
          exact .same
      | some found =>
          rw [split] at ran
          cases ran
          exact grows_put has (Input.splitFirst_isSuffixOf split) name
  | run name source p index =>
      refine grows_withInput ran fun input has ran => ?_
      obtain ⟨built, builds, ran⟩ := Option.bind_eq_some_iff.mp ran
      obtain ⟨opened, invoked, ran⟩ := Option.bind_eq_some_iff.mp ran
      obtain ⟨found, pulled, ran⟩ := Option.map_eq_some_iff.mp ran
      obtain _ | ⟨v, rest⟩ := found
      · cases ran
        exact .same
      · cases ran
        let c : Closure τ β := ⟨.empty, built.value⟩
        rw [(carried fuel).build] at builds
        have honest : c.Honest := ⟨trivial, readsForward_upheld.result_of_run trivial builds honest⟩
        have gives : c.Gives input v rest := gives_of_nth (.invoked invoked) pulled
        exact grows_put has (gives.isSuffixOf honest (sound.inside has)) name
  | describe source | write source | writeInLines source | equalTokens source tokens =>
      refine grows_withInput ran fun input has ran => ?_
      cases ran
      exact .same
  | equal left right =>
      refine grows_withInput ran fun left _ ran => grows_withInput ran fun right _ ran => ?_
      cases ran
      exact .same
  | consumed source remainder =>
      refine grows_withInput ran fun input _ ran => grows_withInput ran fun rest _ ran => ?_
      split at ran <;> cases ran <;> exact .same

end Run

theorem Step.sound [Shown τ] [BEq τ] (step : desk.Step desk') (sound : desk.Sound) :
    desk'.Sound := by
  cases step with
  | command honest ran => exact (grows_run sound honest ran).sound sound
  | remainder honest has gives name =>
      have suffix := gives.isSuffixOf honest (sound.inside has)
      exact (grows_put has suffix name).sound sound

theorem Reached.run [Shown τ] [BEq τ] (reached : desk.Reached) (β : Type) (fuel : Nat)
    (command : Command τ β) (honest : command.Honest) {reply : Reply τ β}
    (ran : desk.run fuel command = some (desk', reply)) : desk'.Reached :=
  reached.tail (.command honest ran)

theorem Reached.sound [Shown τ] [BEq τ] (reached : desk.Reached) : desk.Sound := by
  induction reached with
  | refl => exact sound_empty
  | tail _ step ih => exact step.sound ih

end Desk

/-- Whatever has been done on a desk, its inputs stand inside their buffers. So nothing that is read
of them, nor of two of them for a comparison, is outside; each is the position that its offset
names, and is come to by splitting off tokens. Tokens consumed from one to another there are if both
have the same buffer, which is looked at first, and stand in this order, and they are put together
on the way to a third one. -/
theorem positions_stay_inside [Shown τ] [BEq τ] {desk : Desk τ} (reached : desk.Reached) :
    (∀ a, desk.Has a → a.offset ≤ a.buffer.tokens.size ∧
      a.length + a.offset = a.buffer.tokens.size ∧
      a.buffer.slice? a.offset a.buffer.tokens.size = some a.remaining ∧
      Input.at? a.buffer a.offset = .ok a ∧ (Input.new a.buffer).skip? a.offset = some a) ∧
    ∀ a b, desk.Has a → desk.Has b →
      (a == b) = (a.buffer.slice? a.offset a.buffer.tokens.size ==
        b.buffer.slice? b.offset b.buffer.tokens.size) ∧
      ((∃ tokens, a.consumed b = .ok tokens) ↔ a.buffer = b.buffer ∧ a.offset ≤ b.offset) ∧
      (∀ tokens, a.consumed b = .ok tokens → a.buffer.slice? a.offset b.offset = some tokens) ∧
      (a.buffer ≠ b.buffer → a.consumed b = .error (.differentBuffers a b)) ∧
      (a.buffer = b.buffer → b.offset < a.offset →
        a.consumed b = .error (.remainderBefore a.offset b.offset)) ∧
      ∀ c tokens tokens', desk.Has c → a.consumed b = .ok tokens → b.consumed c = .ok tokens' →
        a.consumed c = .ok (tokens ++ tokens') := by
  have sound := reached.sound
  have apart {a b} (hasA : desk.Has a) (hasB : desk.Has b) (other : a.buffer ≠ b.buffer) :
      a.consumed b = .error (.differentBuffers a b) :=
    Input.consumed_of_serial_ne fun same => other (sound.identified hasA.knows hasB.knows same)
  have shares {a b tokens} (hasA : desk.Has a) (hasB : desk.Has b)
      (consumed : a.consumed b = .ok tokens) : a.buffer = b.buffer := by
    refine Classical.byContradiction fun other => ?_
    rw [apart hasA hasB other] at consumed
    cases consumed
  have slices {a b tokens} (hasA : desk.Has a) (hasB : desk.Has b)
      (consumed : a.consumed b = .ok tokens) : a.buffer.slice? a.offset b.offset = some tokens :=
    ((sound.inside hasB).consumed_eq_ok_iff (shares hasA hasB consumed)).mp consumed
  refine ⟨fun a has => ?_, fun a b hasA hasB => ?_⟩
  · have inside := sound.inside has
    exact ⟨inside, inside.length_add_offset, inside.slice?_remaining,
      Input.at?_eq_ok_iff.mpr ⟨inside, rfl⟩, inside.skip?_offset⟩
  · refine ⟨?_, ⟨?_, ?_⟩, fun tokens => slices hasA hasB, apart hasA hasB,
      Input.consumed_of_before, ?_⟩
    · rw [(sound.inside hasA).slice?_remaining, (sound.inside hasB).slice?_remaining]
      rfl
    · rintro ⟨tokens, consumed⟩
      have found := slices hasA hasB consumed
      simp only [Buffer.slice?, Option.ite_none_right_eq_some] at found
      exact ⟨shares hasA hasB consumed, found.1.1⟩
    · rintro ⟨same, ordered⟩
      have inside : b.offset ≤ a.buffer.tokens.size := same ▸ sound.inside hasB
      have found : a.buffer.slice? a.offset b.offset = some _ := if_pos ⟨ordered, inside⟩
      exact ⟨_, ((sound.inside hasB).consumed_eq_ok_iff same).mpr found⟩
    · intro c tokens tokens' hasC first second
      have same := shares hasA hasB first
      have later := slices hasB hasC second
      rw [← same] at later
      refine ((sound.inside hasC).consumed_eq_ok_iff ?_).mpr ?_
      · exact same.trans (shares hasB hasC second)
      · exact Input.slice?_append (slices hasA hasB first) later

/-- The remainder of a parse, of a parser that stands in a scope of its own, may be on the desk
too. -/
theorem three_positions_stay_inside :
    let buffer : Buffer Char := ⟨0, #['a', '1', '2']⟩
    let start : Input Char := .new buffer
    let behind : Input Char := ⟨buffer, 1⟩
    let last : Input Char := ⟨buffer, 3⟩
    let other : Input Char := .new ⟨1, #['a', '1', '2']⟩
    let desk : Desk Char := ⟨[("text", buffer)],
      [("other", other), ("last", last), ("behind", behind), ("start", start)], 2⟩
    desk.Reached ∧ (Input.new buffer).skip? 3 = some last ∧
      last.consumed start = .error (.remainderBefore 3 0) ∧
      last.consumed other = .error (.differentBuffers last other) ∧
      start.consumed behind = .ok ['a'] ∧ behind.consumed last = .ok ['1', '2'] ∧
      start.consumed last = .ok ['a', '1', '2'] := by
  intro buffer start behind last other desk
  have empty : (Desk.empty : Desk Char).Reached := .refl
  let digits : Parser Char [] (List Char) := (Parser.sat Char.isDigit).many
  have honest : digits.Honest := by
    simp [digits, Parser.many, Parser.map, Parser.sat, Parser.filter, Parser.Honest]
  have reached : desk.Reached := by
    have one := empty.run Nat 0 (.buffer "text" buffer.tokens) trivial rfl
    have two := one.run Nat 0 (.start "start" "text") trivial rfl
    have three := two.run Nat 0 (.split "behind" "start") trivial rfl
    have four := three.run (List Char) 30 (.run "last" "behind" digits 0) honest rfl
    exact four.run Nat 0 (.fresh "other" buffer.tokens) trivial rfl
  obtain ⟨alone, together⟩ := positions_stay_inside reached
  have hasStart : desk.Has start := ⟨"start", by simp [desk]⟩
  have hasBehind : desk.Has behind := ⟨"behind", by simp [desk]⟩
  have hasLast : desk.Has last := ⟨"last", by simp [desk]⟩
  have hasOther : desk.Has other := ⟨"other", by simp [desk]⟩
  have named := (alone last hasLast).2.2.2.2
  obtain ⟨-, -, -, -, before, -⟩ := together last start hasLast hasStart
  obtain ⟨-, -, -, apart, -⟩ := together last other hasLast hasOther
  obtain ⟨-, -, -, -, -, along⟩ := together start behind hasStart hasBehind
  exact ⟨reached, named, before rfl (by decide), apart (by simp [last, other, buffer, Input.new]),
    rfl, rfl, along last _ _ hasLast rfl rfl⟩

end EveryParse
