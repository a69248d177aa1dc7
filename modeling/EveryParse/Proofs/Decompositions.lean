import EveryParse.Proofs.Guarded

/-!
What a repetition gives. Its matches make a tree: below each position stand the matches that begin
there, each with the position where it ends. Main statement: a repetition gives one run for each
position in the tree, the matches on the way to it, in post-order.
-/

namespace EveryParse

variable {τ α : Type}

/-- Positions, and below each of them values with the positions that they lead to. -/
inductive Decomposition (τ α : Type) where
  | node (rest : Input τ) (children : List (α × Decomposition τ α))

namespace Decomposition

def rest : Decomposition τ α → Input τ
  | node rest _ => rest

mutual

/-- The values on the way to each position and the position, subtrees before the node that they
stand below. On the way to the root are the values in `path`. -/
def postorder (path : List α) : Decomposition τ α → List (List α × Input τ)
  | node rest children => postorderBelow path children ++ [(path, rest)]

def postorderBelow (path : List α) : List (α × Decomposition τ α) → List (List α × Input τ)
  | [] => []
  | (v, child) :: children => child.postorder (path ++ [v]) ++ postorderBelow path children

end

theorem postorderBelow_eq (path : List α) (children : List (α × Decomposition τ α)) :
    postorderBelow path children =
      children.flatMap fun child => child.2.postorder (path ++ [child.1]) := by
  induction children with
  | nil => rfl
  | cons child children ih => simp [postorderBelow, ih]

theorem getLast?_postorder (path : List α) (tree : Decomposition τ α) :
    (tree.postorder path).getLast? = some (path, tree.rest) := by
  cases tree with
  | node rest children => simp [postorder, Decomposition.rest]

inductive Of (c : Closure τ α) (live : Owners) : Decomposition τ α → Prop
  | node {rest children}
      (parses : c.Lists live rest (children.map fun child => (child.1, child.2.rest)))
      (each : ∀ child ∈ children, Of c live child.2) : Of c live (.node rest children)

end Decomposition

/-- On every input the parses come to an end, and each of them reads at least one token. -/
def Closure.Advances (c : Closure τ α) (live : Owners) : Prop :=
  ∀ input : Input τ, input.Inside →
    ∃ parses, c.Lists live input parses ∧ ∀ parse ∈ parses, parse.2.After input

theorem Closure.Advances.exists_of {c : Closure τ α} {live : Owners} (advances : c.Advances live)
    {input : Input τ} (inside : input.Inside) :
    ∃ tree : Decomposition τ α, tree.rest = input ∧ tree.Of c live := by
  induction left : input.length using Nat.strongRecOn generalizing input with
  | ind left ih =>
      subst left
      obtain ⟨parses, lists, after⟩ := advances input inside
      have below : ∀ parse ∈ parses, ∃ tree : Decomposition τ α,
          tree.rest = parse.2 ∧ tree.Of c live := by
        intro parse member
        have further := after parse member
        exact ih _ further.length_lt further.inside rfl
      have : Nonempty (Decomposition τ α) := ⟨.node input []⟩
      choose! subtree starts each using below
      refine ⟨.node input (parses.map fun parse => (parse.1, subtree parse)), rfl, .node ?_ ?_⟩
      · have same : (parses.map fun parse => (parse.1, subtree parse)).map
            (fun child => (child.1, child.2.rest)) = parses := by
          rw [List.map_map]
          refine (List.map_congr_left fun parse member => ?_).trans (List.map_id parses)
          exact Prod.ext rfl (starts parse member)
        rwa [same]
      · intro child member
        obtain ⟨parse, inParses, rfl⟩ := List.mem_map.mp member
        exact each parse inParses

section Covered

variable {kept : Definition τ → Prop} {building : AnyScope τ → Prop} {live : Owners}
variable {Γ : List Type} {ρ : Scope τ Γ} {p : Parser τ Γ α}
variable (sound : ρ.Sound kept building) (cover : live.Cover kept)
include sound cover

theorem Decomposition.Of.unique {tree other : Decomposition τ α} (first : tree.Of ⟨ρ, p⟩ live)
    (second : other.Of ⟨ρ, p⟩ live) (same : other.rest = tree.rest) : other = tree := by
  induction first generalizing other with
  | @node rest children parses _ ih =>
      obtain @⟨_, others, parses', each⟩ := second
      obtain rfl : _ = rest := same
      rw [Closure.lists_iff_drains sound cover] at parses parses'
      have alike := parses'.unique parses
      have lengths : others.length = children.length := by simpa using congrArg List.length alike
      congr 1
      refine List.ext_getElem lengths fun index bound bound' => ?_
      have child := congrArg (·[index]?) alike
      simp only [List.getElem?_map, List.getElem?_eq_getElem bound, List.getElem?_eq_getElem bound',
        Option.map_some, Option.some.injEq, Prod.mk.injEq] at child
      exact Prod.ext child.1
        (ih _ (List.getElem_mem bound') (each _ (List.getElem_mem bound)) child.2)

theorem Decomposition.Of.many_drains {tree : Decomposition τ α} (of : tree.Of ⟨ρ, p⟩ live) :
    ∃ runs, p.many.Drains ρ tree.rest runs ∧
      ∀ path, tree.postorder path = runs.map fun run => (path ++ run.1, run.2) := by
  -- The induction is on the tree: the runs below a child are put behind the match that leads to it.
  induction of with
  | @node rest children parses _ ih =>
      have first := (Closure.lists_iff_drains sound cover).mp parses
      have later : ∀ parse ∈ children.map (fun child => (child.1, child.2.rest)),
          ∃ runs, p.many.Drains ρ parse.2 runs := by
        intro parse member
        obtain ⟨child, inChildren, rfl⟩ := List.mem_map.mp member
        obtain ⟨runs, drains, _⟩ := ih child inChildren
        exact ⟨runs, drains⟩
      choose! runs later using later
      refine ⟨_, first.many later, fun path => ?_⟩
      simp only [postorder, postorderBelow_eq, List.map_append, List.map_flatMap, List.flatMap_map,
        List.map_cons, List.map_nil, List.append_nil]
      congr 1
      refine List.flatMap_congr fun child member => ?_
      obtain ⟨below, drains, ordered⟩ := ih child member
      have same := (later _ (List.mem_map_of_mem member)).unique drains
      simp [ordered, same]

end Covered

/-- When a parser reads a token in each parse and has finitely many on every input, its matches on
an input make one tree, and repeating it lists the runs in this tree in post-order, the empty run
last. -/
theorem many_lists_postorder {Γ : List Type} {ρ : Scope τ Γ} {kept : Definition τ → Prop}
    {building : AnyScope τ → Prop} (sound : ρ.Sound kept building) {live : Owners}
    (cover : live.Cover kept) {p : Parser τ Γ α}
    (advances : (⟨ρ, p⟩ : Closure τ α).Advances live) {input : Input τ} (inside : input.Inside) :
    ∃ tree : Decomposition τ α, (tree.rest = input ∧ tree.Of ⟨ρ, p⟩ live) ∧
      (∀ other : Decomposition τ α, other.rest = input ∧ other.Of ⟨ρ, p⟩ live → other = tree) ∧
      (⟨ρ, p.many⟩ : Closure τ (List α)).Lists live input (tree.postorder []) ∧
      (tree.postorder []).getLast? = some ([], input) := by
  obtain ⟨tree, rfl, of⟩ := advances.exists_of inside
  refine ⟨tree, ⟨rfl, of⟩, ?_, ?_, tree.getLast?_postorder []⟩
  · rintro other ⟨same, ofOther⟩
    exact of.unique sound cover ofOther same
  · obtain ⟨runs, drains, ordered⟩ := of.many_drains sound cover
    rw [ordered, Closure.lists_iff_drains sound cover]
    simpa using drains

theorem Parser.Guarded.advances {Γ : List Type} {ρ : Scope τ Γ} {kept : Definition τ → Prop}
    {building : AnyScope τ → Prop} (sound : ρ.Sound kept building) {live : Owners}
    (cover : live.Cover kept) (definitions : ρ.Guarded) {p : Parser τ Γ α}
    (guarded : p.Guarded .all) (consuming : p.Consuming) :
    (⟨ρ, p⟩ : Closure τ α).Advances live := by
  intro input _
  obtain ⟨parses, eager⟩ := guarded.finishes definitions input
  exact ⟨parses, (Closure.lists_iff_drains sound cover).mpr eager.drains, eager.after consuming⟩

def oneOrTwo : Parser Char [] Char :=
  .or .item (.bind .item .none fun _ => .item)

theorem oneOrTwo_lists_postorder :
    let c : Closure Char Char := ⟨.empty, oneOrTwo⟩
    let input : Input Char := ⟨⟨0, #['a', 'b']⟩, 0⟩
    c.scope.Closed ∧ c.Advances .nobody ∧ input.Inside ∧
      (⟨.empty, oneOrTwo.many⟩ : Closure Char (List Char)).Lists .nobody input
        [(['a', 'b'], input.advance 2), (['a'], input.advance 1), (['b'], input.advance 2),
          ([], input)] := by
  intro c input
  have closed : c.scope.Closed := trivial
  have cover : Owners.nobody.Cover fun _ : Definition Char => False := Owners.cover_none _
  have guarded : oneOrTwo.Guarded .all := .or .item (.bind .item fun _ => .item)
  have advances : c.Advances .nobody :=
    guarded.advances closed cover trivial ⟨trivial, .inl trivial⟩
  have inside : input.Inside := Nat.zero_le _
  obtain ⟨tree, -, unique, lists, -⟩ := many_lists_postorder closed cover advances inside
  let leaf : Decomposition Char Char := .node (input.advance 2) []
  let expected : Decomposition Char Char :=
    .node input [('a', .node (input.advance 1) [('b', leaf)]), ('b', leaf)]
  have ofLeaf : leaf.Of c .nobody := .node ⟨10, 10, _, rfl, rfl, rfl⟩ (by simp)
  have of : expected.Of c .nobody := by
    refine .node ⟨10, 10, _, rfl, rfl, rfl⟩ (List.forall_mem_cons.mpr ⟨?_, by simpa⟩)
    exact .node ⟨10, 10, _, rfl, rfl, rfl⟩ (by simpa)
  rw [← unique expected ⟨rfl, of⟩] at lists
  exact ⟨closed, advances, inside, lists⟩

end EveryParse
