import Codegraph.Library.Iteration
import Codegraph.Library.ListSet
import Mathlib.Data.Finset.Card
import Mathlib.Logic.Relation

namespace Codegraph.Library

open Relation List ListSet

variable {Name : Type} [DecidableEq Name]

/-- The newest name of the stack is stored, and the followers that are not stored yet go on the stack. -/
def expandRound (follow : Name → List Name) (state : List Name × ListSet Name) :
    Option (Round (List Name × ListSet Name)) :=
  match state.1 with
  | [] => some (.done state)
  | name :: stack =>
    some (.next (((follow name).filter fun next => next ∉ state.2.members).reverse ++ stack,
      state.2.insert name))

def expand (follow : Name → List Name) (fuel : Nat) (types : ListSet Name) (name : Name) :
    Option (ListSet Name) :=
  (whileLoop (expandRound follow) fuel ([name], types)).map Prod.snd

variable {follow : Name → List Name} {types : ListSet Name} {root : Name}

/-- One name follows another. -/
def Follows (follow : Name → List Name) (name next : Name) : Prop := next ∈ follow name

/-- The new names are what the added one leads to, and their followers are stored. -/
structure Expands (follow : Name → List Name) (types : ListSet Name) (root : Name)
    (final : ListSet Name) : Prop where
  grows : ∀ name ∈ types.members, name ∈ final.members
  here : root ∈ final.members
  followers : ∀ next ∈ follow root, next ∈ final.members
  fresh : ∀ name ∈ final.members, name ∉ types.members → ∀ next ∈ follow name, next ∈ final.members
  sound : ∀ name ∈ final.members, name ∈ types.members ∨ ReflTransGen (Follows follow) root name

/-- What the rounds keep. The followers of a new name are stored or on the stack. -/
structure Expanding (follow : Name → List Name) (names : Finset Name) (types : ListSet Name)
    (root : Name) (state : List Name × ListSet Name) : Prop where
  grows : ∀ name ∈ types.members, name ∈ state.2.members
  started : root ∈ state.1 ∨ (root ∈ state.2.members ∧
    ∀ next ∈ follow root, next ∈ state.2.members ∨ next ∈ state.1)
  fresh : ∀ name ∈ state.2.members, name ∉ types.members →
    ∀ next ∈ follow name, next ∈ state.2.members ∨ next ∈ state.1
  sound : ∀ name ∈ state.2.members, name ∈ types.members ∨ ReflTransGen (Follows follow) root name
  stacked : ∀ name ∈ state.1, ReflTransGen (Follows follow) root name
  inside : ∀ name ∈ state.1, name ∈ names

/-- The names that are not stored yet. -/
def missing (names : Finset Name) (types : ListSet Name) : Finset Name :=
  names.filter fun name => name ∉ types.members

/-- A stored name on top of the stack may put new names there. -/
def delay (names : Finset Name) : List Name × ListSet Name → Nat
  | ([], _) => names.card + 1
  | (name :: _, types) => if name ∈ types.members then names.card + 1 else 0

def expandCost (names : Finset Name) (state : List Name × ListSet Name) : Nat :=
  2 * (names.card + 1) * (missing names state.2).card + state.1.length + delay names state

theorem delay_le (names : Finset Name) (state : List Name × ListSet Name) :
    delay names state ≤ names.card + 1 := by
  match state with
  | ([], _) => exact le_rfl
  | (name :: _, types) =>
    change (if name ∈ types.members then names.card + 1 else 0) ≤ _
    split
    · exact le_rfl
    · exact Nat.zero_le _

theorem missing_insert_le (names : Finset Name) (types : ListSet Name) (name : Name) :
    missing names (types.insert name) ⊆ missing names types := by
  intro other mem
  obtain ⟨inside, absent⟩ := Finset.mem_filter.mp mem
  rw [mem_insert, not_or] at absent
  exact Finset.mem_filter.mpr ⟨inside, absent.2⟩

variable {names : Finset Name}

theorem missing_insert_lt {types : ListSet Name} {name : Name}
    (inside : name ∈ names) (absent : name ∉ types.members) :
    (missing names (types.insert name)).card < (missing names types).card := by
  apply Finset.card_lt_card
  refine (Finset.ssubset_iff_of_subset (missing_insert_le names types name)).mpr
    ⟨name, Finset.mem_filter.mpr ⟨inside, absent⟩, ?_⟩
  intro mem
  exact (Finset.mem_filter.mp mem).2 ((mem_insert types name name).mpr (.inl rfl))

theorem insert_of_mem {types : ListSet Name} {name : Name} (stored : name ∈ types.members) :
    types.insert name = types := by
  rw [ListSet.insert, dif_pos stored]

theorem expanding_round (closed : ∀ name ∈ names, ∀ next ∈ follow name, next ∈ names)
    {name : Name} {stack : List Name} {current : ListSet Name}
    (expanding : Expanding follow names types root (name :: stack, current)) :
    Expanding follow names types root
      (((follow name).filter fun next => next ∉ current.members).reverse ++ stack,
        current.insert name) := by
  have mem_stack (next : Name) :
      next ∈ ((follow name).filter fun next => next ∉ current.members).reverse ++ stack ↔
        (next ∈ follow name ∧ next ∉ current.members) ∨ next ∈ stack := by
    rw [mem_append, mem_reverse, mem_filter, decide_eq_true_iff]
  have moved (next : Name) (either : next ∈ current.members ∨ next ∈ name :: stack) :
      next ∈ (current.insert name).members ∨
        next ∈ ((follow name).filter fun next => next ∉ current.members).reverse ++ stack := by
    rw [mem_insert, mem_stack]
    rw [mem_cons] at either
    tauto
  have added (next : Name) (follows : next ∈ follow name) : next ∈ (current.insert name).members ∨
        next ∈ ((follow name).filter fun next => next ∉ current.members).reverse ++ stack := by
    rw [mem_insert, mem_stack]
    tauto
  refine ⟨?_, ?_, ?_, ?_, ?_, ?_⟩
  · intro other mem
    exact (mem_insert _ _ _).mpr (.inr (expanding.grows other mem))
  · rcases expanding.started with onStack | ⟨stored, rest⟩
    · rcases mem_cons.mp onStack with rfl | deeper
      · exact .inr ⟨(mem_insert _ _ _).mpr (.inl rfl), added⟩
      · exact .inl (mem_append_right _ deeper)
    · exact .inr ⟨(mem_insert _ _ _).mpr (.inr stored),
        fun next follows => moved next (rest next follows)⟩
  · intro other mem new next follows
    rcases (mem_insert _ _ _).mp mem with rfl | old
    · exact added next follows
    · exact moved next (expanding.fresh other old new next follows)
  · intro other mem
    rcases (mem_insert _ _ _).mp mem with rfl | old
    · exact .inr (expanding.stacked other mem_cons_self)
    · exact expanding.sound other old
  · intro next mem
    rcases (mem_stack next).mp mem with ⟨follows, -⟩ | deeper
    · exact (expanding.stacked name mem_cons_self).tail follows
    · exact expanding.stacked next (mem_cons_of_mem _ deeper)
  · intro next mem
    rcases (mem_stack next).mp mem with ⟨follows, -⟩ | deeper
    · exact closed name (expanding.inside name mem_cons_self) next follows
    · exact expanding.inside next (mem_cons_of_mem _ deeper)

theorem expandCost_round (distinct : ∀ name, (follow name).Nodup)
    (closed : ∀ name ∈ names, ∀ next ∈ follow name, next ∈ names) {name : Name} {stack : List Name}
    {current : ListSet Name} (inside : name ∈ names) :
    expandCost names (((follow name).filter fun next => next ∉ current.members).reverse ++ stack,
        current.insert name) < expandCost names (name :: stack, current) := by
  have few : ((follow name).filter fun next => next ∉ current.members).length ≤ names.card := by
    rw [← toFinset_card_of_nodup ((distinct name).filter _)]
    apply Finset.card_le_card
    intro next mem
    exact closed name inside next (mem_filter.mp (mem_toFinset.mp mem)).1
  have shorter := delay_le names (((follow name).filter fun next => next ∉ current.members).reverse ++ stack,
    current.insert name)
  unfold expandCost
  rw [length_append, length_reverse, length_cons]
  by_cases stored : name ∈ current.members
  · have before : delay names (name :: stack, current) = names.card + 1 := if_pos stored
    rw [before, insert_of_mem stored] at *
    cases pushed : (follow name).filter fun next => next ∉ current.members with
    | nil =>
      rw [pushed] at shorter
      dsimp only [length_nil]
      omega
    | cons first rest =>
      obtain ⟨last, front, split⟩ := exists_cons_of_ne_nil
        (reverse_ne_nil_iff.mpr (cons_ne_nil first rest))
      have listed : last ∈ (follow name).filter fun next => next ∉ current.members := by
        rw [pushed, ← mem_reverse, split]
        exact mem_cons_self
      have new := of_decide_eq_true (mem_filter.mp listed).2
      have after : delay names ((first :: rest).reverse ++ stack, current) = 0 := by
        rw [split, cons_append]
        exact if_neg new
      rw [pushed] at few
      rw [after]
      dsimp only
      omega
  have before : delay names (name :: stack, current) = 0 := if_neg stored
  have fewer := missing_insert_lt inside stored
  have product := Nat.mul_le_mul_left (2 * (names.card + 1)) (Nat.succ_le_of_lt fewer)
  rw [Nat.mul_succ] at product
  rw [before]
  dsimp only
  omega

/-- The rounds that suffice when there are so many names. -/
def expandFuel (count : Nat) : Nat := 2 * (count + 1) * count + count + 3

theorem expand_spec (types : ListSet Name) (distinct : ∀ name, (follow name).Nodup)
    (closed : ∀ name ∈ names, ∀ next ∈ follow name, next ∈ names) (inside : root ∈ names) {fuel : Nat}
    (enough : expandFuel names.card ≤ fuel) :
    ∃ final, expand follow fuel types root = some final ∧ Expands follow types root final := by
  have begun : Expanding follow names types root ([root], types) := by
    refine ⟨fun _ mem => mem, .inl mem_cons_self, ?_, fun _ mem => .inl mem, ?_, ?_⟩
    · exact fun name mem new => absurd mem new
    · intro name mem
      rw [mem_singleton.mp mem]
    intro name mem
    rwa [mem_singleton.mp mem]
  have cheap : expandCost names ([root], types) < fuel := by
    have few : (missing names types).card ≤ names.card := Finset.card_filter_le _ _
    have product := Nat.mul_le_mul_left (2 * (names.card + 1)) few
    have short := delay_le names ([root], types)
    unfold expandCost
    unfold expandFuel at enough
    rw [length_singleton]
    dsimp only
    omega
  have rounds (state : List Name × ListSet Name) (expanding : Expanding follow names types root state) :
      (∃ next, expandRound follow state = some (.next next) ∧ Expanding follow names types root next ∧
          expandCost names next < expandCost names state) ∨
        ∃ last, expandRound follow state = some (.done last) ∧
          Expanding follow names types root last ∧ last.1 = [] := by
    match state, expanding with
    | ([], current), expanding => exact .inr ⟨_, rfl, expanding, rfl⟩
    | (name :: stack, current), expanding =>
      exact .inl ⟨_, rfl, expanding_round closed expanding,
        expandCost_round distinct closed (expanding.inside name mem_cons_self)⟩
  obtain ⟨last, ran, expanding, idle⟩ := whileLoop_spec (expandCost names) _
    (fun last => Expanding follow names types root last ∧ last.1 = []) rounds begun cheap
  rw [expand, ran]
  refine ⟨last.2, rfl, expanding.grows, ?_, ?_, ?_, expanding.sound⟩
  · rcases expanding.started with onStack | ⟨stored, -⟩
    · rw [idle] at onStack
      exact absurd onStack not_mem_nil
    · exact stored
  · intro next follows
    rcases expanding.started with onStack | ⟨-, rest⟩
    · rw [idle] at onStack
      exact absurd onStack not_mem_nil
    have either := rest next follows
    rw [idle] at either
    exact either.resolve_right not_mem_nil
  intro name mem new next follows
  have either := expanding.fresh name mem new next follows
  rw [idle] at either
  exact either.resolve_right not_mem_nil

/-- What several names in a row add. -/
structure ExpandedAll (follow : Name → List Name) (types : ListSet Name) (roots : List Name)
    (final : ListSet Name) : Prop where
  grows : ∀ name ∈ types.members, name ∈ final.members
  here : ∀ root ∈ roots, root ∈ final.members ∧ ∀ next ∈ follow root, next ∈ final.members
  fresh : ∀ name ∈ final.members, name ∉ types.members → ∀ next ∈ follow name, next ∈ final.members
  sound : ∀ name ∈ final.members, name ∈ types.members ∨
    ∃ root ∈ roots, ReflTransGen (Follows follow) root name

theorem expandAll_spec (types : ListSet Name) (distinct : ∀ name, (follow name).Nodup)
    (closed : ∀ name ∈ names, ∀ next ∈ follow name, next ∈ names) {roots : List Name}
    (inside : ∀ root ∈ roots, root ∈ names) {fuel : Nat} (enough : expandFuel names.card ≤ fuel) :
    ∃ final, roots.foldlM (expand follow fuel) types = some final ∧
      ExpandedAll follow types roots final := by
  induction roots generalizing types with
  | nil =>
    exact ⟨types, rfl, fun _ mem => mem, fun root mem => absurd mem not_mem_nil,
      fun name mem new => absurd mem new, fun _ mem => .inl mem⟩
  | cons root roots ih =>
    obtain ⟨middle, ran, first⟩ := expand_spec types distinct closed (inside root mem_cons_self) enough
    obtain ⟨final, ran', rest⟩ := ih middle fun other mem => inside other (mem_cons_of_mem _ mem)
    refine ⟨final, ?_, ?_, ?_, ?_, ?_⟩
    · rwa [foldlM_cons, ran]
    · exact fun name mem => rest.grows name (first.grows name mem)
    · intro other mem
      rcases mem_cons.mp mem with rfl | later
      · exact ⟨rest.grows other first.here,
          fun next follows => rest.grows next (first.followers next follows)⟩
      · exact rest.here other later
    · intro name mem new next follows
      by_cases old : name ∈ middle.members
      · exact rest.grows next (first.fresh name old new next follows)
      · exact rest.fresh name mem old next follows
    · intro name mem
      rcases rest.sound name mem with old | ⟨other, listed, reaches⟩
      · rcases first.sound name old with before | reaches
        · exact .inl before
        · exact .inr ⟨root, mem_cons_self, reaches⟩
      · exact .inr ⟨other, mem_cons_of_mem _ listed, reaches⟩

end Codegraph.Library
