import Mathlib.Algebra.BigOperators.Group.Finset.Piecewise
import Mathlib.Algebra.Order.BigOperators.Group.Finset
import Mathlib.Logic.Relation
import Mathlib.Tactic

namespace Codegraph.Library

open Relation Option Function Finset

variable {Shared Worker Choice : Type} {threads : Nat}

structure Config (Shared Worker : Type) (threads : Nat) where
  shared : Shared
  workers : Fin threads → Worker

namespace Config

/-- One worker and the shared state are replaced. -/
def set (config : Config Shared Worker threads) (worker : Fin threads) (shared : Shared)
    (moved : Worker) : Config Shared Worker threads :=
  ⟨shared, Function.update config.workers worker moved⟩

variable (config : Config Shared Worker threads)

variable (worker : Fin threads)

theorem set_self (shared : Shared)
    (moved : Worker) : (config.set worker shared moved).workers worker = moved :=
  update_self _ _ _

theorem set_of_ne {worker other : Fin threads}
    (distinct : other ≠ worker) {shared : Shared} {moved : Worker} :
    (config.set worker shared moved).workers other = config.workers other :=
  update_of_ne distinct _ _

theorem set_set (first second : Shared) (before after : Worker) :
    (config.set worker first before).set worker second after = config.set worker second after := by
  unfold set
  rw [update_idem]

theorem set_cases (shared : Shared) (moved : Worker) (other : Fin threads) :
    other = worker ∧ (config.set worker shared moved).workers other = moved ∨
      (config.set worker shared moved).workers other = config.workers other := by
  by_cases same : other = worker
  · exact .inl ⟨same, same ▸ set_self config other shared moved⟩
  · exact .inr (set_of_ne config same)

/-- One worker moves and the others wait. A choice is what the worker sees of its surroundings. -/
def step (move : Choice → Shared → Worker → Option (Shared × Worker)) (choice : Choice)
    (worker : Fin threads) (config : Config Shared Worker threads) :
    Option (Config Shared Worker threads) :=
  (move choice config.shared (config.workers worker)).map fun moved => config.set worker moved.1 moved.2

/-- The sum of a quantity over all workers. -/
def total {Quantity : Type} [AddCommMonoid Quantity] (measure : Worker → Quantity)
    (config : Config Shared Worker threads) : Quantity :=
  ∑ worker, measure (config.workers worker)

theorem total_set {Quantity : Type} [AddCommMonoid Quantity] (measure : Worker → Quantity)
    (config : Config Shared Worker threads) (worker : Fin threads) (shared : Shared)
    (moved : Worker) :
    ∃ rest, config.total measure = measure (config.workers worker) + rest ∧
      (config.set worker shared moved).total measure = measure moved + rest := by
  refine ⟨∑ other ∈ univ \ {worker}, measure (config.workers other), ?_, ?_⟩
  · rw [total, ← sum_singleton (fun other => measure (config.workers other)) worker, add_comm,
      sum_sdiff (subset_univ _)]
  change ∑ other, measure (update config.workers worker moved other) = _
  have composed : (fun other => measure (update config.workers worker moved other)) =
      update (fun other => measure (config.workers other)) worker (measure moved) := by
    funext other
    exact apply_update (fun _ => measure) config.workers worker moved other
  rw [composed, sum_update_of_mem (mem_univ worker)]

end Config

/-- Some worker moves under an allowed choice. -/
def Moves (move : Choice → Shared → Worker → Option (Shared × Worker)) (allowed : Choice → Prop)
    (before after : Config Shared Worker threads) : Prop :=
  ∃ choice worker, allowed choice ∧ before.step move choice worker = some after

variable {move : Choice → Shared → Worker → Option (Shared × Worker)} {allowed : Choice → Prop}

theorem Moves.cases {before after : Config Shared Worker threads} (moves : Moves move allowed before after) :
    ∃ choice worker shared moved, allowed choice ∧
      move choice before.shared (before.workers worker) = some (shared, moved) ∧
      after = before.set worker shared moved := by
  obtain ⟨choice, worker, fine, stepped⟩ := moves
  obtain ⟨⟨shared, moved⟩, done, same⟩ := map_eq_some_iff.mp stepped
  exact ⟨choice, worker, shared, moved, fine, done, same.symm⟩

/-- The workers of a schedule move one after the other under one choice. -/
def Config.follow (move : Choice → Shared → Worker → Option (Shared × Worker)) (choice : Choice) :
    List (Fin threads) → Config Shared Worker threads → Option (Config Shared Worker threads)
  | [], config => some config
  | worker :: schedule, config =>
    (config.step move choice worker).bind (Config.follow move choice schedule)

theorem run_of_follow {choice : Choice} (fine : allowed choice) {schedule : List (Fin threads)}
    {start final : Config Shared Worker threads}
    (followed : Config.follow move choice schedule start = some final) :
    ReflTransGen (Moves move allowed) start final := by
  induction schedule generalizing start with
  | nil =>
    obtain rfl := some.inj followed
    exact .refl
  | cons worker schedule ih =>
    obtain ⟨moved, stepped, rest⟩ := bind_eq_some_iff.mp followed
    exact .head ⟨choice, worker, fine, stepped⟩ (ih rest)

theorem exists_run {choice : Choice} (fine : allowed choice) {schedule : List (Fin threads)}
    {start : Config Shared Worker threads} {check : Config Shared Worker threads → Bool}
    (followed : (Config.follow move choice schedule start).any check) :
    ∃ final, ReflTransGen (Moves move allowed) start final ∧ check final := by
  obtain ⟨final, reached, checked⟩ := (any_eq_true _ _).mp followed
  exact ⟨final, run_of_follow fine reached, checked⟩

theorem run_preserves {Inv : Config Shared Worker threads → Prop}
    (keeps : ∀ before after, Inv before → Moves move allowed before after → Inv after)
    {start final : Config Shared Worker threads}
    (run : ReflTransGen (Moves move allowed) start final) (holds : Inv start) : Inv final := by
  induction run with
  | refl => exact holds
  | tail _ moves ih => exact keeps _ _ ih moves

theorem moves_falls {room : Shared → Nat} {weight : Worker → Nat}
    (falls : ∀ choice shared worker shared' worker', move choice shared worker = some (shared', worker') →
        room shared' + weight worker' < room shared + weight worker)
    {before after : Config Shared Worker threads} (moves : Moves move allowed before after) :
    room after.shared + after.total weight < room before.shared + before.total weight := by
  obtain ⟨choice, worker, shared, moved, _, done, rfl⟩ := moves.cases
  obtain ⟨rest, first, second⟩ := before.total_set weight worker shared moved
  have less := falls choice _ _ shared moved done
  rw [first, second]
  change room shared + _ < _
  omega

theorem run_finishes {room : Shared → Nat} {weight : Worker → Nat} {ended : Worker → Prop}
    (falls : ∀ choice shared worker shared' worker', move choice shared worker = some (shared', worker') →
        room shared' + weight worker' < room shared + weight worker)
    {choice : Choice} (fine : allowed choice)
    (moves : ∀ shared worker, ¬ ended worker → (move choice shared worker).isSome)
    (start : Config Shared Worker threads) :
    ∃ final, ReflTransGen (Moves move allowed) start final ∧ ∀ worker, ended (final.workers worker) := by
  induction size : room start.shared + start.total weight using Nat.strong_induction_on
    generalizing start with
  | _ size ih =>
    by_cases done : ∀ worker, ended (start.workers worker)
    · exact ⟨start, .refl, done⟩
    push Not at done
    obtain ⟨worker, waits⟩ := done
    obtain ⟨moved, stepped⟩ := isSome_iff_exists.mp (moves start.shared _ waits)
    have first : Moves move allowed start
        (start.set worker moved.1 moved.2) :=
      ⟨choice, worker, fine, map_eq_some_iff.mpr ⟨moved, stepped, rfl⟩⟩
    obtain ⟨final, run, ended⟩ := ih _ (size ▸ moves_falls falls first) _ rfl
    exact ⟨final, .head first run, ended⟩

end Codegraph.Library
