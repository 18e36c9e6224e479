import Codegraph.Ir.Semantics

namespace Codegraph

open Library List Blocks

namespace Blocks

theorem targetsOf_congr {first second : Blocks} (starts : first.starts = second.starts)
    (len : first.len = second.len) (func : IrFunction) (constants : Dict Nat Bool) (block : Nat) :
    first.targetsOf func constants block = second.targetsOf func constants block := by
  cases first
  cases second
  cases starts
  cases len
  rfl

variable (func : IrFunction)

variable (constants : Dict Nat Bool)

/-- The graph has exactly the edges to the targets of each block. -/
theorem build_edge (first second : Nat) :
    (build func constants).edge first second ↔ first < (build func constants).blockCount ∧
      second ∈ (build func constants).targetsOf func constants first := by
  have edges := (linked_spec func constants).2.2.2 first second
  have count : (build func constants).blockCount = (layout func).blockCount := by
    rw [blockCount, build_starts]
    rfl
  have targets : (build func constants).targetsOf func constants first =
      (layout func).targetsOf func constants first :=
    targetsOf_congr (build_starts func constants) (build_len func constants) func constants first
  rw [count, targets, ← edges]
  exact Iff.rfl

theorem endOf_le (block : Nat) :
    (build func constants).endOf block ≤ func.body.length := by
  by_cases next : block + 1 < (build func constants).starts.length
  · rw [endOf_eq next]
    have listed : (build func constants).starts[block + 1] ∈ startsOf func.body := by
      rw [← build_starts func constants]
      exact getElem_mem next
    exact le_of_lt (mem_startsOf.mp listed).1
  · rw [endOf_last (Nat.le_of_not_lt next), build_len]

/-- An operation that leaves its block is the last of it. -/
theorem endOf_of_endsBlock {op : IrOp}
    {position block : Nat} (fetched : func.body[position]? = some op) (ends : op.endsBlock = true)
    (here : (build func constants).blockOf position = some block) :
    (build func constants).endOf block = position + 1 := by
  have sorted := build_sorted func constants
  obtain ⟨within, inside, below, above⟩ := (blockOf_eq_some sorted).mp here
  refine le_antisymm ?_ (Nat.succ_le_of_lt above)
  by_cases next : position + 1 < func.body.length
  · -- What follows the operation is a leader, so the next block starts no later.
    have leader : position + 1 ∈ (build func constants).starts := by
      rw [build_starts, mem_startsOf]
      exact ⟨next, by simp [isLeader, fetched, ends]⟩
    obtain ⟨later, bound, found⟩ := getElem_of_mem leader
    have ascending := pairwise_iff_getElem.mp sorted
    have inside' : block < (build func constants).starts.length := inside
    rw [startOf_eq inside'] at below
    have after : block < later := by
      by_contra early
      rcases Nat.lt_or_eq_of_le (Nat.le_of_not_lt early) with earlier | rfl
      · have := ascending later block bound inside' earlier
        omega
      · omega
    have next' : block + 1 < (build func constants).starts.length := by omega
    rw [endOf_eq next', ← found]
    rcases Nat.lt_or_eq_of_le (Nat.succ_le_of_lt after) with farther | rfl
    · exact le_of_lt (ascending (block + 1) later next' bound farther)
    · exact le_refl _
  · have last := endOf_le func constants block
    omega

/-- An execution stays in its block with the next operation or leaves its end along an edge. -/
def Follows (blocks : Blocks) (position next : Nat) : Prop :=
  ∀ block', blocks.blockOf next = some block' → ∃ block, blocks.blockOf position = some block ∧
    ((block' = block ∧ next = position + 1 ∧ next < blocks.endOf block) ∨
      (blocks.endOf block = position + 1 ∧ blocks.edge block block'))

theorem blockOf_of_fetched {op : IrOp}
    {position : Nat} (fetched : func.body[position]? = some op) :
    ∃ block, (build func constants).blockOf position = some block := by
  have inside := (List.getElem?_eq_some_iff.mp fetched).1
  have first : 0 ∈ (build func constants).starts := by
    rw [build_starts, mem_startsOf]
    exact ⟨by omega, by simp [isLeader]⟩
  have counted : 0 < upTo (build func constants).starts position :=
    countP_pos_iff.mpr ⟨0, first, by simp⟩
  rw [blockOf, build_len, if_neg (by omega)]
  cases found : upTo (build func constants).starts position with
  | zero => omega
  | succ block => exact ⟨block, rfl⟩

theorem blockOf_succ {position block block' : Nat}
    (here : (build func constants).blockOf position = some block)
    (next : (build func constants).blockOf (position + 1) = some block') :
    (block' = block ∧ position + 1 < (build func constants).endOf block) ∨
      (block' = block + 1 ∧ (build func constants).endOf block = position + 1) := by
  have sorted := build_sorted func constants
  obtain ⟨within, inside, below, above⟩ := (blockOf_eq_some sorted).mp here
  by_cases same : position + 1 < (build func constants).endOf block
  · have stays : (build func constants).blockOf (position + 1) = some block := by
      rw [blockOf_eq_some sorted]
      exact ⟨((blockOf_eq_some sorted).mp next).1, inside, by omega, same⟩
    rw [next] at stays
    exact .inl ⟨Option.some.inj stays, same⟩
  have ended : (build func constants).endOf block = position + 1 := by omega
  have within' := ((blockOf_eq_some sorted).mp next).1
  have more : block + 1 < (build func constants).starts.length := by
    by_contra last
    rw [endOf_last (Nat.le_of_not_lt last)] at ended
    omega
  have starts : (build func constants).startOf (block + 1) = position + 1 := by
    rw [startOf_eq more, ← endOf_eq more, ended]
  have moves : (build func constants).blockOf (position + 1) = some (block + 1) := by
    rw [blockOf_eq_some sorted]
    refine ⟨within', more, by omega, ?_⟩
    by_cases further : block + 1 + 1 < (build func constants).starts.length
    · have ascending := pairwise_iff_getElem.mp sorted (block + 1) (block + 1 + 1) more further
        (by omega)
      rw [endOf_eq further]
      rw [startOf_eq more] at starts
      omega
    · rwa [endOf_last (Nat.le_of_not_lt further)]
  rw [next] at moves
  exact .inr ⟨Option.some.inj moves, ended⟩

end Blocks

namespace Exec

/-- A branch with a constant condition goes the way the constant says. -/
def Agrees (interp : Interp) (func : IrFunction) (constants : Dict Nat Bool) (config : Config) : Prop :=
  ∀ cond target outcome, func.body[config.pc]? = some (.branch cond target) →
    constants.get config.pc = some outcome →
    interp.isTrue (interp.operand config.env cond) = outcome

theorem target_edge {func : IrFunction} {constants : Dict Nat Bool} {position block block' : Nat}
    {op : IrOp} (fetched : func.body[position]? = some op)
    (here : (Blocks.build func constants).blockOf position = some block)
    (ended : (Blocks.build func constants).endOf block = position + 1)
    (mem : block' ∈ match op with
      | .jump target => ((Blocks.build func constants).targetBlock func target).toList
      | .branch _ target =>
        (if constants.get position ≠ some false then
          ((Blocks.build func constants).targetBlock func target).toList else []) ++
        (if constants.get position ≠ some true then
          ((Blocks.build func constants).fallthrough block).toList else [])
      | .ret _ => []
      | _ => ((Blocks.build func constants).fallthrough block).toList) :
    (Blocks.build func constants).edge block block' := by
  have inside := ((blockOf_eq_some (build_sorted func constants)).mp here).2.1
  rw [build_edge]
  refine ⟨inside, ?_⟩
  rw [Blocks.targetsOf, ended, Nat.add_sub_cancel]
  dsimp only
  rw [fetched]
  cases op <;> exact mem

theorem step_follows {interp : Interp} {func : IrFunction} {constants : Dict Nat Bool}
    {config next : Config} (agrees : Agrees interp func constants config)
    (moved : Step interp func config next) :
    (Blocks.build func constants).Follows config.pc next.pc := by
  have sorted := build_sorted func constants
  have sequential {op : IrOp} (fetched : func.body[config.pc]? = some op)
      (falls : ∀ block, block + 1 < (Blocks.build func constants).blockCount →
        (Blocks.build func constants).endOf block = config.pc + 1 →
        (Blocks.build func constants).blockOf config.pc = some block →
        (Blocks.build func constants).edge block (block + 1)) :
      (Blocks.build func constants).Follows config.pc (config.pc + 1) := by
    intro block' there
    obtain ⟨block, here⟩ := blockOf_of_fetched func constants fetched
    refine ⟨block, here, ?_⟩
    rcases blockOf_succ func constants here there with ⟨same, within⟩ | ⟨rfl, ended⟩
    · exact .inl ⟨same, rfl, within⟩
    · have inside := ((blockOf_eq_some sorted).mp there).2.1
      exact .inr ⟨ended, falls block inside ended here⟩
  have falls {block : Nat} (inside : block + 1 < (Blocks.build func constants).blockCount) :
      block + 1 ∈ ((Blocks.build func constants).fallthrough block).toList :=
    Option.mem_toList.mpr (fallthrough_eq_some.mpr ⟨rfl, inside⟩)
  have goes {label : Label} {index block' : Nat} (found : func.labels.get label = some index)
      (there : (Blocks.build func constants).blockOf index = some block') :
      block' ∈ ((Blocks.build func constants).targetBlock func label).toList := by
    rwa [Option.mem_toList, Blocks.targetBlock, found]
  cases moved with
  | @define op dst value fetched defines result =>
    refine sequential fetched fun block inside ended here => target_edge fetched here ended ?_
    cases op <;> first | exact falls inside | contradiction
  | @pass op fetched defines stays =>
    refine sequential fetched fun block inside ended here => target_edge fetched here ended ?_
    cases op <;> first | exact falls inside | contradiction
  | @taken cond target index fetched holds found =>
    intro block' there
    obtain ⟨block, here⟩ := blockOf_of_fetched func constants fetched
    have ended := endOf_of_endsBlock func constants fetched rfl here
    refine ⟨block, here, .inr ⟨ended, target_edge fetched here ended ?_⟩⟩
    apply mem_append_left
    rw [if_pos]
    · exact goes found there
    · intro never
      rw [agrees cond target false fetched never] at holds
      contradiction
  | @fallthrough cond target fetched fails =>
    refine sequential fetched fun block inside ended here => target_edge fetched here ended ?_
    apply mem_append_right
    rw [if_pos]
    · exact falls inside
    · intro always
      rw [agrees cond target true fetched always] at fails
      contradiction
  | @jump target index fetched found =>
    intro block' there
    obtain ⟨block, here⟩ := blockOf_of_fetched func constants fetched
    have ended := endOf_of_endsBlock func constants fetched rfl here
    exact ⟨block, here, .inr ⟨ended, target_edge fetched here ended (goes found there)⟩⟩

end Exec

end Codegraph
