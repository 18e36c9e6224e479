import Codegraph.Sync.Tables
import Mathlib.Data.List.Nodup

namespace Codegraph.Sync.CompilerEdges

open List

inductive Provenance where
  | treeSitter
  | scip
  | heuristic
deriving DecidableEq

structure EdgeRow extends Edge where
  id : Int
  provenance : Option Provenance
deriving DecidableEq

structure EdgeUpdate where
  id : Int
  target : NodeId
  kind : EdgeKind
  metadata : Metadata
  provenance : Option Provenance

namespace EdgeRow

/-- The unique index reads a missing number as minus one. -/
def identity (row : EdgeRow) : NodeId × NodeId × EdgeKind × Int × Int :=
  (row.source, row.target, row.kind, (row.line.map Int.ofNat).getD (-1),
    (row.column.map Int.ofNat).getD (-1))

def set (row : EdgeRow) (change : EdgeUpdate) : EdgeRow :=
  { row with
    target := change.target
    kind := change.kind
    metadata := some change.metadata
    provenance := change.provenance }

@[simp] theorem id_set (row : EdgeRow) (change : EdgeUpdate) : (row.set change).id = row.id := rfl

end EdgeRow

/-- No other row has the identity that the update would give. -/
def isFree (edges : List EdgeRow) (updated : EdgeRow) : Bool :=
  edges.all fun other => other.id = updated.id || other.identity ≠ updated.identity

/-- The statement changes the row. -/
def updates (nodes : List NodeId) (edges : List EdgeRow) (change : EdgeUpdate) (row : EdgeRow) : Bool :=
  row.id = change.id && change.target ∈ nodes && isFree edges (row.set change)

/-- The table after the statement, and the number of changed rows. -/
def updateOrIgnore (nodes : List NodeId) (edges : List EdgeRow) (change : EdgeUpdate) : List EdgeRow × Nat :=
  (edges.map fun row => if updates nodes edges change row then row.set change else row,
    edges.countP (updates nodes edges change))

def deleteEdge (edges : List EdgeRow) (id : Int) : List EdgeRow := edges.filter fun row => row.id ≠ id

def applyUpdate (nodes : List NodeId) (edges : List EdgeRow) (change : EdgeUpdate) : List EdgeRow :=
  let (after, updated) := updateOrIgnore nodes edges change
  if updated = 0 then deleteEdge after change.id else after

/-- The loop over the edge updates of `apply_compiler_changes`. -/
def applyUpdates (nodes : List NodeId) (edges : List EdgeRow) (changes : List EdgeUpdate) : List EdgeRow :=
  changes.foldl (applyUpdate nodes) edges

/-- Row ids and identities are unique. -/
structure IsTable (edges : List EdgeRow) : Prop where
  ids : (edges.map EdgeRow.id).Nodup
  identities : (edges.map EdgeRow.identity).Nodup

/-- The row when all updates are applied at once. -/
def corrected (changes : List EdgeUpdate) (row : EdgeRow) : EdgeRow :=
  match changes.find? fun change => change.id = row.id with
  | some change => row.set change
  | none => row

/-- One of the rows of each identity is kept. -/
structure Merges (rows merged : List EdgeRow) : Prop where
  among : ∀ row ∈ merged, row ∈ rows
  covers : ∀ row ∈ rows, ∃ kept ∈ merged, kept.identity = row.identity
  single : (merged.map EdgeRow.identity).Nodup

/-- An edge is only corrected to the identity of a row that keeps this identity. -/
def Settled (edges : List EdgeRow) (changes : List EdgeUpdate) : Prop :=
  ∀ row ∈ edges, ∀ other ∈ edges, (corrected changes row).identity = other.identity →
    (corrected changes other).identity = other.identity

section Update

variable {nodes : List NodeId} {edges table : List EdgeRow} {change : EdgeUpdate} {changes : List EdgeUpdate}

theorem IsTable.eq_of_id (whole : IsTable edges) {row other : EdgeRow} (mem : row ∈ edges)
    (mem' : other ∈ edges) (same : row.id = other.id) : row = other :=
  inj_on_of_nodup_map whole.ids mem mem' same

theorem IsTable.eq_of_identity (whole : IsTable edges) {row other : EdgeRow} (mem : row ∈ edges)
    (mem' : other ∈ edges) (same : row.identity = other.identity) : row = other :=
  inj_on_of_nodup_map whole.identities mem mem' same

theorem updates_iff (row : EdgeRow) : updates nodes edges change row = true ↔
    row.id = change.id ∧ change.target ∈ nodes ∧
      ∀ other ∈ edges, other.identity = (row.set change).identity → other.id = row.id := by
  simp only [updates, isFree, Bool.and_eq_true, decide_eq_true_eq, all_eq_true, Bool.or_eq_true, and_assoc]
  refine and_congr_right fun _ => and_congr_right fun _ => forall₂_congr fun other _ => ?_
  rw [or_iff_not_imp_right, not_ne_iff, EdgeRow.id_set]

theorem mem_applyUpdate (whole : IsTable edges) (row : EdgeRow) : row ∈ applyUpdate nodes edges change ↔
    row ∈ edges ∧ row.id ≠ change.id ∨
      ∃ old ∈ edges, updates nodes edges change old = true ∧ row = old.set change := by
  have kept {old : EdgeRow} (apart : old.id ≠ change.id) : ¬updates nodes edges change old = true :=
    fun updated => apart ((updates_iff old).mp updated).1
  unfold applyUpdate updateOrIgnore
  dsimp only
  split
  · rename_i none
    have ignored := countP_eq_zero.mp none
    have same : (edges.map fun row => if updates nodes edges change row then row.set change else row) = edges := by
      rw [map_congr_left fun old mem => if_neg (ignored old mem), map_id']
    rw [same, deleteEdge, mem_filter, decide_eq_true_eq]
    constructor
    · exact .inl
    rintro (stays | ⟨old, mem, updated, -⟩)
    · exact stays
    · exact absurd updated (ignored old mem)
  rename_i some
  obtain ⟨hit, mem, updated⟩ := countP_pos_iff.mp (pos_of_ne_zero some)
  rw [mem_map]
  constructor
  · rintro ⟨old, mem', rfl⟩
    split
    · rename_i updated'
      exact .inr ⟨old, mem', updated', rfl⟩
    rename_i stays
    refine .inl ⟨mem', fun same => stays ?_⟩
    have same' := whole.eq_of_id mem' mem (same.trans ((updates_iff hit).mp updated).1.symm)
    rwa [same']
  rintro (⟨mem', apart⟩ | ⟨old, mem', updated', rfl⟩)
  · exact ⟨row, mem', if_neg (kept apart)⟩
  · exact ⟨old, mem', if_pos updated'⟩

theorem IsTable.applyUpdate (whole : IsTable edges) : IsTable (applyUpdate nodes edges change) := by
  unfold CompilerEdges.applyUpdate updateOrIgnore
  dsimp only
  have ids : (edges.map fun row => if updates nodes edges change row then row.set change else row).map
      EdgeRow.id = edges.map EdgeRow.id := by
    rw [map_map]
    refine map_congr_left fun row _ => ?_
    rw [Function.comp_apply]
    split <;> rfl
  have identities : ((edges.map fun row =>
      if updates nodes edges change row then row.set change else row).map EdgeRow.identity).Nodup := by
    rw [map_map]
    refine whole.ids.of_map.map_on fun row mem other mem' same => ?_
    rw [Function.comp_apply, Function.comp_apply] at same
    split at same
    · rename_i updated
      have free := ((updates_iff row).mp updated).2.2
      split at same
      · rename_i updated'
        exact whole.eq_of_id mem mem'
          (((updates_iff row).mp updated).1.trans ((updates_iff other).mp updated').1.symm)
      · exact whole.eq_of_id mem mem' (free other mem' same.symm).symm
    split at same
    · rename_i updated'
      exact whole.eq_of_id mem mem' (((updates_iff other).mp updated').2.2 row mem same)
    · exact whole.eq_of_identity mem mem' same
  split
  · exact ⟨(filter_sublist.map _).nodup (ids ▸ whole.ids), (filter_sublist.map _).nodup identities⟩
  · exact ⟨ids ▸ whole.ids, identities⟩

theorem corrected_of_mem (distinct : (changes.map EdgeUpdate.id).Nodup) (listed : change ∈ changes)
    {row : EdgeRow} (same : row.id = change.id) : corrected changes row = row.set change := by
  have found : changes.find? (fun other => other.id = row.id) = some change := by
    cases search : changes.find? fun other => other.id = row.id with
    | none => exact absurd same.symm (by simpa using find?_eq_none.mp search change listed)
    | some other =>
      have hit : other.id = row.id := by simpa using find?_some search
      rw [inj_on_of_nodup_map distinct (mem_of_find?_eq_some search) listed (hit.trans same)]
  rw [corrected, found]

theorem corrected_of_not_mem {row : EdgeRow} (absent : row.id ∉ changes.map EdgeUpdate.id) :
    corrected changes row = row := by
  have none : changes.find? (fun change => change.id = row.id) = none := by
    refine find?_eq_none.mpr fun change listed same => absent ?_
    rw [← decide_eq_true_eq.mp same]
    exact mem_map_of_mem listed
  rw [corrected, none]

theorem id_corrected (row : EdgeRow) : (corrected changes row).id = row.id := by
  unfold corrected
  split <;> rfl

end Update

/-- The table between two updates of the list: the rows of the remaining updates still wait. -/
structure Between (edges : List EdgeRow) (changes rest : List EdgeUpdate) (table : List EdgeRow) : Prop where
  whole : IsTable table
  waits : ∀ row ∈ edges, row.id ∈ rest.map EdgeUpdate.id → row ∈ table
  done : ∀ row ∈ edges, row.id ∉ rest.map EdgeUpdate.id →
    ∃ kept ∈ table, kept.identity = (corrected changes row).identity
  among : ∀ kept ∈ table, ∃ row ∈ edges, (row.id ∈ rest.map EdgeUpdate.id ∧ kept = row) ∨
      (row.id ∉ rest.map EdgeUpdate.id ∧ kept = corrected changes row)

section Orders

variable {nodes : List NodeId} {edges table : List EdgeRow} {changes rest : List EdgeUpdate} {change : EdgeUpdate}

theorem Between.stored_of_turn (between : Between edges changes (change :: rest) table) {kept : EdgeRow}
    (mem : kept ∈ table) (turn : kept.id = change.id) : kept ∈ edges := by
  obtain ⟨start, stored, ⟨-, rfl⟩ | ⟨absent, rfl⟩⟩ := between.among kept mem
  · exact stored
  · rw [id_corrected] at turn
    exact absurd (mem_cons.mpr (.inl turn)) absent

theorem Between.step (between : Between edges changes (change :: rest) table) (settled : Settled edges changes)
    (distinct : (changes.map EdgeUpdate.id).Nodup) (listed : change ∈ changes)
    (fresh : change.id ∉ rest.map EdgeUpdate.id) (exist : change.target ∈ nodes) :
    Between edges changes rest (applyUpdate nodes table change) := by
  have later {row : EdgeRow} (apart : row.id ≠ change.id) :
      row.id ∈ (change :: rest).map EdgeUpdate.id ↔ row.id ∈ rest.map EdgeUpdate.id := by
    rw [map_cons, mem_cons, or_iff_right apart]
  have stays {kept : EdgeRow} (mem : kept ∈ table) (apart : kept.id ≠ change.id) :
      kept ∈ applyUpdate nodes table change := (mem_applyUpdate between.whole kept).mpr (.inl ⟨mem, apart⟩)
  have moves {row : EdgeRow} (mem : row ∈ table) (updated : updates nodes table change row = true) :
      row.set change ∈ applyUpdate nodes table change :=
    (mem_applyUpdate between.whole _).mpr (.inr ⟨row, mem, updated, rfl⟩)
  refine ⟨between.whole.applyUpdate, ?_, ?_, ?_⟩
  · intro row stored waiting
    have apart : row.id ≠ change.id := fun same => fresh (same ▸ waiting)
    exact stays (between.waits row stored ((later apart).mpr waiting)) apart
  · intro row stored absent
    by_cases turn : row.id = change.id
    · have mem := between.waits row stored (turn ▸ mem_cons_self)
      rw [corrected_of_mem distinct listed turn]
      by_cases updated : updates nodes table change row = true
      · exact ⟨row.set change, moves mem updated, rfl⟩
      rw [updates_iff] at updated
      push Not at updated
      obtain ⟨other, mem', same, apart⟩ := updated turn exist
      exact ⟨other, stays mem' (turn ▸ apart), same⟩
    obtain ⟨kept, mem, same⟩ := between.done row stored fun waiting => absent ((later turn).mp waiting)
    by_cases turn' : kept.id = change.id
    · -- The row that holds the identity keeps it, so its own update is not ignored.
      have stored' := between.stored_of_turn mem turn'
      have keeps := settled row stored kept stored' same.symm
      rw [corrected_of_mem distinct listed turn'] at keeps
      refine ⟨kept.set change, moves mem ((updates_iff kept).mpr ⟨turn', exist, ?_⟩), keeps.trans same⟩
      intro other mem' same'
      rw [between.whole.eq_of_identity mem' mem (same'.trans keeps)]
    · exact ⟨kept, stays mem turn', same⟩
  intro kept mem
  rcases (mem_applyUpdate between.whole kept).mp mem with ⟨before, apart⟩ | ⟨old, before, updated, rfl⟩
  · obtain ⟨start, stored, state⟩ := between.among kept before
    have same : start.id = kept.id := by
      rcases state with ⟨-, rfl⟩ | ⟨-, rfl⟩
      · rfl
      · exact (id_corrected start).symm
    rw [later (same ▸ apart)] at state
    exact ⟨start, stored, state⟩
  have turn := ((updates_iff old).mp updated).1
  exact ⟨old, between.stored_of_turn before turn,
    .inr ⟨turn ▸ fresh, (corrected_of_mem distinct listed turn).symm⟩⟩

theorem Between.run (between : Between edges changes rest table) (settled : Settled edges changes)
    (distinct : (changes.map EdgeUpdate.id).Nodup) (listed : ∀ change ∈ rest, change ∈ changes)
    (fresh : (rest.map EdgeUpdate.id).Nodup) (exist : ∀ change ∈ changes, change.target ∈ nodes) :
    Between edges changes [] (applyUpdates nodes table rest) := by
  induction rest generalizing table with
  | nil => exact between
  | cons change rest ih =>
    obtain ⟨listed', listed⟩ := forall_mem_cons.mp listed
    obtain ⟨fresh', fresh⟩ := nodup_cons.mp fresh
    exact ih (between.step settled distinct listed' fresh' (exist change listed')) listed fresh

theorem applyUpdates_waits (whole : IsTable edges) {row : EdgeRow} (mem : row ∈ edges)
    (absent : row.id ∉ changes.map EdgeUpdate.id) :
    IsTable (applyUpdates nodes edges changes) ∧ row ∈ applyUpdates nodes edges changes := by
  induction changes generalizing edges with
  | nil => exact ⟨whole, mem⟩
  | cons change changes ih =>
    rw [map_cons, mem_cons, not_or] at absent
    obtain ⟨apart, absent⟩ := absent
    exact ih whole.applyUpdate ((mem_applyUpdate whole row).mpr (.inl ⟨mem, apart⟩)) absent

end Orders

instance (edges : List EdgeRow) (changes : List EdgeUpdate) : Decidable (Settled edges changes) :=
  inferInstanceAs (Decidable (∀ row ∈ edges, ∀ other ∈ edges, _ → _))

def edgeTo (id : Int) (target : NodeId) : EdgeRow :=
  { source := "main", target := target, kind := .calls, metadata := none, line := some 3, column := some 4,
    id := id, provenance := some .treeSitter }

def retarget (id : Int) (target : NodeId) : EdgeUpdate := ⟨id, target, .calls, ∅, some .scip⟩

end Codegraph.Sync.CompilerEdges
