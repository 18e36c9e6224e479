import Mathlib.Logic.Function.Basic
import Mathlib.Tactic

namespace Codegraph.Deps

open Option

inductive ShardState where
  | missing
  | building
  | ready
  | cutShort
  | unavailable
  | failed
deriving DecidableEq

/-- A shard directory exists for this state. -/
def ShardState.hasShard : ShardState → Bool
  | .ready | .cutShort => true
  | _ => false

/-- A shard that a budget cut short is partial. -/
structure ShardMeta (Key : Type) where
  key : Key
  truncated : Bool
deriving DecidableEq

def ShardMeta.state {Key : Type} (metadata : ShardMeta Key) : ShardState :=
  if metadata.truncated then .cutShort else .ready

/-- A version from a local path is never built. -/
structure PackageRow where
  path : Bool
  state : ShardState
  error : Option String
deriving DecidableEq

/-- A project uses a version, and it may have the source of the version. -/
structure Usage (Key Root : Type) where
  root : Root
  key : Key
  located : Bool
deriving DecidableEq

/-- What a project records about a version that it uses. -/
structure LocatedDep (Key : Type) where
  key : Key
  path : Bool
  located : Bool
deriving DecidableEq

structure Registry (Key Root : Type) where
  packages : Key → Option PackageRow
  usages : List (Usage Key Root)

namespace Registry

variable {Key Root : Type} [DecidableEq Key] [DecidableEq Root]

def empty : Registry Key Root := ⟨fun _ => none, []⟩

/-- The row of a version is updated if there is one. -/
def updateRow (registry : Registry Key Root) (key : Key) (change : PackageRow → PackageRow) :
    Registry Key Root :=
  { registry with
    packages := Function.update registry.packages key ((registry.packages key).map change) }

def hasSource (registry : Registry Key Root) (key : Key) : Bool :=
  registry.usages.any fun usage => usage.key = key ∧ usage.located

/-- A version with a source that can be built is missing its shard. -/
def withoutShard (registry : Registry Key Root) (key : Key) (row : PackageRow) : ShardState :=
  if ¬row.path ∧ registry.hasSource key then .missing else .unavailable

def markBuilding (registry : Registry Key Root) (key : Key) : Registry Key Root :=
  registry.updateRow key fun row => { row with state := .building, error := none }

def markFailed (registry : Registry Key Root) (key : Key) (error : String) : Registry Key Root :=
  registry.updateRow key fun row => { row with state := .failed, error := some error }

def markNoSources (registry : Registry Key Root) (key : Key) : Registry Key Root :=
  registry.updateRow key fun row =>
    { row with state := .unavailable, error := some "no library sources" }

def markMissing (registry : Registry Key Root) (key : Key) : Registry Key Root :=
  registry.updateRow key fun row => { row with state := registry.withoutShard key row, error := none }

def markBuilt (registry : Registry Key Root) (metadata : ShardMeta Key) : Registry Key Root :=
  registry.updateRow metadata.key fun row => { row with state := metadata.state, error := none }

/-- The usages of a project are replaced, and new versions have no shard. -/
def replaceUsages (registry : Registry Key Root) (root : Root) (deps : List (LocatedDep Key)) :
    Registry Key Root where
  packages key := (registry.packages key).or
    ((deps.find? (·.key = key)).map fun dep => ⟨dep.path, .missing, none⟩)
  usages := registry.usages.filter (·.root ≠ root) ++ deps.map fun dep => ⟨root, dep.key, dep.located⟩

/-- The versions of a project without a shard and an error are buildable if they have a source. -/
def relocate (registry : Registry Key Root) (root : Root) : Registry Key Root :=
  { registry with
    packages := fun key => (registry.packages key).map fun row =>
      if (row.state = .missing ∨ row.state = .unavailable) ∧ row.error = none ∧
          registry.usages.any (fun usage => usage.root = root ∧ usage.key = key) then
        { row with state := registry.withoutShard key row }
      else row }

def recordProject (registry : Registry Key Root) (root : Root) (deps : List (LocatedDep Key)) :
    Registry Key Root := (registry.replaceUsages root deps).relocate root

def deleteProject (registry : Registry Key Root) (root : Root) : Registry Key Root :=
  { registry with usages := registry.usages.filter (·.root ≠ root) }

def users (registry : Registry Key Root) (key : Key) : Bool := registry.usages.any (·.key = key)

/-- A version without users keeps its row while it has a shard. -/
def deleteUnusedPackages (registry : Registry Key Root) : Registry Key Root :=
  { registry with
    packages := fun key => (registry.packages key).filter fun row =>
      row.state.hasShard || registry.users key }

/-- A version whose row says that its shard directory exists. -/
def lists (registry : Registry Key Root) (key : Key) : Bool :=
  (registry.packages key).any (·.state.hasShard)

section Listed

variable {registry : Registry Key Root}

theorem lists_iff {key : Key} : registry.lists key = true ↔
    ∃ row, registry.packages key = some row ∧ row.state.hasShard = true := by
  exact any_eq_true _ _

variable {key other : Key}

theorem lists_updateRow {change : PackageRow → PackageRow}
    (listed : (registry.updateRow key change).lists other = true) :
    other = key ∧ (∃ row, registry.packages key = some row ∧ (change row).state.hasShard = true) ∨
      other ≠ key ∧ registry.lists other = true := by
  obtain ⟨row, found, has⟩ := lists_iff.mp listed
  unfold updateRow at found
  dsimp only at found
  by_cases same : other = key
  · subst same
    rw [Function.update_self] at found
    obtain ⟨old, stored, rfl⟩ := map_eq_some_iff.mp found
    exact .inl ⟨rfl, old, stored, has⟩
  · rw [Function.update_of_ne same] at found
    exact .inr ⟨same, lists_iff.mpr ⟨row, found, has⟩⟩

theorem lists_of_unlisting {change : PackageRow → PackageRow}
    (takes : ∀ row, (change row).state.hasShard = false)
    (listed : (registry.updateRow key change).lists other = true) :
    other ≠ key ∧ registry.lists other = true := by
  rcases lists_updateRow listed with ⟨-, row, -, has⟩ | other
  · rw [takes row] at has
    cases has
  · exact other

theorem lists_markBuilding
    (listed : (registry.markBuilding key).lists other = true) : registry.lists other = true :=
  (lists_of_unlisting (fun _ => rfl) listed).2

theorem lists_markFailed {error : String}
    (listed : (registry.markFailed key error).lists other = true) : registry.lists other = true :=
  (lists_of_unlisting (fun _ => rfl) listed).2

theorem lists_markNoSources
    (listed : (registry.markNoSources key).lists other = true) : registry.lists other = true :=
  (lists_of_unlisting (fun _ => rfl) listed).2

theorem withoutShard_hasShard (key : Key) (row : PackageRow) :
    (registry.withoutShard key row).hasShard = false := by
  unfold withoutShard
  split <;> rfl

theorem lists_markMissing (listed : (registry.markMissing key).lists other = true) :
    other ≠ key ∧ registry.lists other = true :=
  lists_of_unlisting (fun row => withoutShard_hasShard key row) listed

theorem lists_markBuilt {metadata : ShardMeta Key} {other : Key}
    (listed : (registry.markBuilt metadata).lists other = true) :
    other = metadata.key ∨ registry.lists other = true := by
  rcases lists_updateRow listed with ⟨same, -⟩ | ⟨-, old⟩
  · exact .inl same
  · exact .inr old

theorem lists_recordProject {root : Root} {deps : List (LocatedDep Key)} {other : Key}
    (listed : (registry.recordProject root deps).lists other = true) :
    registry.lists other = true := by
  obtain ⟨row, found, has⟩ := lists_iff.mp listed
  obtain ⟨recorded, stored, rfl⟩ := map_eq_some_iff.mp found
  split at has
  · rw [withoutShard_hasShard] at has
    cases has
  dsimp only [replaceUsages] at stored
  cases known : registry.packages other with
  | some old =>
    rw [known, some_or] at stored
    cases stored
    exact lists_iff.mpr ⟨_, known, has⟩
  | none =>
    rw [known, none_or] at stored
    obtain ⟨dep, -, rfl⟩ := map_eq_some_iff.mp stored
    cases has

theorem lists_deleteProject {root : Root} {other : Key}
    (listed : (registry.deleteProject root).lists other = true) : registry.lists other = true :=
  listed

theorem lists_deleteUnusedPackages {other : Key}
    (listed : registry.deleteUnusedPackages.lists other = true) : registry.lists other = true := by
  obtain ⟨row, found, has⟩ := lists_iff.mp listed
  exact lists_iff.mpr ⟨row, (filter_eq_some_iff.mp found).1, has⟩

end Listed

end Registry

end Codegraph.Deps
