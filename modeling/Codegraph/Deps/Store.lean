import Codegraph.Library.Interleaving
import Codegraph.Deps.Registry

namespace Codegraph.Deps

open Library

/-- A directory with a meta file, and whether the build that filled it was finished. -/
structure Shard (Key : Type) where
  metadata : ShardMeta Key
  whole : Bool
deriving DecidableEq

/-- What a build did under the lock. -/
inductive BuildOutcome (Key : Type) where
  | built (metadata : ShardMeta Key)
  | upToDate (metadata : ShardMeta Key)
  | noSources
  | failed (error : String)
deriving DecidableEq

/-- Where a build or a collection stands. The working directory of a build, finished or not, and the
shard that it moved aside have names of their own, and a sweep of leftovers may take either. -/
inductive Worker (Key : Type) where
  | idle
  | pending (key : Key) (previous : ShardState) (force : Bool)
  | marked (key : Key) (previous : ShardState) (force : Bool)
  | lockedOut (key : Key) (previous : ShardState)
  | locked (key : Key) (force : Bool)
  | building (metadata : ShardMeta Key) (tmp : Option Bool)
  | publishing (metadata : ShardMeta Key) (tmp : Option Bool)
  | swapping (metadata : ShardMeta Key) (tmp : Option Bool) (old : Option (Shard Key))
  | restoring (metadata : ShardMeta Key) (old : Option (Shard Key))
  | replaced (metadata : ShardMeta Key)
  | discarding (key : Key) (error : String)
  | finished (key : Key) (outcome : BuildOutcome Key)
  | reporting (key : Key) (outcome : BuildOutcome Key)
  | recording (metadata : ShardMeta Key)
  | forgetting
  | removing (known : Key → Bool) (doomed : List Key)
  | condemning (known : Key → Bool) (key : Key) (doomed : List Key)
  | removed (known : Key → Bool) (key : Key) (doomed : List Key)
  | unlocking (known : Key → Bool) (key : Key) (doomed : List Key)
  | sweeping (known : Key → Bool)
  | found (known : Key → Bool) (metadata : ShardMeta Key)
  | unrecorded (known : Key → Bool) (metadata : ShardMeta Key)
  | adopting (known : Key → Bool) (metadata : ShardMeta Key)
  | orphaned (known : Key → Bool) (key : Key)
  | orphanLocked (known : Key → Bool) (key : Key)
  | orphanGone (known : Key → Bool) (key : Key)

/-- The directories under their names, the held locks and the registry. A directory is published
from the first shard that it gets until a collection removes it. -/
structure Shared (Key Dir Root : Type) where
  disk : Dir → Option (Shard Key)
  held : Dir → Bool
  registry : Registry Key Root
  published : Dir → Bool

/-- The moves that a run may have to avoid. -/
inductive Event (Key Dir : Type) where
  | ordinary
  | crash
  | record (metadata : ShardMeta Key)
  | erase (dir : Dir) (forgotten : Option Key)
  | lose

namespace Worker

variable {Key Dir : Type}

/-- The key whose lock a worker holds. -/
def holds : Worker Key → Option Key
  | .locked key _ => some key
  | .building metadata _ => some metadata.key
  | .publishing metadata _ => some metadata.key
  | .swapping metadata _ _ => some metadata.key
  | .restoring metadata _ => some metadata.key
  | .replaced metadata => some metadata.key
  | .discarding key _ => some key
  | .finished key _ => some key
  | .condemning _ key _ => some key
  | .removed _ key _ => some key
  | .unlocking _ key _ => some key
  | .orphanLocked _ key => some key
  | .orphanGone _ key => some key
  | _ => none

/-- The version whose shard a worker moved aside. -/
def aside : Worker Key → Option Key
  | .swapping metadata _ _ => some metadata.key
  | .restoring metadata _ => some metadata.key
  | _ => none

/-- The shard that a worker moved aside. -/
def old : Worker Key → Option (Shard Key)
  | .swapping _ _ old => old
  | .restoring _ old => old
  | _ => none

/-- The version whose shard a worker removed and whose row it has not changed yet. -/
def erasing : Worker Key → Option Key
  | .removed _ key _ => some key
  | _ => none

/-- A working directory that is to be published is finished. -/
def Prepared : Worker Key → Prop
  | .publishing _ (some whole) => whole = true
  | .swapping _ (some whole) _ => whole = true
  | _ => True

end Worker

section Moves

variable {Key Dir Root : Type} [DecidableEq Key] [DecidableEq Dir] [DecidableEq Root]

namespace Shared

def put (shared : Shared Key Dir Root) (dir : Dir) (shard : Option (Shard Key)) : Shared Key Dir Root :=
  { shared with disk := Function.update shared.disk dir shard }

/-- A shard is published at an absent directory. -/
def publish (shared : Shared Key Dir Root) (dir : Dir) (shard : Shard Key) : Shared Key Dir Root :=
  { shared.put dir (some shard) with published := Function.update shared.published dir true }

def erase (shared : Shared Key Dir Root) (dir : Dir) : Shared Key Dir Root :=
  { shared.put dir none with published := Function.update shared.published dir false }

def acquire (shared : Shared Key Dir Root) (dir : Dir) : Shared Key Dir Root :=
  { shared with held := Function.update shared.held dir true }

def release (shared : Shared Key Dir Root) (dir : Dir) : Shared Key Dir Root :=
  { shared with held := Function.update shared.held dir false }

def record (shared : Shared Key Dir Root)
    (change : Registry Key Root → Registry Key Root) : Shared Key Dir Root :=
  { shared with registry := change shared.registry }

end Shared

/-- One access of a worker. -/
inductive Move (shardDir : Key → Dir) : Event Key Dir → Shared Key Dir Root → Worker Key →
    Shared Key Dir Root → Worker Key → Prop where
  /-- A project is recorded in one transaction. -/
  | recordProject {shared} (root : Root) (deps : List (LocatedDep Key)) :
      Move shardDir .ordinary shared .idle (shared.record (·.recordProject root deps)) .idle
  /-- A build takes a version from the pending ones. -/
  | build {shared} (key : Key) (row : PackageRow) (force : Bool)
      (recorded : shared.registry.packages key = some row)
      (buildable : row.path = false ∧ shared.registry.hasSource key = true) :
      Move shardDir .ordinary shared .idle shared (.pending key row.state force)
  | sourceGone {shared key previous force} : Move shardDir .ordinary shared (.pending key previous force)
        (shared.record (·.markMissing key)) .idle
  | markBuilding {shared key previous force} : Move shardDir .ordinary shared (.pending key previous force)
        (shared.record (·.markBuilding key)) (.marked key previous force)
  | createFailed {shared key previous force} (error : String) :
      Move shardDir .ordinary shared (.marked key previous force) shared
        (.reporting key (.failed error))
  | lock {shared key previous force} (free : shared.held (shardDir key) = false) :
      Move shardDir .ordinary shared (.marked key previous force) (shared.acquire (shardDir key))
        (.locked key force)
  | lockedOut {shared key previous force} (taken : shared.held (shardDir key) = true) :
      Move shardDir .ordinary shared (.marked key previous force) shared (.lockedOut key previous)
  /-- The shard that another build replaces is recorded. -/
  | readReplaced {shared key previous shard} (had : previous.hasShard = true)
      (stored : shared.disk (shardDir key) = some shard) :
      Move shardDir .ordinary shared (.lockedOut key previous) shared (.recording shard.metadata)
  | readNothing {shared key previous}
      (nothing : previous.hasShard = true → shared.disk (shardDir key) = none) :
      Move shardDir .ordinary shared (.lockedOut key previous) shared .idle
  | markReplaced {shared metadata} : Move shardDir (.record metadata) shared (.recording metadata)
        (shared.record (·.markBuilt metadata)) .idle
  | upToDate {shared key shard} (stored : shared.disk (shardDir key) = some shard)
      (same : shard.metadata.key = key) :
      Move shardDir .ordinary shared (.locked key false) shared
        (.finished key (.upToDate shard.metadata))
  | noSources {shared key force} :
      Move shardDir .ordinary shared (.locked key force) shared (.finished key .noSources)
  | create {shared key force} (truncated : Bool) : Move shardDir .ordinary shared (.locked key force) shared
        (.building ⟨key, truncated⟩ (some false))
  | buildFailed {shared metadata tmp} (error : String) :
      Move shardDir .ordinary shared (.building metadata tmp) shared
        (.discarding metadata.key error)
  /-- The meta file is written last. -/
  | writeMeta {shared metadata whole} :
      Move shardDir .ordinary shared (.building metadata (some whole)) shared
        (.publishing metadata (some true))
  | sweepBuilding {shared metadata whole} :
      Move shardDir .ordinary shared (.building metadata (some whole)) shared
        (.building metadata none)
  | sweepPublishing {shared metadata whole} :
      Move shardDir .ordinary shared (.publishing metadata (some whole)) shared
        (.publishing metadata none)
  | sweepSwapping {shared metadata whole old} :
      Move shardDir .ordinary shared (.swapping metadata (some whole) old) shared
        (.swapping metadata none old)
  /-- A rename over a directory fails. -/
  | publish {shared metadata whole} (absent : shared.disk (shardDir metadata.key) = none) :
      Move shardDir .ordinary shared (.publishing metadata (some whole))
        (shared.publish (shardDir metadata.key) ⟨metadata, whole⟩)
        (.finished metadata.key (.built metadata))
  | publishFailed {shared metadata tmp} (error : String) :
      Move shardDir .ordinary shared (.publishing metadata tmp) shared
        (.discarding metadata.key error)
  /-- The old shard is renamed aside first. -/
  | moveAside {shared metadata tmp shard}
      (stored : shared.disk (shardDir metadata.key) = some shard) :
      Move shardDir .ordinary shared (.publishing metadata tmp)
        (shared.put (shardDir metadata.key) none) (.swapping metadata tmp (some shard))
  | swap {shared metadata whole old} (absent : shared.disk (shardDir metadata.key) = none) :
      Move shardDir .ordinary shared (.swapping metadata (some whole) old)
        (shared.publish (shardDir metadata.key) ⟨metadata, whole⟩) (.replaced metadata)
  | swapFailed {shared metadata tmp old} :
      Move shardDir .ordinary shared (.swapping metadata tmp old) shared (.restoring metadata old)
  | restore {shared metadata shard} (error : String)
      (absent : shared.disk (shardDir metadata.key) = none) :
      Move shardDir .ordinary shared (.restoring metadata (some shard))
        (shared.put (shardDir metadata.key) (some shard)) (.discarding metadata.key error)
  | restoreFailed {shared metadata old} (error : String) :
      Move shardDir .lose shared (.restoring metadata old) shared
        (.discarding metadata.key error)
  | sweepSwapped {shared metadata tmp shard} :
      Move shardDir .ordinary shared (.swapping metadata tmp (some shard)) shared
        (.swapping metadata tmp none)
  | sweepRestoring {shared metadata shard} :
      Move shardDir .ordinary shared (.restoring metadata (some shard)) shared
        (.restoring metadata none)
  | removeOld {shared metadata} : Move shardDir .ordinary shared (.replaced metadata) shared
        (.finished metadata.key (.built metadata))
  | discard {shared key error} : Move shardDir .ordinary shared (.discarding key error) shared
        (.finished key (.failed error))
  /-- The lock is dropped before the outcome is recorded. -/
  | unlock {shared key outcome} :
      Move shardDir .ordinary shared (.finished key outcome) (shared.release (shardDir key))
        (.reporting key outcome)
  | markBuilt {shared key metadata} :
      Move shardDir (.record metadata) shared (.reporting key (.built metadata))
        (shared.record (·.markBuilt metadata)) .idle
  | markUpToDate {shared key metadata} :
      Move shardDir (.record metadata) shared (.reporting key (.upToDate metadata))
        (shared.record (·.markBuilt metadata)) .idle
  | markNoSources {shared key} : Move shardDir .ordinary shared (.reporting key .noSources)
        (shared.record (·.markNoSources key)) .idle
  | markFailed {shared key error} : Move shardDir .ordinary shared (.reporting key (.failed error))
        (shared.record (·.markFailed key error)) .idle
  | collect {shared} : Move shardDir .ordinary shared .idle shared .forgetting
  | deleteProject {shared} (root : Root) :
      Move shardDir .ordinary shared .forgetting (shared.record (·.deleteProject root)) .forgetting
  /-- Ages, users and sizes decide which of the listed shards go. -/
  | listShards {shared} (doomed : List Key)
      (listed : ∀ key ∈ doomed, shared.registry.lists key = true) :
      Move shardDir .ordinary shared .forgetting shared (.removing shared.registry.lists doomed)
  | skipLocked {shared known key doomed} (taken : shared.held (shardDir key) = true) :
      Move shardDir .ordinary shared (.removing known (key :: doomed)) shared
        (.removing known doomed)
  | lockDoomed {shared known key doomed} (free : shared.held (shardDir key) = false) :
      Move shardDir .ordinary shared (.removing known (key :: doomed))
        (shared.acquire (shardDir key)) (.condemning known key doomed)
  | removeShard {shared known key doomed shard}
      (stored : shared.disk (shardDir key) = some shard) :
      Move shardDir (.erase (shardDir key) (some key)) shared (.condemning known key doomed)
        (shared.erase (shardDir key)) (.removed known key doomed)
  | markAbsent {shared known key doomed} (absent : shared.disk (shardDir key) = none) :
      Move shardDir .ordinary shared (.condemning known key doomed)
        (shared.record (·.markMissing key)) (.unlocking known key doomed)
  | markRemoved {shared known key doomed} : Move shardDir .ordinary shared (.removed known key doomed)
        (shared.record (·.markMissing key)) (.unlocking known key doomed)
  | unlockDoomed {shared known key doomed} : Move shardDir .ordinary shared (.unlocking known key doomed)
        (shared.release (shardDir key)) (.removing known doomed)
  | sweep {shared known} : Move shardDir .ordinary shared (.removing known []) shared (.sweeping known)
  /-- A directory on disk that was not listed. -/
  | findEntry {shared known shard} (dir : Dir) (stored : shared.disk dir = some shard)
      (unknown : known shard.metadata.key = false) (own : shardDir shard.metadata.key = dir) :
      Move shardDir .ordinary shared (.sweeping known) shared (.found known shard.metadata)
  | findUsed {shared known metadata row}
      (recorded : shared.registry.packages metadata.key = some row)
      (used : shared.registry.users metadata.key = true) :
      Move shardDir .ordinary shared (.found known metadata) shared (.unrecorded known metadata)
  | findUnused {shared known metadata}
      (unused : shared.registry.packages metadata.key = none ∨ shared.registry.users metadata.key = false) :
      Move shardDir .ordinary shared (.found known metadata) shared (.orphaned known metadata.key)
  | leaveUsed {shared known metadata}
      (taken : shared.held (shardDir metadata.key) = true) :
      Move shardDir .ordinary shared (.unrecorded known metadata) shared (.sweeping known)
  | adopt {shared known metadata} (free : shared.held (shardDir metadata.key) = false) :
      Move shardDir .ordinary shared (.unrecorded known metadata) shared (.adopting known metadata)
  | markAdopted {shared known metadata} : Move shardDir (.record metadata) shared (.adopting known metadata)
        (shared.record (·.markBuilt metadata)) (.sweeping known)
  | skipOrphan {shared known key} (taken : shared.held (shardDir key) = true) :
      Move shardDir .ordinary shared (.orphaned known key) shared (.sweeping known)
  | lockOrphan {shared known key} (free : shared.held (shardDir key) = false) :
      Move shardDir .ordinary shared (.orphaned known key) (shared.acquire (shardDir key))
        (.orphanLocked known key)
  | removeOrphan {shared known key shard} (stored : shared.disk (shardDir key) = some shard) :
      Move shardDir (.erase (shardDir key) none) shared (.orphanLocked known key)
        (shared.erase (shardDir key)) (.orphanGone known key)
  /-- A removal that fails ends the collection. -/
  | orphanVanished {shared known key} (absent : shared.disk (shardDir key) = none) :
      Move shardDir .ordinary shared (.orphanLocked known key) (shared.release (shardDir key)) .idle
  | unlockOrphan {shared known key} :
      Move shardDir .ordinary shared (.orphanGone known key) (shared.release (shardDir key))
        (.sweeping known)
  | deleteUnused {shared known} :
      Move shardDir .ordinary shared (.sweeping known) (shared.record (·.deleteUnusedPackages))
        .idle
  /-- A crash ends a worker anywhere, and its lock is released. -/
  | crashFree {shared worker} (free : worker.holds = none) : Move shardDir .crash shared worker shared .idle
  | crashLocked {shared worker key} (holds : worker.holds = some key) :
      Move shardDir .crash shared worker (shared.release (shardDir key)) .idle

end Moves

end Codegraph.Deps
