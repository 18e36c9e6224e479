import Codegraph.Library.Dict

namespace Codegraph.NodeCache

open Library List Dict

/-- A row of the table apart from its id, as it is read back. -/
structure Row (Columns : Type) where
  name : String
  filePath : String
  columns : Columns
deriving DecidableEq

/-- The map has the number under which the order has the id. -/
structure NodeLru (Columns : Type) where
  map : Dict String (Nat × Row Columns)
  order : Dict Nat String
  seq : Nat
  cap : Nat

variable {Columns : Type}

namespace NodeLru

def new (cap : Nat) : NodeLru Columns := ⟨∅, ∅, 0, cap⟩

/-- The id gets the next number. -/
def place (lru : NodeLru Columns) (order : Dict Nat String) (id : String) (row : Row Columns) : NodeLru Columns :=
  { lru with
    map := lru.map.set id (lru.seq + 1, row)
    order := order.set (lru.seq + 1) id
    seq := lru.seq + 1 }

def getTouch (lru : NodeLru Columns) (id : String) : Option (Row Columns) × NodeLru Columns :=
  match lru.map.get id with
  | none => (none, lru)
  | some (oldSeq, row) => (some row, lru.place (lru.order.remove oldSeq) id row)

def remove (lru : NodeLru Columns) (id : String) : NodeLru Columns :=
  match lru.map.get id with
  | none => lru
  | some (seq, _) => { lru with map := lru.map.remove id, order := lru.order.remove seq }

/-- The entry with the least number leaves. -/
def evict (lru : NodeLru Columns) : NodeLru Columns :=
  match lru.order.keys.min? with
  | none => lru
  | some oldest =>
    match lru.order.get oldest with
    | none => lru
    | some id => { lru with map := lru.map.remove id, order := lru.order.remove oldest }

def makeRoom (lru : NodeLru Columns) (id : String) : NodeLru Columns :=
  match lru.map.get id with
  | some _ => lru.remove id
  | none => if lru.cap ≤ lru.map.keys.length then lru.evict else lru

def insert (lru : NodeLru Columns) (id : String) (row : Row Columns) : NodeLru Columns :=
  (lru.makeRoom id).place (lru.makeRoom id).order id row

def removeByFile (lru : NodeLru Columns) (filePath : String) : NodeLru Columns :=
  ((lru.map.entries.filter fun entry => entry.2.2.filePath = filePath).map Sigma.fst).foldl remove lru

/-- The numbers and the ids are paired one to one, and no more than the capacity of them. -/
structure Linked (lru : NodeLru Columns) : Prop where
  order_iff : ∀ seq id, lru.order.get seq = some id ↔ ∃ row, lru.map.get id = some (seq, row)
  seq_le : ∀ seq id, lru.order.get seq = some id → seq ≤ lru.seq
  size_le : lru.map.keys.length ≤ lru.cap
  positive : 0 < lru.cap

/-- The row that the cache has for the id. -/
def held (lru : NodeLru Columns) (id : String) : Option (Row Columns) := (lru.map.get id).map Prod.snd

variable {lru : NodeLru Columns} {id : String} {row : Row Columns}

theorem linked_new {cap : Nat} (positive : 0 < cap) : (new cap : NodeLru Columns).Linked :=
  ⟨by simp [new], by simp [new], Nat.zero_le _, positive⟩

theorem mem_keys {entry : Nat × Row Columns} (stored : lru.map.get id = some entry) : id ∈ lru.map.keys :=
  (mem_keys_iff lru.map id).mpr ⟨entry, stored⟩

theorem stored_of_mem (mem : id ∈ lru.map.keys) : ∃ seq row, lru.map.get id = some (seq, row) := by
  obtain ⟨⟨seq, row⟩, stored⟩ := (mem_keys_iff lru.map id).mp mem
  exact ⟨seq, row, stored⟩

theorem length_remove (mem : id ∈ lru.map.keys) :
    (lru.remove id).map.keys.length + 1 = lru.map.keys.length := by
  obtain ⟨seq, row, stored⟩ := stored_of_mem mem
  rw [remove, stored]
  rw [Dict.remove, AList.keys_erase, length_erase_of_mem mem]
  exact Nat.sub_add_cancel (length_pos_of_mem mem)

@[simp] theorem cap_remove (lru : NodeLru Columns) (id : String) : (lru.remove id).cap = lru.cap := by
  unfold remove
  split <;> rfl

@[simp] theorem held_remove (lru : NodeLru Columns) (id other : String) :
    (lru.remove id).held other = if other = id then none else lru.held other := by
  unfold remove held
  split
  · rename_i absent
    split
    · rename_i same
      rw [same, absent, Option.map_none]
    · rfl
  rw [get_remove]
  split <;> rfl

@[simp] theorem held_place (lru : NodeLru Columns) (order : Dict Nat String) (id other : String) (row : Row Columns) :
    (lru.place order id row).held other = if other = id then some row else lru.held other := by
  change ((lru.map.set id (lru.seq + 1, row)).get other).map Prod.snd = _
  rw [get_set]
  split <;> rfl

theorem get_of_held (absent : lru.held id = none) : lru.map.get id = none := Option.map_eq_none_iff.mp absent

section

variable (linked : lru.Linked)
include linked

theorem Linked.get_order {seq : Nat} (stored : lru.map.get id = some (seq, row))
    (other : Nat) (owner : String) : (lru.order.remove seq).get other = some owner ↔
      lru.order.get other = some owner ∧ owner ≠ id := by
  have own := (linked.order_iff seq id).mpr ⟨row, stored⟩
  rw [get_remove]
  split
  · rename_i same
    rw [same, own]
    refine iff_of_false (by simp) fun found => found.2 (Option.some.inj found.1).symm
  rename_i different
  refine (and_iff_left_of_imp fun found => ?_).symm
  rintro rfl
  obtain ⟨row', stored'⟩ := (linked.order_iff other owner).mp found
  rw [stored] at stored'
  cases stored'
  exact different rfl

theorem Linked.remove (id : String) : (lru.remove id).Linked := by
  cases stored : lru.map.get id with
  | none =>
    unfold NodeLru.remove
    rwa [stored]
  | some entry =>
    have size := length_remove (mem_keys stored)
    obtain ⟨seq, row⟩ := entry
    unfold NodeLru.remove at size ⊢
    rw [stored] at size ⊢
    refine ⟨fun other owner => ?_, fun other owner found => ?_, (Nat.le_of_succ_le size.le).trans linked.size_le,
      linked.positive⟩
    · rw [linked.get_order stored, linked.order_iff, get_remove]
      by_cases same : owner = id <;> simp [same]
    · exact linked.seq_le other owner ((linked.get_order stored other owner).mp found).1

/-- The next number goes to an id that has no other number. -/
theorem Linked.place {order : Dict Nat String}
    (cleared : ∀ seq owner, order.get seq = some owner ↔ lru.order.get seq = some owner ∧ owner ≠ id)
    (room : lru.map.get id = none → lru.map.keys.length < lru.cap) (row : Row Columns) :
    (lru.place order id row).Linked := by
  refine ⟨fun seq owner => ?_, fun seq owner found => ?_, ?_, linked.positive⟩
  · change (order.set (lru.seq + 1) id).get seq = some owner ↔
      ∃ found, (lru.map.set id (lru.seq + 1, row)).get owner = some (seq, found)
    rw [get_set, get_set]
    by_cases same : owner = id
    · rw [if_pos same]
      split
      · simp_all
      · rw [cleared]
        simp_all [eq_comm]
    rw [if_neg same]
    split
    · rename_i last
      refine iff_of_false (fun found => same (Option.some.inj found).symm) ?_
      rintro found
      have late := linked.seq_le seq owner ((linked.order_iff seq owner).mpr found)
      omega
    · rw [cleared, linked.order_iff]
      exact and_iff_left same
  · change (order.set (lru.seq + 1) id).get seq = some owner at found
    change seq ≤ lru.seq + 1
    rw [get_set] at found
    split at found
    · omega
    · exact (linked.seq_le seq owner ((cleared seq owner).mp found).1).trans (Nat.le_succ _)
  · change (lru.map.set id (lru.seq + 1, row)).keys.length ≤ lru.cap
    rw [Dict.set, AList.keys_insert, length_cons]
    cases stored : lru.map.get id with
    | none =>
      have absent : id ∉ lru.map.keys := fun mem => by
        obtain ⟨seq, row, stored'⟩ := stored_of_mem mem
        rw [stored] at stored'
        cases stored'
      rw [erase_of_not_mem absent]
      exact room stored
    | some entry =>
      rw [length_erase_of_mem (mem_keys stored), Nat.sub_add_cancel (length_pos_of_mem (mem_keys stored))]
      exact linked.size_le

theorem Linked.getTouch (id : String) : (lru.getTouch id).2.Linked := by
  unfold NodeLru.getTouch
  split
  · exact linked
  rename_i seq row stored
  refine linked.place (linked.get_order stored) (fun absent => ?_) row
  rw [stored] at absent
  cases absent

/-- An eviction makes room in a full cache. -/
theorem Linked.evict (some' : lru.map.keys ≠ []) : ∃ id ∈ lru.map.keys, lru.evict = lru.remove id := by
  obtain ⟨first, listed⟩ := exists_mem_of_ne_nil _ some'
  obtain ⟨⟨seq, row⟩, stored⟩ := (mem_keys_iff lru.map first).mp listed
  have numbered := (mem_keys_iff lru.order seq).mpr ⟨first, (linked.order_iff seq first).mpr ⟨row, stored⟩⟩
  obtain ⟨oldest, least⟩ := Option.isSome_iff_exists.mp (isSome_min?_of_mem numbered)
  obtain ⟨id, own⟩ := (mem_keys_iff lru.order oldest).mp (min?_mem least)
  obtain ⟨row, stored'⟩ := (linked.order_iff oldest id).mp own
  refine ⟨id, mem_keys stored', ?_⟩
  rw [NodeLru.evict, NodeLru.remove, least, stored']
  dsimp only
  rw [own]

theorem Linked.makeRoom (id : String) : (lru.makeRoom id).Linked ∧ (lru.makeRoom id).map.get id = none ∧
      (lru.makeRoom id).map.keys.length < lru.cap ∧ (lru.makeRoom id = lru ∨ ∃ gone, lru.makeRoom id = lru.remove gone) := by
  have smaller {gone : String} (mem : gone ∈ lru.map.keys) : (lru.remove gone).map.keys.length < lru.cap :=
    (Nat.lt_of_succ_le (length_remove mem).le).trans_le linked.size_le
  unfold NodeLru.makeRoom
  cases stored : lru.map.get id with
  | some entry =>
    exact ⟨linked.remove id, get_of_held (by simp), smaller (mem_keys stored), .inr ⟨id, rfl⟩⟩
  | none =>
    dsimp only
    split
    · rename_i full
      obtain ⟨gone, mem, same⟩ := linked.evict fun none => by
        rw [none] at full
        exact absurd full (not_le.mpr linked.positive)
      have absent : lru.held id = none := Option.map_eq_none_iff.mpr stored
      rw [same]
      exact ⟨linked.remove gone, get_of_held (by simp [absent]), smaller mem, .inr ⟨gone, rfl⟩⟩
    · rename_i room
      exact ⟨linked, stored, not_le.mp room, .inl rfl⟩

theorem Linked.insert (id : String) (row : Row Columns) : (lru.insert id row).Linked := by
  obtain ⟨linked', absent, room, same⟩ := linked.makeRoom id
  have cap : (lru.makeRoom id).cap = lru.cap := by rcases same with same | ⟨gone, same⟩ <;> simp [same]
  refine linked'.place (fun seq owner => (and_iff_left_of_imp fun found => ?_).symm) (fun _ => by rwa [cap]) row
  rintro rfl
  obtain ⟨row, stored⟩ := (linked'.order_iff seq owner).mp found
  rw [absent] at stored
  cases stored

theorem held_insert {other : String} {found : Row Columns}
    (there : (lru.insert id row).held other = some found) :
    (other = id ∧ found = row) ∨ lru.held other = some found := by
  obtain ⟨-, -, -, same⟩ := linked.makeRoom id
  rw [NodeLru.insert, held_place] at there
  split at there
  · rename_i own
    exact .inl ⟨own, (Option.some.inj there).symm⟩
  rcases same with same | ⟨gone, same⟩
  · exact .inr (same ▸ there)
  rw [same, held_remove] at there
  split at there
  · cases there
  · exact .inr there

end

theorem getTouch_fst (lru : NodeLru Columns) (id : String) : (lru.getTouch id).1 = lru.held id := by
  unfold getTouch held
  split <;> simp_all

theorem held_getTouch (lru : NodeLru Columns) (id other : String) :
    (lru.getTouch id).2.held other = lru.held other := by
  unfold getTouch
  split
  · rfl
  rename_i seq row stored
  rw [held_place]
  split
  · rename_i same
    rw [same, held, stored]
    rfl
  · rfl

theorem held_foldl_remove (ids : List String) (lru : NodeLru Columns) (other : String) :
    (ids.foldl remove lru).held other = if other ∈ ids then none else lru.held other := by
  induction ids generalizing lru with
  | nil => simp
  | cons id ids ih =>
    rw [foldl_cons, ih, held_remove]
    by_cases same : other = id <;> simp [same]

theorem linked_foldl_remove (ids : List String) (linked : lru.Linked) : (ids.foldl remove lru).Linked := by
  induction ids generalizing lru with
  | nil => exact linked
  | cons id ids ih => exact ih (linked.remove id)

theorem held_removeByFile {filePath : String} (found : (lru.removeByFile filePath).held id = some row) :
    lru.held id = some row ∧ row.filePath ≠ filePath := by
  rw [removeByFile, held_foldl_remove] at found
  split at found
  · cases found
  rename_i absent
  refine ⟨found, fun same => absent ?_⟩
  obtain ⟨⟨seq, row'⟩, stored, rfl⟩ := Option.map_eq_some_iff.mp found
  exact mem_map.mpr ⟨⟨id, seq, row'⟩, mem_filter.mpr ⟨(mem_entries_iff _ _ _).mpr stored, by simpa using same⟩, rfl⟩

end NodeLru

/-- The nodes in the database, the tables that the open transactions go back to, and the cache. -/
structure State (Columns : Type) where
  table : Dict String (Row Columns)
  saved : List (Dict String (Row Columns))
  cache : NodeLru Columns

/-- The database hands the rows of a statement over in some order. -/
abbrev Arrangement (Columns : Type) :=
  { arrange : List (String × Row Columns) → List (String × Row Columns) // ∀ rows, arrange rows ~ rows }

namespace State

def start (table : Dict String (Row Columns)) : State Columns := ⟨table, [], .new 1000⟩

def getNodeById (id : String) (state : State Columns) : Option (Row Columns) × State Columns :=
  match state.cache.getTouch id with
  | (some cached, cache) => (some cached, { state with cache := cache })
  | (none, _) =>
    match state.table.get id with
    | some row => (some row, { state with cache := state.cache.insert id row })
    | none => (none, state)

/-- The answers of the cache, the ids that it misses, and the cache. -/
abbrev Served (Columns : Type) := Dict String (Row Columns) × List String × NodeLru Columns

def serve (served : Served Columns) (id : String) : Served Columns :=
  match served.2.2.getTouch id with
  | (some row, cache) => (served.1.set id row, served.2.1, cache)
  | (none, cache) => (served.1, served.2.1 ++ [id], cache)

/-- One statement reads at most 500 ids. -/
def selectRows (arrange : Arrangement Columns) (table : Dict String (Row Columns)) :
    Nat → List String → List (String × Row Columns)
  | 0, _ | _, [] => []
  | fuel + 1, misses =>
    arrange.1 ((misses.take 500).dedup.filterMap fun id => (table.get id).map (id, ·)) ++
      selectRows arrange table fuel (misses.drop 500)

def collect (found : Dict String (Row Columns) × NodeLru Columns) (node : String × Row Columns) :
    Dict String (Row Columns) × NodeLru Columns :=
  (found.1.set node.1 node.2, found.2.insert node.1 node.2)

def getNodesByIds (ids : List String) (arrange : Arrangement Columns) (state : State Columns) :
    Dict String (Row Columns) × State Columns :=
  let (out, misses, cache) := ids.foldl serve (∅, [], state.cache)
  let (out, cache) := (selectRows arrange state.table misses.length misses).foldl collect (out, cache)
  (out, { state with cache := cache })

def insertNode (id : String) (row : Row Columns) (state : State Columns) : State Columns :=
  if id = "" ∨ row.name = "" ∨ row.filePath = "" then state
  else { state with cache := state.cache.remove id, table := state.table.set id row }

def updateNode (id : String) (row : Row Columns) (state : State Columns) : State Columns :=
  let state := { state with cache := state.cache.remove id }
  if id = "" ∨ row.name = "" ∨ row.filePath = "" then state
  else if (state.table.get id).isSome then { state with table := state.table.set id row } else state

def deleteNode (id : String) (state : State Columns) : State Columns :=
  { state with cache := state.cache.remove id, table := state.table.remove id }

def deleteNodesByFile (filePath : String) (state : State Columns) : State Columns :=
  { state with
    cache := state.cache.removeByFile filePath
    table := state.table.retain fun row => row.filePath ≠ filePath }

/-- The delete statement of the compiler layer, which leaves the cache alone. -/
def deleteGenerated (id : String) (state : State Columns) : State Columns :=
  { state with table := state.table.remove id }

def insertGenerated (node : String × Row Columns) (state : State Columns) : State Columns :=
  if (state.table.get node.1).isSome then updateNode node.1 node.2 state else insertNode node.1 node.2 state

/-- The statements work, or the last one of the given number fails and the table goes back. -/
def transaction (writes : List (State Columns → State Columns)) (fails : Option Nat) (state : State Columns) :
    State Columns :=
  match fails with
  | none => writes.foldl (fun state write => write state) state
  | some count =>
    { (writes.take count).foldl (fun state write => write state) state with table := state.table }

end State

inductive Write (Columns : Type) where
  | insertNode (id : String) (row : Row Columns)
  | insertNodes (nodes : List (String × Row Columns))
  | updateNode (id : String) (row : Row Columns)
  | deleteNode (id : String)
  | deleteNodesByFile (filePath : String)
  | deleteFile (filePath : String)
  | applyCompilerChanges (removeGenerated : List String) (insertGenerated : List (String × Row Columns))

inductive Request (Columns : Type) where
  | getNodeById (id : String)
  | getNodesByIds (ids : List String) (arrange : Arrangement Columns)
  | write (write : Write Columns) (fails : Option Nat)
  | begin
  | commit
  | rollback

namespace State

def write (fails : Option Nat) (state : State Columns) : Write Columns → State Columns
  | .insertNode id row => transaction [insertNode id row] fails state
  | .insertNodes nodes => transaction (nodes.map fun node => insertNode node.1 node.2) fails state
  | .updateNode id row => transaction [updateNode id row] fails state
  | .deleteNode id => transaction [deleteNode id] fails state
  | .deleteNodesByFile filePath | .deleteFile filePath => transaction [deleteNodesByFile filePath] fails state
  | .applyCompilerChanges removeGenerated generated =>
    transaction (removeGenerated.map deleteGenerated ++ generated.map insertGenerated) fails
      { state with cache := removeGenerated.foldl NodeLru.remove state.cache }

def step (state : State Columns) : Request Columns → State Columns
  | .getNodeById id => (state.getNodeById id).2
  | .getNodesByIds ids arrange => (state.getNodesByIds ids arrange).2
  | .write write fails => state.write fails write
  | .begin => { state with saved := state.table :: state.saved }
  | .commit => { state with saved := state.saved.tail }
  | .rollback =>
    match state.saved with
    | [] => state
    | table :: older => { state with table := table, saved := older }

/-- A read answers with the rows of the table. -/
def Serves (state : State Columns) : Request Columns → Prop
  | .getNodeById id => (state.getNodeById id).1 = state.table.get id
  | .getNodesByIds ids arrange =>
    ∀ id, (state.getNodesByIds ids arrange).1.get id = if id ∈ ids then state.table.get id else none
  | _ => True

/-- No row in the cache is one that the transaction to roll back has changed. -/
def Unread (state : State Columns) : Request Columns → Prop
  | .rollback =>
    match state.saved with
    | [] => True
    | table :: _ => ∀ id ∈ state.cache.map.keys, table.get id = state.table.get id
  | _ => True

/-- All requests of a run meet the condition. -/
def Each (meets : State Columns → Request Columns → Prop) : State Columns → List (Request Columns) → Prop
  | _, [] => True
  | state, request :: requests => meets state request ∧ (state.step request).Each meets requests

/-- The cache has rows of the table only. -/
structure Sound (state : State Columns) : Prop where
  linked : state.cache.Linked
  fresh : ∀ id row, state.cache.held id = some row → state.table.get id = some row

variable {state : State Columns}

theorem Sound.getNodeById (sound : state.Sound) (id : String) :
    (state.getNodeById id).1 = state.table.get id ∧ (state.getNodeById id).2.Sound := by
  have answer := state.cache.getTouch_fst id
  have linked := sound.linked.getTouch id
  have rows := state.cache.held_getTouch id
  unfold State.getNodeById
  generalize state.cache.getTouch id = touched at answer linked rows
  obtain ⟨_ | cached, cache⟩ := touched
  · dsimp only
    split
    · rename_i row stored
      refine ⟨stored.symm, sound.linked.insert id row, fun other found there => ?_⟩
      rcases NodeLru.held_insert sound.linked there with ⟨rfl, rfl⟩ | there
      · exact stored
      · exact sound.fresh other found there
    · rename_i absent
      exact ⟨absent.symm, sound⟩
  · exact ⟨(sound.fresh id cached answer.symm).symm, linked, fun other found there =>
      sound.fresh other found ((rows other).symm.trans there)⟩

theorem serve_spec (ids : List String) (served : Served Columns) (linked : served.2.2.Linked) :
    (ids.foldl serve served).2.2.Linked ∧ ∀ id, (ids.foldl serve served).2.2.held id = served.2.2.held id ∧
      (ids.foldl serve served).1.get id = (if id ∈ ids then served.2.2.held id else none).or (served.1.get id) ∧
      (id ∈ (ids.foldl serve served).2.1 ↔ id ∈ served.2.1 ∨ id ∈ ids ∧ served.2.2.held id = none) := by
  induction ids generalizing served with
  | nil => exact ⟨linked, fun id => ⟨rfl, by simp, by simp⟩⟩
  | cons first ids ih =>
    have answer := served.2.2.getTouch_fst first
    have linked' := linked.getTouch first
    have rows := served.2.2.held_getTouch first
    rw [foldl_cons]
    unfold serve at ih ⊢
    generalize served.2.2.getTouch first = touched at answer linked' rows ⊢
    obtain ⟨_ | row, cache⟩ := touched
    · obtain ⟨after, spec⟩ := ih (served.1, served.2.1 ++ [first], cache) linked'
      refine ⟨after, fun id => ?_⟩
      obtain ⟨held, found, missed⟩ := spec id
      rw [rows] at held found missed
      refine ⟨held, found.trans ?_, missed.trans ?_⟩
      · by_cases same : id = first <;> simp [same, ← answer]
      · by_cases same : id = first <;> simp [same, ← answer]
    obtain ⟨after, spec⟩ := ih (served.1.set first row, served.2.1, cache) linked'
    refine ⟨after, fun id => ?_⟩
    obtain ⟨held, found, missed⟩ := spec id
    rw [rows] at held found missed
    refine ⟨held, found.trans ?_, missed.trans ?_⟩
    · by_cases same : id = first
      · by_cases again : first ∈ ids <;> simp [same, again, ← answer]
      · simp [same, get_set]
    · by_cases same : id = first <;> simp [same, ← answer]

theorem mem_selectRows (arrange : Arrangement Columns) (table : Dict String (Row Columns)) (fuel : Nat)
    (misses : List String) (enough : misses.length ≤ fuel) (node : String × Row Columns) :
    node ∈ selectRows arrange table fuel misses ↔ node.1 ∈ misses ∧ table.get node.1 = some node.2 := by
  induction fuel generalizing misses with
  | zero => simp [selectRows, length_eq_zero_iff.mp (Nat.le_zero.mp enough)]
  | succ fuel ih =>
    cases misses with
    | nil => simp [selectRows]
    | cons first misses =>
      have shorter : ((first :: misses).drop 500).length ≤ fuel := by
        rw [length_drop]
        rw [length_cons] at enough ⊢
        omega
      have parts : node.1 ∈ first :: misses ↔
          node.1 ∈ (first :: misses).take 500 ∨ node.1 ∈ (first :: misses).drop 500 := by
        rw [← mem_append, take_append_drop]
      rw [selectRows, mem_append, ih _ shorter, (arrange.2 _).mem_iff, parts, or_and_right]
      swap
      · exact cons_ne_nil _ _
      refine or_congr_left ?_
      rw [mem_filterMap]
      constructor
      · rintro ⟨id, mem, same⟩
        obtain ⟨row, stored, rfl⟩ := Option.map_eq_some_iff.mp same
        exact ⟨mem_dedup.mp mem, stored⟩
      · rintro ⟨mem, stored⟩
        exact ⟨node.1, mem_dedup.mpr mem, by rw [stored]; rfl⟩

theorem collect_spec (table : Dict String (Row Columns)) (rows : List (String × Row Columns))
    (found : Dict String (Row Columns) × NodeLru Columns) (listed : ∀ node ∈ rows, table.get node.1 = some node.2)
    (linked : found.2.Linked) (fresh : ∀ id row, found.2.held id = some row → table.get id = some row) :
    (rows.foldl collect found).2.Linked ∧
      (∀ id row, (rows.foldl collect found).2.held id = some row → table.get id = some row) ∧
      ∀ id, (rows.foldl collect found).1.get id = if id ∈ rows.map Prod.fst then table.get id else found.1.get id := by
  induction rows generalizing found with
  | nil => exact ⟨linked, fresh, fun id => by simp⟩
  | cons node rows ih =>
    have stored := listed node mem_cons_self
    obtain ⟨linked', fresh', out⟩ := ih (collect found node) (fun other mem => listed other (mem_cons_of_mem _ mem))
      (linked.insert node.1 node.2) fun id row there => by
        rcases NodeLru.held_insert linked there with ⟨rfl, rfl⟩ | there
        · exact stored
        · exact fresh id row there
    refine ⟨linked', fresh', fun id => (out id).trans ?_⟩
    change (if id ∈ rows.map Prod.fst then table.get id else (found.1.set node.1 node.2).get id) = _
    rw [get_set, map_cons]
    by_cases same : id = node.1
    · simp [same, stored]
    · simp only [mem_cons, same, false_or, if_false]

theorem Sound.getNodesByIds (sound : state.Sound) (ids : List String) (arrange : Arrangement Columns) :
    (∀ id, (state.getNodesByIds ids arrange).1.get id = if id ∈ ids then state.table.get id else none) ∧
      (state.getNodesByIds ids arrange).2.Sound := by
  obtain ⟨linked, spec⟩ := serve_spec ids (∅, [], state.cache) sound.linked
  unfold State.getNodesByIds
  generalize ids.foldl serve (∅, [], state.cache) = served at linked spec
  obtain ⟨out, misses, cache⟩ := served
  have listed := mem_selectRows arrange state.table misses.length misses (le_refl _)
  obtain ⟨linked', fresh', rows⟩ := collect_spec state.table (selectRows arrange state.table misses.length misses)
    (out, cache) (fun node mem => ((listed node).mp mem).2) linked
    fun id row there => sound.fresh id row ((spec id).1.symm.trans there)
  refine ⟨fun id => (rows id).trans ?_, linked', fresh'⟩
  obtain ⟨-, found, missed⟩ := spec id
  have among : id ∈ (selectRows arrange state.table misses.length misses).map Prod.fst ↔
      id ∈ misses ∧ ∃ row, state.table.get id = some row := by
    rw [mem_map]
    constructor
    · rintro ⟨node, mem, rfl⟩
      exact ⟨((listed node).mp mem).1, node.2, ((listed node).mp mem).2⟩
    · rintro ⟨mem, row, stored⟩
      exact ⟨(id, row), (listed _).mpr ⟨mem, stored⟩, rfl⟩
  rw [found]
  by_cases asked : id ∈ ids
  · cases held : state.cache.held id with
    | some row => simp [asked, sound.fresh id row held]
    | none =>
      cases stored : state.table.get id with
      | none => simp [asked]
      | some row => simp [asked, among, missed, held, stored]
  · simp [asked, among, missed]

/-- A write keeps the rows that it leaves in the cache. -/
structure Kept (before after : State Columns) : Prop where
  linked : after.cache.Linked
  rows : ∀ id row, after.cache.held id = some row →
    before.cache.held id = some row ∧ after.table.get id = before.table.get id

theorem Kept.sound {after : State Columns} (kept : Kept state after) (sound : state.Sound) : after.Sound :=
  ⟨kept.linked, fun id row there => (kept.rows id row there).2.trans (sound.fresh id row (kept.rows id row there).1)⟩

/-- The write is kept if the given ids have left the cache. -/
def Careful (gone : List String) (write : State Columns → State Columns) : Prop :=
  ∀ state : State Columns, state.Sound → (∀ id ∈ gone, state.cache.held id = none) → Kept state (write state)

variable {gone : List String}

theorem kept_forget (sound : state.Sound) (id : String) {table : Dict String (Row Columns)}
    (same : ∀ other, other ≠ id → table.get other = state.table.get other) :
    Kept state { state with cache := state.cache.remove id, table := table } := by
  refine ⟨sound.linked.remove id, fun other row there => ?_⟩
  rw [NodeLru.held_remove] at there
  split at there
  · cases there
  · rename_i different
    exact ⟨there, same other different⟩

theorem careful_insertNode (id : String) (row : Row Columns) : Careful gone (insertNode id row) := by
  intro state sound _
  unfold insertNode
  split
  · exact ⟨sound.linked, fun _ _ there => ⟨there, rfl⟩⟩
  · exact kept_forget sound id fun other different => get_set_ne _ row different

theorem careful_updateNode (id : String) (row : Row Columns) : Careful gone (updateNode id row) := by
  intro state sound _
  unfold updateNode
  dsimp only
  split
  · exact kept_forget sound id fun _ _ => rfl
  split
  · exact kept_forget sound id fun other different => get_set_ne _ row different
  · exact kept_forget sound id fun _ _ => rfl

theorem careful_deleteNode (id : String) : Careful gone (deleteNode id : State Columns → State Columns) := by
  intro state sound _
  exact kept_forget sound id fun other different => by rw [get_remove, if_neg different]

theorem careful_deleteNodesByFile (filePath : String) :
    Careful gone (deleteNodesByFile filePath : State Columns → State Columns) := by
  intro state sound _
  refine ⟨NodeLru.linked_foldl_remove _ sound.linked, fun id row there => ?_⟩
  obtain ⟨there, different⟩ := NodeLru.held_removeByFile there
  refine ⟨there, ?_⟩
  change (state.table.retain _).get id = state.table.get id
  rw [get_retain, sound.fresh id row there]
  simpa using different

theorem careful_deleteGenerated {id : String} (mem : id ∈ gone) :
    Careful gone (deleteGenerated id : State Columns → State Columns) := by
  intro state sound absent
  refine ⟨sound.linked, fun other row there => ⟨there, ?_⟩⟩
  refine (get_remove _ _ _).trans (if_neg ?_)
  rintro rfl
  exact absurd ((absent other mem).symm.trans there) (by simp)

theorem careful_insertGenerated (node : String × Row Columns) : Careful gone (insertGenerated node) := by
  intro state sound absent
  unfold insertGenerated
  split
  · exact careful_updateNode node.1 node.2 state sound absent
  · exact careful_insertNode node.1 node.2 state sound absent

theorem kept_foldl {writes : List (State Columns → State Columns)} (careful : ∀ write ∈ writes, Careful gone write)
    (sound : state.Sound) (absent : ∀ id ∈ gone, state.cache.held id = none) :
    Kept state (writes.foldl (fun state write => write state) state) := by
  induction writes generalizing state with
  | nil => exact ⟨sound.linked, fun _ _ there => ⟨there, rfl⟩⟩
  | cons write writes ih =>
    have first := careful write mem_cons_self state sound absent
    have rest := ih (fun other mem => careful other (mem_cons_of_mem _ mem)) (first.sound sound) fun id mem => by
      cases there : (write state).cache.held id with
      | none => rfl
      | some row => exact absurd (first.rows id row there).1 (by simp [absent id mem])
    refine ⟨rest.linked, fun id row there => ?_⟩
    obtain ⟨there', same⟩ := rest.rows id row there
    obtain ⟨there'', same'⟩ := first.rows id row there'
    exact ⟨there'', same.trans same'⟩

theorem Sound.transaction {writes : List (State Columns → State Columns)}
    (careful : ∀ write ∈ writes, Careful gone write) (sound : state.Sound)
    (absent : ∀ id ∈ gone, state.cache.held id = none) (fails : Option Nat) :
    (State.transaction writes fails state).Sound := by
  cases fails with
  | none => exact (kept_foldl careful sound absent).sound sound
  | some count =>
    have some : ∀ write ∈ writes.take count, Careful gone write :=
      fun write mem => careful write (mem_of_mem_take mem)
    have kept := kept_foldl some sound absent
    exact ⟨kept.linked, fun id row there => sound.fresh id row (kept.rows id row there).1⟩

theorem Sound.write (sound : state.Sound) (fails : Option Nat) (write : Write Columns) :
    (state.write fails write).Sound := by
  have single {write : State Columns → State Columns} (careful : Careful [] write) :
      (State.transaction [write] fails state).Sound :=
    sound.transaction (by simpa using careful) (by simp) fails
  cases write with
  | insertNode id row => exact single (careful_insertNode id row)
  | insertNodes nodes =>
    have careful : ∀ write ∈ nodes.map fun node => insertNode node.1 node.2, Careful [] write := by
      rintro write mem
      obtain ⟨node, -, rfl⟩ := mem_map.mp mem
      exact careful_insertNode node.1 node.2
    exact sound.transaction careful (by simp) fails
  | updateNode id row => exact single (careful_updateNode id row)
  | deleteNode id => exact single (careful_deleteNode id)
  | deleteNodesByFile filePath => exact single (careful_deleteNodesByFile filePath)
  | deleteFile filePath => exact single (careful_deleteNodesByFile filePath)
  | applyCompilerChanges removeGenerated generated =>
    have forgotten : Sound { state with cache := removeGenerated.foldl NodeLru.remove state.cache } := by
      refine ⟨NodeLru.linked_foldl_remove _ sound.linked, fun id row there => sound.fresh id row ?_⟩
      rw [NodeLru.held_foldl_remove] at there
      split at there
      · cases there
      · exact there
    have careful : ∀ write ∈ removeGenerated.map deleteGenerated ++ generated.map insertGenerated,
        Careful removeGenerated write := by
      rintro write mem
      rcases mem_append.mp mem with mem | mem
      · obtain ⟨id, listed, rfl⟩ := mem_map.mp mem
        exact careful_deleteGenerated listed
      · obtain ⟨node, -, rfl⟩ := mem_map.mp mem
        exact careful_insertGenerated node
    exact forgotten.transaction careful (fun id mem => (NodeLru.held_foldl_remove _ _ _).trans (if_pos mem)) fails

theorem Sound.step (sound : state.Sound) {request : Request Columns} (unread : state.Unread request) :
    state.Serves request ∧ (state.step request).Sound := by
  cases request with
  | getNodeById id => exact sound.getNodeById id
  | getNodesByIds ids arrange => exact sound.getNodesByIds ids arrange
  | write write fails => exact ⟨trivial, sound.write fails write⟩
  | begin => exact ⟨trivial, sound.linked, sound.fresh⟩
  | commit => exact ⟨trivial, sound.linked, sound.fresh⟩
  | rollback =>
    refine ⟨trivial, ?_⟩
    unfold Unread at unread
    unfold State.step
    dsimp only at unread ⊢
    split
    · exact sound
    rename_i table older saved
    rw [saved] at unread
    refine ⟨sound.linked, fun id row there => ?_⟩
    obtain ⟨entry, stored, -⟩ := Option.map_eq_some_iff.mp there
    exact (unread id (NodeLru.mem_keys stored)).trans (sound.fresh id row there)

/-- Every read of a run is answered with the rows of the table if every transaction that is rolled
back leaves no changed row in the cache. -/
theorem reads_fresh (table : Dict String (Row Columns)) (requests : List (Request Columns))
    (unread : (start table).Each Unread requests) :
    (start table).Each (fun state request => state.Serves request ∧ state.cache.Linked) requests ∧
      (requests.foldl step (start table)).cache.Linked := by
  have sound : (start table).Sound :=
    ⟨NodeLru.linked_new (by decide), fun id row there => by simp [start, NodeLru.held, NodeLru.new] at there⟩
  generalize start table = state at unread sound
  induction requests generalizing state with
  | nil => exact ⟨trivial, sound.linked⟩
  | cons request requests ih =>
    obtain ⟨serves, sound'⟩ := sound.step unread.1
    obtain ⟨each, linked⟩ := ih _ unread.2 sound'
    exact ⟨⟨⟨serves, sound.linked⟩, each⟩, linked⟩

end State

def stored (line : Nat) : Row Nat := ⟨"f", "m.rs", line⟩

/-- The changed row is not read before its transaction is rolled back. -/
def unreadRun : List (Request Nat) := [.write (.insertNode "a" (stored 1)) none, .getNodeById "a", .begin,
  .write (.updateNode "a" (stored 2)) none, .rollback, .getNodeById "a"]

theorem reads_fresh_unread :
    (State.start ∅).Each (fun state request => state.Serves request ∧ state.cache.Linked) unreadRun ∧
      (unreadRun.foldl State.step (State.start ∅)).cache.Linked := by
  refine State.reads_fresh ∅ unreadRun ⟨trivial, trivial, trivial, trivial, fun id mem => ?_, trivial, trivial⟩
  revert id
  decide +kernel

/-- A row that is read back before its transaction is rolled back stays in the cache. -/
theorem reads_stale : ¬∀ (table : Dict String (Row Nat)) (requests : List (Request Nat)),
    (State.start table).Each (fun state request => state.Serves request ∧ state.cache.Linked) requests := by
  intro fresh
  have read := (fresh ∅ [.write (.insertNode "a" (stored 1)) none, .begin, .write (.updateNode "a" (stored 2)) none,
    .getNodeById "a", .rollback, .getNodeById "a"]).2.2.2.2.2.1.1
  revert read
  change ¬(State.getNodeById "a" _).1 = _
  decide +kernel

end Codegraph.NodeCache
