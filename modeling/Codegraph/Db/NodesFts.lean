import Mathlib.Data.List.Perm.Basic
import Mathlib.Tactic

namespace Codegraph.Fts

open List

structure Node where
  id : String
  name : String
  qualifiedName : String
  filePath : String
  docstring : Option String
  signature : Option String

/-- A row of the table with its number. -/
structure Row extends Node where
  rowid : Nat

/-- An entry of the index. -/
structure Entry where
  rowid : Nat
  id : String
  name : String
  qualifiedName : String
  docstring : Option String
  signature : Option String
deriving DecidableEq

def Row.entry (row : Row) : Entry :=
  ⟨row.rowid, row.id, row.name, row.qualifiedName, row.docstring, row.signature⟩

structure Store where
  nodes : List Row
  nodesFts : List Entry

/-- No connection sets the pragma. -/
def recursiveTriggers : Bool := false

def nodesAi (new : Row) (fts : List Entry) : List Entry := fts ++ [new.entry]

def nodesAd (fts : List Entry) (old : Row) : List Entry := fts.erase old.entry

def nodesAu (fts : List Entry) (old new : Row) : List Entry := nodesAi new (nodesAd fts old)

/-- A new row is numbered after all others. -/
def newRowid (rows : List Row) : Nat := (rows.map Row.rowid).foldr max 0 + 1

/-- The written row has a qualified name. -/
def Node.written (node : Node) : Node :=
  { node with qualifiedName := if node.qualifiedName = "" then node.name else node.qualifiedName }

def Node.missesFields (node : Node) : Bool := node.id = "" || node.name = "" || node.filePath = ""

namespace Store

/-- A replaced row only fires its delete trigger when triggers are recursive. -/
def insertOrReplace (store : Store) (node : Node) : Store :=
  let replaced := store.nodes.filter fun row => row.id = node.id
  let row : Row := ⟨node, newRowid store.nodes⟩
  { nodes := store.nodes.filter (fun row => row.id ≠ node.id) ++ [row]
    nodesFts := nodesAi row (if recursiveTriggers then replaced.foldl nodesAd store.nodesFts else store.nodesFts) }

def insertNode (store : Store) (node : Node) : Store :=
  if node.missesFields then store else store.insertOrReplace node.written

def insertNodes (store : Store) (nodes : List Node) : Store := nodes.foldl insertNode store

/-- The row of the id keeps its number. -/
def updateNode (store : Store) (node : Node) : Store :=
  if node.missesFields then store
  else
    let change (row : Row) : Row := ⟨node.written, row.rowid⟩
    { nodes := store.nodes.map fun row => if row.id = node.id then change row else row
      nodesFts := (store.nodes.filter fun row => row.id = node.id).foldl
        (fun fts row => nodesAu fts row (change row)) store.nodesFts }

def deleteWhere (store : Store) (test : Row → Bool) : Store :=
  { nodes := store.nodes.filter fun row => !test row
    nodesFts := (store.nodes.filter test).foldl nodesAd store.nodesFts }

def deleteNode (store : Store) (id : String) : Store := store.deleteWhere fun row => row.id = id

def deleteNodesByFile (store : Store) (filePath : String) : Store :=
  store.deleteWhere fun row => row.filePath = filePath

/-- The row of the file itself is in another table. -/
def deleteFile (store : Store) (filePath : String) : Store := store.deleteNodesByFile filePath

end Store

inductive Call where
  | insertNode (node : Node)
  | insertNodes (nodes : List Node)
  | updateNode (node : Node)
  | deleteNode (id : String)
  | deleteNodesByFile (filePath : String)
  | deleteFile (filePath : String)
  | failed

/-- A statement that fails leaves the tables as they were. -/
def Store.run (store : Store) : Call → Store
  | .insertNode node => store.insertNode node
  | .insertNodes nodes => store.insertNodes nodes
  | .updateNode node => store.updateNode node
  | .deleteNode id => store.deleteNode id
  | .deleteNodesByFile filePath => store.deleteNodesByFile filePath
  | .deleteFile filePath => store.deleteFile filePath
  | .failed => store

/-- The stores that the calls lead to when each one is allowed. -/
inductive Reached (allowed : Store → Call → Prop) : Store → Prop
  | empty : Reached allowed ⟨[], []⟩
  | call {store : Store} {call : Call} (before : Reached allowed store) (meets : allowed store call) :
      Reached allowed (store.run call)

/-- Each row has exactly one entry, at its number and with its values, and no entry is left over. -/
structure Indexed (store : Store) : Prop where
  entries : store.nodesFts.Perm (store.nodes.map Row.entry)
  single : (store.nodesFts.map Entry.rowid).Nodup

/-- The node is skipped, or no row has its id. -/
def Absent (store : Store) (node : Node) : Prop :=
  node.missesFields = true ∨ ∀ row ∈ store.nodes, row.id ≠ node.id

def AllAbsent : Store → List Node → Prop
  | _, [] => True
  | store, node :: rest => Absent store node ∧ AllAbsent (store.insertNode node) rest

/-- No insertion writes an id that a row has. -/
def Fresh (store : Store) : Call → Prop
  | .insertNode node => Absent store node
  | .insertNodes nodes => AllAbsent store nodes
  | _ => True

/-- The index is right, and ids and numbers are unique. -/
structure Sound (store : Store) : Prop where
  entries : store.nodesFts.Perm (store.nodes.map Row.entry)
  numbers : (store.nodes.map Row.rowid).Nodup
  ids : (store.nodes.map fun row => row.id).Nodup

section Steps

variable {store : Store}

theorem rowid_lt_new {rows : List Row} {row : Row} (mem : row ∈ rows) : row.rowid < newRowid rows := by
  unfold newRowid
  induction rows with
  | nil => exact absurd mem not_mem_nil
  | cons first rows ih =>
    rw [map_cons, foldr_cons]
    rcases mem_cons.mp mem with rfl | mem
    · omega
    · have below := ih mem
      omega

theorem Sound.indexed (sound : Sound store) : Indexed store := by
  refine ⟨sound.entries, ((sound.entries.map Entry.rowid).nodup_iff).mpr ?_⟩
  rw [map_map]
  exact sound.numbers

theorem Sound.insertNode (sound : Sound store) {node : Node} (absent : Absent store node) :
    Sound (store.insertNode node) := by
  unfold Store.insertNode
  split
  · exact sound
  rename_i valid
  have apart := absent.resolve_left valid
  have kept : store.nodes.filter (fun row => row.id ≠ node.written.id) = store.nodes :=
    filter_eq_self.mpr fun row mem => decide_eq_true (apart row mem)
  simp only [Store.insertOrReplace, recursiveTriggers, Bool.false_eq_true, if_false, nodesAi, kept]
  refine ⟨?_, ?_, ?_⟩
  · rw [map_append]
    exact sound.entries.append_right _
  · rw [map_append]
    refine List.Nodup.append sound.numbers (nodup_singleton _) ?_
    rw [map_singleton, disjoint_singleton]
    intro same
    obtain ⟨row, mem, equal⟩ := mem_map.mp same
    exact absurd equal (ne_of_lt (rowid_lt_new mem))
  rw [map_append]
  refine List.Nodup.append sound.ids (nodup_singleton _) ?_
  rw [map_singleton, disjoint_singleton]
  intro same
  obtain ⟨row, mem, equal⟩ := mem_map.mp same
  exact apart row mem equal

theorem Sound.insertNodes (sound : Sound store) {nodes : List Node} (absent : AllAbsent store nodes) :
    Sound (store.insertNodes nodes) := by
  induction nodes generalizing store with
  | nil => exact sound
  | cons node nodes ih => exact ih (sound.insertNode absent.1) absent.2

theorem foldl_nodesAd {rows : List Row} {fts rest : List Entry} (entries : fts.Perm (rows.map Row.entry ++ rest)) :
    (rows.foldl nodesAd fts).Perm rest := by
  induction rows generalizing fts with
  | nil => exact entries
  | cons row rows ih =>
    refine ih ?_
    have erased := entries.erase row.entry
    rwa [map_cons, cons_append, erase_cons_head] at erased

theorem Sound.deleteWhere (sound : Sound store) (test : Row → Bool) : Sound (store.deleteWhere test) := by
  have split := (filter_append_perm test store.nodes).symm.map Row.entry
  rw [map_append] at split
  exact ⟨foldl_nodesAd (sound.entries.trans split), (filter_sublist.map _).nodup sound.numbers,
    (filter_sublist.map _).nodup sound.ids⟩

theorem map_of_absent {rows : List Row} {id : String} (absent : ∀ row ∈ rows, row.id ≠ id) (change : Row → Row) :
    rows.map (fun row => if row.id = id then change row else row) = rows := by
  rw [map_congr_left fun row mem => if_neg (absent row mem), map_id']

theorem exists_split {rows : List Row} (ids : (rows.map fun row => row.id).Nodup) {row : Row} (mem : row ∈ rows) :
    ∃ front back, rows = front ++ row :: back ∧ ∀ other ∈ front ++ back, other.id ≠ row.id := by
  obtain ⟨front, back, rfl⟩ := append_of_mem mem
  refine ⟨front, back, rfl, fun other found same => ?_⟩
  rw [map_append, map_cons, nodup_middle, ← map_append] at ids
  exact (nodup_cons.mp ids).1 (mem_map.mpr ⟨other, found, same⟩)

theorem Sound.updateNode (sound : Sound store) (node : Node) : Sound (store.updateNode node) := by
  unfold Store.updateNode
  split
  · exact sound
  by_cases present : ∃ row ∈ store.nodes, row.id = node.id
  · obtain ⟨row, mem, same⟩ := present
    obtain ⟨front, back, split, others⟩ := exists_split sound.ids mem
    rw [same] at others
    obtain ⟨early, late⟩ := forall_mem_append.mp others
    have none {rows : List Row} (apart : ∀ other ∈ rows, other.id ≠ node.id) :
        rows.filter (fun row => row.id = node.id) = [] :=
      filter_eq_nil_iff.mpr fun other found => by simpa using apart other found
    have rows : store.nodes.map (fun row => if row.id = node.id then ⟨node.written, row.rowid⟩ else row) =
        front ++ ⟨node.written, row.rowid⟩ :: back := by
      rw [split, map_append, map_cons, map_of_absent early, map_of_absent late, if_pos same]
    have hit : store.nodes.filter (fun row => row.id = node.id) = [row] := by
      rw [split, filter_append, none early, filter_cons_of_pos (by simpa using same), none late]
      rfl
    simp only [rows, hit, foldl_cons, foldl_nil]
    have entries := sound.entries
    have numbers := sound.numbers
    have ids := sound.ids
    rw [split] at entries numbers ids
    refine ⟨?_, ?_, ?_⟩
    · have erased := (entries.trans (perm_middle.map Row.entry)).erase row.entry
      rw [map_cons, erase_cons_head] at erased
      exact (erased.append_right _).trans ((perm_append_singleton _ _).trans
        (perm_middle.symm.map Row.entry))
    · simpa using numbers
    · simpa [Node.written, same] using ids
  rw [not_exists] at present
  have apart : ∀ row ∈ store.nodes, row.id ≠ node.id := fun row mem same => present row ⟨mem, same⟩
  have none : store.nodes.filter (fun row => row.id = node.id) = [] :=
    filter_eq_nil_iff.mpr fun other found => by simpa using apart other found
  simp only [map_of_absent apart, none, foldl_nil]
  exact sound

/-- While no insertion writes the id of a row, each row has exactly its entry. -/
theorem indexed_of_reached (reached : Reached Fresh store) : Indexed store := by
  suffices sound : Sound store from sound.indexed
  induction reached with
  | empty => exact ⟨List.Perm.nil, nodup_nil, nodup_nil⟩
  | @call store call before meets sound =>
    cases call with
    | insertNode node => exact sound.insertNode meets
    | insertNodes nodes => exact sound.insertNodes meets
    | updateNode node => exact sound.updateNode node
    | deleteNode id => exact sound.deleteWhere _
    | deleteNodesByFile filePath => exact sound.deleteWhere _
    | deleteFile filePath => exact sound.deleteWhere _
    | failed => exact sound

end Steps

def mainNode (signature : String) : Node := ⟨"n", "main", "", "src/main.rs", none, some signature⟩

theorem indexed_updated :
    Indexed ((Store.run ⟨[], []⟩ (.insertNode (mainNode "fn main()"))).run (.updateNode (mainNode "fn main() -> i32"))) :=
  indexed_of_reached ((Reached.empty.call (.inr fun _ mem => absurd mem not_mem_nil)).call trivial)

/-- An id that is inserted again leaves the entry of the replaced row behind. -/
theorem not_indexed_reinserted : ¬ ∀ store, Reached (fun _ _ => True) store → Indexed store := by
  intro indexed
  have reached : Reached (fun _ _ => True) ((Store.run ⟨[], []⟩ (.insertNode (mainNode "fn main()"))).run
      (.insertNode (mainNode "fn main() -> i32"))) := (Reached.empty.call trivial).call trivial
  have lengths := (indexed _ reached).entries.length_eq
  revert lengths
  decide

end Codegraph.Fts
