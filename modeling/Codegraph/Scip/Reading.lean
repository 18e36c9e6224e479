import Codegraph.Library.Text
import Codegraph.Scip.Format

namespace Codegraph.Scip

open Library Library.Wire List Interner

theorem text_safe (bytes : Bytes) : Safe (text bytes) := by
  unfold text
  split
  · exact safe_ok _
  · exact safe_malformed _

theorem Interner.intern_safe (interner : Interner) (bytes : Bytes) : Safe (interner.intern bytes) := by
  unfold intern
  split
  · exact safe_ok _
  split
  · exact safe_malformed _
  split
  · exact safe_ok _
  · exact safe_ok _

theorem pushInt32s_safe (value : Value) (out : List Int32) : Safe (pushInt32s value out) := by
  cases value with
  | varint value => exact safe_ok _
  | bytes packed => exact (readPacked_safe packed).map _
  | fixed => exact safe_ok _

theorem OccurrenceFields.read_safe (fields : OccurrenceFields) (entry : Nat × Value) :
    Safe (fields.read entry) := by
  unfold read
  split
  · exact (pushInt32s_safe _ _).map _
  · exact (intern_safe _ _).map _
  · exact safe_ok _
  · exact (pushInt32s_safe _ _).map _
  · exact safe_ok _

theorem readOccurrence_safe (bytes : Bytes) (interner : Interner) : Safe (readOccurrence bytes interner) :=
  (readFields_safe OccurrenceFields.read_safe bytes _).map _

theorem readSignature_safe (signature : Option String) (entry : Nat × Value) :
    Safe (readSignature signature entry) := by
  unfold readSignature
  split
  · exact (text_safe _).map _
  · exact safe_ok _

theorem SymbolInfo.read_safe (state : SymbolInfo × Interner) (entry : Nat × Value) :
    Safe (SymbolInfo.read state entry) := by
  unfold read
  split
  · exact (intern_safe _ _).map _
  · exact (text_safe _).map _
  · exact safe_ok _
  · exact (text_safe _).map _
  · exact (readFields_safe readSignature_safe _ _).map _
  · exact safe_ok _

theorem Document.read_safe (state : Document × Interner) (entry : Nat × Value) :
    Safe (Document.read state entry) := by
  unfold read
  split
  · exact (text_safe _).map _
  · exact (readOccurrence_safe _ _).map _
  · exact (readFields_safe SymbolInfo.read_safe _ _).map _
  · exact (text_safe _).map _
  · exact safe_ok _
  · exact safe_ok _

theorem ScipIndex.readTool_safe (index : ScipIndex) (entry : Nat × Value) : Safe (index.readTool entry) := by
  unfold readTool
  split
  · exact (text_safe _).map _
  · exact (text_safe _).map _
  · exact safe_ok _

theorem ScipIndex.readMetadata_safe (index : ScipIndex) (entry : Nat × Value) :
    Safe (index.readMetadata entry) := by
  unfold readMetadata
  split
  · exact readFields_safe readTool_safe _ _
  · exact (text_safe _).map _
  · exact safe_ok _

theorem ScipIndex.read_safe (state : ScipIndex × Interner) (entry : Nat × Value) :
    Safe (ScipIndex.read state entry) := by
  unfold read
  split
  · exact (readFields_safe readMetadata_safe _ _).map _
  · exact (readFields_safe Document.read_safe _ _).map _
  · exact safe_ok _

/-- Decoding never reads out of range or overflows. -/
theorem ScipIndex.decode_safe (bytes : Bytes) : Safe (decode bytes) :=
  (readFields_safe read_safe bytes _).map _

/-- The name of a local symbol. -/
def IsLocal (name : String) : Prop := (utf8 "local ").isPrefixOf (utf8 name) = true

/-- Its coordinates are not negative as signed numbers. -/
def Range.Valid (range : Range) : Prop :=
  range.startLine.toNat < 2 ^ 31 ∧ range.startCol.toNat < 2 ^ 31 ∧
    range.endLine.toNat < 2 ^ 31 ∧ range.endCol.toNat < 2 ^ 31

def Document.ids (document : Document) : List SymbolId :=
  document.occurrences.map (·.symbol) ++ document.symbols.map (·.symbol)

def Document.ranges (document : Document) : List Range :=
  document.occurrences.flatMap fun occurrence => occurrence.range :: occurrence.enclosing.toList

def ScipIndex.ids (index : ScipIndex) : List SymbolId := index.documents.flatMap (·.ids)

/-- The ids are local or index distinct names, and the coordinates are not negative. -/
structure ScipIndex.WellFormed (index : ScipIndex) : Prop where
  indexed : ∀ id ∈ index.ids, id = LOCAL ∨ id.toNat < index.symbols.length
  distinct : ∀ first ∈ index.ids, ∀ second ∈ index.ids, first ≠ LOCAL → second ≠ LOCAL →
    index.symbol first = index.symbol second → first = second
  named : ∀ id ∈ index.ids, id ≠ LOCAL → ¬IsLocal (index.symbol id)
  ranges : ∀ document ∈ index.documents, ∀ range ∈ document.ranges, range.Valid

theorem fromUTF8_utf8 (name : String) : String.fromUTF8? ⟨(utf8 name).toArray⟩ = some name := by
  have bytes : (⟨(utf8 name).toArray⟩ : ByteArray) = name.toByteArray := rfl
  rw [bytes, String.fromUTF8?, dif_pos name.isValidUTF8]
  rfl

variable {bytes : Bytes}

theorem utf8_of_fromUTF8 {name : String}
    (read : String.fromUTF8? ⟨bytes.toArray⟩ = some name) : utf8 name = bytes := by
  unfold String.fromUTF8? at read
  split at read
  · cases read
    rfl
  · cases read

/-- The interned names are distinct and not local, and an id is the place of a name from one. -/
structure Interner.Valid (interner : Interner) : Prop where
  listed : ∀ name, name ∈ interner.symbols ↔ ∃ id, interner.ids.get name = some id
  bounded : ∀ name id, interner.ids.get name = some id → id.toNat ≤ interner.symbols.length
  distinct : interner.symbols.Nodup
  named : ∀ name ∈ interner.symbols, ¬IsLocal name

theorem Interner.valid_empty : Interner.empty.Valid where
  listed name := by simp [empty]
  bounded name id found := by simp [empty] at found
  distinct := nodup_nil
  named name mem := absurd mem not_mem_nil

/-- A later interner has more names. -/
def Interner.Extends (after before : Interner) : Prop :=
  after.Valid ∧ before.symbols.length ≤ after.symbols.length

theorem Interner.Extends.trans {first second third : Interner} (earlier : second.Extends first)
    (later : third.Extends second) : third.Extends first :=
  ⟨later.1, earlier.2.trans later.2⟩

variable {interner next : Interner}

theorem Interner.intern_valid (valid : interner.Valid)
    {id : SymbolId} (ran : interner.intern bytes = .ok (id, next)) :
    next.Extends interner ∧ id.toNat ≤ next.symbols.length := by
  unfold intern at ran
  split at ran
  · obtain ⟨rfl, rfl⟩ := Prod.mk.inj (Except.ok.inj ran)
    exact ⟨⟨valid, le_rfl⟩, Nat.zero_le _⟩
  rename_i notLocal
  split at ran
  · cases ran
  rename_i name read
  split at ran
  · rename_i known found
    obtain ⟨rfl, rfl⟩ := Prod.mk.inj (Except.ok.inj ran)
    exact ⟨⟨valid, le_rfl⟩, valid.bounded name _ found⟩
  rename_i absent
  obtain ⟨rfl, rfl⟩ := Prod.mk.inj (Except.ok.inj ran)
  have small : (UInt32.ofNat interner.symbols.length + 1).toNat ≤ interner.symbols.length + 1 := by
    rw [UInt32.toNat_add, UInt32.toNat_ofNat']
    exact (Nat.mod_le _ _).trans (Nat.add_le_add_right (Nat.mod_le _ _) 1)
  have unlisted : name ∉ interner.symbols := by
    rw [valid.listed, absent]
    simp
  have inserted : (⟨interner.ids.set name (UInt32.ofNat interner.symbols.length + 1),
      interner.symbols ++ [name]⟩ : Interner).Valid := by
    constructor
    · intro other
      simp only [mem_append, mem_singleton, Dict.get_set, valid.listed]
      by_cases same : other = name
      · simp [same]
      · simp [same]
    · intro other id found
      rw [Dict.get_set] at found
      rw [length_append, length_singleton]
      split at found
      · cases found
        exact small
      · exact (valid.bounded other id found).trans (Nat.le_succ _)
    · exact nodup_append.mpr ⟨valid.distinct, nodup_singleton name, by
        intro first mem second same
        rw [mem_singleton.mp same]
        exact fun equal => unlisted (equal ▸ mem)⟩
    · intro other mem
      rcases mem_append.mp mem with earlier | last
      · exact valid.named other earlier
      · rwa [mem_singleton.mp last, IsLocal, utf8_of_fromUTF8 read]
  refine ⟨⟨inserted, by simp⟩, ?_⟩
  rwa [length_append, length_singleton]

theorem coordinate_valid {value : Int32} {read : UInt32} (found : coordinate value = some read) :
    read.toNat < 2 ^ 31 := by
  unfold coordinate at found
  split at found
  · rename_i positive
    cases found
    have signed : 0 ≤ value.toInt := by simpa [Int32.le_iff_toInt_le] using positive
    have := BitVec.toInt_eq_toNat_cond value.toBitVec
    change 0 ≤ value.toBitVec.toInt at signed
    change value.toBitVec.toNat < _
    have := value.toBitVec.isLt
    split at * <;> omega
  · cases found

theorem Range.fromPacked_valid {values : List Int32} {range : Range}
    (read : fromPacked values = some range) : range.Valid := by
  unfold fromPacked at read
  split at read
  · simp only [Option.bind_eq_bind, Option.bind_eq_some_iff, Option.some.injEq] at read
    obtain ⟨line, lined, start, started, again, lineAgain, stop, stopped, rfl⟩ := read
    exact ⟨coordinate_valid lined, coordinate_valid started, coordinate_valid lineAgain,
      coordinate_valid stopped⟩
  · simp only [Option.bind_eq_bind, Option.bind_eq_some_iff, Option.some.injEq] at read
    obtain ⟨line, lined, start, started, last, lastLine, stop, stopped, rfl⟩ := read
    exact ⟨coordinate_valid lined, coordinate_valid started, coordinate_valid lastLine,
      coordinate_valid stopped⟩
  · cases read

variable {entry : Nat × Value}

theorem OccurrenceFields.read_valid {start : Interner} {fields next : OccurrenceFields}
    (before : fields.interner.Extends start ∧
      ∀ id ∈ fields.symbol, id.toNat ≤ fields.interner.symbols.length)
    (ran : fields.read entry = .ok next) :
    next.interner.Extends start ∧ ∀ id ∈ next.symbol, id.toNat ≤ next.interner.symbols.length := by
  unfold read at ran
  split at ran
  · obtain ⟨range, -, rfl⟩ := map_ok_iff.mp ran
    exact before
  · obtain ⟨interned, interning, rfl⟩ := map_ok_iff.mp ran
    obtain ⟨later, bounded⟩ := intern_valid before.1.1 interning
    refine ⟨before.1.trans later, ?_⟩
    intro id same
    cases same
    exact bounded
  · cases ran
    exact before
  · obtain ⟨range, -, rfl⟩ := map_ok_iff.mp ran
    exact before
  · cases ran
    exact before

theorem readOccurrence_valid (valid : interner.Valid)
    {read : Option Occurrence} (ran : readOccurrence bytes interner = .ok (read, next)) :
    next.Extends interner ∧ ∀ occurrence ∈ read, occurrence.symbol.toNat ≤ next.symbols.length ∧
      ∀ range ∈ occurrence.range :: occurrence.enclosing.toList, range.Valid := by
  obtain ⟨fields, reading, same⟩ := map_ok_iff.mp ran
  obtain ⟨rfl, rfl⟩ := Prod.mk.inj same
  have kept := readFields_keeps (fun _ _ _ => OccurrenceFields.read_valid )
    ⟨⟨valid, le_rfl⟩, by simp⟩ reading
  refine ⟨kept.1, ?_⟩
  intro occurrence found
  simp only [OccurrenceFields.occurrence, Option.bind_eq_bind, Option.mem_def,
    Option.bind_eq_some_iff, Option.some.injEq] at found
  obtain ⟨range, ranged, symbol, symbolized, rfl⟩ := found
  refine ⟨kept.2 symbol symbolized, ?_⟩
  intro other mem
  rcases mem_cons.mp mem with rfl | enclosing
  · exact Range.fromPacked_valid ranged
  · exact Range.fromPacked_valid (Option.mem_toList.mp enclosing)

theorem SymbolInfo.read_valid {start : Interner} {state next : SymbolInfo × Interner}
    (before : state.2.Extends start ∧ state.1.symbol.toNat ≤ state.2.symbols.length)
    (ran : SymbolInfo.read state entry = .ok next) :
    next.2.Extends start ∧ next.1.symbol.toNat ≤ next.2.symbols.length := by
  unfold read at ran
  split at ran
  · obtain ⟨interned, interning, rfl⟩ := map_ok_iff.mp ran
    obtain ⟨later, bounded⟩ := intern_valid before.1.1 interning
    exact ⟨before.1.trans later, bounded⟩
  · obtain ⟨doc, -, rfl⟩ := map_ok_iff.mp ran
    exact before
  · cases ran
    exact before
  · obtain ⟨name, -, rfl⟩ := map_ok_iff.mp ran
    exact before
  · obtain ⟨signature, -, rfl⟩ := map_ok_iff.mp ran
    exact before
  · cases ran
    exact before

theorem readSymbol_valid (valid : interner.Valid)
    {info : SymbolInfo} (ran : readSymbol bytes interner = .ok (info, next)) :
    next.Extends interner ∧ info.symbol.toNat ≤ next.symbols.length :=
  readFields_keeps (fun _ _ _ => SymbolInfo.read_valid )
    ⟨⟨valid, le_rfl⟩, Nat.zero_le _⟩ ran

/-- The ids of a document are places of names, and its ranges are readable. -/
def Document.Sound (document : Document) (count : Nat) : Prop :=
  (∀ id ∈ document.ids, id.toNat ≤ count) ∧ ∀ range ∈ document.ranges, range.Valid

theorem Document.Sound.mono {document : Document} {first second : Nat} (sound : document.Sound first)
    (more : first ≤ second) : document.Sound second :=
  ⟨fun id mem => (sound.1 id mem).trans more, sound.2⟩

theorem Document.read_valid {start : Interner} {state next : Document × Interner}
    (before : state.2.Extends start ∧ state.1.Sound state.2.symbols.length)
    (ran : Document.read state entry = .ok next) :
    next.2.Extends start ∧ next.1.Sound next.2.symbols.length := by
  unfold read at ran
  split at ran
  · obtain ⟨path, -, rfl⟩ := map_ok_iff.mp ran
    exact before
  · obtain ⟨read, reading, rfl⟩ := map_ok_iff.mp ran
    obtain ⟨later, sound⟩ := readOccurrence_valid before.1.1 reading
    obtain ⟨bounded, readable⟩ := before.2.mono later.2
    refine ⟨before.1.trans later, ?_, ?_⟩
    · intro id mem
      simp only [ids, map_append, mem_append, mem_map, Option.mem_toList] at mem
      rcases mem with (earlier | ⟨occurrence, found, rfl⟩) | info
      · exact bounded id (mem_append_left _ (mem_map.mpr earlier))
      · exact (sound occurrence found).1
      · exact bounded id (mem_append_right _ (mem_map.mpr info))
    intro range mem
    simp only [ranges, flatMap_append, mem_append] at mem
    rcases mem with earlier | last
    · exact readable range earlier
    · obtain ⟨occurrence, found, inside⟩ := mem_flatMap.mp last
      exact (sound occurrence (Option.mem_toList.mp found)).2 range inside
  · obtain ⟨read, reading, rfl⟩ := map_ok_iff.mp ran
    obtain ⟨later, sound⟩ := readSymbol_valid before.1.1 reading
    obtain ⟨bounded, readable⟩ := before.2.mono later.2
    refine ⟨before.1.trans later, ?_, readable⟩
    intro id mem
    simp only [ids, map_append, mem_append, map_cons, map_nil, mem_singleton] at mem
    rcases mem with occurrence | earlier | rfl
    · exact bounded id (mem_append_left _ occurrence)
    · exact bounded id (mem_append_right _ earlier)
    · exact sound
  · obtain ⟨language, -, rfl⟩ := map_ok_iff.mp ran
    exact before
  · cases ran
    exact before
  · cases ran
    exact before

theorem readDocument_valid (valid : interner.Valid)
    {document : Document} (ran : readDocument bytes interner = .ok (document, next)) :
    next.Extends interner ∧ document.Sound next.symbols.length :=
  readFields_keeps (fun _ _ _ => Document.read_valid )
    ⟨⟨valid, le_rfl⟩, by simp [Document.Sound, Document.ids, Document.ranges, Document.empty]⟩ ran

theorem ScipIndex.readTool_documents {documents : List Document} {index next : ScipIndex}
    (before : index.documents = documents)
    (ran : index.readTool entry = .ok next) : next.documents = documents := by
  unfold readTool at ran
  split at ran
  · obtain ⟨name, -, rfl⟩ := map_ok_iff.mp ran
    exact before
  · obtain ⟨version, -, rfl⟩ := map_ok_iff.mp ran
    exact before
  · cases ran
    exact before

theorem ScipIndex.readMetadata_documents {documents : List Document} {index next : ScipIndex}
    (before : index.documents = documents)
    (ran : index.readMetadata entry = .ok next) : next.documents = documents := by
  unfold readMetadata at ran
  split at ran
  · exact readFields_keeps (fun _ _ _ => readTool_documents) before ran
  · obtain ⟨root, -, rfl⟩ := map_ok_iff.mp ran
    exact before
  · cases ran
    exact before

theorem ScipIndex.read_valid {state next : ScipIndex × Interner}
    (before : state.2.Valid ∧ ∀ document ∈ state.1.documents, document.Sound state.2.symbols.length)
    (ran : ScipIndex.read state entry = .ok next) :
    next.2.Valid ∧ ∀ document ∈ next.1.documents, document.Sound next.2.symbols.length := by
  unfold read at ran
  split at ran
  · obtain ⟨index, reading, rfl⟩ := map_ok_iff.mp ran
    have same := readFields_keeps (fun _ _ _ => readMetadata_documents) rfl reading
    refine ⟨before.1, ?_⟩
    rw [same]
    exact before.2
  · obtain ⟨read, reading, rfl⟩ := map_ok_iff.mp ran
    obtain ⟨later, sound⟩ := readDocument_valid before.1 reading
    refine ⟨later.1, ?_⟩
    intro document mem
    rcases mem_append.mp mem with earlier | last
    · exact (before.2 document earlier).mono later.2
    · rwa [mem_singleton.mp last]
  · cases ran
    exact before

theorem Interner.intoSymbols_get {interner : Interner} {id : SymbolId} (named : id ≠ LOCAL)
    (bounded : id.toNat ≤ interner.symbols.length) :
    ∃ inside : id.toNat - 1 < interner.symbols.length,
      (interner.intoSymbols[id.toNat]?).getD "" = interner.symbols[id.toNat - 1] := by
  have positive : id.toNat ≠ 0 := by
    intro zero
    exact named (UInt32.toNat_inj.mp zero)
  have inside : id.toNat - 1 < interner.symbols.length := by omega
  refine ⟨inside, ?_⟩
  rw [intoSymbols, getElem?_cons, if_neg positive, getElem?_eq_getElem inside]
  rfl

theorem wellFormed_of_sound {index : ScipIndex} {interner : Interner} (valid : interner.Valid)
    (symbols : index.symbols = interner.intoSymbols)
    (sound : ∀ document ∈ index.documents, document.Sound interner.symbols.length) :
    index.WellFormed := by
  have bounded : ∀ id ∈ index.ids, id.toNat ≤ interner.symbols.length := by
    intro id mem
    obtain ⟨document, listed, inside⟩ := mem_flatMap.mp mem
    exact (sound document listed).1 id inside
  constructor
  · intro id mem
    have := bounded id mem
    rw [symbols, Interner.intoSymbols, length_cons]
    exact .inr (by omega)
  · intro first firstUsed second secondUsed firstNamed secondNamed same
    obtain ⟨firstInside, firstName⟩ := intoSymbols_get firstNamed (bounded first firstUsed)
    obtain ⟨secondInside, secondName⟩ := intoSymbols_get secondNamed (bounded second secondUsed)
    rw [ScipIndex.symbol, ScipIndex.symbol, symbols, firstName, secondName] at same
    have place := (valid.distinct.getElem_inj_iff).mp same
    have firstPositive : first.toNat ≠ 0 := fun zero => firstNamed (UInt32.toNat_inj.mp zero)
    have secondPositive : second.toNat ≠ 0 := fun zero => secondNamed (UInt32.toNat_inj.mp zero)
    exact UInt32.toNat_inj.mp (by omega)
  · intro id used named
    obtain ⟨inside, name⟩ := intoSymbols_get named (bounded id used)
    rw [ScipIndex.symbol, symbols, name]
    exact valid.named _ (getElem_mem inside)
  · intro document listed
    exact (sound document listed).2

theorem ScipIndex.decode_wellFormed {index : ScipIndex}
    (ran : decode bytes = .ok index) : index.WellFormed := by
  obtain ⟨state, reading, rfl⟩ := map_ok_iff.mp ran
  obtain ⟨valid, sound⟩ := readFields_keeps (fun _ _ _ => read_valid)
    ⟨valid_empty, by simp [empty]⟩ reading
  exact wellFormed_of_sound valid rfl sound

end Codegraph.Scip
