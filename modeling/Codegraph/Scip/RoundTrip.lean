import Codegraph.Scip.Reading

namespace Codegraph.Scip

open Library Library.Wire List

theorem ofNat_asU64 (value : Int32) : Int32.ofNat (asU64 value) = value := by
  apply Int32.toBitVec.inj
  change BitVec.ofNat 32 (value.toBitVec.signExtend 64).toNat = value.toBitVec
  rw [BitVec.ofNat_toNat]
  ext place inside
  have wider : place < 64 := by omega
  rw [BitVec.getElem_setWidth, BitVec.getLsbD_signExtend, if_pos inside, BitVec.getLsbD_eq_getElem inside]
  simp [wider]

theorem asU64_lt (value : Int32) : asU64 value < 2 ^ 64 := UInt64.toNat_lt _

theorem ofNat_toUInt32 (value : Int32) : Int32.ofNat value.toUInt32.toNat = value := by
  apply Int32.toBitVec.inj
  change BitVec.ofNat 32 value.toBitVec.toNat = value.toBitVec
  rw [BitVec.ofNat_toNat, BitVec.setWidth_eq]

theorem coordinate_toInt32 {value : UInt32} (small : value.toNat < 2 ^ 31) :
    coordinate value.toInt32 = some value := by
  have positive : 0 ≤ value.toInt32 := by
    rw [Int32.le_iff_toInt_le]
    have := BitVec.toInt_eq_toNat_cond value.toBitVec
    change 0 ≤ value.toBitVec.toInt
    change value.toBitVec.toNat < _ at small
    split at * <;> omega
  rw [coordinate, if_pos positive]
  rfl

theorem Range.fromPacked_packed {range : Range} (valid : range.Valid) :
    fromPacked range.packed = some range := by
  obtain ⟨startLine, startCol, endLine, endCol⟩ := valid
  unfold packed
  split
  · rename_i same
    simp only [fromPacked, coordinate_toInt32 startLine, coordinate_toInt32 startCol,
      coordinate_toInt32 endCol, Option.bind_eq_bind, Option.bind_some]
    rw [Option.some.injEq]
    exact congrArg (fun line => (⟨range.startLine, range.startCol, line, range.endCol⟩ : Range)) same
  · simp [fromPacked, coordinate_toInt32 startLine, coordinate_toInt32 startCol,
      coordinate_toInt32 endLine, coordinate_toInt32 endCol]

theorem text_utf8 (string : String) : text (utf8 string) = .ok string := by
  rw [text, fromUTF8_utf8]

theorem pushInt32s_packed {values : List Int32} (short : (packedBytes values).length < 2 ^ 64)
    (out : List Int32) : pushInt32s (.bytes (packedBytes values)) out = .ok (out ++ values) := by
  have packed : packedBytes values =
      (values.map fun value => value.toUInt32.toNat).flatMap varintBytes := by
    rw [flatMap_map]
    rfl
  have small : ∀ value ∈ values.map fun value => value.toUInt32.toNat, value < 2 ^ 64 := by
    intro value mem
    obtain ⟨signed, -, rfl⟩ := mem_map.mp mem
    exact (UInt32.toNat_lt _).trans (by decide)
  have same : (values.map fun value => value.toUInt32.toNat).map Int32.ofNat = values := by
    rw [map_map]
    calc values.map (Int32.ofNat ∘ fun value => value.toUInt32.toNat)
        = values.map id := map_congr_left fun value _ => ofNat_toUInt32 value
      _ = values := map_id values
  rw [packed] at short ⊢
  rw [pushInt32s, readPacked_write small short]
  change Except.ok (out ++ List.map Int32.ofNat _) = _
  rw [same]

/-- Decoding gives the id `fresh` to the symbol that has the id in the index. -/
def Names (index : ScipIndex) (interner : Interner) (id fresh : SymbolId) : Prop :=
  if id = LOCAL then fresh = LOCAL else interner.ids.get (index.symbol id) = some fresh

def Grows (before after : Interner) : Prop :=
  ∀ name id, before.ids.get name = some id → after.ids.get name = some id

variable {index : ScipIndex}

theorem Names.mono {before after : Interner} {id fresh : SymbolId}
    (names : Names index before id fresh) (grows : Grows before after) :
    Names index after id fresh := by
  unfold Names at *
  split
  · rename_i isLocal
    rwa [if_pos isLocal] at names
  rename_i named
  rw [if_neg named] at names
  exact grows _ _ names

/-- Each id is the place of its name, and each name is used by the index. -/
structure Exact (index : ScipIndex) (interner : Interner) : Prop where
  valid : interner.Valid
  placed : ∀ name id, interner.ids.get name = some id →
    id ≠ LOCAL ∧ interner.symbols[id.toNat - 1]? = some name
  used : ∀ name ∈ interner.symbols, ∃ id ∈ index.ids, id ≠ LOCAL ∧ index.symbol id = name

theorem Exact.empty (index : ScipIndex) : Exact index .empty where
  valid := Interner.valid_empty
  placed name id found := by simp [Interner.empty] at found
  used name mem := absurd mem not_mem_nil

theorem length_of_used {names : List String} (distinct : names.Nodup)
    (used : ∀ name ∈ names, ∃ id ∈ index.ids, id ≠ LOCAL ∧ index.symbol id = name) :
    names.length < 2 ^ 32 := by
  have choice : ∀ name, ∃ place : Nat, name ∈ names → place < 2 ^ 32 - 1 ∧
      index.symbol (UInt32.ofNat (place + 1)) = name := by
    intro name
    by_cases mem : name ∈ names
    · obtain ⟨id, -, named, same⟩ := used name mem
      have positive : id.toNat ≠ 0 := fun zero => named (UInt32.toNat_inj.mp zero)
      refine ⟨id.toNat - 1, fun _ => ⟨?_, ?_⟩⟩
      · have := id.toNat_lt
        omega
      · rwa [Nat.sub_add_cancel (Nat.one_le_iff_ne_zero.mpr positive), UInt32.ofNat_toNat]
    · exact ⟨0, fun listed => absurd listed mem⟩
  choose place spec using choice
  have distinctPlaces : (names.map place).Nodup := by
    refine distinct.map_on ?_
    intro first firstMember second secondMember same
    rw [← (spec first firstMember).2, same, (spec second secondMember).2]
  have inside : names.map place ⊆ List.range (2 ^ 32 - 1) := by
    intro other mem
    obtain ⟨name, listed, rfl⟩ := mem_map.mp mem
    exact List.mem_range.mpr (spec name listed).1
  have count := (distinctPlaces.subperm inside).length_le
  rw [length_map, length_range] at count
  omega

/-- What decoding the symbols `ids` does to the interner. -/
structure Interned (index : ScipIndex) (before after : Interner) (ids : List SymbolId) : Prop where
  exact : Exact index after
  grows : Grows before after
  named : ∀ id ∈ ids, ∃ fresh, Names index after id fresh

theorem Interned.none {interner : Interner} (exact : Exact index interner) :
    Interned index interner interner [] where
  exact := exact
  grows _ _ found := found
  named _ mem := absurd mem not_mem_nil

theorem Interned.trans {first second third : Interner}
    {before after : List SymbolId} (earlier : Interned index first second before)
    (later : Interned index second third after) : Interned index first third (before ++ after) where
  exact := later.exact
  grows name id found := later.grows name id (earlier.grows name id found)
  named id mem := by
    rcases mem_append.mp mem with old | new
    · obtain ⟨fresh, names⟩ := earlier.named id old
      exact ⟨fresh, names.mono later.grows⟩
    · exact later.named id new

/-- A renumbering agrees with what the interner knows. -/
def Follows (index : ScipIndex) (interner : Interner) (rename : SymbolId → SymbolId) : Prop :=
  ∀ id fresh, Names index interner id fresh → rename id = fresh

theorem Follows.anti {before after : Interner} {rename : SymbolId → SymbolId}
    (follows : Follows index after rename) (grows : Grows before after) :
    Follows index before rename :=
  fun id fresh names => follows id fresh (names.mono grows)

theorem intern_written (wellFormed : index.WellFormed) {interner : Interner}
    (exact : Exact index interner) {id : SymbolId} (used : id ∈ index.ids) :
    ∃ fresh next, interner.intern (utf8 (index.written id)) = .ok (fresh, next) ∧
      Interned index interner next [id] ∧
      ∀ rename, Follows index next rename → rename id = fresh := by
  by_cases isLocal : id = LOCAL
  · have names : ∀ interner, Names index interner id LOCAL := by
      intro interner
      rw [Names, if_pos isLocal]
    refine ⟨LOCAL, interner, ?_, ⟨exact, fun _ _ found => found, ?_⟩, ?_⟩
    · have starts : (utf8 "local ").isPrefixOf (utf8 "local 0") = true := by decide
      rw [ScipIndex.written, if_pos isLocal, Interner.intern, if_pos starts]
    · intro other mem
      rw [mem_singleton.mp mem]
      exact ⟨LOCAL, names interner⟩
    · exact fun rename follows => follows id LOCAL (names interner)
  have notLocal : ¬(utf8 "local ").isPrefixOf (utf8 (index.symbol id)) = true :=
    wellFormed.named id used isLocal
  rw [ScipIndex.written, if_neg isLocal, Interner.intern, if_neg notLocal, fromUTF8_utf8]
  dsimp only
  cases known : interner.ids.get (index.symbol id) with
  | some fresh =>
    have names : Names index interner id fresh := by rw [Names, if_neg isLocal, known]
    refine ⟨fresh, interner, rfl, ⟨exact, fun _ _ found => found, ?_⟩, ?_⟩
    · intro other mem
      rw [mem_singleton.mp mem]
      exact ⟨fresh, names⟩
    · exact fun rename follows => follows id fresh names
  | none =>
    have unlisted : index.symbol id ∉ interner.symbols := by
      rw [exact.valid.listed, known]
      simp
    have usedNames : ∀ name ∈ interner.symbols ++ [index.symbol id],
        ∃ id ∈ index.ids, id ≠ LOCAL ∧ index.symbol id = name := by
      intro name mem
      rcases mem_append.mp mem with earlier | last
      · exact exact.used name earlier
      · exact ⟨id, used, isLocal, (mem_singleton.mp last).symm⟩
    have ran : interner.intern (utf8 (index.symbol id)) = .ok (UInt32.ofNat interner.symbols.length + 1,
          ⟨interner.ids.set (index.symbol id) (UInt32.ofNat interner.symbols.length + 1),
            interner.symbols ++ [index.symbol id]⟩) := by
      rw [Interner.intern, if_neg notLocal, fromUTF8_utf8]
      dsimp only
      rw [known]
    have valid := (Interner.intern_valid exact.valid ran).1.1
    have room : interner.symbols.length + 1 < 2 ^ 32 := by
      have := length_of_used valid.distinct usedNames
      rwa [length_append] at this
    have place : (UInt32.ofNat interner.symbols.length + 1).toNat = interner.symbols.length + 1 := by
      have one : (1 : UInt32).toNat = 1 := rfl
      rw [UInt32.toNat_add, UInt32.toNat_ofNat', one, Nat.mod_add_mod]
      exact Nat.mod_eq_of_lt room
    have nonzero : UInt32.ofNat interner.symbols.length + 1 ≠ LOCAL := by
      intro zero
      rw [zero] at place
      exact absurd place (Nat.succ_ne_zero _).symm
    have names : Names index ⟨interner.ids.set (index.symbol id)
        (UInt32.ofNat interner.symbols.length + 1), interner.symbols ++ [index.symbol id]⟩ id
        (UInt32.ofNat interner.symbols.length + 1) := by
      rw [Names, if_neg isLocal, Dict.get_set_self]
    refine ⟨_, _, rfl, ⟨⟨valid, ?_, usedNames⟩, ?_, ?_⟩, ?_⟩
    · intro name other found
      rw [Dict.get_set] at found
      split at found
      · rename_i same
        cases found
        refine ⟨nonzero, ?_⟩
        rw [place, same]
        simp
      obtain ⟨named, earlier⟩ := exact.placed name other found
      exact ⟨named, by rw [getElem?_append_left
        (List.getElem?_eq_some_iff.mp earlier).1, earlier]⟩
    · intro name other found
      rw [Dict.get_set_ne, found]
      intro same
      rw [same, known] at found
      cases found
    · intro other mem
      rw [mem_singleton.mp mem]
      exact ⟨_, names⟩
    · exact fun rename follows => follows id _ names

def nonzeroEntries (number : Nat) (value : Int32) : List (Nat × Value) :=
  if value = 0 then [] else [(number, .varint (asU64 value))]

theorem putNonzero_eq (number : Nat) (value : Int32) :
    putNonzero number value = (nonzeroEntries number value).flatMap fieldBytes := by
  unfold putNonzero nonzeroEntries
  split
  · rfl
  · simp [fieldBytes]

theorem nonzeroEntries_writable {number : Nat} (small : number < 2 ^ 61) (value : Int32) :
    ∀ entry ∈ nonzeroEntries number value, Writable entry := by
  intro entry mem
  unfold nonzeroEntries at mem
  split at mem
  · cases mem
  · rw [mem_singleton.mp mem]
    exact ⟨small, asU64_lt value⟩

/-- A number that is left out is the one the reader starts with. -/
theorem read_nonzero {State : Type} {step : State → Nat × Value → Except Failure State}
    {number : Nat} {state : State} (put : Int32 → State)
    (steps : ∀ value, step state (number, .varint value) = .ok (put (Int32.ofNat value)))
    (start : put 0 = state) (value : Int32) :
    (nonzeroEntries number value).foldlM step state = .ok (put value) := by
  unfold nonzeroEntries
  split
  · rename_i zero
    rw [zero, start]
    rfl
  · rw [foldlM_cons_ok (steps _), ofNat_asU64]
    rfl

def Occurrence.rename (occurrence : Occurrence) (rename : SymbolId → SymbolId) : Occurrence :=
  { occurrence with symbol := rename occurrence.symbol }

def SymbolInfo.rename (info : SymbolInfo) (rename : SymbolId → SymbolId) : SymbolInfo :=
  { info with symbol := rename info.symbol }

def Document.rename (document : Document) (rename : SymbolId → SymbolId) : Document :=
  { document with
    occurrences := document.occurrences.map (·.rename rename)
    symbols := document.symbols.map (·.rename rename) }

namespace ScipIndex

def occurrenceEntries (index : ScipIndex) (occurrence : Occurrence) : List (Nat × Value) :=
  [(1, .bytes (packedBytes occurrence.range.packed)),
    (2, .bytes (utf8 (index.written occurrence.symbol)))] ++
    nonzeroEntries 3 occurrence.roles ++
    occurrence.enclosing.toList.map fun enclosing => (7, .bytes (packedBytes enclosing.packed))

theorem encodeOccurrence_eq (index : ScipIndex) (occurrence : Occurrence) :
    index.encodeOccurrence occurrence = (index.occurrenceEntries occurrence).flatMap fieldBytes := by
  rw [encodeOccurrence, occurrenceEntries, putNonzero_eq]
  cases occurrence.enclosing with
  | none => simp [fieldBytes, putPacked]
  | some enclosing => simp [fieldBytes, putPacked]

theorem occurrenceEntries_writable (index : ScipIndex) (occurrence : Occurrence) :
    ∀ entry ∈ index.occurrenceEntries occurrence, Writable entry := by
  intro entry mem
  simp only [occurrenceEntries, mem_append, mem_cons, not_mem_nil, or_false, mem_map] at mem
  rcases mem with ((rfl | rfl) | roles) | ⟨enclosing, -, rfl⟩
  · exact writable_bytes (by decide) _
  · exact writable_bytes (by decide) _
  · exact nonzeroEntries_writable (by decide) _ entry roles
  · exact writable_bytes (by decide) _

theorem readOccurrence_encode {index : ScipIndex} (wellFormed : index.WellFormed)
    {occurrence : Occurrence} (used : occurrence.symbol ∈ index.ids)
    (ranges : ∀ range ∈ occurrence.range :: occurrence.enclosing.toList, range.Valid)
    (short : (index.encodeOccurrence occurrence).length < 2 ^ 64) {interner : Interner}
    (exact : Exact index interner) :
    ∃ read next, readOccurrence (index.encodeOccurrence occurrence) interner =
        .ok (some read, next) ∧ Interned index interner next [occurrence.symbol] ∧
      ∀ rename, Follows index next rename → read = occurrence.rename rename := by
  obtain ⟨fresh, next, interning, interned, renamed⟩ := intern_written wellFormed exact used
  rw [encodeOccurrence_eq] at short ⊢
  have packedShort : ∀ number values,
      (number, .bytes (packedBytes values)) ∈ index.occurrenceEntries occurrence →
        (packedBytes values).length < 2 ^ 64 :=
    fun number values mem => (payload_short mem).trans short
  have ranged : OccurrenceFields.read ⟨[], [], none, 0, interner⟩
      (1, .bytes (packedBytes occurrence.range.packed)) =
        .ok ⟨occurrence.range.packed, [], none, 0, interner⟩ := by
    rw [OccurrenceFields.read, pushInt32s_packed (packedShort 1 _ (by simp [occurrenceEntries]))]
    rfl
  have symbolized : OccurrenceFields.read ⟨occurrence.range.packed, [], none, 0, interner⟩
      (2, .bytes (utf8 (index.written occurrence.symbol))) =
        .ok ⟨occurrence.range.packed, [], some fresh, 0, next⟩ := by
    rw [OccurrenceFields.read, interning]
    rfl
  have roles : (nonzeroEntries 3 occurrence.roles).foldlM OccurrenceFields.read
      ⟨occurrence.range.packed, [], some fresh, 0, next⟩ =
        .ok ⟨occurrence.range.packed, [], some fresh, occurrence.roles, next⟩ :=
    read_nonzero (fun roles => OccurrenceFields.mk occurrence.range.packed [] (some fresh) roles next)
      (fun _ => rfl) rfl occurrence.roles
  have enclosed : (occurrence.enclosing.toList.map fun enclosing =>
      ((7, .bytes (packedBytes enclosing.packed)) : Nat × Value)).foldlM OccurrenceFields.read
        ⟨occurrence.range.packed, [], some fresh, occurrence.roles, next⟩ =
      .ok ⟨occurrence.range.packed, occurrence.enclosing.toList.flatMap (·.packed), some fresh,
        occurrence.roles, next⟩ := by
    cases enclosing : occurrence.enclosing with
    | none => rfl
    | some range =>
      have mem : (7, .bytes (packedBytes range.packed)) ∈ index.occurrenceEntries occurrence := by
        simp [occurrenceEntries, enclosing]
      have read : OccurrenceFields.read
          ⟨occurrence.range.packed, [], some fresh, occurrence.roles, next⟩
          (7, .bytes (packedBytes range.packed)) =
            .ok ⟨occurrence.range.packed, range.packed, some fresh, occurrence.roles, next⟩ := by
        rw [OccurrenceFields.read, pushInt32s_packed (packedShort 7 _ mem)]
        rfl
      rw [Option.toList_some, map_singleton, foldlM_cons_ok read, flatMap_singleton]
      rfl
  have packedBack : Range.fromPacked (occurrence.enclosing.toList.flatMap (·.packed)) =
      occurrence.enclosing := by
    cases enclosing : occurrence.enclosing with
    | none => rfl
    | some range => simpa using Range.fromPacked_packed (ranges range (by simp [enclosing]))
  have folded : (index.occurrenceEntries occurrence).foldlM OccurrenceFields.read
      ⟨[], [], none, 0, interner⟩ = .ok ⟨occurrence.range.packed,
        occurrence.enclosing.toList.flatMap (·.packed), some fresh, occurrence.roles, next⟩ := by
    rw [occurrenceEntries, append_assoc, cons_append, cons_append, nil_append,
      foldlM_cons_ok ranged, foldlM_cons_ok symbolized, foldlM_append_ok roles, enclosed]
  refine ⟨⟨occurrence.range, fresh, occurrence.roles, occurrence.enclosing⟩, next, ?_, interned, ?_⟩
  · rw [readOccurrence, readFields_write _ (index.occurrenceEntries_writable occurrence) short, folded]
    simp [Except.map, OccurrenceFields.occurrence, packedBack,
      Range.fromPacked_packed (ranges occurrence.range mem_cons_self)]
  · intro rename follows
    rw [Occurrence.rename, renamed rename follows]

end ScipIndex

theorem read_items {Item State : Type}
    (step : State × Interner → Nat × Value → Except Failure (State × Interner)) (items : List Item)
    (entry : Item → Nat × Value) (ids : Item → List SymbolId)
    (renamed : Item → (SymbolId → SymbolId) → Item) (push : State → List Item → State)
    (pushNil : ∀ state, push state [] = state)
    (pushCons : ∀ state read reads, push (push state [read]) reads = push state (read :: reads))
    (reads : ∀ item ∈ items, ∀ state interner, Exact index interner →
      ∃ read next, step (state, interner) (entry item) = .ok (push state [read], next) ∧
        Interned index interner next (ids item) ∧
        ∀ rename, Follows index next rename → read = renamed item rename)
    (state : State) {interner : Interner} (exact : Exact index interner) :
    ∃ read next, (items.map entry).foldlM step (state, interner) = .ok (push state read, next) ∧
      Interned index interner next (items.flatMap ids) ∧
      ∀ rename, Follows index next rename → read = items.map fun item => renamed item rename := by
  induction items generalizing state interner with
  | nil =>
    refine ⟨[], interner, ?_, .none exact, fun _ _ => rfl⟩
    rw [pushNil]
    rfl
  | cons item items ih =>
    obtain ⟨read, middle, ran, interned, same⟩ := reads item mem_cons_self state interner exact
    obtain ⟨more, next, ranMore, internedMore, sameMore⟩ :=
      ih (fun other mem => reads other (mem_cons_of_mem _ mem)) (push state [read])
        interned.exact
    refine ⟨read :: more, next, ?_, ?_, ?_⟩
    · rw [map_cons, foldlM_cons_ok ran, ranMore, pushCons]
    · rw [flatMap_cons]
      exact interned.trans internedMore
    · intro rename follows
      rw [map_cons, same rename (follows.anti internedMore.grows), sameMore rename follows]

namespace ScipIndex

def symbolEntries (index : ScipIndex) (info : SymbolInfo) : List (Nat × Value) :=
  [(1, .bytes (utf8 (index.written info.symbol)))] ++
    info.documentation.map (fun line => (3, .bytes (utf8 line))) ++
    nonzeroEntries 5 info.kind ++
    (if info.displayName = "" then [] else [(6, .bytes (utf8 info.displayName))]) ++
    info.signature.toList.map fun signature =>
      (7, .bytes ([(4, .bytes (utf8 "rust")), (5, .bytes (utf8 signature))].flatMap fieldBytes))

theorem encodeSymbol_eq (index : ScipIndex) (info : SymbolInfo) :
    index.encodeSymbol info = (index.symbolEntries info).flatMap fieldBytes := by
  rw [encodeSymbol, symbolEntries, putNonzero_eq]
  have named : (if info.displayName = "" then [] else bytesField 6 (utf8 info.displayName)) =
      (if info.displayName = "" then [] else
        [((6, .bytes (utf8 info.displayName)) : Nat × Value)]).flatMap fieldBytes := by
    split
    · rfl
    · simp [fieldBytes]
  rw [named]
  cases info.signature with
  | none => simp [fieldBytes, flatMap_map]
  | some signature => simp [fieldBytes, flatMap_map]

theorem symbolEntries_writable (index : ScipIndex) (info : SymbolInfo) :
    ∀ entry ∈ index.symbolEntries info, Writable entry := by
  intro entry mem
  simp only [symbolEntries, mem_append, mem_cons, not_mem_nil, or_false, mem_map] at mem
  rcases mem with (((rfl | ⟨line, -, rfl⟩) | kind) | name) | ⟨signature, -, rfl⟩
  · exact writable_bytes (by decide) _
  · exact writable_bytes (by decide) _
  · exact nonzeroEntries_writable (by decide) _ entry kind
  · split at name
    · cases name
    · rw [mem_singleton.mp name]
      exact writable_bytes (by decide) _
  · exact writable_bytes (by decide) _

theorem read_documentation (lines : List String) (state : SymbolInfo × Interner) :
    (lines.map fun line => ((3, .bytes (utf8 line)) : Nat × Value)).foldlM SymbolInfo.read state =
      .ok ({ state.1 with documentation := state.1.documentation ++ lines }, state.2) := by
  induction lines generalizing state with
  | nil =>
    rw [append_nil]
    rfl
  | cons line lines ih =>
    have read : SymbolInfo.read state (3, .bytes (utf8 line)) =
        .ok ({ state.1 with documentation := state.1.documentation ++ [line] }, state.2) := by
      rw [SymbolInfo.read, text_utf8]
      rfl
    rw [map_cons, foldlM_cons_ok read, ih]
    simp

/-- A written symbol is read back under the id it is interned to. -/
theorem readSymbol_encode {index : ScipIndex} (wellFormed : index.WellFormed) {info : SymbolInfo}
    (used : info.symbol ∈ index.ids) (short : (index.encodeSymbol info).length < 2 ^ 64)
    {interner : Interner} (exact : Exact index interner) :
    ∃ read next, readSymbol (index.encodeSymbol info) interner = .ok (read, next) ∧
      Interned index interner next [info.symbol] ∧
      ∀ rename, Follows index next rename → read = info.rename rename := by
  obtain ⟨fresh, next, interning, interned, renamed⟩ := intern_written wellFormed exact used
  rw [encodeSymbol_eq] at short ⊢
  have symbolized : SymbolInfo.read (.empty, interner)
      (1, .bytes (utf8 (index.written info.symbol))) = .ok (⟨fresh, 0, "", none, []⟩, next) := by
    rw [SymbolInfo.read, interning]
    rfl
  have documented := read_documentation info.documentation (⟨fresh, 0, "", none, []⟩, next)
  have kinds : (nonzeroEntries 5 info.kind).foldlM SymbolInfo.read
      (⟨fresh, 0, "", none, info.documentation⟩, next) =
        .ok (⟨fresh, info.kind, "", none, info.documentation⟩, next) :=
    read_nonzero (fun kind => (SymbolInfo.mk fresh kind "" none info.documentation, next))
      (fun _ => rfl) rfl info.kind
  have named : (if info.displayName = "" then [] else
      [((6, .bytes (utf8 info.displayName)) : Nat × Value)]).foldlM SymbolInfo.read
        (⟨fresh, info.kind, "", none, info.documentation⟩, next) =
      .ok (⟨fresh, info.kind, info.displayName, none, info.documentation⟩, next) := by
    split
    · rename_i empty
      rw [empty]
      rfl
    have read : SymbolInfo.read (⟨fresh, info.kind, "", none, info.documentation⟩, next)
        (6, .bytes (utf8 info.displayName)) =
          .ok (⟨fresh, info.kind, info.displayName, none, info.documentation⟩, next) := by
      rw [SymbolInfo.read, text_utf8]
      rfl
    rw [foldlM_cons_ok read]
    rfl
  have signed : (info.signature.toList.map fun signature => ((7, .bytes
      ([(4, .bytes (utf8 "rust")), (5, .bytes (utf8 signature))].flatMap fieldBytes)) :
        Nat × Value)).foldlM SymbolInfo.read
        (⟨fresh, info.kind, info.displayName, none, info.documentation⟩, next) =
      .ok (⟨fresh, info.kind, info.displayName, info.signature, info.documentation⟩, next) := by
    cases signature : info.signature with
    | none => rfl
    | some rendered =>
      have writable : ∀ entry ∈ ([(4, .bytes (utf8 "rust")), (5, .bytes (utf8 rendered))] :
          List (Nat × Value)), Writable entry := by
        intro entry mem
        rcases mem_cons.mp mem with rfl | last
        · exact writable_bytes (by decide) _
        · rw [mem_singleton.mp last]
          exact writable_bytes (by decide) _
      have mem : (7, .bytes ([(4, .bytes (utf8 "rust")),
          (5, .bytes (utf8 rendered))].flatMap fieldBytes)) ∈ index.symbolEntries info := by
        simp [symbolEntries, signature]
      have inner := (payload_short mem).trans short
      have read : SymbolInfo.read
          (⟨fresh, info.kind, info.displayName, none, info.documentation⟩, next)
          (7, .bytes ([(4, .bytes (utf8 "rust")), (5, .bytes (utf8 rendered))].flatMap fieldBytes)) =
          .ok (⟨fresh, info.kind, info.displayName, some rendered, info.documentation⟩, next) := by
        have rust : readSignature none (4, .bytes (utf8 "rust")) = .ok none := rfl
        have text : readSignature none (5, .bytes (utf8 rendered)) = .ok (some rendered) := by
          rw [readSignature, text_utf8]
          rfl
        rw [SymbolInfo.read, readFields_write _ writable inner, foldlM_cons_ok rust, foldlM_cons_ok text]
        rfl
      rw [Option.toList_some, map_singleton, foldlM_cons_ok read]
      rfl
  refine ⟨⟨fresh, info.kind, info.displayName, info.signature, info.documentation⟩, next, ?_, interned, ?_⟩
  · rw [readSymbol, readFields_write _ (index.symbolEntries_writable info) short, symbolEntries,
      append_assoc, append_assoc, append_assoc, singleton_append,
      foldlM_cons_ok symbolized, foldlM_append_ok documented, nil_append,
      foldlM_append_ok kinds, foldlM_append_ok named, signed]
  · intro rename follows
    rw [SymbolInfo.rename, renamed rename follows]

end ScipIndex

namespace ScipIndex

def documentEntries (index : ScipIndex) (document : Document) : List (Nat × Value) :=
  [(4, .bytes (utf8 document.language)), (1, .bytes (utf8 document.relativePath))] ++
    document.occurrences.map (fun occurrence => (2, .bytes (index.encodeOccurrence occurrence))) ++
    document.symbols.map (fun info => (3, .bytes (index.encodeSymbol info))) ++
    nonzeroEntries 6 document.positionEncoding

theorem encodeDocument_eq (index : ScipIndex) (document : Document) :
    index.encodeDocument document = (index.documentEntries document).flatMap fieldBytes := by
  rw [encodeDocument, documentEntries, putNonzero_eq]
  simp [fieldBytes, flatMap_map]

theorem documentEntries_writable (index : ScipIndex) (document : Document) :
    ∀ entry ∈ index.documentEntries document, Writable entry := by
  intro entry mem
  simp only [documentEntries, mem_append, mem_cons, not_mem_nil, or_false, mem_map] at mem
  rcases mem with (((rfl | rfl) | ⟨occurrence, -, rfl⟩) | ⟨info, -, rfl⟩) | encoding
  · exact writable_bytes (by decide) _
  · exact writable_bytes (by decide) _
  · exact writable_bytes (by decide) _
  · exact writable_bytes (by decide) _
  · exact nonzeroEntries_writable (by decide) _ entry encoding

variable {index : ScipIndex}

theorem readDocument_encode (wellFormed : index.WellFormed)
    {document : Document} (listed : document ∈ index.documents)
    (short : (index.encodeDocument document).length < 2 ^ 64) {interner : Interner}
    (exact : Exact index interner) :
    ∃ read next, readDocument (index.encodeDocument document) interner = .ok (read, next) ∧
      Interned index interner next document.ids ∧
      ∀ rename, Follows index next rename → read = document.rename rename := by
  have used : ∀ id ∈ document.ids, id ∈ index.ids :=
    fun id mem => mem_flatMap.mpr ⟨document, listed, mem⟩
  rw [encodeDocument_eq] at short ⊢
  have spoken : Document.read (.empty, interner) (4, .bytes (utf8 document.language)) =
      .ok (⟨"", document.language, [], [], 0⟩, interner) := by
    rw [Document.read, text_utf8]
    rfl
  have pathed : Document.read (⟨"", document.language, [], [], 0⟩, interner)
      (1, .bytes (utf8 document.relativePath)) =
        .ok (⟨document.relativePath, document.language, [], [], 0⟩, interner) := by
    rw [Document.read, text_utf8]
    rfl
  obtain ⟨occurrences, middle, occurred, internedFirst, sameOccurrences⟩ :=
    read_items Document.read document.occurrences
      (fun occurrence => (2, .bytes (index.encodeOccurrence occurrence)))
      (fun occurrence => [occurrence.symbol]) Occurrence.rename
      (fun state reads => { state with occurrences := state.occurrences ++ reads })
      (fun state => by simp) (fun state read reads => by simp)
      (by
        intro occurrence mem state interner exact
        have inner : (2, .bytes (index.encodeOccurrence occurrence)) ∈ index.documentEntries document := by
          simpa [documentEntries] using .inl ⟨occurrence, mem, rfl⟩
        obtain ⟨read, next, ran, rest⟩ := readOccurrence_encode wellFormed
          (used _ (mem_append_left _ (mem_map_of_mem mem)))
          (fun range inside => wellFormed.ranges document listed range
            (mem_flatMap.mpr ⟨occurrence, mem, inside⟩))
          ((payload_short inner).trans short) exact
        refine ⟨read, next, ?_, rest⟩
        rw [Document.read, ran]
        rfl)
      ⟨document.relativePath, document.language, [], [], 0⟩ exact
  obtain ⟨symbols, next, symbolized, internedNext, sameSymbols⟩ :=
    read_items Document.read document.symbols
      (fun info => (3, .bytes (index.encodeSymbol info)))
      (fun info => [info.symbol]) SymbolInfo.rename
      (fun state reads => { state with symbols := state.symbols ++ reads })
      (fun state => by simp) (fun state read reads => by simp)
      (by
        intro info mem state interner exact
        have inner : (3, .bytes (index.encodeSymbol info)) ∈ index.documentEntries document := by
          simpa [documentEntries] using .inl ⟨info, mem, rfl⟩
        obtain ⟨read, next, ran, rest⟩ := readSymbol_encode wellFormed
          (used _ (mem_append_right _ (mem_map_of_mem mem)))
          ((payload_short inner).trans short) exact
        refine ⟨read, next, ?_, rest⟩
        rw [Document.read, ran]
        rfl)
      ⟨document.relativePath, document.language, occurrences, [], 0⟩ internedFirst.exact
  have encoded : (nonzeroEntries 6 document.positionEncoding).foldlM Document.read
      (⟨document.relativePath, document.language, occurrences, symbols, 0⟩, next) =
        .ok (⟨document.relativePath, document.language, occurrences, symbols,
          document.positionEncoding⟩, next) :=
    read_nonzero (fun encoding => (Document.mk document.relativePath document.language occurrences
      symbols encoding, next)) (fun _ => rfl) rfl document.positionEncoding
  refine ⟨⟨document.relativePath, document.language, occurrences, symbols,
    document.positionEncoding⟩, next, ?_, ?_, ?_⟩
  · rw [readDocument, readFields_write _ (index.documentEntries_writable document) short,
      documentEntries, append_assoc, append_assoc, cons_append, cons_append,
      nil_append, foldlM_cons_ok spoken, foldlM_cons_ok pathed, foldlM_append_ok occurred]
    exact (foldlM_append_ok symbolized _).trans encoded
  · have both := internedFirst.trans internedNext
    rwa [← map_eq_flatMap, ← map_eq_flatMap] at both
  intro rename follows
  rw [Document.rename, ← sameOccurrences rename (follows.anti internedNext.grows),
    ← sameSymbols rename follows]

theorem read_metadata (short : index.encodeMetadata.length < 2 ^ 64) :
    readFields readMetadata index.encodeMetadata .empty =
      .ok ⟨index.toolName, index.toolVersion, index.projectRoot, [], ["local"]⟩ := by
  have tools : bytesField 1 (utf8 index.toolName) ++ bytesField 2 (utf8 index.toolVersion) =
      [(1, .bytes (utf8 index.toolName)), (2, .bytes (utf8 index.toolVersion))].flatMap
        fieldBytes := by simp [fieldBytes]
  have metadata : index.encodeMetadata = [(2, .bytes ([(1, .bytes (utf8 index.toolName)),
        (2, .bytes (utf8 index.toolVersion))].flatMap fieldBytes)),
        (3, .bytes (utf8 index.projectRoot))].flatMap fieldBytes := by
    rw [encodeMetadata, tools]
    simp [fieldBytes]
  have named : readTool .empty (1, .bytes (utf8 index.toolName)) =
      .ok ⟨index.toolName, "", "", [], ["local"]⟩ := by
    rw [readTool, text_utf8]
    rfl
  have versioned : readTool ⟨index.toolName, "", "", [], ["local"]⟩
      (2, .bytes (utf8 index.toolVersion)) =
        .ok ⟨index.toolName, index.toolVersion, "", [], ["local"]⟩ := by
    rw [readTool, text_utf8]
    rfl
  have rooted : readMetadata ⟨index.toolName, index.toolVersion, "", [], ["local"]⟩
      (3, .bytes (utf8 index.projectRoot)) =
        .ok ⟨index.toolName, index.toolVersion, index.projectRoot, [], ["local"]⟩ := by
    rw [readMetadata, text_utf8]
    rfl
  have pair : ∀ (first second : Nat) (payload last : Bytes), first < 2 ^ 61 → second < 2 ^ 61 →
      ∀ entry ∈ [(first, Value.bytes payload), (second, .bytes last)], Writable entry := by
    intro first second payload last small smallToo entry mem
    rcases mem_cons.mp mem with rfl | other
    · exact writable_bytes small _
    · rw [mem_singleton.mp other]
      exact writable_bytes smallToo _
  rw [metadata] at short ⊢
  have inner := (payload_short mem_cons_self).trans short
  have tooled : readMetadata .empty (2, .bytes ([(1, .bytes (utf8 index.toolName)),
      (2, .bytes (utf8 index.toolVersion))].flatMap fieldBytes)) =
        .ok ⟨index.toolName, index.toolVersion, "", [], ["local"]⟩ := by
    rw [readMetadata, readFields_write _ (pair 1 2 _ _ (by decide) (by decide)) inner,
      foldlM_cons_ok named, foldlM_cons_ok versioned]
    rfl
  rw [readFields_write _ (pair 2 3 _ _ (by decide) (by decide)) short, foldlM_cons_ok tooled,
    foldlM_cons_ok rooted]
  rfl

/-- The index that is read is the written one with other ids for the symbols. -/
structure Renumbered (index read : ScipIndex) (rename : SymbolId → SymbolId) : Prop where
  toolName : read.toolName = index.toolName
  toolVersion : read.toolVersion = index.toolVersion
  projectRoot : read.projectRoot = index.projectRoot
  documents : read.documents = index.documents.map (·.rename rename)
  keepsLocal : ∀ id ∈ index.ids, rename id = LOCAL ↔ id = LOCAL
  injective : ∀ first ∈ index.ids, ∀ second ∈ index.ids, rename first = rename second → first = second
  names : ∀ id ∈ index.ids, id ≠ LOCAL → read.symbol (rename id) = index.symbol id

/-- The id that decoding gives to a symbol of the index. -/
def renumber (index : ScipIndex) (interner : Interner) (id : SymbolId) : SymbolId :=
  if id = LOCAL then LOCAL else (interner.ids.get (index.symbol id)).getD LOCAL

theorem renumber_follows (index : ScipIndex) (interner : Interner) :
    Follows index interner (index.renumber interner) := by
  intro id fresh names
  unfold Names at names
  unfold renumber
  split
  · rename_i isLocal
    rw [if_pos isLocal] at names
    exact names.symm
  rename_i named
  rw [if_neg named] at names
  rw [names]
  rfl

theorem read_encode (wellFormed : index.WellFormed) (short : (encode index).length < 2 ^ 64) :
    ∃ next, readFields read (encode index) (.empty, .empty) =
        .ok (⟨index.toolName, index.toolVersion, index.projectRoot,
          index.documents.map (·.rename (index.renumber next)), ["local"]⟩, next) ∧
      Interned index .empty next index.ids := by
  have whole : encode index = ([(1, Value.bytes index.encodeMetadata)] ++ index.documents.map
      fun document => (2, Value.bytes (index.encodeDocument document))).flatMap fieldBytes := by
    rw [encode]
    simp [fieldBytes, flatMap_map]
  have writable : ∀ entry ∈ [(1, Value.bytes index.encodeMetadata)] ++
      index.documents.map fun document => (2, Value.bytes (index.encodeDocument document)),
      Writable entry := by
    intro entry mem
    rcases mem_append.mp mem with first | later
    · rw [mem_singleton.mp first]
      exact writable_bytes (by decide) _
    · obtain ⟨document, -, rfl⟩ := mem_map.mp later
      exact writable_bytes (by decide) _
  rw [whole] at short ⊢
  have metadata : read (.empty, .empty) (1, .bytes index.encodeMetadata) =
      .ok (⟨index.toolName, index.toolVersion, index.projectRoot, [], ["local"]⟩, .empty) := by
    rw [read, read_metadata ((payload_short (mem_append_left _ mem_cons_self)).trans
      short)]
    rfl
  obtain ⟨documents, next, ran, interned, same⟩ :=
    read_items read index.documents
      (fun document => (2, .bytes (index.encodeDocument document)))
      Document.ids Document.rename
      (fun state reads => { state with documents := state.documents ++ reads })
      (fun state => by simp) (fun state read reads => by simp)
      (by
        intro document listed state interner exact
        have mem : (2, Value.bytes (index.encodeDocument document)) ∈
            [(1, Value.bytes index.encodeMetadata)] ++ index.documents.map fun document =>
              (2, Value.bytes (index.encodeDocument document)) :=
          mem_append_right _ (mem_map.mpr ⟨document, listed, rfl⟩)
        obtain ⟨read, next, ran, rest⟩ :=
          readDocument_encode wellFormed listed ((payload_short mem).trans short) exact
        refine ⟨read, next, ?_, rest⟩
        rw [ScipIndex.read, ran]
        rfl)
      ⟨index.toolName, index.toolVersion, index.projectRoot, [], ["local"]⟩ (Exact.empty index)
  refine ⟨next, ?_, interned⟩
  rw [readFields_write _ writable short, singleton_append, foldlM_cons_ok metadata, ran,
    same _ (index.renumber_follows next)]
  rfl

/-- A new id is local or the place of the name of the old one. -/
theorem renumber_spec {interner : Interner} {ids : List SymbolId}
    (interned : Interned index .empty interner ids) {id : SymbolId} (used : id ∈ ids) :
    if id = LOCAL then index.renumber interner id = LOCAL
    else index.renumber interner id ≠ LOCAL ∧
      interner.symbols[(index.renumber interner id).toNat - 1]? = some (index.symbol id) := by
  obtain ⟨fresh, names⟩ := interned.named id used
  rw [index.renumber_follows interner id fresh names]
  unfold Names at names
  split
  · rename_i isLocal
    rwa [if_pos isLocal] at names
  rename_i named
  rw [if_neg named] at names
  exact interned.exact.placed _ _ names

theorem decode_written (wellFormed : index.WellFormed) (short : (encode index).length < 2 ^ 64) :
    ∃ read rename, decode (encode index) = .ok read ∧ Renumbered index read rename := by
  obtain ⟨next, ran, interned⟩ := read_encode wellFormed short
  have decoded : decode (encode index) = .ok ⟨index.toolName, index.toolVersion,
      index.projectRoot, index.documents.map (·.rename (index.renumber next)),
      next.intoSymbols⟩ := by
    rw [decode, ran]
    rfl
  have spec : ∀ id ∈ index.ids, _ := fun _ used => renumber_spec interned used
  refine ⟨_, index.renumber next, decoded, rfl, rfl, rfl, rfl, ?_, ?_, ?_⟩
  · intro id used
    have placed := spec id used
    split at placed
    · rename_i isLocal
      exact iff_of_true placed isLocal
    · rename_i named
      exact iff_of_false placed.1 named
  · intro first firstUsed second secondUsed same
    have firstPlaced := spec first firstUsed
    have secondPlaced := spec second secondUsed
    rw [same] at firstPlaced
    by_cases firstLocal : first = LOCAL
    · rw [if_pos firstLocal] at firstPlaced
      by_cases secondLocal : second = LOCAL
      · rw [firstLocal, secondLocal]
      · rw [if_neg secondLocal] at secondPlaced
        exact absurd firstPlaced secondPlaced.1
    rw [if_neg firstLocal] at firstPlaced
    by_cases secondLocal : second = LOCAL
    · rw [if_pos secondLocal] at secondPlaced
      exact absurd secondPlaced firstPlaced.1
    rw [if_neg secondLocal] at secondPlaced
    exact wellFormed.distinct first firstUsed second secondUsed firstLocal secondLocal
      (Option.some.inj (firstPlaced.2.symm.trans secondPlaced.2))
  · intro id used named
    have placed := spec id used
    rw [if_neg named] at placed
    have positive : (index.renumber next id).toNat ≠ 0 :=
      fun zero => placed.1 (UInt32.toNat_inj.mp zero)
    rw [symbol, Interner.intoSymbols, getElem?_cons, if_neg positive, placed.2]
    rfl

/-- Every byte string is decoded or malformed, and an encoded index that fits in memory is decoded
to the same index up to the ids of its symbols, be it well formed or decoded itself. -/
theorem scip_round_trip : (∀ bytes, (∃ index, decode bytes = .ok index) ∨
      ∃ message, decode bytes = .error (.malformed message)) ∧
    (∀ index : ScipIndex, index.WellFormed → (encode index).length < 2 ^ 64 →
      ∃ read rename, decode (encode index) = .ok read ∧ Renumbered index read rename) ∧
    ∀ bytes index, decode bytes = .ok index → (encode index).length < 2 ^ 64 →
      ∃ read rename, decode (encode index) = .ok read ∧ Renumbered index read rename := by
  refine ⟨?_, fun index => decode_written, fun bytes index ran => decode_written
    (decode_wellFormed ran)⟩
  intro bytes
  cases ran : decode bytes with
  | ok index => exact .inl ⟨index, rfl⟩
  | error failure =>
    obtain ⟨message, rfl⟩ := decode_safe bytes failure ran
    exact .inr ⟨message, rfl⟩

/-- A file names a function that it defines and a local variable. -/
def sample : ScipIndex :=
  ⟨"rust-analyzer", "test", "file:///fixture", [⟨"src/lib.rs", "rust",
      [⟨⟨0, 7, 0, 13⟩, 1, 1, some ⟨0, 0, 2, 1⟩⟩, ⟨⟨1, 4, 1, 5⟩, LOCAL, 0, none⟩],
      [⟨1, 17, "helper", some "pub fn helper() -> u32", ["Docs."]⟩], 1⟩],
    ["local", "rust-analyzer cargo fx 0.1.0 helper()."]⟩

theorem sample_wellFormed : sample.WellFormed where
  indexed := by decide +kernel
  distinct := by decide +kernel
  named := by
    unfold IsLocal
    decide +kernel
  ranges := by
    unfold Range.Valid
    decide +kernel

theorem scip_round_trip_sample :
    (∃ read rename, decode (encode sample) = .ok read ∧ Renumbered sample read rename) ∧
      ∃ read rename, decode (encode empty) = .ok read ∧ Renumbered empty read rename :=
  ⟨scip_round_trip.2.1 sample sample_wellFormed (by decide +kernel),
    scip_round_trip.2.2 [] empty (by decide +kernel) (by decide +kernel)⟩

end ScipIndex

end Codegraph.Scip
