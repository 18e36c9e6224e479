import Codegraph.Library.Dict
import Codegraph.Library.Wire

namespace Codegraph.Scip

open Library Library.Wire

/-- The index of a symbol in the list of interned strings. -/
abbrev SymbolId := UInt32

/-- The id of every local symbol. -/
def LOCAL : SymbolId := 0

/-- A range is zero-based, and its columns are byte offsets from the line start. -/
structure Range where
  startLine : UInt32
  startCol : UInt32
  endLine : UInt32
  endCol : UInt32
deriving DecidableEq

structure Occurrence where
  range : Range
  symbol : SymbolId
  roles : Int32
  enclosing : Option Range
deriving DecidableEq

structure SymbolInfo where
  symbol : SymbolId
  kind : Int32
  displayName : String
  signature : Option String
  documentation : List String
deriving DecidableEq

structure Document where
  relativePath : String
  language : String
  occurrences : List Occurrence
  symbols : List SymbolInfo
  positionEncoding : Int32
deriving DecidableEq

structure ScipIndex where
  toolName : String
  toolVersion : String
  projectRoot : String
  documents : List Document
  symbols : List String
deriving DecidableEq

def SymbolInfo.empty : SymbolInfo := ⟨LOCAL, 0, "", none, []⟩

def Document.empty : Document := ⟨"", "", [], [], 0⟩

def ScipIndex.empty : ScipIndex := ⟨"", "", "", [], ["local"]⟩

/-- An id without a string names nothing. -/
def ScipIndex.symbol (index : ScipIndex) (id : SymbolId) : String := (index.symbols[id.toNat]?).getD ""

def utf8 (string : String) : Bytes := string.toByteArray.data.toList

def text (bytes : Bytes) : Except Failure String :=
  match String.fromUTF8? ⟨bytes.toArray⟩ with
  | some string => .ok string
  | none => .error (.malformed "invalid UTF-8 in a string field")

/-- A negative number is not a coordinate. -/
def coordinate (value : Int32) : Option UInt32 := if 0 ≤ value then some value.toUInt32 else none

/-- A range on one line has three numbers. -/
def Range.fromPacked (values : List Int32) : Option Range :=
  match values with
  | [line, start, stop] => do
    some ⟨← coordinate line, ← coordinate start, ← coordinate line, ← coordinate stop⟩
  | [startLine, startCol, endLine, endCol] => do
    some ⟨← coordinate startLine, ← coordinate startCol, ← coordinate endLine, ← coordinate endCol⟩
  | _ => none

def Range.packed (range : Range) : List Int32 :=
  if range.startLine = range.endLine then
    [range.startLine.toInt32, range.startCol.toInt32, range.endCol.toInt32]
  else
    [range.startLine.toInt32, range.startCol.toInt32, range.endLine.toInt32, range.endCol.toInt32]

structure Interner where
  ids : Dict String SymbolId
  symbols : List String

namespace Interner

def empty : Interner := ⟨∅, []⟩

/-- Every local symbol has one id, and the others are numbered from one. -/
def intern (interner : Interner) (bytes : Bytes) : Except Failure (SymbolId × Interner) :=
  if (utf8 "local ").isPrefixOf bytes then .ok (LOCAL, interner)
  else
    match String.fromUTF8? ⟨bytes.toArray⟩ with
    | none => .error (.malformed "invalid UTF-8 symbol")
    | some name =>
      match interner.ids.get name with
      | some id => .ok (id, interner)
      | none =>
        .ok (UInt32.ofNat interner.symbols.length + 1,
          ⟨interner.ids.set name (UInt32.ofNat interner.symbols.length + 1), interner.symbols ++ [name]⟩)

def intoSymbols (interner : Interner) : List String := "local" :: interner.symbols

end Interner

/-- An integer field is packed or holds one number. -/
def pushInt32s (value : Value) (out : List Int32) : Except Failure (List Int32) :=
  match value with
  | .varint value => .ok (out ++ [Int32.ofNat value])
  | .bytes packed => (readPacked packed).map fun values => out ++ values.map Int32.ofNat
  | .fixed => .ok out

structure OccurrenceFields where
  range : List Int32
  enclosing : List Int32
  symbol : Option SymbolId
  roles : Int32
  interner : Interner

def OccurrenceFields.read (fields : OccurrenceFields) (entry : Nat × Value) :
    Except Failure OccurrenceFields :=
  match entry with
  | (1, value) => (pushInt32s value fields.range).map fun range => { fields with range }
  | (2, .bytes name) => (fields.interner.intern name).map fun interned =>
    { fields with symbol := some interned.1, interner := interned.2 }
  | (3, .varint value) => .ok { fields with roles := Int32.ofNat value }
  | (7, value) => (pushInt32s value fields.enclosing).map fun enclosing => { fields with enclosing }
  | _ => .ok fields

/-- An occurrence without a symbol or a readable range is left out. -/
def OccurrenceFields.occurrence (fields : OccurrenceFields) : Option Occurrence := do
  some ⟨← Range.fromPacked fields.range, ← fields.symbol, fields.roles, Range.fromPacked fields.enclosing⟩

def readOccurrence (bytes : Bytes) (interner : Interner) : Except Failure (Option Occurrence × Interner) :=
  (readFields OccurrenceFields.read bytes ⟨[], [], none, 0, interner⟩).map fun fields =>
    (fields.occurrence, fields.interner)

def readSignature (signature : Option String) (entry : Nat × Value) : Except Failure (Option String) :=
  match entry with
  | (5, .bytes rendered) => (text rendered).map some
  | _ => .ok signature

def SymbolInfo.read (state : SymbolInfo × Interner) (entry : Nat × Value) :
    Except Failure (SymbolInfo × Interner) :=
  match entry with
  | (1, .bytes name) => (state.2.intern name).map fun interned =>
    ({ state.1 with symbol := interned.1 }, interned.2)
  | (3, .bytes doc) => (text doc).map fun doc =>
    ({ state.1 with documentation := state.1.documentation ++ [doc] }, state.2)
  | (5, .varint kind) => .ok ({ state.1 with kind := Int32.ofNat kind }, state.2)
  | (6, .bytes name) => (text name).map fun displayName => ({ state.1 with displayName }, state.2)
  | (7, .bytes signature) => (readFields readSignature signature state.1.signature).map
      fun signature => ({ state.1 with signature }, state.2)
  | _ => .ok state

def readSymbol (bytes : Bytes) (interner : Interner) : Except Failure (SymbolInfo × Interner) :=
  readFields SymbolInfo.read bytes (.empty, interner)

def Document.read (state : Document × Interner) (entry : Nat × Value) :
    Except Failure (Document × Interner) :=
  match entry with
  | (1, .bytes path) => (text path).map fun relativePath => ({ state.1 with relativePath }, state.2)
  | (2, .bytes occurrence) => (readOccurrence occurrence state.2).map fun read =>
    ({ state.1 with occurrences := state.1.occurrences ++ read.1.toList }, read.2)
  | (3, .bytes symbol) => (readSymbol symbol state.2).map fun read =>
    ({ state.1 with symbols := state.1.symbols ++ [read.1] }, read.2)
  | (4, .bytes language) => (text language).map fun language => ({ state.1 with language }, state.2)
  | (6, .varint encoding) => .ok ({ state.1 with positionEncoding := Int32.ofNat encoding }, state.2)
  | _ => .ok state

def readDocument (bytes : Bytes) (interner : Interner) : Except Failure (Document × Interner) :=
  readFields Document.read bytes (.empty, interner)

namespace ScipIndex

def readTool (index : ScipIndex) (entry : Nat × Value) : Except Failure ScipIndex :=
  match entry with
  | (1, .bytes name) => (text name).map fun toolName => { index with toolName }
  | (2, .bytes version) => (text version).map fun toolVersion => { index with toolVersion }
  | _ => .ok index

def readMetadata (index : ScipIndex) (entry : Nat × Value) : Except Failure ScipIndex :=
  match entry with
  | (2, .bytes tool) => readFields readTool tool index
  | (3, .bytes root) => (text root).map fun projectRoot => { index with projectRoot }
  | _ => .ok index

def read (state : ScipIndex × Interner) (entry : Nat × Value) : Except Failure (ScipIndex × Interner) :=
  match entry with
  | (1, .bytes metadata) => (readFields readMetadata metadata state.1).map fun index => (index, state.2)
  | (2, .bytes document) => (readDocument document state.2).map fun read =>
    ({ state.1 with documents := state.1.documents ++ [read.1] }, read.2)
  | _ => .ok state

def decode (bytes : Bytes) : Except Failure ScipIndex :=
  (readFields read bytes (.empty, .empty)).map fun state =>
    { state.1 with symbols := state.2.intoSymbols }

end ScipIndex

/-- A signed number is extended to the width of a written one. -/
def asU64 (value : Int32) : Nat := value.toInt64.toUInt64.toNat

def packedBytes (values : List Int32) : Bytes :=
  values.flatMap fun value => varintBytes value.toUInt32.toNat

def putPacked (number : Nat) (values : List Int32) : Bytes := bytesField number (packedBytes values)

def putNonzero (number : Nat) (value : Int32) : Bytes :=
  if value = 0 then [] else varintField number (asU64 value)

namespace ScipIndex

/-- Every local symbol is written as the same one. -/
def written (index : ScipIndex) (id : SymbolId) : String :=
  if id = LOCAL then "local 0" else index.symbol id

def encodeOccurrence (index : ScipIndex) (occurrence : Occurrence) : Bytes :=
  putPacked 1 occurrence.range.packed ++ bytesField 2 (utf8 (index.written occurrence.symbol)) ++
    putNonzero 3 occurrence.roles ++
    match occurrence.enclosing with
    | some enclosing => putPacked 7 enclosing.packed
    | none => []

def encodeSymbol (index : ScipIndex) (info : SymbolInfo) : Bytes :=
  bytesField 1 (utf8 (index.written info.symbol)) ++
    info.documentation.flatMap (fun line => bytesField 3 (utf8 line)) ++
    putNonzero 5 info.kind ++
    (if info.displayName = "" then [] else bytesField 6 (utf8 info.displayName)) ++
    match info.signature with
    | some signature => bytesField 7 (bytesField 4 (utf8 "rust") ++ bytesField 5 (utf8 signature))
    | none => []

def encodeDocument (index : ScipIndex) (document : Document) : Bytes :=
  bytesField 4 (utf8 document.language) ++ bytesField 1 (utf8 document.relativePath) ++
    document.occurrences.flatMap (fun occurrence => bytesField 2 (index.encodeOccurrence occurrence)) ++
    document.symbols.flatMap (fun info => bytesField 3 (index.encodeSymbol info)) ++
    putNonzero 6 document.positionEncoding

def encodeMetadata (index : ScipIndex) : Bytes :=
  bytesField 2 (bytesField 1 (utf8 index.toolName) ++ bytesField 2 (utf8 index.toolVersion)) ++
    bytesField 3 (utf8 index.projectRoot)

def encode (index : ScipIndex) : Bytes :=
  bytesField 1 index.encodeMetadata ++
    index.documents.flatMap fun document => bytesField 2 (index.encodeDocument document)

end ScipIndex

end Codegraph.Scip
