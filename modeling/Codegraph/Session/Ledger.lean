import Codegraph.Library.Text

namespace Codegraph.Session

open Library

abbrev Bytes := List UInt8

/-- The contents of the files below each project root. -/
abbrev Disk := String → String → Option Bytes

structure LineRange where
  start : Nat
  stop : Nat
deriving DecidableEq

structure FileEmission where
  path : String
  ranges : List LineRange
  bytes : Nat
  fingerprint : Option (List Char)
deriving DecidableEq

structure CallRecord where
  index : Nat
  files : List FileEmission
  responseBytes : Nat
deriving DecidableEq

structure ProjectState where
  projectRoot : String
  callCount : Nat := 0
  responseBytes : Nat := 0
  calls : List CallRecord := []
deriving DecidableEq

/-- A part of a file that starts and ends at the claimed lines. -/
structure Span where
  start : Nat
  stop : Nat
  source : List Char
deriving DecidableEq

/-- A chunk or a window, as far as the payload has its fields. -/
structure Chunk where
  startLine : Option Nat
  endLine : Option Nat
  source : Option (List Char)
deriving DecidableEq

structure SymbolMatch where
  file : Option String
  code : Option (List Char)
  codeStartLine : Option Nat
  line : Option Nat
deriving DecidableEq

structure SourceFile where
  path : Option String
  chunks : List Chunk
deriving DecidableEq

/-- The structured content of a result, by its kind. -/
inductive Payload where
  | file (path : Option String) (window : Chunk)
  | node (found : List SymbolMatch)
  | ruleVariant (file : Option String) (function : Option Chunk)
  | explore (sourceFiles : List SourceFile)
  | other
deriving DecidableEq

/-- The operations of the file system, of the hash and of the serialisation. -/
structure Host where
  projectKey : String → String
  sha256Hex : Bytes → List Char
  decode : Bytes → List Char
  jsonLen : Payload → Nat

def maxProjects : Nat := 4

def maxCalls : Nat := 8

def maxFiles : Nat := 24

def maxRanges : Nat := 24

def maxViewCalls : Nat := 4

def maxU64 : Nat := 2 ^ 64 - 1

def lastOf {Element : Type} (count : Nat) (list : List Element) : List Element :=
  list.drop (list.length - count)

/-- A range that starts within or right behind the last merged one extends it. -/
def mergeRange (merged : List LineRange) (range : LineRange) : List LineRange :=
  match merged.getLast? with
  | some last =>
    if range.start ≤ last.stop + 1 then
      merged.dropLast ++ [{ last with stop := max last.stop range.stop }]
    else merged ++ [range]
  | none => merged ++ [range]

/-- The largest merged ranges are kept when there are too many. -/
def coalesce (ranges : List LineRange) : List LineRange × Bool :=
  let valid := ranges.filter fun range => 1 ≤ range.start && range.start ≤ range.stop
  let merged := (valid.mergeSort fun first second =>
    first.start < second.start || first.start = second.start && first.stop ≤ second.stop).foldl
      mergeRange []
  if maxRanges < merged.length then
    (((merged.mergeSort fun first second =>
      second.stop - second.start ≤ first.stop - first.start).take maxRanges).mergeSort
        fun first second => first.start ≤ second.start, true)
  else (merged, false)

def splitLines (text : List Char) : List (List Char) := text.splitOn '\n'

/-- The range that a source really covers when its text spans exactly the claimed lines. -/
def verbatimRange (span : Span) : Option LineRange :=
  if 1 ≤ span.start ∧ span.start ≤ span.stop ∧
      span.stop - span.start + 1 = (splitLines span.source).length then
    some ⟨span.start, span.stop⟩
  else none

namespace Host

variable (host : Host)

def contentFingerprint (bytes : Bytes) : List Char :=
  Text.decimal bytes.length ++ ':' :: (host.sha256Hex bytes).take 16

def fileFingerprint (disk : Disk) (root path : String) : Option (List Char) :=
  (disk root path).map host.contentFingerprint

/-- The ranges of one file, with the fingerprint that the file has now. -/
def emission (disk : Disk) (root path : String) (spans : List Span) : Option FileEmission :=
  let ranges := (coalesce (spans.filterMap verbatimRange)).1
  if ranges = [] then none
  else
    some
      { path := path
        ranges := ranges
        bytes := (spans.map fun span => (span.source.map Char.utf8Size).sum).sum
        fingerprint := host.fileFingerprint disk root path }

end Host

def Chunk.span (chunk : Chunk) : Option Span :=
  chunk.startLine.bind fun start =>
    chunk.endLine.bind fun stop => chunk.source.map fun source => ⟨start, stop, source⟩

/-- The code of a match starts at its own line unless another start is given. -/
def SymbolMatch.span (found : SymbolMatch) : Option (String × Span) :=
  found.file.bind fun file =>
    found.code.bind fun code =>
      (found.codeStartLine.or found.line).map fun start =>
        (file, ⟨start, start + (splitLines code).length - 1, code⟩)

def addSpan (path : String) (span : Span) : List (String × List Span) → List (String × List Span)
  | [] => [(path, [span])]
  | (other, spans) :: rest =>
    if other = path then (other, spans ++ [span]) :: rest
    else (other, spans) :: addSpan path span rest

/-- The spans of the matches of each file, in the order of the first matches. -/
def spansByFile (found : List SymbolMatch) : List (String × List Span) :=
  (found.filterMap SymbolMatch.span).foldl (fun byFile entry => addSpan entry.1 entry.2 byFile) []

/-- The spans of each file that a payload carries. -/
def Payload.spans : Payload → List (String × List Span)
  | .file path window => (window.span.bind fun span => path.map fun path => (path, [span])).toList
  | .node found => spansByFile found
  | .ruleVariant path function =>
    ((function.bind Chunk.span).bind fun span => path.map fun path => (path, [span])).toList
  | .explore sourceFiles =>
    sourceFiles.filterMap fun source =>
      source.path.map fun path => (path, source.chunks.filterMap Chunk.span)
  | .other => []

namespace Host

variable (host : Host)

/-- The files with the most bytes are kept. -/
def emissions (disk : Disk) (root : String) (payload : Payload) : List FileEmission :=
  ((payload.spans.filterMap fun entry => host.emission disk root entry.1 entry.2).mergeSort
    fun first second => second.bytes ≤ first.bytes).take maxFiles

def sameProject (root : String) (project : ProjectState) : Bool :=
  host.projectKey project.projectRoot = host.projectKey root

def viewFor (ledger : List ProjectState) (root : String) : ProjectState :=
  match ledger.find? (host.sameProject root) with
  | some project => { project with calls := lastOf maxViewCalls project.calls }
  | none => { projectRoot := root }

/-- One more call of a project. -/
def addCall (project : ProjectState) (files : List FileEmission) (responseBytes : Nat) : ProjectState :=
  { project with
    callCount := project.callCount + 1
    responseBytes := min (project.responseBytes + responseBytes) maxU64
    calls := lastOf maxCalls (project.calls ++ [⟨project.callCount + 1, files, responseBytes⟩]) }

/-- A payload without source is not recorded, except for that of an explore call. -/
def isRecorded (files : List FileEmission) : Payload → Bool
  | .other => false
  | .explore _ => true
  | _ => files ≠ []

def record (disk : Disk) (ledger : List ProjectState) (root : String) (payload : Payload) :
    List ProjectState :=
  if isRecorded (host.emissions disk root payload) payload then
    lastOf maxProjects (ledger.eraseP (host.sameProject root) ++
      [addCall ((ledger.find? (host.sameProject root)).getD { projectRoot := root })
        (host.emissions disk root payload) (host.jsonLen payload)])
  else ledger

end Host

/-- The ranges of a file that were sent while it had the fingerprint. -/
def servedRanges (prior : ProjectState) (path : String) (fingerprint : List Char) : List LineRange :=
  (coalesce (((prior.calls.flatMap CallRecord.files).filter fun file =>
    file.path = path && file.fingerprint = some fingerprint).flatMap FileEmission.ranges)).1

namespace Host

variable (host : Host)

def rangeAlreadySent (prior : ProjectState) (disk : Disk) (root path : String) (start stop : Nat) : Bool :=
  match host.fileFingerprint disk root path with
  | none => false
  | some fingerprint =>
    (servedRanges prior path fingerprint).any fun range => range.start ≤ start && stop ≤ range.stop

end Host

def minCoveredLines : Nat := 8

/-- A chunk of a rendered file. -/
structure RenderedChunk where
  startLine : Nat
  endLine : Nat
  source : List Char
  symbols : List String
deriving DecidableEq

structure DedupResult where
  kept : List RenderedChunk
  covered : List LineRange
  symbols : List String
deriving DecidableEq

/-- Chunks that the session holds are left out, unless they are short. -/
def Host.apply (host : Host) (prior : Option ProjectState) (disk : Disk) (root path : String)
    (chunks : List RenderedChunk) : DedupResult :=
  match prior, host.fileFingerprint disk root path with
  | some prior, some fingerprint =>
    let held (chunk : RenderedChunk) : Bool :=
      minCoveredLines ≤ chunk.endLine - chunk.startLine + 1 &&
        (servedRanges prior path fingerprint).any fun range =>
          range.start ≤ chunk.startLine && chunk.endLine ≤ range.stop
    { kept := chunks.filter fun chunk => !held chunk
      covered := (chunks.filter held).map fun chunk => ⟨chunk.startLine, chunk.endLine⟩
      symbols := (chunks.filter held).flatMap RenderedChunk.symbols }
  | _, _ => ⟨chunks, [], []⟩

end Codegraph.Session
