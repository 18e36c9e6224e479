import Codegraph.Library.Dict
import Codegraph.Library.Text

namespace Codegraph.Grep

open Library

abbrev Bytes := List UInt8

/-- The first match of a compiled pattern from a position on, as a byte range. -/
structure Regex where
  findAt : Bytes → Nat → Option (Nat × Nat)

/-- What the tables say of a language. -/
structure Language where
  commentPrefixes : List Bytes := []
  isDocs : Bool := false
  isValueSensitive : Bool := false
deriving DecidableEq

/-- One indexed file in scope. -/
structure Candidate where
  path : String
  language : Language
deriving DecidableEq

/-- A line without its terminator and the offset of its first match. -/
structure LineMatch where
  line : Nat
  start : Nat
  stop : Nat
  column : Nat
deriving DecidableEq

def newline : UInt8 := 10

def carriageReturn : UInt8 := 13

def slice (buf : Bytes) (start stop : Nat) : Bytes := (buf.take stop).drop start

/-- The line that holds a position: it starts after the newline before it. -/
def lineStartAt (buf : Bytes) (position : Nat) : Nat :=
  position - ((buf.take position).reverse.takeWhile fun byte => byte ≠ newline).length

def lineEndAt (buf : Bytes) (position : Nat) : Nat :=
  position + ((buf.drop position).takeWhile fun byte => byte ≠ newline).length

/-- The next position to search and the line number at the last counted position. -/
structure LineScan where
  pos : Nat := 0
  line : Nat := 1
  countedTo : Nat := 0

/-- A match that runs past its line counts only when the line matches on its own. Every round starts
behind the line of the last one. -/
def forEachMatchingLine (regex : Regex) (buf : Bytes) : Nat → LineScan → List LineMatch
  | 0, _ => []
  | fuel + 1, state =>
    if buf.length < state.pos then []
    else
      match regex.findAt buf state.pos with
      | none => []
      | some (found, stop) =>
        if found = buf.length ∧ (buf = [] ∨ buf.getLast? = some newline) then []
        else
          let lineStart := lineStartAt buf found
          let lineEnd := lineEndAt buf found
          let next := lineEnd + 1
          let column :=
            if stop ≤ lineEnd then some (found - lineStart)
            else (regex.findAt (slice buf lineStart lineEnd) 0).map Prod.fst
          match column with
          | none =>
            if buf.length < next then []
            else forEachMatchingLine regex buf fuel { state with pos := next }
          | some column =>
            let line := state.line + (slice buf state.countedTo lineStart).count newline
            let textEnd :=
              if lineStart < lineEnd ∧ buf[lineEnd - 1]? = some carriageReturn then lineEnd - 1
              else lineEnd
            ⟨line, lineStart, textEnd, min column (textEnd - lineStart)⟩ :: if buf.length < next then []
              else forEachMatchingLine regex buf fuel ⟨next, line, lineStart⟩

/-- A NUL byte near the start. -/
def looksBinary (buf : Bytes) : Bool := (buf.take 8192).contains 0

def isAsciiWhitespace (byte : UInt8) : Bool := byte ∈ [9, 10, 12, 13, 32]

/-- The first characters that are not blank decide. A lone star continues a block comment. -/
def isCommentLine (language : Language) (line : Bytes) : Bool :=
  let trimmed := line.dropWhile isAsciiWhitespace
  if trimmed = [42] then language.commentPrefixes.contains [42, 32]
  else language.commentPrefixes.any fun start => start.isPrefixOf trimmed

def maxHitChars : Nat := 160

def utf8Length (text : List Char) : Nat := (text.map Char.utf8Size).sum

/-- The characters that start before an offset. -/
def charsBefore (column : Nat) : List Char → Nat → Nat
  | [], _ => 0
  | c :: rest, offset =>
    if offset < column then 1 + charsBefore column rest (offset + c.utf8Size) else 0

/-- A long line is cut around its match, and an ellipsis marks each cut side. -/
def clip (lossy : Bytes → List Char) (line : Bytes) (column : Nat) : List Char :=
  let text := lossy line
  let leading := utf8Length text - utf8Length (text.dropWhile Text.isWhitespace)
  let trimmed := Text.trim text
  if trimmed.length ≤ maxHitChars then trimmed
  else
    let offset := utf8Length (lossy (line.take column)) - leading
    let matchChar := charsBefore offset trimmed 0
    let room := maxHitChars - 2
    let first := min (matchChar - 40) (trimmed.length - room)
    (if 0 < first then ['…'] else []) ++ (trimmed.drop first).take room ++
      if first + room < trimmed.length then ['…'] else []

/-- A hit line that may be shown. -/
structure Hit where
  line : Nat
  text : List Char
  comment : Bool
deriving DecidableEq

/-- The matches of one candidate. -/
structure FileHits where
  index : Nat
  count : Nat := 0
  codeHits : Nat := 0
  hits : List Hit := []
  sent : List Nat := []
  sentTotal : Nat := 0
deriving DecidableEq

/-- The line ranges that were sent of each version of a file. -/
structure SentLines where
  byPath : Dict String (List (String × List (Nat × Nat))) := ∅

namespace SentLines

def tracks (sent : SentLines) (path : String) : Bool := (sent.byPath.get path).isSome

def ranges (sent : SentLines) (path fingerprint : String) : List (Nat × Nat) :=
  ((((sent.byPath.get path).getD []).find? fun version => version.1 = fingerprint).map Prod.snd).getD []

end SentLines

def covers (ranges : List (Nat × Nat)) (line : Nat) : Bool :=
  ranges.any fun range => range.1 ≤ line && line ≤ range.2

def maxSentListed : Nat := 20

def codeCandidatesPerShown : Nat := 3

/-- The counts so far, and the lines worth showing apart from the comments. -/
structure FileSearch where
  out : FileHits
  code : List Hit := []
  comments : List Hit := []

/-- The text operations and the pattern of a search, and what the session was sent. -/
structure Query where
  regex : Regex
  lossy : Bytes → List Char
  fingerprint : Bytes → String
  maxPerFile : Nat
  sent : SentLines

/-- A matching line is counted, and it is listed as sent or kept while there is room. -/
def FileSearch.onLine (query : Query) (language : Language) (buf : Bytes)
    (sentRanges : List (Nat × Nat)) (state : FileSearch) (found : LineMatch) : FileSearch :=
  let text := slice buf found.start found.stop
  let comment := isCommentLine language text
  let out := { state.out with
    count := state.out.count + 1
    codeHits := if comment then state.out.codeHits else state.out.codeHits + 1 }
  if covers sentRanges found.line then
    { state with
      out := { out with
        sentTotal := out.sentTotal + 1
        sent := if out.sent.length < maxSentListed then out.sent ++ [found.line] else out.sent } }
  else
    let hit : Hit := ⟨found.line, clip query.lossy text found.column, comment⟩
    if comment then
      { state with
        out := out
        comments :=
          if state.comments.length < query.maxPerFile then state.comments ++ [hit]
          else state.comments }
    else
      { state with
        out := out
        code :=
          if state.code.length < query.maxPerFile * codeCandidatesPerShown then state.code ++ [hit]
          else state.code }

/-- Only files of which lines were sent are fingerprinted. -/
def searchFile (query : Query) (index : Nat) (candidate : Candidate) (buf : Bytes) : Option FileHits :=
  let sentRanges :=
    if query.sent.tracks candidate.path then
      query.sent.ranges candidate.path (query.fingerprint buf)
    else []
  let final := (forEachMatchingLine query.regex buf (buf.length + 1) {}).foldl
    (FileSearch.onLine query candidate.language buf sentRanges) { out := { index := index } }
  if final.out.count = 0 then none
  else
    some { final.out with
      hits := (final.code ++ final.comments).mergeSort fun first second => first.line ≤ second.line }

end Codegraph.Grep
