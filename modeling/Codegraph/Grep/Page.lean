import Codegraph.Grep.Scan
import Codegraph.Library.ListSet
import Mathlib.Data.Char
import Mathlib.Data.List.Lex

namespace Codegraph.Grep

open Library List Text

/-- The innermost indexed definition around a line. -/
structure Enclosing where
  name : String
  start : Nat
  stop : Nat
deriving DecidableEq

/-- The symbols of the index and the current contents. -/
structure PageSource where
  enclosing : String → Nat → Option Enclosing
  read : String → Option Bytes

/-- The lines around each shown hit. -/
structure Window where
  before : Nat := 0
  after : Nat := 0
deriving DecidableEq

def maxSnapLines : Nat := 80

namespace Window

def isEmpty (window : Window) : Bool := window.before = 0 && window.after = 0

/-- A small enclosing definition is shown whole. -/
def around (window : Window) (line : Nat) (enclosing : Option Enclosing) (lastLine : Nat) : Nat × Nat :=
  let size := window.before + window.after + 1
  let plain := (max (line - window.before) 1, min (line + window.after) lastLine)
  match enclosing with
  | none => plain
  | some symbol =>
    if symbol.stop - symbol.start + 1 ≤ min (2 * size) maxSnapLines ∧ symbol.stop ≤ lastLine then
      (max symbol.start 1, symbol.stop)
    else plain

end Window

/-- The lines of one file under the definition they sit in. -/
structure GrepHitGroup where
  symbol : Option String
  lines : List (List Char)
deriving DecidableEq

abbrev Chosen := Hit × Option Enclosing

/-- Consecutive lines under one definition share a group. -/
def addLine (symbol : Option String) (line : List Char) (groups : List GrepHitGroup) : List GrepHitGroup :=
  match groups.getLast? with
  | some group =>
    if group.symbol = symbol then
      groups.dropLast ++ [{ group with lines := group.lines ++ [line] }]
    else groups ++ [⟨symbol, [line]⟩]
  | none => groups ++ [⟨symbol, [line]⟩]

/-- A withheld line shows its number only. -/
def plain (chosen : List Chosen) (withhold : Bool) : List GrepHitGroup :=
  chosen.foldl
    (fun groups (hit, enclosing) =>
      let line :=
        if withhold then Text.decimal hit.line
        else Text.decimal hit.line ++ ':' :: ' ' :: hit.text
      addLine (enclosing.map Enclosing.name) line groups)
    []

/-- A context line as written, cut to the longest hit text. -/
def verbatim (lossy : Bytes → List Char) (raw : Bytes) : List Char :=
  let text := Text.trimEndMatches Text.isWhitespace (lossy raw)
  if text.length ≤ maxHitChars then text else text.take (maxHitChars - 1) ++ ['…']

def withoutLast (byte : UInt8) (buf : Bytes) : Bytes :=
  if buf.getLast? = some byte then buf.dropLast else buf

def textLines (content : Bytes) : List Bytes := (withoutLast newline content).splitOn newline

/-- Ranges that overlap or touch merge into one block. -/
def mergeBlocks (ranges : List (Nat × Nat × Option String)) : List (Nat × Nat × Option String) :=
  ranges.foldl
    (fun blocks range =>
      match blocks.getLast? with
      | some block =>
        if range.1 ≤ block.2.1 + 1 then
          blocks.dropLast ++ [(block.1, max block.2.1 range.2.1, block.2.2)]
        else blocks ++ [range]
      | none => blocks ++ [range])
    []

/-- Every line of a block is shown, and the lines that match are marked and returned. -/
def withContext (lossy : Bytes → List Char) (regex : Regex) (content : Bytes)
    (chosen : List Chosen) (window : Window) : List GrepHitGroup × ListSet Nat :=
  let lines := textLines content
  let ranges := (chosen.filter fun hit => hit.1.line ≤ lines.length).map fun hit =>
    let range := window.around hit.1.line hit.2 lines.length
    (range.1, range.2, hit.2.map Enclosing.name)
  let blocks := mergeBlocks (ranges.mergeSort fun first second =>
    first.1 < second.1 || first.1 = second.1 && first.2.1 ≤ second.2.1)
  let raw (number : Nat) := withoutLast carriageReturn ((lines[number - 1]?).getD [])
  let isMatch (number : Nat) := (regex.findAt (raw number) 0).isSome
  let numbers (block : Nat × Nat × Option String) := List.range' block.1 (block.2.1 + 1 - block.1)
  let rendered (number : Nat) :=
    let text := verbatim lossy (raw number)
    Text.decimal number ++ (if isMatch number then ':' else '-') :: if text = [] then [] else ' ' :: text
  (blocks.map fun block => ⟨block.2.2, (numbers block).map rendered⟩,
    ListSet.empty.extend ((blocks.flatMap numbers).filter isMatch))

/-- A page without an end searches as far as the budget allows. -/
structure Cursor where
  start : Nat
  stop : Option Nat
  skip : Nat
deriving DecidableEq

structure PatternFlags where
  literal : Bool := false
  caseInsensitive : Bool := false
  word : Bool := false
deriving DecidableEq

def boolText (value : Bool) : List Char :=
  if value then ['t', 'r', 'u', 'e'] else ['f', 'a', 'l', 's', 'e']

/-- Everything that decides which files are candidates and which lines match. -/
def queryKey (digest : List Char → List UInt8) (pattern : List Char) (flags : PatternFlags)
    (path glob : List Char) : List Char :=
  let zero := [Char.ofNat 0]
  let identity := pattern ++ zero ++ boolText flags.literal ++ zero ++
    boolText flags.caseInsensitive ++ zero ++ boolText flags.word ++ zero ++ path ++ zero ++ glob
  ((digest identity).flatMap Text.hexByte).take 10

namespace Cursor

def first : Cursor := ⟨0, none, 0⟩

def format : List Char := ['g', '1']

/-- The parts are separated by dots. -/
def encode (cursor : Cursor) (key : List Char) : List Char :=
  format ++ '.' :: (Text.decimal cursor.start ++ '.' ::
    ((cursor.stop.elim ['-'] Text.decimal) ++ '.' :: (Text.decimal cursor.skip ++ '.' :: key)))

/-- A text that is malformed or belongs to another query has no cursor. -/
def decode (raw key : List Char) : Option Cursor :=
  match (Text.trim raw).splitOn '.' with
  | [tag, start, stop, skip, other] =>
    if tag ≠ format then none
    else
      (Text.parseUsize start).bind fun start =>
        (if stop = ['-'] then some none else (Text.parseUsize stop).map some).bind fun stop =>
          (Text.parseUsize skip).bind fun skip =>
            if other ≠ key ∨ (stop.any fun stop => stop < start) then none
            else some ⟨start, stop, skip⟩
  | _ => none

/-- The numbers of a cursor are machine integers, and it ends after its start. -/
structure Valid (cursor : Cursor) : Prop where
  start : cursor.start < 2 ^ 64
  stop : ∀ stop, cursor.stop = some stop → cursor.start ≤ stop ∧ stop < 2 ^ 64
  skip : cursor.skip < 2 ^ 64

end Cursor

/-- A hexadecimal digit is neither a dot nor blank. -/
theorem hexDigit_plain {c : Char} {byte : UInt8} (held : c ∈ Text.hexByte byte) :
    c ≠ '.' ∧ Text.isWhitespace c = false := by
  have digit : ∀ value : Fin 16, Nat.digitChar value.val ≠ '.' ∧
      Text.isWhitespace (Nat.digitChar value.val) = false := by decide
  have small := byte.toNat_lt
  rw [Text.hexByte, mem_cons, mem_singleton] at held
  obtain rfl | rfl := held
  · exact digit ⟨byte.toNat / 16, by omega⟩
  · exact digit ⟨byte.toNat % 16, by omega⟩

theorem queryKey_plain (digest : List Char → List UInt8) (pattern : List Char)
    (flags : PatternFlags) (path glob : List Char) :
    ∀ c ∈ queryKey digest pattern flags path glob, c ≠ '.' ∧ Text.isWhitespace c = false := by
  intro c held
  obtain ⟨byte, _, digit⟩ := mem_flatMap.mp (mem_of_mem_take held)
  exact hexDigit_plain digit

theorem decimal_plain {value : Nat} : '.' ∉ Text.decimal value := by
  intro held
  exact absurd (isDigit_of_mem_decimal held) (by decide)

theorem encode_plain (cursor : Cursor) {key : List Char}
    (plain : ∀ c ∈ key, c ≠ '.' ∧ Text.isWhitespace c = false) :
    ∀ c ∈ cursor.encode key, Text.isWhitespace c = false := by
  have digits (value : Nat) : ∀ c ∈ Text.decimal value, Text.isWhitespace c = false :=
    fun c held => isWhitespace_of_isDigit (isDigit_of_mem_decimal held)
  have stop : ∀ c ∈ cursor.stop.elim ['-'] Text.decimal, Text.isWhitespace c = false := by
    cases cursor.stop with
    | none => decide
    | some stop => exact digits stop
  have tag : ∀ c ∈ Cursor.format, Text.isWhitespace c = false := by decide
  have dot : Text.isWhitespace '.' = false := by decide
  intro c held
  simp only [Cursor.encode, mem_append, mem_cons] at held
  obtain held | rfl | held | rfl | held | rfl | held | rfl | held := held
  · exact tag c held
  · exact dot
  · exact digits _ c held
  · exact dot
  · exact stop c held
  · exact dot
  · exact digits _ c held
  · exact dot
  · exact (plain c held).2

/-- The parts of the text are those that were joined. -/
theorem splitOn_encode (cursor : Cursor) {key : List Char}
    (plain : ∀ c ∈ key, c ≠ '.' ∧ Text.isWhitespace c = false) :
    (cursor.encode key).splitOn '.' = [Cursor.format, Text.decimal cursor.start,
      cursor.stop.elim ['-'] Text.decimal, Text.decimal cursor.skip, key] := by
  have stop : '.' ∉ cursor.stop.elim ['-'] Text.decimal := by
    cases cursor.stop with
    | none => decide
    | some stop => exact decimal_plain
  have other : '.' ∉ key := fun held => (plain '.' held).1 rfl
  unfold Cursor.encode
  rw [splitOn_append_cons_self_of_not_mem (by decide), splitOn_append_cons_self_of_not_mem decimal_plain,
    splitOn_append_cons_self_of_not_mem stop,
    splitOn_append_cons_self_of_not_mem decimal_plain, splitOn_eq_singleton other]

/-- A cursor is read back as it was written. -/
theorem decode_encode {cursor : Cursor} (valid : cursor.Valid) {key : List Char}
    (plain : ∀ c ∈ key, c ≠ '.' ∧ Text.isWhitespace c = false) :
    Cursor.decode (cursor.encode key) key = some cursor := by
  rw [Cursor.decode, trim_of_none (encode_plain cursor plain), splitOn_encode cursor plain]
  simp only [ne_eq, not_true_eq_false, if_false, false_or]
  rw [parseUsize_decimal valid.start, parseUsize_decimal valid.skip]
  obtain ⟨start, stop, skip⟩ := cursor
  cases stop with
  | none => rfl
  | some stop =>
    obtain ⟨ordered, small⟩ := valid.stop stop rfl
    have digits : Text.decimal stop ≠ ['-'] := by
      intro same
      have sign : '-' ∈ Text.decimal stop := by rw [same]; simp
      exact absurd (isDigit_of_mem_decimal sign) (by decide)
    change (Option.bind (if Text.decimal stop = ['-'] then _ else _) _) = _
    rw [if_neg digits]
    change (Option.bind (Option.map some (Text.parseUsize (Text.decimal stop))) _) = _
    rw [parseUsize_decimal small]
    exact if_neg (by simpa using ordered)

theorem parseUsize_lt {text : List Char} {value : Nat} (parsed : parseUsize text = some value) : value < 2 ^ 64 := by
  unfold parseUsize at parsed
  split at parsed
  · exact of_decide_eq_true (Option.filter_eq_some_iff.mp parsed).2
  · exact of_decide_eq_true (Option.filter_eq_some_iff.mp parsed).2

/-- A cursor is read back for its own query only, and each cursor that is read is valid. -/
theorem cursors_exact (digest : List Char → List UInt8) (pattern path glob : List Char) (flags : PatternFlags) :
    (∀ cursor : Cursor, cursor.Valid → ∀ key,
      Cursor.decode (cursor.encode (queryKey digest pattern flags path glob)) key =
        if queryKey digest pattern flags path glob = key then some cursor else none) ∧
      ∀ raw key cursor, Cursor.decode raw key = some cursor → cursor.Valid := by
  constructor
  · intro cursor valid key
    have plain := queryKey_plain digest pattern flags path glob
    split
    · rename_i same
      rw [← same]
      exact decode_encode valid plain
    rename_i apart
    rw [Cursor.decode, trim_of_none (encode_plain cursor plain), splitOn_encode cursor plain]
    simp [apart]
  intro raw key cursor read
  unfold Cursor.decode at read
  split at read
  · split at read
    · cases read
    obtain ⟨start, first, read⟩ := Option.bind_eq_some_iff.mp read
    obtain ⟨stop, last, read⟩ := Option.bind_eq_some_iff.mp read
    obtain ⟨skip, rest, read⟩ := Option.bind_eq_some_iff.mp read
    split at read
    · cases read
    rename_i fits
    obtain rfl := Option.some.inj read
    refine ⟨parseUsize_lt first, ?_, parseUsize_lt rest⟩
    rintro number rfl
    split at last
    · cases last
    obtain ⟨parsed, small, same⟩ := Option.map_eq_some_iff.mp last
    cases same
    exact ⟨by simpa using fun late => fits (.inr late), parseUsize_lt small⟩
  · cases read

/-- The first cursor of a query without text. -/
theorem cursors_exact_first : Cursor.decode (Cursor.first.encode (queryKey (fun _ => [1]) [] {} [] [])) ['0', '1'] =
    some Cursor.first := by
  have valid : Cursor.first.Valid := { start := by decide, stop := nofun, skip := by decide }
  exact ((cursors_exact (fun _ => [1]) [] [] [] {}).1 _ valid _).trans (if_pos (by decide))

/-- The kinds of files, the most relevant first. -/
inductive FileClass where
  | code
  | test
  | docs
  | generated
deriving DecidableEq, Ord

/-- The rules that classify files and symbols by their names. -/
structure NameRules where
  isTestPath : String → Bool
  isLowValue : String → Bool
  isGenerated : String → Bool
  isTestSymbol : String → String → Bool

def isDocsLanguage (language : Language) : Bool := language.isValueSensitive || language.isDocs

namespace FileClass

def ofFile (rules : NameRules) (path : String) (language : Language) : FileClass :=
  if rules.isGenerated path then .generated
  else if rules.isTestPath path || rules.isLowValue path then .test
  else if isDocsLanguage language then .docs
  else .code

end FileClass

/-- What decides the rank of a file. -/
structure FileRank where
  kind : FileClass
  codeHits : Nat
  count : Nat
  path : String

/-- Files with a hit outside comments come first within a class, then those with the most hits. -/
def FileRank.compare (first second : FileRank) : Ordering :=
  (Ord.compare first.kind second.kind).then
    ((Ord.compare (first.codeHits = 0 : Bool) (second.codeHits = 0 : Bool)).then
      ((Ord.compare second.count first.count).then (Ord.compare first.path second.path)))

def FileRank.isBefore (first second : FileRank) : Bool := (first.compare second).isLE

inductive Mode where
  | lines
  | count
  | files
deriving DecidableEq

def Mode.maxRows : Mode → Nat
  | .lines => 40
  | .count | .files => 200

structure GrepFileRow where
  file : String
  count : Option Nat := none
  more : Nat := 0
  hits : List GrepHitGroup := []
  alreadySent : List Nat := []
deriving DecidableEq

structure GrepDirRow where
  dir : List Char
  files : Nat
  count : Nat
deriving DecidableEq

structure GrepOutput where
  files : List GrepFileRow := []
  dirs : List GrepDirRow := []
  totalHits : Option Nat := none
  totalFiles : Option Nat := none
  searchedFiles : Option Nat := none
  candidateFiles : Option Nat := none
  skippedFiles : Nat := 0
  valuesWithheld : Bool := false
  incomplete : Bool := false
  truncated : Bool := false
  nextCursor : Option (List Char) := none
deriving DecidableEq

/-- Directory rows and then file rows are dropped until the payload fits the budget. The first file
row stays. -/
def GrepOutput.fitTo (jsonLen : GrepOutput → Nat) (budget : Nat) (out : GrepOutput)
    (dropped : Nat) : GrepOutput × Nat :=
  if jsonLen out ≤ budget then (out, dropped)
  else if out.dirs ≠ [] then
    fitTo jsonLen budget { out with dirs := out.dirs.dropLast, truncated := true } dropped
  else if 1 < out.files.length then
    fitTo jsonLen budget { out with files := out.files.dropLast, truncated := true } (dropped + 1)
  else (out, dropped)
termination_by out.dirs.length + out.files.length
decreasing_by
  · have shorter : out.dirs.dropLast.length = out.dirs.length - 1 := length_dropLast
    have present := length_pos_of_ne_nil ‹out.dirs ≠ []›
    change out.dirs.dropLast.length + out.files.length < _
    omega
  · have shorter : out.files.dropLast.length = out.files.length - 1 := length_dropLast
    change out.dirs.length + out.files.dropLast.length < _
    omega

def maxDirs : Nat := 20

def cursorRoom : Nat := 96

/-- The components of the directory of a file, or a dot at the root. -/
def dirOf (path : List Char) : List (List Char) :=
  match (path.splitOn '/').dropLast with
  | [] => [['.']]
  | components => components

/-- The files and the hits below each directory of a depth. -/
def groupDirs (rows : List (List Char × Nat)) (depth : Nat) : Dict (List Char) (Nat × Nat) :=
  rows.foldl
    (fun groups row =>
      Dict.update groups (['/'].intercalate ((dirOf row.1).take depth)) (0, 0) fun total =>
        (total.1 + 1, total.2 + row.2))
    ∅

/-- The deepest level that needs no more rows than allowed. -/
def fitDepth (rows : List (List Char × Nat)) : Nat → Nat
  | 0 => 0
  | 1 => 1
  | depth + 2 =>
    if maxDirs < (groupDirs rows (depth + 2)).entries.length then fitDepth rows (depth + 1)
    else depth + 2

def dirSummary (rows : List (List Char × Nat)) : List GrepDirRow :=
  let deepest := ((rows.map fun row => (dirOf row.1).length).max?).getD 1
  let dirs := (groupDirs rows (fitDepth rows deepest)).entries.map fun entry =>
    (⟨entry.1, entry.2.1, entry.2.2⟩ : GrepDirRow)
  if rows = [] then []
  else
    (dirs.mergeSort fun first second =>
      second.count < first.count || first.count = second.count && first.dir ≤ second.dir).take
        maxDirs

structure Page where
  candidates : List Candidate
  cursor : Cursor
  mode : Mode
  limit : Nat
  maxPerFile : Nat
  window : Window
  regex : Regex
  lossy : Bytes → List Char
  rules : NameRules
  jsonLen : GrepOutput → Nat
  budget : Nat
  key : List Char

/-- The rows so far, the hits that they show, and whether a value was withheld. -/
structure PageRows where
  files : List GrepFileRow := []
  shown : Nat := 0
  valuesWithheld : Bool := false

namespace Page

variable (page : Page)

def candidateAt (index : Nat) : Candidate := (page.candidates[index]?).getD ⟨"", {}⟩

/-- Lines outside test code come before test code, and code before comments. -/
def choose (candidates : List Hit) (room : Nat) (path : String) (source : PageSource) : List Chosen :=
  let isTest (chosen : Chosen) : Bool :=
    chosen.2.any fun symbol => page.rules.isTestSymbol path symbol.name
  let picked := (candidates.map fun hit => (hit, source.enclosing path hit.line)).mergeSort
    fun first second => ((compare (isTest first) (isTest second)).then
      ((compare first.1.comment second.1.comment).then
        (compare first.1.line second.1.line))).isLE
  if room = 0 then []
  else (picked.take room).mergeSort fun first second => first.1.line ≤ second.1.line

/-- The chosen hits, the lines that the session holds, and how many neither shows. -/
def linesRow (candidate : Candidate) (hits : FileHits) (chosen : List Chosen) (withhold : Bool)
    (source : PageSource) : GrepFileRow :=
  let context :=
    if !withhold && !page.window.isEmpty && chosen ≠ [] then source.read candidate.path else none
  match context with
  | none =>
    { file := candidate.path
      count := some hits.count
      more := hits.count - (chosen.length + hits.sentTotal)
      hits := plain chosen withhold
      alreadySent := hits.sent }
  | some content =>
    let rendered := withContext page.lossy page.regex content chosen page.window
    let alreadySent := hits.sent.filter fun line => line ∉ rendered.2.members
    let sentTotal := hits.sentTotal - (hits.sent.length - alreadySent.length)
    { file := candidate.path
      count := some hits.count
      more := hits.count - (rendered.2.size + sentTotal)
      hits := rendered.1
      alreadySent := alreadySent }

def addRow (source : PageSource) (rows : PageRows) (hits : FileHits) : PageRows :=
  let candidate := page.candidateAt hits.index
  match page.mode with
  | .files => { rows with files := rows.files ++ [{ file := candidate.path }] }
  | .count =>
    { rows with files := rows.files ++ [{ file := candidate.path, count := some hits.count }] }
  | .lines =>
    let withhold := candidate.language.isValueSensitive
    let room := min (page.limit - rows.shown) page.maxPerFile
    let chosen := page.choose hits.hits room candidate.path source
    { files := rows.files ++ [page.linesRow candidate hits chosen withhold source]
      shown := rows.shown + chosen.length
      valuesWithheld := rows.valuesWithheld || withhold && chosen ≠ [] }

def rank (hits : FileHits) : FileRank :=
  let candidate := page.candidateAt hits.index
  ⟨FileClass.ofFile page.rules candidate.path candidate.language, hits.codeHits, hits.count, candidate.path⟩

def ranked (files : List FileHits) : List FileHits :=
  files.mergeSort fun first second => (page.rank first).isBefore (page.rank second)

/-- The page before its rows are chosen. -/
def header (outcome : ScanOutcome) : GrepOutput :=
  let partly : Bool := 0 < page.cursor.start || outcome.stop < page.candidates.length
  { skippedFiles := outcome.tooLarge
    incomplete := outcome.stopped.isSome
    searchedFiles := if partly then some (outcome.stop - min page.cursor.start outcome.stop) else none
    candidateFiles := if partly then some page.candidates.length else none }

/-- The place of the next page: it goes on in the same range while ranked files are left. -/
def next (stop files consumed : Nat) : Option Cursor :=
  if consumed < files then some ⟨page.cursor.start, some stop, consumed⟩
  else if stop < page.candidates.length then some ⟨stop, none, 0⟩
  else none

/-- The rows of the best files that the cursor does not skip. -/
def rowsOf (source : PageSource) (ranked : List FileHits) : PageRows :=
  ((ranked.drop (min page.cursor.skip ranked.length)).take page.mode.maxRows).foldl
    (page.addRow source) {}

/-- The page of the ranked files that fits the budget, and the number of dropped rows. -/
def fitted (source : PageSource) (outcome : ScanOutcome) (ranked : List FileHits) : GrepOutput × Nat :=
  let rows := page.rowsOf source ranked
  let upTo := min page.cursor.skip ranked.length + rows.files.length
  GrepOutput.fitTo page.jsonLen (page.budget - cursorRoom)
    { page.header outcome with
      files := rows.files
      dirs := dirSummary ((ranked.drop upTo).map fun (hits : FileHits) =>
        ((page.candidateAt hits.index).path.toList, hits.count))
      valuesWithheld := rows.valuesWithheld
      truncated := upTo < ranked.length } 0

/-- The ranked files that this page and those before it have listed. -/
def consumed (source : PageSource) (outcome : ScanOutcome) (ranked : List FileHits) : Nat :=
  min page.cursor.skip ranked.length + (page.rowsOf source ranked).files.length -
    (page.fitted source outcome ranked).2

/-- A page that was handed out earlier is offered again when its search stopped. -/
def assemble (source : PageSource) (outcome : ScanOutcome) : GrepOutput :=
  if page.cursor.stop.isSome ∧ outcome.stopped.isSome then
    { page.header outcome with nextCursor := some (page.cursor.encode page.key) }
  else
    let ranked := page.ranked outcome.files
    let consumed := page.consumed source outcome ranked
    let missing : Bool := 0 < min page.cursor.skip ranked.length || consumed < ranked.length
    { (page.fitted source outcome ranked).1 with
      totalFiles := if missing then some ranked.length else none
      totalHits := if missing then some (ranked.map FileHits.count).sum else none
      nextCursor := (page.next outcome.stop ranked.length consumed).map
        fun (cursor : Cursor) => cursor.encode page.key }

end Page

end Codegraph.Grep
