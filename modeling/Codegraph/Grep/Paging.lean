import Codegraph.Grep.Page
import Codegraph.Grep.ScanOutcomes

namespace Codegraph.Grep

open Library List

/-- The search that all pages share: the files do not change between them. -/
structure Scope where
  candidates : List Candidate
  length_lt : candidates.length < 2 ^ 64
  disk : String → Option OpenFile
  maxFileBytes : U64
  regex : Regex
  lossy : Bytes → List Char
  fingerprint : Bytes → String
  rules : NameRules
  jsonLen : GrepOutput → Nat
  digest : List Char → List UInt8
  pattern : List Char
  flags : PatternFlags
  path : List Char
  glob : List Char

/-- What may differ from page to page: the options, what the session was sent, and where the search
of an open page stops. -/
structure Visit where
  mode : Mode
  limit : Nat
  maxPerFile : Nat
  window : Window
  budget : Nat
  maxBytes : U64
  sent : SentLines
  source : PageSource
  stop : Nat
  reason : StopReason

namespace Scope

variable (scope : Scope)

def key : List Char := queryKey scope.digest scope.pattern scope.flags scope.path scope.glob

/-- The contents of a candidate that is searched. -/
def searched (candidate : Candidate) : Option Bytes :=
  (scope.disk candidate.path).bind fun file =>
    if scope.maxFileBytes < file.size then none
    else file.content.filter fun buf => !looksBinary buf

def matchingLines (candidate : Candidate) : List LineMatch :=
  (scope.searched candidate).elim [] fun buf => forEachMatchingLine scope.regex buf (buf.length + 1) {}

def request (visit : Visit) (cursor : Cursor) : ScanRequest where
  candidates := scope.candidates
  disk := scope.disk
  start := cursor.start
  stop := cursor.stop
  query :=
    { regex := scope.regex
      lossy := scope.lossy
      fingerprint := scope.fingerprint
      maxPerFile := if visit.mode = .lines then visit.maxPerFile else 0
      sent := visit.sent }
  limits := ⟨visit.maxBytes, scope.maxFileBytes⟩

/-- A page of a closed range completes. An open page covers a prefix of the rest, at least its first
candidate. -/
def stopAt (visit : Visit) (cursor : Cursor) : Nat :=
  if cursor.stop.isSome then (scope.request visit cursor).last
  else min (max visit.stop ((scope.request visit cursor).first + 1)) (scope.request visit cursor).last

def outcome (visit : Visit) (cursor : Cursor) : ScanOutcome :=
  (scope.request visit cursor).covered (scope.stopAt visit cursor)
    (if scope.stopAt visit cursor = (scope.request visit cursor).last then none
    else some visit.reason)

def pageOf (visit : Visit) (cursor : Cursor) : Page where
  candidates := scope.candidates
  cursor := cursor
  mode := visit.mode
  limit := visit.limit
  maxPerFile := visit.maxPerFile
  window := visit.window
  regex := scope.regex
  lossy := scope.lossy
  rules := scope.rules
  jsonLen := scope.jsonLen
  budget := visit.budget
  key := scope.key

def output (visit : Visit) (cursor : Cursor) : GrepOutput :=
  (scope.pageOf visit cursor).assemble visit.source (scope.outcome visit cursor)

/-- The cursor that is followed to a page, read from the page before it. -/
def cursorOf (visits : Nat → Visit) : Nat → Option Cursor
  | 0 => some Cursor.first
  | number + 1 =>
    (cursorOf visits number).bind fun cursor =>
      (scope.output (visits number) cursor).nextCursor.bind fun raw => Cursor.decode raw scope.key

def rowsOf (visits : Nat → Visit) (number : Nat) : List String :=
  (scope.cursorOf visits number).elim [] fun cursor =>
    (scope.output (visits number) cursor).files.map GrepFileRow.file

end Scope

/-- The counts of a search do not depend on what is kept of the lines. -/
theorem counts_foldl (query : Query) (language : Language) (buf : Bytes)
    (sentRanges : List (Nat × Nat)) (found : List LineMatch) (state : FileSearch) :
    let final := found.foldl (FileSearch.onLine query language buf sentRanges) state
    final.out.index = state.out.index ∧ final.out.count = state.out.count + found.length ∧
      final.out.codeHits = state.out.codeHits + found.countP fun line =>
        !isCommentLine language (slice buf line.start line.stop) := by
  induction found generalizing state with
  | nil => exact ⟨rfl, rfl, rfl⟩
  | cons line found ih =>
    obtain ⟨index, count, codeHits⟩ := ih (FileSearch.onLine query language buf sentRanges state line)
    have step : (FileSearch.onLine query language buf sentRanges state line).out.index = state.out.index ∧
        (FileSearch.onLine query language buf sentRanges state line).out.count = state.out.count + 1 ∧
        (FileSearch.onLine query language buf sentRanges state line).out.codeHits = state.out.codeHits +
            if isCommentLine language (slice buf line.start line.stop) then 0 else 1 := by
      unfold FileSearch.onLine
      cases comment : isCommentLine language (slice buf line.start line.stop) <;>
        cases covered : covers sentRanges line.line <;> simp [comment]
    rw [step.1] at index
    rw [step.2.1] at count
    rw [step.2.2] at codeHits
    refine ⟨index, count.trans (by rw [length_cons]; omega), codeHits.trans ?_⟩
    rw [countP_cons]
    cases isCommentLine language (slice buf line.start line.stop) <;> simp [Nat.add_assoc, Nat.add_comm]

theorem searchFile_counts (query : Query) (index : Nat) (candidate : Candidate) (buf : Bytes) :
    (searchFile query index candidate buf).map
        (fun hits => (hits.index, hits.count, hits.codeHits)) =
      if forEachMatchingLine query.regex buf (buf.length + 1) {} = [] then none
      else some (index, (forEachMatchingLine query.regex buf (buf.length + 1) {}).length,
        (forEachMatchingLine query.regex buf (buf.length + 1) {}).countP fun line =>
          !isCommentLine candidate.language (slice buf line.start line.stop)) := by
  unfold searchFile
  obtain ⟨sameIndex, count, codeHits⟩ := counts_foldl query candidate.language buf
    (if query.sent.tracks candidate.path then
      query.sent.ranges candidate.path (query.fingerprint buf) else [])
    (forEachMatchingLine query.regex buf (buf.length + 1) {}) { out := { index := index } }
  dsimp only at sameIndex count codeHits ⊢
  rw [zero_add] at count codeHits
  rw [count]
  by_cases none : forEachMatchingLine query.regex buf (buf.length + 1) {} = []
  · rw [if_pos (by rw [none]; rfl), if_pos none]
    rfl
  · rw [if_neg (by rw [length_eq_zero_iff]; exact none), if_neg none, Option.map_some]
    exact congrArg some (Prod.ext sameIndex (Prod.ext rfl codeHits))

/-- Dropped file rows are the last ones, and one row stays. -/
theorem fitTo_files (jsonLen : GrepOutput → Nat) (budget : Nat) (out : GrepOutput)
    (dropped : Nat) : ∃ more, (out.fitTo jsonLen budget dropped).2 = dropped + more ∧
      (out.fitTo jsonLen budget dropped).1.files = out.files.take (out.files.length - more) ∧
      (more = 0 ∨ more < out.files.length) := by
  fun_induction GrepOutput.fitTo jsonLen budget out dropped with
  | case1 out dropped _ => exact ⟨0, rfl, by rw [Nat.sub_zero, take_length], .inl rfl⟩
  | case2 out dropped _ _ ih => exact ih
  | case3 out dropped _ _ several ih =>
    obtain ⟨more, total, files, few⟩ := ih
    have shorter : out.files.dropLast.length = out.files.length - 1 := length_dropLast
    refine ⟨more + 1, by rw [total]; omega, files.trans ?_, ?_⟩
    · rw [shorter, dropLast_eq_take, take_take]
      congr 1
      omega
    · change more = 0 ∨ more < out.files.dropLast.length at few
      omega
  | case4 out dropped _ _ _ => exact ⟨0, rfl, by rw [Nat.sub_zero, take_length], .inl rfl⟩

namespace Page

variable (page : Page) (source : PageSource)

theorem files_addRow (rows : PageRows) (hits : FileHits) :
    (page.addRow source rows hits).files.map GrepFileRow.file =
      rows.files.map GrepFileRow.file ++ [(page.rank hits).path] := by
  unfold addRow
  cases page.mode with
  | files => exact map_append
  | count => exact map_append
  | lines =>
    refine map_append.trans (congrArg _ ?_)
    unfold linesRow
    dsimp only [map_cons, map_nil]
    split <;> rfl

/-- A page has a row for each file that it shows, in their order. -/
theorem files_foldl (files : List FileHits) (rows : PageRows) :
    (files.foldl (page.addRow source) rows).files.map GrepFileRow.file =
      rows.files.map GrepFileRow.file ++ files.map fun hits => (page.rank hits).path := by
  induction files generalizing rows with
  | nil => rw [map_nil, append_nil]; rfl
  | cons hits files ih =>
    rw [foldl_cons, ih, files_addRow, append_assoc, map_cons]
    rfl

theorem maxRows_pos (mode : Mode) : 0 < mode.maxRows := by cases mode <;> decide

theorem drop_min {Element : Type} (list : List Element) (count : Nat) :
    list.drop (min count list.length) = list.drop count := by
  by_cases within : count ≤ list.length
  · rw [min_eq_left within]
  · rw [Nat.min_eq_right (by omega), drop_length, drop_eq_nil_of_le (by omega)]

/-- A page lists the next ranked files, at least one while some are left, and its cursor goes on
behind them. -/
theorem assemble_spec (outcome : ScanOutcome) (complete : page.cursor.stop.isSome → outcome.stopped = none) :
    ∃ listed, min page.cursor.skip (page.ranked outcome.files).length + listed ≤
        (page.ranked outcome.files).length ∧
      (page.cursor.skip < (page.ranked outcome.files).length → 0 < listed) ∧
      (page.assemble source outcome).files.map GrepFileRow.file =
        (((page.ranked outcome.files).map fun hits => (page.rank hits).path).drop
          page.cursor.skip).take listed ∧
      (page.assemble source outcome).nextCursor = (page.next outcome.stop (page.ranked outcome.files).length
          (min page.cursor.skip (page.ranked outcome.files).length + listed)).map
            fun cursor => cursor.encode page.key := by
  have rows : (page.rowsOf source (page.ranked outcome.files)).files.map GrepFileRow.file =
      (((page.ranked outcome.files).map fun hits => (page.rank hits).path).drop
        page.cursor.skip).take page.mode.maxRows := by
    rw [rowsOf, files_foldl, drop_min, map_take, map_drop]
    rfl
  have count := congrArg List.length rows
  rw [length_map, length_take, length_drop, length_map] at count
  have room := maxRows_pos page.mode
  obtain ⟨more, total, files, few⟩ : ∃ more,
      (page.fitted source outcome (page.ranked outcome.files)).2 = 0 + more ∧
      (page.fitted source outcome (page.ranked outcome.files)).1.files =
        (page.rowsOf source (page.ranked outcome.files)).files.take
          ((page.rowsOf source (page.ranked outcome.files)).files.length - more) ∧
      (more = 0 ∨ more < (page.rowsOf source (page.ranked outcome.files)).files.length) :=
    fitTo_files _ _ _ 0
  have consumed : page.consumed source outcome (page.ranked outcome.files) =
      min page.cursor.skip (page.ranked outcome.files).length +
        ((page.rowsOf source (page.ranked outcome.files)).files.length - more) := by
    unfold Page.consumed
    omega
  refine ⟨(page.rowsOf source (page.ranked outcome.files)).files.length - more, by omega, by omega, ?_, ?_⟩
  · rw [assemble, if_neg (by intro both; simp [complete both.1] at both)]
    rw [files, map_take, rows, take_take]
    congr 1
    omega
  rw [assemble, if_neg (by intro both; simp [complete both.1] at both)]
  change (page.next outcome.stop _ (page.consumed source outcome _)).map _ = _
  rw [consumed]

end Page

namespace Scope

variable (scope : Scope)

/-- What decides the rank of a candidate with a match. -/
def rankOf (candidate : Candidate) : Option FileRank :=
  (scope.searched candidate).bind fun buf =>
    if forEachMatchingLine scope.regex buf (buf.length + 1) {} = [] then none
    else
      some ⟨FileClass.ofFile scope.rules candidate.path candidate.language,
        (forEachMatchingLine scope.regex buf (buf.length + 1) {}).countP fun line =>
          !isCommentLine candidate.language (slice buf line.start line.stop),
        (forEachMatchingLine scope.regex buf (buf.length + 1) {}).length, candidate.path⟩

/-- The ranks of consecutive candidates, in their order. -/
def ranksIn (start count : Nat) : List FileRank :=
  (List.range' start count).filterMap fun index => scope.candidates[index]?.bind scope.rankOf

theorem hits_found (visit : Visit) (cursor : Cursor) (index : Nat) :
    ((scope.request visit cursor).found index).hits? =
      scope.candidates[index]?.bind fun candidate =>
        (scope.searched candidate).bind fun buf =>
          searchFile (scope.request visit cursor).query index candidate buf := by
  have listed : (scope.request visit cursor).candidates = scope.candidates := rfl
  have stored : (scope.request visit cursor).disk = scope.disk := rfl
  rw [ScanRequest.found, listed]
  cases scope.candidates[index]? with
  | none => rfl
  | some candidate =>
    have bound : (scope.request visit cursor).limits.maxFileBytes = scope.maxFileBytes := rfl
    unfold searched
    dsimp only
    rw [Option.bind_some, stored, bound]
    cases scope.disk candidate.path with
    | none => rfl
    | some file =>
      by_cases large : scope.maxFileBytes < file.size
      · simp [large, Slot.hits?]
      cases content : file.content with
      | none => simp [large, content, Slot.hits?]
      | some buf =>
        cases binary : looksBinary buf with
        | true => simp [large, content, binary, Slot.hits?, Option.filter]
        | false =>
          simp only [large, content, binary, if_false, Option.bind_some,
            Option.filter, Bool.not_false, if_true, Bool.false_eq_true]
          cases searchFile (scope.request visit cursor).query index candidate buf <;> rfl

/-- Every page finds the same ranks, whatever the session was sent. -/
theorem rank_found (visit : Visit) (cursor : Cursor) (index : Nat) :
    (((scope.request visit cursor).found index).hits?).map (scope.pageOf visit cursor).rank =
      scope.candidates[index]?.bind scope.rankOf := by
  rw [scope.hits_found]
  cases present : scope.candidates[index]? with
  | none => rfl
  | some candidate =>
    unfold rankOf
    rw [Option.bind_some, Option.bind_some]
    cases scope.searched candidate with
    | none => rfl
    | some buf =>
      have counts := searchFile_counts (scope.request visit cursor).query index candidate buf
      have same : (scope.pageOf visit cursor).candidateAt index = candidate := by
        change (scope.candidates[index]?).getD _ = candidate
        rw [present, Option.getD_some]
      have ranked : ∀ hits : FileHits, hits.index = index → (scope.pageOf visit cursor).rank hits =
            ⟨FileClass.ofFile scope.rules candidate.path candidate.language, hits.codeHits,
              hits.count, candidate.path⟩ := by
        intro hits atIndex
        rw [Page.rank, atIndex, same]
        rfl
      rw [Option.bind_some, Option.bind_some]
      change _ = (if forEachMatchingLine scope.regex buf _ {} = [] then _ else _) at counts
      by_cases none : forEachMatchingLine scope.regex buf (buf.length + 1) {} = []
      · rw [if_pos none] at counts ⊢
        rw [Option.map_eq_none_iff] at counts ⊢
        exact counts
      rw [if_neg none] at counts ⊢
      obtain ⟨hits, found, parts⟩ := Option.map_eq_some_iff.mp counts
      obtain ⟨atIndex, count, codeHits⟩ : hits.index = _ ∧ hits.count = _ ∧
        hits.codeHits = _ := by simpa using parts
      rw [found, Option.map_some, ranked hits atIndex, count, codeHits]
      rfl

def sortedRanks (start count : Nat) : List FileRank :=
  (scope.ranksIn start count).mergeSort FileRank.isBefore

/-- The ranked files of a page are those of its range. -/
theorem map_ranked (visit : Visit) (cursor : Cursor) (start count : Nat) : ((scope.pageOf visit cursor).ranked
        ((scope.request visit cursor).matchesIn start count)).map
        (scope.pageOf visit cursor).rank = scope.sortedRanks start count := by
  unfold Page.ranked sortedRanks
  have sorts : ∀ first ∈ (scope.request visit cursor).matchesIn start count,
      ∀ second ∈ (scope.request visit cursor).matchesIn start count,
      ((scope.pageOf visit cursor).rank first).isBefore ((scope.pageOf visit cursor).rank second) =
        FileRank.isBefore ((scope.pageOf visit cursor).rank first)
          ((scope.pageOf visit cursor).rank second) := fun _ _ _ _ => rfl
  rw [map_mergeSort sorts]
  congr 1
  rw [ScanRequest.matchesIn, ranksIn, map_filterMap]
  congr 1
  funext index
  exact scope.rank_found visit cursor index

/-- The files that are still to be listed from a cursor on. -/
def remaining (cursor : Cursor) : List FileRank :=
  match cursor.stop with
  | none => scope.ranksIn cursor.start (scope.candidates.length - cursor.start)
  | some stop =>
    (scope.sortedRanks cursor.start (stop - cursor.start)).drop cursor.skip ++
      scope.ranksIn stop (scope.candidates.length - stop)

/-- A cursor of a page is within the candidates, and it skips files of a range only. -/
structure Within (cursor : Cursor) : Prop where
  start : cursor.start ≤ scope.candidates.length
  skipped : cursor.stop = none → cursor.skip = 0
  stop : ∀ stop, cursor.stop = some stop → cursor.start ≤ stop ∧ stop ≤ scope.candidates.length ∧
    cursor.skip < (scope.sortedRanks cursor.start (stop - cursor.start)).length

/-- Where the search of a page ends. -/
def pageStop (visit : Visit) (cursor : Cursor) : Nat :=
  cursor.stop.getD (min (max visit.stop (cursor.start + 1)) scope.candidates.length)

theorem ranksIn_append (start middle stop : Nat) (first : start ≤ middle) (second : middle ≤ stop) :
    scope.ranksIn start (middle - start) ++ scope.ranksIn middle (stop - middle) =
      scope.ranksIn start (stop - start) := by
  unfold ranksIn
  have parts : stop - start = (middle - start) + (stop - middle) := by omega
  have next : start + (middle - start) = middle := by omega
  rw [parts, ← range'_append_1, filterMap_append, next]

theorem length_sortedRanks_le (start count : Nat) : (scope.sortedRanks start count).length ≤ count := by
  rw [sortedRanks, ranksIn, length_mergeSort]
  exact (length_filterMap_le _ _).trans_eq length_range'

variable {scope} {visit : Visit} {cursor : Cursor}

variable (visit : Visit)

theorem pageStop_bounds (within : scope.Within cursor) :
    cursor.start ≤ scope.pageStop visit cursor ∧ scope.pageStop visit cursor ≤ scope.candidates.length ∧
      (cursor.stop = none → cursor.start < scope.candidates.length →
        cursor.start < scope.pageStop visit cursor) := by
  have start := within.start
  unfold pageStop
  cases stop : cursor.stop with
  | none =>
    rw [Option.getD_none]
    omega
  | some stop' =>
    obtain ⟨ordered, bounded, _⟩ := within.stop stop' stop
    exact ⟨ordered, bounded, fun none => absurd none (by simp)⟩

theorem outcome_eq (within : scope.Within cursor) :
    ∃ stopped, (cursor.stop.isSome → stopped = none) ∧ scope.outcome visit cursor =
        { files := (scope.request visit cursor).matchesIn cursor.start
            (scope.pageStop visit cursor - cursor.start)
          stop := scope.pageStop visit cursor
          stopped := stopped
          tooLarge := (scope.request visit cursor).tooLargeIn cursor.start
            (scope.pageStop visit cursor - cursor.start) } := by
  have start := within.start
  cases stop : cursor.stop with
  | none =>
    have last : (scope.request visit cursor).last = scope.candidates.length := by
      change min (cursor.stop.getD scope.candidates.length) scope.candidates.length = _
      rw [stop, Option.getD_none, Nat.min_self]
    have first : (scope.request visit cursor).first = cursor.start := by
      change min cursor.start (scope.request visit cursor).last = _
      omega
    rw [outcome, stopAt, pageStop, ScanRequest.covered, stop, first, last]
    exact ⟨_, by simp, rfl⟩
  | some stop' =>
    obtain ⟨ordered, bounded, _⟩ := within.stop stop' stop
    have last : (scope.request visit cursor).last = stop' := by
      change min (cursor.stop.getD scope.candidates.length) scope.candidates.length = _
      rw [stop, Option.getD_some]
      omega
    have first : (scope.request visit cursor).first = cursor.start := by
      change min cursor.start (scope.request visit cursor).last = _
      omega
    rw [outcome, stopAt, pageStop, ScanRequest.covered, stop, first, last]
    exact ⟨_, fun _ => rfl, by simp⟩

/-- A page lists the next files of the range that its search covers. -/
theorem output_spec (within : scope.Within cursor) :
    ∃ listed, cursor.skip + listed ≤ (scope.sortedRanks cursor.start
        (scope.pageStop visit cursor - cursor.start)).length ∧
      (cursor.skip < (scope.sortedRanks cursor.start
        (scope.pageStop visit cursor - cursor.start)).length → 0 < listed) ∧
      (scope.output visit cursor).files.map GrepFileRow.file =
        (((scope.sortedRanks cursor.start (scope.pageStop visit cursor - cursor.start)).drop
          cursor.skip).take listed).map FileRank.path ∧
      (scope.output visit cursor).nextCursor =
        ((scope.pageOf visit cursor).next (scope.pageStop visit cursor) (scope.sortedRanks
          cursor.start (scope.pageStop visit cursor - cursor.start)).length
            (cursor.skip + listed)).map fun cursor => cursor.encode scope.key := by
  obtain ⟨stopped, complete, outcome⟩ := outcome_eq visit within
  have ranked := scope.map_ranked visit cursor cursor.start
    (scope.pageStop visit cursor - cursor.start)
  have count := congrArg List.length ranked
  rw [length_map] at count
  have skipped : cursor.skip ≤ (scope.sortedRanks cursor.start
      (scope.pageStop visit cursor - cursor.start)).length := by
    cases stop : cursor.stop with
    | none =>
      rw [within.skipped stop]
      exact Nat.zero_le _
    | some stop' =>
      rw [pageStop, stop]
      exact le_of_lt (within.stop stop' stop).2.2
  obtain ⟨listed, room, progress, rows, next⟩ :=
    (scope.pageOf visit cursor).assemble_spec visit.source (scope.outcome visit cursor)
      (by rw [outcome]; exact complete)
  have paths : ((scope.pageOf visit cursor).ranked (scope.outcome visit cursor).files).map
      (fun hits => ((scope.pageOf visit cursor).rank hits).path) =
      (scope.sortedRanks cursor.start (scope.pageStop visit cursor - cursor.start)).map
        FileRank.path := by
    rw [← ranked, outcome, map_map]
    rfl
  rw [paths] at rows
  rw [outcome] at room progress next
  rw [count] at room progress next
  change min cursor.skip _ + listed ≤ _ at room
  change _ = ((scope.pageOf visit cursor).next _ _ (min cursor.skip _ + listed)).map _ at next
  rw [min_eq_left skipped] at room next
  refine ⟨listed, room, progress, ?_, ?_⟩
  · rwa [map_take, map_drop]
  rwa [output, outcome]

/-- What is left to list is the rest of the range of the page, and all behind the range. -/
theorem remaining_perm (within : scope.Within cursor) : (scope.remaining cursor).Perm
      ((scope.sortedRanks cursor.start (scope.pageStop visit cursor - cursor.start)).drop
        cursor.skip ++ scope.ranksIn (scope.pageStop visit cursor)
          (scope.candidates.length - scope.pageStop visit cursor)) := by
  obtain ⟨atLeast, atMost, _⟩ := pageStop_bounds visit within
  cases stop : cursor.stop with
  | none =>
    rw [remaining, stop, within.skipped stop, drop_zero, ← scope.ranksIn_append _ _ _ atLeast atMost]
    exact (mergeSort_perm _ _).symm.append_right _
  | some stop' =>
    rw [remaining, pageStop, stop]
    exact List.Perm.refl _

/-- The files and candidates that are left for a cursor and the pages behind it. -/
def room (scope : Scope) (cursor : Cursor) : Nat :=
  (scope.remaining cursor).length + (scope.candidates.length - cursor.start) +
    if cursor.stop = none then 1 else 0

/-- What is left behind the listed files of a page. -/
theorem listed_perm (within : scope.Within cursor) {listed : Nat}
    (rows : (scope.output visit cursor).files.map GrepFileRow.file =
      (((scope.sortedRanks cursor.start (scope.pageStop visit cursor - cursor.start)).drop
        cursor.skip).take listed).map FileRank.path) :
    ((scope.output visit cursor).files.map GrepFileRow.file ++
      ((scope.sortedRanks cursor.start (scope.pageStop visit cursor - cursor.start)).drop
        (cursor.skip + listed) ++ scope.ranksIn (scope.pageStop visit cursor)
          (scope.candidates.length - scope.pageStop visit cursor)).map FileRank.path).Perm
      ((scope.remaining cursor).map FileRank.path) := by
  refine List.Perm.trans (List.Perm.of_eq ?_) ((remaining_perm visit within).map _).symm
  rw [rows, map_append, ← append_assoc, ← map_append, ← drop_drop, take_append_drop, map_append]

/-- A page lists a part of the files that are left, and the next page goes on with the others. -/
theorem output_next (within : scope.Within cursor) :
    ((scope.output visit cursor).nextCursor = none ∧
      ((scope.output visit cursor).files.map GrepFileRow.file).Perm
        ((scope.remaining cursor).map FileRank.path)) ∨
    ∃ next, (scope.output visit cursor).nextCursor = some (next.encode scope.key) ∧
      scope.Within next ∧ scope.room next < scope.room cursor ∧
      ((scope.output visit cursor).files.map GrepFileRow.file ++
        (scope.remaining next).map FileRank.path).Perm
          ((scope.remaining cursor).map FileRank.path) := by
  obtain ⟨listed, few, progress, rows, next⟩ := output_spec visit within
  obtain ⟨atLeast, atMost, further⟩ := pageStop_bounds visit within
  have left := listed_perm visit within rows
  have start := within.start
  have count := left.length_eq
  have listedCount := congrArg List.length rows
  rw [length_map, length_map, length_take, length_drop] at listedCount
  rw [length_append, length_map, length_map, length_map] at count
  have short := scope.length_sortedRanks_le cursor.start
    (scope.pageStop visit cursor - cursor.start)
  by_cases more : cursor.skip + listed < (scope.sortedRanks cursor.start
      (scope.pageStop visit cursor - cursor.start)).length
  · refine .inr ⟨⟨cursor.start, some (scope.pageStop visit cursor), cursor.skip + listed⟩, ?_,
      ⟨start, fun missing => absurd missing (by simp), ?_⟩, ?_, left⟩
    · rw [next]
      exact congrArg _ (if_pos more)
    · intro stop same
      obtain rfl := Option.some.inj same
      exact ⟨atLeast, atMost, more⟩
    have some_listed := progress (by omega)
    unfold room
    change (_ : List FileRank).length + (scope.candidates.length - cursor.start) + 0 < _
    change _ + (scope.remaining ⟨cursor.start, some (scope.pageStop visit cursor),
      cursor.skip + listed⟩).length = _ at count
    omega
  have empty : (scope.sortedRanks cursor.start (scope.pageStop visit cursor -
      cursor.start)).drop (cursor.skip + listed) = [] := drop_eq_nil_of_le (by omega)
  rw [empty, nil_append] at left count
  by_cases behind : scope.pageStop visit cursor < scope.candidates.length
  · refine .inr ⟨⟨scope.pageStop visit cursor, none, 0⟩, ?_,
      ⟨atMost, fun _ => rfl, fun _ same => by cases same⟩, ?_, left⟩
    · rw [next]
      exact congrArg _ ((if_neg more).trans (if_pos behind))
    unfold room
    change (scope.ranksIn _ _).length + (scope.candidates.length - scope.pageStop visit cursor) + 1 < _
    cases stop : cursor.stop with
    | none =>
      have ahead := further stop (by omega)
      simp only [if_true]
      omega
    | some stop' =>
      have skips := (within.stop stop' stop).2.2
      have same : scope.pageStop visit cursor = stop' := by rw [pageStop, stop, Option.getD_some]
      rw [← same] at skips
      have some_listed := progress skips
      simp only [reduceCtorEq, if_false]
      omega
  have atEnd : scope.candidates.length - scope.pageStop visit cursor = 0 := by omega
  rw [atEnd] at left
  refine .inl ⟨?_, by simpa [ranksIn] using left⟩
  rw [next]
  exact congrArg _ ((if_neg more).trans (if_neg behind))

/-- The text of a cursor of a page belongs to the search and is read back. -/
theorem decode_next (within : scope.Within cursor) :
    Cursor.decode (cursor.encode scope.key) scope.key = some cursor := by
  have bound := scope.length_lt
  have start := within.start
  refine decode_encode ⟨by omega, ?_, ?_⟩ (queryKey_plain _ _ _ _ _)
  · intro stop same
    have ordered := within.stop stop same
    omega
  cases stop : cursor.stop with
  | none =>
    rw [within.skipped stop]
    decide
  | some stop' =>
    obtain ⟨ordered, bounded, skips⟩ := within.stop stop' stop
    have short := scope.length_sortedRanks_le cursor.start (stop' - cursor.start)
    omega

/-- From any page on, the cursors come to an end, and the pages list what was left. -/
theorem pages_from (visits : Nat → Visit) (number : Nat)
    (reached : scope.cursorOf visits number = some cursor) (within : scope.Within cursor) :
    ∃ more last, scope.cursorOf visits (number + more) = some last ∧
      (scope.output (visits (number + more)) last).nextCursor = none ∧
      ((List.range' number (more + 1)).flatMap (scope.rowsOf visits)).Perm
        ((scope.remaining cursor).map FileRank.path) := by
  induction size : scope.room cursor using Nat.strong_induction_on generalizing cursor number with
  | _ size ih =>
    have rows : scope.rowsOf visits number =
        (scope.output (visits number) cursor).files.map GrepFileRow.file := by
      rw [rowsOf, reached]
      rfl
    obtain ⟨ended, all⟩ | ⟨next, handed, inside, smaller, split⟩ := output_next (visits number) within
    · refine ⟨0, cursor, reached, ended, ?_⟩
      rwa [range'_one, flatMap_singleton, rows]
    have follows : scope.cursorOf visits (number + 1) = some next := by
      change (scope.cursorOf visits number).bind _ = _
      rw [reached, Option.bind_some, handed, Option.bind_some, decode_next inside]
    obtain ⟨more, last, atLast, ended, rest⟩ := ih _ (size ▸ smaller) (number + 1) follows inside rfl
    have shifted : number + 1 + more = number + (more + 1) := by omega
    rw [shifted] at atLast ended
    refine ⟨more + 1, last, atLast, ended, ?_⟩
    rw [range'_succ, flatMap_cons, rows]
    exact (rest.append_left _).trans split

theorem rankOf_path {candidate : Candidate} : (scope.rankOf candidate).map FileRank.path =
    if scope.matchingLines candidate = [] then none else some candidate.path := by
  unfold rankOf matchingLines
  cases scope.searched candidate with
  | none => rfl
  | some buf =>
    rw [Option.bind_some, Option.elim_some]
    split <;> rfl

theorem filterMap_range {Element Result : Type} (list : List Element) (f : Element → Option Result) :
    (List.range list.length).filterMap (fun index => list[index]?.bind f) = list.filterMap f := by
  induction list with
  | nil => rfl
  | cons element list ih =>
    rw [length_cons, range_succ_eq_map, filterMap_cons, filterMap_map, filterMap_cons, ← ih]
    rfl

/-- All files with a match are left for the first page. -/
theorem remaining_first : (scope.remaining Cursor.first).map FileRank.path =
    (scope.candidates.filter fun candidate => scope.matchingLines candidate ≠ []).map
      Candidate.path := by
  have all : scope.remaining Cursor.first = scope.candidates.filterMap scope.rankOf := by
    change scope.ranksIn 0 (scope.candidates.length - 0) = _
    rw [ranksIn, ← range_eq_range']
    exact filterMap_range _ _
  rw [all, map_filterMap]
  induction scope.candidates with
  | nil => rfl
  | cons candidate rest ih =>
    rw [filterMap_cons, rankOf_path, filter_cons]
    by_cases none : scope.matchingLines candidate = []
    · simp [none, ih]
    · simp [none, ih]

/-- One file of one byte. -/
def oneByte : Scope where
  candidates := [⟨"a", {}⟩]
  length_lt := by decide
  disk := fun _ => some ⟨⟨1, by decide⟩, some [97]⟩
  maxFileBytes := ⟨9, by decide⟩
  regex := ⟨fun _ _ => none⟩
  lossy := fun _ => []
  fingerprint := fun _ => ""
  rules := ⟨fun _ => false, fun _ => false, fun _ => false, fun _ _ => false⟩
  jsonLen := fun _ => 0
  digest := fun _ => []
  pattern := []
  flags := {}
  path := []
  glob := []

def firstVisit : Visit := ⟨.lines, 1, 1, {}, 9, ⟨9, by decide⟩, {}, ⟨fun _ _ => none, fun _ => none⟩, 0, .bytes⟩

/-- Following the cursors from the first page reaches a page without one, and the rows of all pages
are the files with a match, once each. -/
theorem pages_list_matches (scope : Scope) (visits : Nat → Visit) :
    ∃ number last, scope.cursorOf visits number = some last ∧
      (scope.output (visits number) last).nextCursor = none ∧
      ((List.range (number + 1)).flatMap (scope.rowsOf visits)).Perm
        ((scope.candidates.filter fun candidate => scope.matchingLines candidate ≠ []).map
          Candidate.path) := by
  have within : scope.Within Cursor.first := ⟨Nat.zero_le _, fun _ => rfl, fun _ same => by cases same⟩
  obtain ⟨number, last, reached, ended, rows⟩ := pages_from visits 0 rfl within
  rw [zero_add] at reached ended
  refine ⟨number, last, reached, ended, ?_⟩
  rwa [range_eq_range', ← remaining_first]

end Scope

end Codegraph.Grep
