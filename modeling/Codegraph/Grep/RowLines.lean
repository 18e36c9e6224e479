import Codegraph.Grep.MatchingLines

namespace Codegraph.Grep

open Library List

abbrev Block := Nat × Nat × Option String

def Holds (block : Block) (line : Nat) : Prop := block.1 ≤ line ∧ line ≤ block.2.1

def numbersOf (block : Block) : List Nat := List.range' block.1 (block.2.1 + 1 - block.1)

@[simp] theorem mem_numbersOf {block : Block} {line : Nat} : line ∈ numbersOf block ↔ Holds block line := by
  rw [numbersOf, Holds, mem_range'_1]
  omega

section Blocks

/-- One more range extends the last block or starts a new one. -/
def addRange (blocks : List Block) (range : Block) : List Block :=
  match blocks.getLast? with
  | some block =>
    if range.1 ≤ block.2.1 + 1 then
      blocks.dropLast ++ [(block.1, max block.2.1 range.2.1, block.2.2)]
    else blocks ++ [range]
  | none => blocks ++ [range]

theorem mergeBlocks_concat (ranges : List Block) (last : Block) :
    mergeBlocks (ranges ++ [last]) = addRange (mergeBlocks ranges) last := by
  rw [mergeBlocks, foldl_append]
  rfl

/-- A block ends before the next one starts. -/
def Before (first second : Block) : Prop := first.1 ≤ second.1 ∧ first.2.1 < second.1

theorem mergeBlocks_spec {ranges : List Block}
    (sorted : ranges.Pairwise fun first second => first.1 ≤ second.1) :
    (mergeBlocks ranges).Pairwise Before ∧
      (∀ block ∈ mergeBlocks ranges, ∃ range ∈ ranges, range.1 = block.1) ∧
      ∀ line, (∃ block ∈ mergeBlocks ranges, Holds block line) ↔ ∃ range ∈ ranges, Holds range line := by
  induction ranges using List.reverseRecOn with
  | nil => exact ⟨List.Pairwise.nil, fun _ impossible => absurd impossible not_mem_nil, fun _ => Iff.rfl⟩
  | append_singleton ranges last ih =>
    obtain ⟨sorted, -, ahead⟩ := pairwise_append.mp sorted
    obtain ⟨apart, starts, holds⟩ := ih sorted
    have after (block : Block) (mem : block ∈ mergeBlocks ranges) : block.1 ≤ last.1 := by
      obtain ⟨range, mem', same⟩ := starts block mem
      exact same ▸ ahead range mem' last mem_cons_self
    have both (line : Nat) : (∃ range ∈ ranges ++ [last], Holds range line) ↔
        (∃ block ∈ mergeBlocks ranges, Holds block line) ∨ Holds last line := by
      rw [holds]
      simp only [mem_append, mem_singleton, or_and_right, exists_or, exists_eq_left]
    rw [mergeBlocks_concat]
    unfold addRange
    rcases eq_nil_or_concat (mergeBlocks ranges) with none | ⟨init, block, whole⟩
    · rw [none] at both ⊢
      refine ⟨pairwise_singleton _ _, ?_, ?_⟩
      · intro block mem
        rw [mem_singleton.mp mem]
        exact ⟨last, by simp, rfl⟩
      intro line
      rw [both]
      simp
    rw [whole] at apart starts after both ⊢
    rw [concat_eq_append] at apart starts after both ⊢
    obtain ⟨apart, -, before⟩ := pairwise_append.mp apart
    have upTo := after block (by simp)
    rw [getLast?_concat]
    simp only
    split
    · rename_i touches
      rw [dropLast_concat]
      refine ⟨pairwise_append.mpr ⟨apart, pairwise_singleton _ _, ?_⟩, ?_, ?_⟩
      · intro other mem extended same
        rw [mem_singleton.mp same]
        exact before other mem block mem_cons_self
      · intro other mem
        rcases mem_append.mp mem with old | same
        · obtain ⟨range, mem', first⟩ := starts other (mem_append_left _ old)
          exact ⟨range, mem_append_left _ mem', first⟩
        obtain ⟨range, mem', first⟩ := starts block (by simp)
        rw [mem_singleton.mp same]
        exact ⟨range, mem_append_left _ mem', first⟩
      intro line
      rw [both]
      simp only [mem_append, mem_singleton, or_and_right, exists_or, exists_eq_left, or_assoc]
      apply or_congr_right
      unfold Holds
      simp only
      omega
    rename_i apart'
    refine ⟨pairwise_append.mpr ⟨pairwise_append.mpr
      ⟨apart, pairwise_singleton _ _, before⟩, pairwise_singleton _ _, ?_⟩, ?_, ?_⟩
    · intro other mem added same
      rw [mem_singleton.mp same]
      rcases mem_append.mp mem with old | same'
      · have earlier := before other old block mem_cons_self
        unfold Before at earlier ⊢
        omega
      rw [mem_singleton.mp same']
      unfold Before
      omega
    · intro other mem
      rcases mem_append.mp mem with old | same
      · obtain ⟨range, mem', first⟩ := starts other old
        exact ⟨range, mem_append_left _ mem', first⟩
      · rw [mem_singleton.mp same]
        exact ⟨last, by simp, rfl⟩
    intro line
    rw [both]
    simp only [mem_append, mem_singleton, or_and_right, exists_or, exists_eq_left]

/-- No line is in two blocks. -/
theorem numbers_nodup {blocks : List Block} (apart : blocks.Pairwise Before) :
    (blocks.flatMap numbersOf).Nodup := by
  rw [nodup_flatMap]
  refine ⟨fun block _ => nodup_range', apart.imp ?_⟩
  intro first second before line mem mem'
  have early := mem_numbersOf.mp mem
  have late := mem_numbersOf.mp mem'
  unfold Before at before
  unfold Holds at early late
  omega

end Blocks

section Rendering

variable {lossy : Bytes → List Char} {regex : Regex} {content : Bytes} {chosen : List Chosen}
variable {window : Window} {line : Nat}

/-- The number of a row's line that shows a match. The number of a context line is followed by a
dash. -/
def matchNumber (line : List Char) : Option Nat :=
  let digits := line.takeWhile Char.isDigit
  if (line.drop digits.length).head? = some '-' then none else Text.parseNat 10 digits

def matchNumbers (groups : List GrepHitGroup) : List Nat :=
  (groups.flatMap GrepHitGroup.lines).filterMap matchNumber

theorem matchNumber_decimal (number : Nat) (rest : List Char)
    (ends : ∀ c, rest.head? = some c → c.isDigit = false) :
    matchNumber (Text.decimal number ++ rest) = if rest.head? = some '-' then none else some number := by
  have digits : (Text.decimal number ++ rest).takeWhile Char.isDigit = Text.decimal number := by
    rw [takeWhile_append_of_pos fun c mem => Text.isDigit_of_mem_decimal mem]
    cases rest with
    | nil => simp
    | cons c rest => rw [takeWhile_cons_of_neg (by simp [ends c rfl]), append_nil]
  simp only [matchNumber, digits, drop_left, Text.parseNat_decimal]

/-- The line of a hit without context. -/
def plainLine (withhold : Bool) (hit : Chosen) : List Char :=
  if withhold then Text.decimal hit.1.line else Text.decimal hit.1.line ++ ':' :: ' ' :: hit.1.text

theorem lines_addLine (symbol : Option String) (line : List Char) (groups : List GrepHitGroup) :
    (addLine symbol line groups).flatMap GrepHitGroup.lines =
      groups.flatMap GrepHitGroup.lines ++ [line] := by
  unfold addLine
  rcases eq_nil_or_concat groups with rfl | ⟨init, group, rfl⟩
  · rfl
  rw [concat_eq_append, getLast?_concat, dropLast_concat]
  simp only
  split
  · simp
  · simp

theorem lines_plain (withhold : Bool) :
    (plain chosen withhold).flatMap GrepHitGroup.lines = chosen.map (plainLine withhold) := by
  induction chosen using List.reverseRecOn with
  | nil => rfl
  | append_singleton before last ih =>
    unfold plain at ih ⊢
    rw [foldl_append, foldl_cons, foldl_nil, lines_addLine, ih, map_append]
    rfl

theorem matchNumbers_plain (withhold : Bool) :
    matchNumbers (plain chosen withhold) = chosen.map fun hit => hit.1.line := by
  rw [matchNumbers, lines_plain, filterMap_map]
  have each (hit : Chosen) : (matchNumber ∘ plainLine withhold) hit = some hit.1.line := by
    unfold plainLine
    rw [Function.comp_apply]
    cases withhold with
    | true =>
      have shown := matchNumber_decimal hit.1.line [] (fun _ impossible => by simp at impossible)
      simpa using shown
    | false =>
      have shown := matchNumber_decimal hit.1.line (':' :: ' ' :: hit.1.text)
        (fun c same => by
          obtain rfl := Option.some.inj same
          decide)
      simpa using shown
  rw [funext each, filterMap_eq_map']

/-- The ranges around the chosen hits, in the order of their starts. -/
def contextRanges (content : Bytes) (chosen : List Chosen) (window : Window) : List Block :=
  ((chosen.filter fun hit => hit.1.line ≤ (textLines content).length).map fun hit =>
    let range := window.around hit.1.line hit.2 (textLines content).length
    (range.1, range.2, hit.2.map Enclosing.name)).mergeSort fun first second =>
      first.1 < second.1 || first.1 = second.1 && first.2.1 ≤ second.2.1

def contextBlocks (content : Bytes) (chosen : List Chosen) (window : Window) : List Block :=
  mergeBlocks (contextRanges content chosen window)

def rawLine (content : Bytes) (number : Nat) : Bytes :=
  withoutLast carriageReturn (((textLines content)[number - 1]?).getD [])

/-- The line matches without the lines around it. -/
def matchesAlone (regex : Regex) (content : Bytes) (number : Nat) : Bool :=
  (regex.findAt (rawLine content number) 0).isSome

def contextLine (lossy : Bytes → List Char) (regex : Regex) (content : Bytes) (number : Nat) : List Char :=
  let text := verbatim lossy (rawLine content number)
  Text.decimal number ++ (if matchesAlone regex content number then ':' else '-') ::
    if text = [] then [] else ' ' :: text

theorem withContext_eq : withContext lossy regex content chosen window =
    ((contextBlocks content chosen window).map fun block =>
        ⟨block.2.2, (numbersOf block).map (contextLine lossy regex content)⟩,
      ListSet.empty.extend (((contextBlocks content chosen window).flatMap numbersOf).filter
        (matchesAlone regex content))) := rfl

/-- The line is in the window around a chosen hit. -/
def InWindow (content : Bytes) (chosen : List Chosen) (window : Window) (line : Nat) : Prop :=
  ∃ hit ∈ chosen, hit.1.line ≤ (textLines content).length ∧
    (window.around hit.1.line hit.2 (textLines content).length).1 ≤ line ∧
    line ≤ (window.around hit.1.line hit.2 (textLines content).length).2

theorem contextBlocks_spec : ((contextBlocks content chosen window).flatMap numbersOf).Nodup ∧
    ∀ line, line ∈ (contextBlocks content chosen window).flatMap numbersOf ↔
      InWindow content chosen window line := by
  have sorted : (contextRanges content chosen window).Pairwise
      fun first second => first.1 ≤ second.1 := by
    refine (pairwise_mergeSort ?_ ?_ _).imp ?_
    · intro first second third
      simp only [Bool.or_eq_true, Bool.and_eq_true, decide_eq_true_eq]
      omega
    · intro first second
      simp only [Bool.or_eq_true, Bool.and_eq_true, decide_eq_true_eq]
      omega
    intro first second before
    simp only [Bool.or_eq_true, Bool.and_eq_true, decide_eq_true_eq] at before
    omega
  obtain ⟨apart, -, holds⟩ := mergeBlocks_spec sorted
  refine ⟨numbers_nodup apart, fun line => ?_⟩
  simp only [mem_flatMap, mem_numbersOf]
  refine (holds line).trans ?_
  simp only [contextRanges, mem_mergeSort, mem_map, mem_filter, decide_eq_true_eq]
  constructor
  · rintro ⟨range, ⟨hit, ⟨mem, inside⟩, rfl⟩, first, last⟩
    exact ⟨hit, mem, inside, first, last⟩
  · rintro ⟨hit, mem, inside, first, last⟩
    exact ⟨_, ⟨hit, ⟨mem, inside⟩, rfl⟩, first, last⟩

theorem matchNumbers_withContext : matchNumbers (withContext lossy regex content chosen window).1 =
      ((contextBlocks content chosen window).flatMap numbersOf).filter
        (matchesAlone regex content) := by
  have lines : (withContext lossy regex content chosen window).1.flatMap GrepHitGroup.lines =
      ((contextBlocks content chosen window).flatMap numbersOf).map
        (contextLine lossy regex content) := by
    rw [withContext_eq, flatMap_map, map_flatMap]
  rw [matchNumbers, lines, filterMap_map, ← filterMap_eq_filter]
  congr 1
  funext number
  rw [Function.comp_apply]
  rw [contextLine, matchNumber_decimal]
  · cases alone : matchesAlone regex content number <;> simp [Option.guard, alone]
  · intro c same
    obtain rfl := Option.some.inj same
    split <;> decide

end Rendering

/-- The lines that a row shows as matches and those it lists as sent are different matching lines,
and the rest is counted. -/
structure RowExact (matching : List Nat) (row : GrepFileRow) : Prop where
  shown : (matchNumbers row.hits).Nodup ∧ ∀ line ∈ matchNumbers row.hits, line ∈ matching
  listed : row.alreadySent.Nodup ∧ ∀ line ∈ row.alreadySent, line ∈ matching
  disjoint : ∀ line ∈ matchNumbers row.hits, line ∉ row.alreadySent
  counted : row.count = some matching.length
  total : row.count = some ((matchNumbers row.hits).length + row.alreadySent.length + row.more)

/-- The contents that the lines around the hits are read from. -/
def contextOf (page : Page) (candidate : Candidate) (chosen : List Chosen) (withhold : Bool)
    (source : PageSource) : Option Bytes :=
  if !withhold && !page.window.isEmpty && chosen ≠ [] then source.read candidate.path else none

/-- The line is a chosen hit or, with context, matches alone in a window. -/
def Shows (page : Page) (candidate : Candidate) (chosen : List Chosen) (withhold : Bool)
    (source : PageSource) (line : Nat) : Prop :=
  match contextOf page candidate chosen withhold source with
  | none => ∃ hit ∈ chosen, hit.1.line = line
  | some content => InWindow content chosen page.window line ∧ matchesAlone page.regex content line

section Rows

variable {matching sent : List Nat} {row : GrepFileRow}

theorem rowExact_iff (distinct : matching.Nodup) (within : sent.Sublist matching)
    (hits : (matchNumbers row.hits).Nodup) (count : row.count = some matching.length)
    (listed : row.alreadySent = (sent.take maxSentListed).filter fun line => line ∉ matchNumbers row.hits)
    (more : row.more = matching.length - ((matchNumbers row.hits).length +
      (sent.length - ((sent.take maxSentListed).length - row.alreadySent.length)))) :
    RowExact matching row ↔ (∀ line ∈ matchNumbers row.hits, line ∈ matching) ∧
        (sent.length ≤ maxSentListed ∨
          ∀ line ∈ matching, line ∈ matchNumbers row.hits ∨ line ∈ sent.take maxSentListed) := by
  have first : (sent.take maxSentListed).Sublist matching := (take_sublist _ _).trans within
  have part := listed ▸ filter_sublist.trans first
  have apart : ∀ line ∈ matchNumbers row.hits, line ∉ row.alreadySent := by
    intro line mem impossible
    rw [listed, mem_filter] at impossible
    simp [mem] at impossible
  have shorter := listed ▸ length_filter_le _ _
  have limit : (sent.take maxSentListed).length = min maxSentListed sent.length := length_take
  have both := hits.append (distinct.sublist part) apart
  -- A row whose lines are matching lines leaves none out exactly if it has as many.
  have all (shown : ∀ line ∈ matchNumbers row.hits, line ∈ matching) :
      (matchNumbers row.hits).length + row.alreadySent.length ≤ matching.length ∧
        (matching.length ≤ (matchNumbers row.hits).length + row.alreadySent.length ↔
          ∀ line ∈ matching, line ∈ matchNumbers row.hits ∨ line ∈ sent.take maxSentListed) := by
    have subperm : (matchNumbers row.hits ++ row.alreadySent).Subperm matching := by
      apply subperm_of_subset both
      intro line mem
      exact (mem_append.mp mem).elim (shown line) (fun held => part.subset held)
    have mem (line : Nat) : line ∈ matchNumbers row.hits ++ row.alreadySent ↔
        line ∈ matchNumbers row.hits ∨ line ∈ sent.take maxSentListed := by
      rw [mem_append, listed, mem_filter]
      by_cases held : line ∈ matchNumbers row.hits <;> simp [held]
    rw [← length_append]
    refine ⟨subperm.length_le, ?_, ?_⟩
    · intro enough line held
      exact (mem line).mp ((subperm.perm_of_length_le enough).mem_iff.mpr held)
    intro covered
    exact (subperm_of_subset distinct fun line held => (mem line).mpr (covered line held)).length_le
  constructor
  · intro exact'
    obtain ⟨fits, rest⟩ := all exact'.shown.2
    refine ⟨exact'.shown.2, ?_⟩
    have total := exact'.total
    rw [count, Option.some.injEq] at total
    rw [← rest]
    omega
  rintro ⟨shown, covered⟩
  obtain ⟨fits, rest⟩ := all shown
  refine ⟨⟨hits, shown⟩, ⟨distinct.sublist part, fun line held => part.subset held⟩, apart, count, ?_⟩
  rw [count, Option.some.injEq]
  rw [← rest] at covered
  omega

end Rows

section Main

variable {page : Page} {query : Query} {index room : Nat} {candidate : Candidate} {buf : Bytes}
variable {hits : FileHits} {withhold : Bool} {source : PageSource}

/-- The chosen hits are some of those that the search has kept. -/
theorem choose_lines (hits : List Hit) (path : String) :
    ((page.choose hits room path source).map fun hit => hit.1.line).Subperm
      (hits.map Hit.line) := by
  unfold Page.choose
  simp only
  split
  · exact nil_subperm
  have paired : ((hits.map fun hit => (hit, source.enclosing path hit.line)).map
      fun (hit : Chosen) => hit.1.line) = hits.map Hit.line := by
    rw [map_map]
    rfl
  rw [← paired]
  refine ((mergeSort_perm _ _).map _).subperm.trans ?_
  exact ((take_sublist _ _).map _).subperm.trans ((mergeSort_perm _ _).map _).subperm

/-- A row of a file with matches is exact exactly if it shows no line that the search has not
reported, and the session holds at most as many matching lines as are listed or no matching line
is left out. -/
theorem linesRow_exact_iff (page : Page) (query : Query) (index room : Nat) (candidate : Candidate)
    (buf : Bytes) (hits : FileHits) (withhold : Bool) (source : PageSource)
    (lawful : query.regex.Lawful) (found : searchFile query index candidate buf = some hits) :
    let chosen := page.choose hits.hits room candidate.path source
    let shows := Shows page candidate chosen withhold source
    RowExact (matchingLines query.regex buf)
        (page.linesRow candidate hits chosen withhold source) ↔
      (∀ line, shows line → line ∈ matchingLines query.regex buf) ∧
        ((sentLines query candidate buf).length ≤ maxSentListed ∨ ∀ line ∈ matchingLines query.regex buf,
            shows line ∨ line ∈ (sentLines query candidate buf).take maxSentListed) := by
  intro chosen shows
  obtain ⟨count, total, listed, kept⟩ := searchFile_lines found
  have distinct := @matchingLines_nodup query.regex buf lawful
  have within : (sentLines query candidate buf).Sublist (matchingLines query.regex buf) :=
    filter_sublist
  have chosenLines : (chosen.map fun hit => hit.1.line).Subperm
      ((matchingLines query.regex buf).filter
        fun line => !covers (sentRangesOf query candidate buf) line) :=
    (choose_lines hits.hits candidate.path).trans kept
  have unfolded : page.linesRow candidate hits chosen withhold source =
      match contextOf page candidate chosen withhold source with
      | none =>
        { file := candidate.path
          count := some hits.count
          more := hits.count - (chosen.length + hits.sentTotal)
          hits := plain chosen withhold
          alreadySent := hits.sent }
      | some content =>
        let rendered := withContext page.lossy page.regex content chosen page.window
        let alreadySent := hits.sent.filter fun line => line ∉ rendered.2.members
        let sentTotal := hits.sentTotal - (hits.sent.length - alreadySent.length)
        { file := candidate.path
          count := some hits.count
          more := hits.count - (rendered.2.size + sentTotal)
          hits := rendered.1
          alreadySent := alreadySent } := rfl
  rw [unfolded]
  cases context : contextOf page candidate chosen withhold source with
  | none =>
    have showing (line : Nat) : line ∈ matchNumbers (plain chosen withhold) ↔ shows line := by
      rw [matchNumbers_plain]
      simp only [shows, Shows, context, mem_map]
    have unlisted : (hits.sent.filter fun line => line ∉ matchNumbers (plain chosen withhold)) =
        hits.sent := by
      rw [filter_eq_self]
      intro line held
      rw [matchNumbers_plain, decide_eq_true_eq]
      intro shown
      have unsent := chosenLines.subset shown
      rw [listed] at held
      have sent := (take_sublist _ _).subset held
      unfold sentLines at sent
      simp only [mem_filter] at sent unsent
      simp [sent.2] at unsent
    simp only
    rw [@rowExact_iff (matchingLines query.regex buf) (sentLines query candidate buf) _ distinct
      within]
    · simp only [showing]
    · rw [matchNumbers_plain]
      obtain ⟨lines, perm, part⟩ := chosenLines
      exact perm.nodup_iff.mp ((distinct.filter _).sublist part)
    · rw [count]
    · rw [← listed, unlisted]
    · rw [matchNumbers_plain, length_map, count, total, ← listed, Nat.sub_self, Nat.sub_zero]
  | some content =>
    obtain ⟨separate, inWindow⟩ := @contextBlocks_spec content chosen page.window
    have numbers := @matchNumbers_withContext page.lossy page.regex content chosen page.window
    have showing (line : Nat) :
        line ∈ matchNumbers (withContext page.lossy page.regex content chosen page.window).1 ↔
          shows line := by
      rw [numbers]
      simp only [shows, Shows, context, mem_filter, inWindow]
    have nodup : (matchNumbers
        (withContext page.lossy page.regex content chosen page.window).1).Nodup := by
      rw [numbers]
      exact separate.filter _
    have members (line : Nat) :
        line ∈ (withContext page.lossy page.regex content chosen page.window).2.members ↔
          line ∈ matchNumbers
            (withContext page.lossy page.regex content chosen page.window).1 := by
      rw [numbers, withContext_eq]
      simp
    have size : (withContext page.lossy page.regex content chosen page.window).2.size = (matchNumbers
          (withContext page.lossy page.regex content chosen page.window).1).length :=
      ((perm_ext_iff_of_nodup (ListSet.nodup _) nodup).mpr members).length_eq
    simp only
    rw [@rowExact_iff (matchingLines query.regex buf) (sentLines query candidate buf) _ distinct
      within]
    · simp only [showing]
    · exact nodup
    · rw [count]
    · simp only [members, listed]
    · simp only [size, count, total, listed]

end Main

/-- A pattern that matches one byte. -/
def byteRegex (byte : UInt8) : Regex where
  findAt buf pos :=
    if pos ≤ buf.length then
      ((buf.drop pos).findIdx? (· = byte)).map fun offset => (pos + offset, pos + offset + 1)
    else none

theorem byteRegex_lawful (byte : UInt8) : (byteRegex byte).Lawful := by
  intro buf pos start stop found
  unfold byteRegex at found
  simp only at found
  split at found
  · obtain ⟨offset, here, same⟩ := Option.map_eq_some_iff.mp found
    obtain ⟨rfl, rfl⟩ := Prod.mk.inj same
    obtain ⟨inside, -⟩ := findIdx?_eq_some_iff_getElem.mp here
    rw [length_drop] at inside
    omega
  · contradiction

/-- A file of lines that all match. -/
def marks (count : Nat) : Bytes := (List.replicate count [120, newline]).flatten

/-- A search of a session that was sent the first lines of the file. -/
def marksQuery (sent : Nat) : Query where
  regex := byteRegex 120
  lossy := fun bytes => bytes.map fun byte => Char.ofNat byte.toNat
  fingerprint := fun _ => "marks"
  maxPerFile := 5
  sent := ⟨Dict.ofList [("marks.txt", [("marks", [(1, sent)])])]⟩

def marksPage : Page where
  candidates := [⟨"marks.txt", {}⟩]
  cursor := Cursor.first
  mode := .lines
  limit := 10
  maxPerFile := 5
  window := {}
  regex := byteRegex 120
  lossy := fun bytes => bytes.map fun byte => Char.ofNat byte.toNat
  rules := ⟨fun _ => false, fun _ => false, fun _ => false, fun _ _ => false⟩
  jsonLen := fun _ => 0
  budget := 1000
  key := []

def marksSource : PageSource := ⟨fun _ _ => none, fun _ => none⟩

/-- Two lines match, the session holds the first one, and the second one is shown. -/
theorem second_mark_exact : RowExact (matchingLines (marksQuery 1).regex (marks 2))
      (marksPage.linesRow ⟨"marks.txt", {}⟩ ⟨0, 2, 2, [⟨2, ['x'], false⟩], [1], 1⟩
        (marksPage.choose [⟨2, ['x'], false⟩] 5 "marks.txt" marksSource) false marksSource) := by
  refine (linesRow_exact_iff marksPage (marksQuery 1) 0 5 ⟨"marks.txt", {}⟩ (marks 2)
    ⟨0, 2, 2, [⟨2, ['x'], false⟩], [1], 1⟩ false marksSource (byteRegex_lawful 120)
    (by decide +kernel)).mpr ⟨?_, .inl (by decide +kernel)⟩
  rintro line ⟨hit, mem, rfl⟩
  have kept := (@choose_lines marksPage 5 marksSource [⟨2, ['x'], false⟩] "marks.txt").subset
    (mem_map_of_mem mem)
  rw [mem_singleton.mp kept]
  decide +kernel

/-- The session holds all lines of a file with one more line than is listed. -/
theorem last_mark_lost : searchFile (marksQuery 21) 0 ⟨"marks.txt", {}⟩ (marks 21) =
        some ⟨0, 21, 21, [], List.range' 1 20, 21⟩ ∧
      ¬RowExact (matchingLines (marksQuery 21).regex (marks 21))
        (marksPage.linesRow ⟨"marks.txt", {}⟩ ⟨0, 21, 21, [], List.range' 1 20, 21⟩
          (marksPage.choose [] 5 "marks.txt" marksSource) false marksSource) := by
  refine ⟨by decide +kernel, fun row => ?_⟩
  have total := row.total
  revert total
  decide +kernel

end Codegraph.Grep
