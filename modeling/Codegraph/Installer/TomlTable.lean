import Codegraph.Library.TextRows

namespace Codegraph.Installer

open Library Text List

inductive TomlValue where
  | string (text : List Char)
  | array (items : List (List Char))

def replaceChar (c : Char) (replacement text : List Char) : List Char :=
  text.flatMap fun d => if d = c then replacement else [d]

/-- Backslashes and double quotes are escaped. -/
def quoteString (text : List Char) : List Char :=
  '"' :: replaceChar '"' ['\\', '"'] (replaceChar '\\' ['\\', '\\'] text) ++ ['"']

def serializeValue : TomlValue → List Char
  | .string text => quoteString text
  | .array items => '[' :: [',', ' '].intercalate (items.map quoteString) ++ [']']

def serializeEntry (entry : List Char × TomlValue) : List Char :=
  entry.1 ++ [' ', '=', ' '] ++ serializeValue entry.2

def serializeTomlTableBody (values : List (List Char × TomlValue)) : List Char :=
  ['\n'].intercalate (values.map serializeEntry)

def headerLine (header : List Char) : List Char := '[' :: header ++ [']']

/-- The header line and the body. -/
def buildTomlTable (header : List Char) (values : List (List Char × TomlValue)) : List Char :=
  headerLine header ++ '\n' :: serializeTomlTableBody values

inductive TomlUpsertAction where
  | inserted
  | replaced
  | unchanged
deriving DecidableEq

inductive TomlRemoveAction where
  | removed
  | notFound
deriving DecidableEq

/-- The header stands at the beginning or after a line break. -/
def findHeaderIndex (content headerLine : List Char) : Option Nat :=
  if headerLine.isPrefixOf content then some 0
  else (findText ('\n' :: headerLine) content).map (· + 1)

/-- The headers of arrays of tables are skipped. -/
def nextTableHeader (content : List Char) : Nat → Nat → Nat
  | 0, _ => content.length
  | fuel + 1, index =>
    if index < content.length then
      match findText ['\n', '['] (content.drop index) with
      | none => content.length
      | some offset =>
        if content[index + offset + 2]? = some '[' then nextTableHeader content fuel (index + offset + 2)
        else index + offset + 1
    else content.length

/-- Every step moves on, so that the length is enough fuel. -/
def findNextTableHeader (content : List Char) (start : Nat) : Nat :=
  nextTableHeader content content.length start

def isNewline (c : Char) : Bool := c = '\n'

/-- The table goes to the end, or it takes the place of the one with its header. -/
def upsertTomlTable (content header block : List Char) : List Char × TomlUpsertAction :=
  match findHeaderIndex content (headerLine header) with
  | none =>
    let trimmed := trimEnd content
    let sep := if trimmed = [] then [] else ['\n', '\n']
    (trimmed ++ sep ++ block ++ ['\n'], .inserted)
  | some headerIdx =>
    let blockEnd := findNextTableHeader content (headerIdx + (headerLine header).length)
    let existingBlock := trimEndMatches isNewline ((content.take blockEnd).drop headerIdx)
    if existingBlock = block then (content, .unchanged)
    else
      let beforeClean := trimEndMatches isNewline (content.take headerIdx)
      let afterClean := (content.drop blockEnd).dropWhile isNewline
      let sepBefore := if beforeClean = [] then [] else ['\n', '\n']
      let sepAfter := if afterClean = [] then ['\n'] else ['\n', '\n']
      (beforeClean ++ sepBefore ++ block ++ sepAfter ++ afterClean, .replaced)

def removeTomlTable (content header : List Char) : List Char × TomlRemoveAction :=
  match findHeaderIndex content (headerLine header) with
  | none => (content, .notFound)
  | some headerIdx =>
    let blockEnd := findNextTableHeader content (headerIdx + (headerLine header).length)
    let before := trimEndMatches isNewline (content.take headerIdx)
    let after := (content.drop blockEnd).dropWhile isNewline
    let sep := if before = [] ∨ after = [] then [] else ['\n', '\n']
    (before ++ sep ++ after, .removed)

section Scans

/-- A single bracket starts a table. -/
def startsTable (text : List Char) : Bool := text.head? = some '[' && text[1]? ≠ some '['

theorem firstRow_startsTable : FirstRow startsTable where
  empty := rfl
  row row rest plain := by
    cases row with
    | nil => rfl
    | cons c row =>
      cases row with
      | nil => simp [startsTable]
      | cons d row => rfl

/-- The place of the next table, counted one by one. -/
def nextOffset : List Char → Nat
  | [] => 0
  | c :: text => if c = '\n' ∧ startsTable text = true then 1 else nextOffset text + 1

theorem nextOffset_plain {c : Char} {text : List Char} (none : ¬(c = '\n' ∧ startsTable text = true)) :
    nextOffset (c :: text) = nextOffset text + 1 := if_neg none

/-- A table is found where a bracket follows a break. -/
theorem nextOffset_findText (text : List Char) :
    match findText ['\n', '['] text with
    | none => nextOffset text = text.length
    | some offset => offset + 2 ≤ text.length ∧ nextOffset text =
        if text[offset + 2]? = some '[' then offset + 2 + nextOffset (text.drop (offset + 2)) else offset + 1 := by
  induction text with
  | nil => rfl
  | cons c text ih =>
    rw [findText]
    by_cases found : ['\n', '['].isPrefixOf (c :: text) = true
    · rw [if_pos found]
      obtain ⟨rest, same⟩ := isPrefixOf_iff_prefix.mp found
      have front : c = '\n' ∧ text = '[' :: rest := ⟨(List.cons.inj same).1.symm, (List.cons.inj same).2.symm⟩
      obtain ⟨rfl, rfl⟩ := front
      refine ⟨by simp, ?_⟩
      cases rest with
      | nil => rfl
      | cons d rest =>
        by_cases double : d = '['
        · subst double
          rw [nextOffset_plain (by simp [startsTable]), nextOffset_plain (by simp)]
          simp
          omega
        · rw [nextOffset, if_pos (by simp [startsTable, double])]
          simp [double]
    rw [if_neg found]
    have skip : nextOffset (c :: text) = nextOffset text + 1 := by
      refine nextOffset_plain fun both => found ?_
      obtain ⟨rfl, starts⟩ := both
      cases text with
      | nil => cases starts
      | cons d text =>
        simp only [startsTable, head?_cons, Bool.and_eq_true, decide_eq_true_eq,
          Option.some.injEq] at starts
        rw [starts.1]
        rfl
    rw [skip]
    cases here : findText ['\n', '['] text with
    | none =>
      rw [here] at ih
      exact congrArg (· + 1) ih
    | some offset =>
      rw [here] at ih
      obtain ⟨inside, next⟩ := ih
      refine ⟨by simpa using inside, ?_⟩
      rw [next]
      simp only [getElem?_cons_succ, drop_succ_cons]
      split <;> omega

/-- The jumps from bracket to bracket miss no table. -/
theorem nextTableHeader_eq (content : List Char) (fuel index : Nat) (inside : index ≤ content.length)
    (enough : content.length ≤ fuel + index) :
    nextTableHeader content fuel index = index + nextOffset (content.drop index) := by
  induction fuel generalizing index with
  | zero =>
    rw [drop_eq_nil_of_le (by omega), nextTableHeader, nextOffset]
    omega
  | succ fuel ih =>
    have spec := nextOffset_findText (content.drop index)
    have length := length_drop (i := index) (l := content)
    rw [nextTableHeader]
    split
    · cases found : findText ['\n', '['] (content.drop index) with
      | none =>
        rw [found] at spec
        change content.length = _
        omega
      | some offset =>
        rw [found] at spec
        obtain ⟨fits, next⟩ := spec
        rw [next, getElem?_drop]
        change (if content[index + offset + 2]? = some '[' then _ else _) = _
        rw [← add_assoc]
        split
        · rw [ih _ (by omega) (by omega), drop_drop, ← add_assoc, ← add_assoc]
        · omega
    rename_i ended
    rw [drop_eq_nil_of_le (by omega), nextOffset]
    omega

theorem nextOffset_cut {before after : List Char}
    (absent : ∀ row ∈ (rows before).tail, startsTable row = false)
    (ending : after = [] ∨ Closed before ∧ startsTable after = true) (some' : before ≠ [] ∨ after = []) :
    nextOffset (before ++ after) = before.length := by
  induction before with
  | nil =>
    rw [some'.resolve_left fun nonempty => nonempty rfl]
    rfl
  | cons c before ih =>
    have here := firstRow_startsTable.offset absent ending
    by_cases found : c = '\n' ∧ startsTable (before ++ after) = true
    · obtain ⟨-, rfl, -⟩ := here.mp found
      exact if_pos found
    rw [cons_append, nextOffset_plain found, length_cons]
    cases before with
    | nil =>
      have empty : after = [] := by
        by_contra follows
        rcases ending with nothing | ⟨closed, -⟩
        · exact follows nothing
        · exact found (here.mpr ⟨closed c rfl, rfl, follows⟩)
      rw [empty]
      rfl
    | cons d before =>
      rw [ih (FirstRow.none_tail absent) (FirstRow.ending_tail ending)
        (.inl (cons_ne_nil d before))]

theorem findHeaderIndex_cut {line before after : List Char} (plain : '\n' ∉ line) (nonempty : line ≠ [])
    (absent : ∀ row ∈ rows before, line.isPrefixOf row = false)
    (ending : after = [] ∨ Closed before ∧ line.isPrefixOf after = true) :
    findHeaderIndex (before ++ after) line = if after = [] then none else some before.length := by
  have firstRow := firstRow_prefix plain nonempty
  unfold findHeaderIndex
  cases before with
  | nil =>
    rcases ending with rfl | ⟨-, starts⟩
    · rw [if_pos rfl, if_neg (by rw [nil_append, firstRow.empty]; decide)]
      rfl
    have follows : after ≠ [] := fun nothing => by
      rw [nothing, firstRow.empty] at starts
      cases starts
    rw [if_neg follows, nil_append, if_pos starts]
    rfl
  | cons c before =>
    have first : line.isPrefixOf (c :: before ++ after) = false := by
      obtain ⟨row, later, same⟩ := exists_cons_of_ne_nil (rows_ne_nil (cons_ne_nil c before))
      have whole : rows (c :: before ++ after) = row :: (later ++ rows after) := by
        rcases ending with rfl | ⟨closed, -⟩
        · rw [append_nil, same]
          exact congrArg _ (append_nil _).symm
        · rw [rows_append closed, same, cons_append]
      rw [← firstRow.head whole]
      exact absent row (by rw [same]; exact mem_cons_self)
    rw [if_neg (by rw [first]; decide), findText_cut plain nonempty (cons_ne_nil c before)
      (fun row mem => absent row (mem_of_mem_tail mem)) ending]
    split
    · rfl
    · simp

end Scans

section Located

/-- The table with the header is between the lines before it and the next table. -/
structure Located (content header before table after : List Char) : Prop where
  whole : content = before ++ table ++ after
  closed : Closed before
  absent : ∀ row ∈ rows before, (headerLine header).isPrefixOf row = false
  starts : (headerLine header).isPrefixOf table = true
  inner : ∀ row ∈ (rows table).tail, startsTable row = false
  ending : after = [] ∨ Closed table ∧ startsTable after = true

theorem headerLine_ne_nil (header : List Char) : headerLine header ≠ [] := cons_ne_nil _ _

theorem headerLine_plain {header : List Char} (plain : '\n' ∉ header) : '\n' ∉ headerLine header := by
  simp [headerLine, plain]

variable {content header before table after : List Char}

theorem exists_located (plain : '\n' ∉ header) (content : List Char) :
    (∀ row ∈ rows content, (headerLine header).isPrefixOf row = false) ∨
      ∃ before table after, Located content header before table after := by
  have firstRow := firstRow_prefix (headerLine_plain plain) (headerLine_ne_nil header)
  obtain ⟨before, rest, rfl, absent, rfl | ⟨closed, starts⟩⟩ := firstRow.exists_cut content
  · rw [append_nil]
    exact .inl absent
  right
  have nonempty : rest ≠ [] := fun nothing => by
    rw [nothing, firstRow.empty] at starts
    cases starts
  obtain ⟨row, later, same⟩ := exists_cons_of_ne_nil (rows_ne_nil nonempty)
  have own := firstRow.head same
  rw [starts] at own
  obtain ⟨whole, ⟨rfl, rfl⟩ | ⟨others, rfl, rfl⟩⟩ := rows_eq_cons same
  · refine ⟨before, rest, [], by simp, closed, absent, starts, ?_, .inl rfl⟩
    rw [same]
    exact fun row mem => nomatch mem
  obtain ⟨inside, after, rfl, inner, ending⟩ := firstRow_startsTable.exists_cut others
  refine ⟨before, row ++ '\n' :: inside, after, by simp, closed, absent, ?_, ?_,
    ending.imp id fun found => ⟨?_, found.2⟩⟩
  · rwa [firstRow.row row inside whole]
  · rwa [rows_line whole]
  have closed' := (closed_concat row).append found.1
  rw [append_assoc] at closed'
  exact closed'

theorem Located.findHeaderIndex (located : Located content header before table after)
    (plain : '\n' ∉ header) :
    findHeaderIndex content (headerLine header) = some before.length := by
  have nonempty : table ≠ [] := fun nothing => by
    have starts := located.starts
    rw [nothing] at starts
    cases starts
  have starts : (headerLine header).isPrefixOf (table ++ after) = true :=
    isPrefixOf_iff_prefix.mpr
      (( isPrefixOf_iff_prefix.mp located.starts).trans (prefix_append _ _))
  rw [located.whole, append_assoc, findHeaderIndex_cut (headerLine_plain plain)
    (headerLine_ne_nil header) located.absent (.inr ⟨located.closed, starts⟩), if_neg (by simp [nonempty])]

theorem tail_rows_line {line : List Char} (plain : '\n' ∉ line) (rest : List Char) :
    (rows (line ++ rest)).tail = (rows rest).tail := by
  induction line with
  | nil => rfl
  | cons c line ih =>
    rw [mem_cons, not_or] at plain
    rw [cons_append, tail_rows_cons (Ne.symm plain.1), ih plain.2]

section

variable (located : Located content header before table after)
include located

theorem Located.findNextTableHeader (plain : '\n' ∉ header) :
    findNextTableHeader content (before.length + (headerLine header).length) = (before ++ table).length := by
  obtain ⟨rest, rfl⟩ := isPrefixOf_iff_prefix.mp located.starts
  have whole : content = (before ++ headerLine header) ++ (rest ++ after) := by
    rw [located.whole]
    simp
  have inner := located.inner
  rw [tail_rows_line (headerLine_plain plain)] at inner
  have some' : rest ≠ [] ∨ after = [] := by
    rcases located.ending with nothing | ⟨closed, -⟩
    · exact .inr nothing
    left
    rintro rfl
    have last : (headerLine header ++ []).getLast? = some ']' := by
      rw [append_nil]
      exact getLast?_concat
    exact absurd (closed ']' last) (by decide)
  have ending : after = [] ∨ Closed rest ∧ startsTable after = true := by
    refine located.ending.imp id fun found => ⟨fun c last => found.1 c ?_, found.2⟩
    rw [getLast?_append, last]
    rfl
  have next := nextOffset_cut inner ending some'
  rw [Installer.findNextTableHeader, nextTableHeader_eq content content.length _ (by rw [whole]; simp)
    (by omega)]
  rw [whole, ← length_append, drop_left, next]
  simp [add_assoc]

theorem Located.after_clean : after.dropWhile isNewline = after := by
  rcases located.ending with rfl | ⟨-, starts⟩
  · rfl
  cases after with
  | nil => rfl
  | cons c after =>
    have bracket : c = '[' := by
      simp [startsTable] at starts
      exact starts.1
    rw [bracket]
    rfl

theorem Located.parts : content.take before.length = before ∧ content.drop (before ++ table).length = after ∧
      (content.take (before ++ table).length).drop before.length = table := by
  refine ⟨?_, ?_, ?_⟩
  · rw [located.whole, append_assoc, take_left]
  · rw [located.whole, drop_left]
  · rw [located.whole, take_left, drop_left]

end

def separator (before : List Char) : List Char := if before = [] then [] else ['\n', '\n']

theorem Located.upsert (located : Located content header before table after) (plain : '\n' ∉ header)
    (block : List Char) :
    upsertTomlTable content header block =
      if trimEndMatches isNewline table = block then (content, .unchanged)
      else
        (trimEndMatches isNewline before ++ separator (trimEndMatches isNewline before) ++ block ++
          (if after = [] then ['\n'] else ['\n', '\n']) ++ after, .replaced) := by
  obtain ⟨front, back, middle⟩ := located.parts
  rw [upsertTomlTable, located.findHeaderIndex plain]
  dsimp only
  rw [located.findNextTableHeader plain, middle, front, back, located.after_clean]
  rfl

theorem Located.remove (located : Located content header before table after) (plain : '\n' ∉ header) :
    removeTomlTable content header = (trimEndMatches isNewline before ++
      (if trimEndMatches isNewline before = [] ∨ after = [] then [] else ['\n', '\n']) ++ after,
        .removed) := by
  obtain ⟨front, back, _⟩ := located.parts
  rw [removeTomlTable, located.findHeaderIndex plain]
  dsimp only
  rw [located.findNextTableHeader plain, front, back, located.after_clean]

theorem absent_edits (plain : '\n' ∉ header)
    (absent : ∀ row ∈ rows content, (headerLine header).isPrefixOf row = false) (block : List Char) :
    upsertTomlTable content header block =
        (trimEnd content ++ separator (trimEnd content) ++ block ++ ['\n'], .inserted) ∧
      removeTomlTable content header = (content, .notFound) := by
  have none' := findHeaderIndex_cut (headerLine_plain plain) (headerLine_ne_nil header) absent (.inl rfl)
  rw [append_nil, if_pos rfl] at none'
  rw [upsertTomlTable, removeTomlTable, none']
  exact ⟨rfl, rfl⟩

/-- The lines before the line with the header. -/
def beforeRows (content header : List Char) : List (List Char) :=
  (rows content).takeWhile fun row => !(headerLine header).isPrefixOf row

/-- The lines from the next table on. -/
def afterRows (content header : List Char) : List (List Char) :=
  ((rows content).dropWhile fun row => !(headerLine header).isPrefixOf row).tail.dropWhile
    fun row => !startsTable row

section

variable (located : Located content header before table after)
include located

theorem Located.rows_eq (plain : '\n' ∉ header) :
    beforeRows content header = rows before ∧ afterRows content header = rows after := by
  have firstRow := firstRow_prefix (headerLine_plain plain) (headerLine_ne_nil header)
  have starts : (headerLine header).isPrefixOf (table ++ after) = true :=
    isPrefixOf_iff_prefix.mpr
      (( isPrefixOf_iff_prefix.mp located.starts).trans (prefix_append _ _))
  obtain ⟨front, back⟩ := firstRow.cut_rows located.absent (.inr ⟨located.closed, starts⟩)
  rw [← append_assoc, ← located.whole] at front back
  refine ⟨front, ?_⟩
  rw [afterRows, back]
  have nonempty : rows table ≠ [] := rows_ne_nil fun nothing => by
    have starts := located.starts
    rw [nothing] at starts
    cases starts
  have kept : ∀ row ∈ (rows table).tail, (!startsTable row) = true := fun row mem => by
    rw [located.inner row mem]
    rfl
  rcases located.ending with rfl | ⟨closed, next⟩
  · rw [append_nil]
    exact dropWhile_eq_nil_iff.mpr kept
  rw [rows_append closed, tail_append_of_ne_nil nonempty, dropWhile_append_of_pos kept]
  exact (@FirstRow.cut_rows startsTable firstRow_startsTable [] after (by simp [rows])
    (.inr ⟨closed_nil, next⟩)).2

theorem Located.rows_append : rows content = rows before ++ rows table ++ rows after := by
  rw [located.whole, append_assoc, Text.rows_append located.closed, append_assoc]
  rcases located.ending with rfl | ⟨closed, -⟩
  · rw [append_nil]
    exact congrArg _ (append_nil _).symm
  · rw [Text.rows_append closed]

theorem Located.shownRows_append :
    shownRows content = shownRows before ++ shownRows table ++ shownRows after := by
  unfold shownRows shownLines
  rw [located.rows_append, map_append, map_append, filter_append, filter_append]

end

theorem absent_rows (absent : ∀ row ∈ rows content, (headerLine header).isPrefixOf row = false) :
    beforeRows content header = rows content ∧ afterRows content header = [] := by
  have kept : ∀ row ∈ rows content, (!(headerLine header).isPrefixOf row) = true := fun row mem => by
    rw [absent row mem]
    rfl
  refine ⟨takeWhile_eq_self_iff.mpr kept, ?_⟩
  rw [afterRows, dropWhile_eq_nil_iff.mpr kept]
  rfl

end Located

section Blocks

def TomlValue.texts : TomlValue → List (List Char)
  | .string text => [text]
  | .array items => items

/-- Neither the header nor a key nor a value has a line break, and no key starts with a bracket. -/
structure PlainTable (header : List Char) (values : List (List Char × TomlValue)) : Prop where
  header : '\n' ∉ header
  keys : ∀ entry ∈ values, '\n' ∉ entry.1 ∧ entry.1.head? ≠ some '['
  texts : ∀ entry ∈ values, ∀ text ∈ entry.2.texts, '\n' ∉ text

theorem plain_replaceChar {c : Char} {replacement text : List Char} (plain : '\n' ∉ replacement)
    (plain' : '\n' ∉ text) : '\n' ∉ replaceChar c replacement text := by
  rw [replaceChar, mem_flatMap]
  rintro ⟨d, mem, found⟩
  split at found
  · exact plain found
  · exact plain' (mem_singleton.mp found ▸ mem)

theorem plain_quoteString {text : List Char} (plain : '\n' ∉ text) : '\n' ∉ quoteString text := by
  have inside := @plain_replaceChar '"' ['\\', '"'] _ (by decide)
    (@plain_replaceChar '\\' ['\\', '\\'] text (by decide) plain)
  simp [quoteString, inside]

theorem plain_intercalate {sep : List Char} {texts : List (List Char)} (plain : '\n' ∉ sep)
    (plain' : ∀ text ∈ texts, '\n' ∉ text) : '\n' ∉ sep.intercalate texts := by
  induction texts with
  | nil => exact not_mem_nil
  | cons text texts ih =>
    cases texts with
    | nil => simpa using plain'
    | cons other texts =>
      have rest := ih fun text mem => plain' text (mem_cons_of_mem _ mem)
      rw [intercalate_cons_cons, mem_append, mem_append]
      rintro ((found | found) | found)
      · exact plain' text mem_cons_self found
      · exact plain found
      · exact rest found

theorem plain_serializeValue {value : TomlValue} (plain : ∀ text ∈ value.texts, '\n' ∉ text) :
    '\n' ∉ serializeValue value := by
  cases value with
  | string text => exact plain_quoteString (plain text (mem_singleton_self text))
  | array items =>
    have inside := @plain_intercalate [',', ' '] (items.map quoteString) (by decide) <| by
      intro text mem
      obtain ⟨item, listed, rfl⟩ := mem_map.mp mem
      exact plain_quoteString (plain item listed)
    simp [serializeValue, inside]

variable {header : List Char} {values : List (List Char × TomlValue)}

theorem PlainTable.entry (plain : PlainTable header values) {entry : List Char × TomlValue}
    (mem : entry ∈ values) :
    '\n' ∉ serializeEntry entry ∧ serializeEntry entry ≠ [] ∧ (serializeEntry entry).head? ≠ some '[' := by
  obtain ⟨key, first⟩ := plain.keys entry mem
  have value := plain_serializeValue (plain.texts entry mem)
  unfold serializeEntry
  refine ⟨?_, by simp, ?_⟩
  · simp [key, value]
  cases own : entry.1 with
  | nil => simp
  | cons c rest =>
    rw [own] at first
    simpa using first

theorem rows_intercalate {lines : List (List Char)} (plain : ∀ line ∈ lines, '\n' ∉ line ∧ line ≠ []) :
    rows (['\n'].intercalate lines) = lines := by
  induction lines with
  | nil => rfl
  | cons line lines ih =>
    obtain ⟨unbroken, nonempty⟩ := plain line mem_cons_self
    cases lines with
    | nil =>
      rw [intercalate_singleton]
      exact rows_plain unbroken nonempty
    | cons other lines =>
      rw [intercalate_cons_cons, append_assoc, singleton_append, rows_line unbroken,
        ih fun line mem => plain line (mem_cons_of_mem _ mem)]

theorem PlainTable.rows_body (plain : PlainTable header values) :
    rows (serializeTomlTableBody values) = values.map serializeEntry := by
  refine rows_intercalate fun line mem => ?_
  obtain ⟨entry, listed, rfl⟩ := mem_map.mp mem
  exact ⟨(plain.entry listed).1, (plain.entry listed).2.1⟩

/-- Breaks at the end add empty lines. -/
theorem rows_append_breaks (text : List Char) {gap : List Char} (breaks : ∀ c ∈ gap, isNewline c = true) :
    ∃ count, rows (text ++ gap) = rows text ++ List.replicate count [] := by
  induction gap using List.reverseRecOn with
  | nil => exact ⟨0, by simp⟩
  | append_singleton gap c ih =>
    obtain ⟨count, same⟩ := ih fun d mem => breaks d (mem_append_left _ mem)
    obtain rfl : c = '\n' := of_decide_eq_true (breaks c (mem_append_right _ (mem_singleton_self c)))
    rw [← append_assoc]
    rcases rows_concat_newline (text ++ gap) with kept | longer
    · exact ⟨count, kept.trans same⟩
    · refine ⟨count + 1, longer.trans ?_⟩
      rw [same, append_assoc, replicate_succ']

/-- The lines of a written table. -/
theorem PlainTable.rows_block (plain : PlainTable header values) {gap : List Char}
    (breaks : ∀ c ∈ gap, isNewline c = true) :
    ∃ count, rows (buildTomlTable header values ++ gap) =
      headerLine header :: (values.map serializeEntry ++ List.replicate count []) := by
  obtain ⟨count, same⟩ := rows_append_breaks (serializeTomlTableBody values) breaks
  refine ⟨count, ?_⟩
  rw [buildTomlTable, append_assoc, cons_append, rows_line (headerLine_plain plain.header), same,
    plain.rows_body]

theorem PlainTable.startsTable_eq_false (plain : PlainTable header values) {count : Nat} {row : List Char}
    (mem : row ∈ values.map serializeEntry ++ List.replicate count []) : row.head? ≠ some '[' := by
  rcases mem_append.mp mem with own | blank
  · obtain ⟨entry, listed, rfl⟩ := mem_map.mp own
    exact (plain.entry listed).2.2
  · rw [eq_of_mem_replicate blank]
    simp

theorem PlainTable.located (plain : PlainTable header values) {before gap after : List Char}
    (closed : Closed before) (absent : ∀ row ∈ rows before, (headerLine header).isPrefixOf row = false)
    (breaks : ∀ c ∈ gap, isNewline c = true)
    (ending : after = [] ∨ gap ≠ [] ∧ startsTable after = true) :
    Located (before ++ (buildTomlTable header values ++ gap) ++ after) header before
      (buildTomlTable header values ++ gap) after where
  whole := rfl
  closed := closed
  absent := absent
  starts := by
    rw [ isPrefixOf_iff_prefix]
    rw [buildTomlTable, append_assoc]
    exact prefix_append _ _
  inner row mem := by
    obtain ⟨count, same⟩ := plain.rows_block breaks
    rw [same, tail_cons] at mem
    have first := plain.startsTable_eq_false mem
    simp [startsTable, first]
  ending := by
    refine ending.imp id fun found => ⟨fun c last => ?_, found.2⟩
    rw [getLast?_append] at last
    cases own : gap.getLast? with
    | none => exact absurd (getLast?_eq_none_iff.mp own) found.1
    | some d =>
      rw [own] at last
      obtain rfl := Option.some.inj last
      exact of_decide_eq_true (breaks d (mem_of_getLast? own))

end Blocks

section Edits

variable {content header : List Char} {values : List (List Char × TomlValue)}

variable (text : List Char)

theorem separator_shown : shownRows (text ++ separator text) = shownRows text := by
  refine shownRows_append_blank fun c mem => ?_
  unfold separator at mem
  split at mem
  · cases mem
  · obtain rfl : c = '\n' := by simpa using mem
    rfl

theorem separator_closed : Closed (text ++ separator text) := by
  unfold separator
  split
  · rename_i empty
    rw [empty]
    exact closed_nil
  have closed := closed_concat (text ++ ['\n'])
  rwa [append_assoc] at closed

theorem separator_breaks : ∀ c ∈ separator text, isNewline c = true := by
  intro c mem
  unfold separator at mem
  split at mem
  · cases mem
  · obtain rfl : c = '\n' := by simpa using mem
    rfl

theorem absent_front (plain : '\n' ∉ header) {front rest : List Char}
    (absent : ∀ row ∈ rows (front ++ rest), (headerLine header).isPrefixOf row = false) :
    ∀ row ∈ rows (front ++ separator front), (headerLine header).isPrefixOf row = false := by
  have firstRow := firstRow_prefix (headerLine_plain plain) (headerLine_ne_nil header)
  obtain ⟨count, same⟩ := rows_append_breaks front (separator_breaks front)
  rw [same]
  intro row mem
  rcases mem_append.mp mem with own | blank
  · by_contra starts
    rw [Bool.not_eq_false] at starts
    have later : ∃ row ∈ rows (front ++ rest), (headerLine header).isPrefixOf row = true := by
      refine (firstRow.exists_iff _).mpr (((firstRow.exists_iff front).mp ⟨row, own, starts⟩).imp ?_ ?_)
      · intro here
        exact isPrefixOf_iff_prefix.mpr
          (( isPrefixOf_iff_prefix.mp here).trans (prefix_append _ _))
      rintro ⟨before, after, rfl, here⟩
      exact ⟨before, after ++ rest, by simp, isPrefixOf_iff_prefix.mpr
        (( isPrefixOf_iff_prefix.mp here).trans (prefix_append _ _))⟩
    obtain ⟨row', mem', starts'⟩ := later
    rw [absent row' mem'] at starts'
    cases starts'
  · rw [eq_of_mem_replicate blank]
    rfl

theorem isWhitespace_of_isNewline {c : Char} (newline : isNewline c = true) : isWhitespace c = true := by
  obtain rfl : c = '\n' := of_decide_eq_true newline
  rfl

/-- The trimmed front has the same lines. -/
theorem shownRows_trimBreaks : shownRows (trimEndMatches isNewline text) = shownRows text := by
  obtain ⟨rest, same, breaks⟩ := trimEndMatches_append isNewline text
  conv => rhs; rw [same]
  exact (shownRows_append_blank fun c mem => isWhitespace_of_isNewline (breaks c mem)).symm

theorem trimBreaks_separator :
    trimEndMatches isNewline (text ++ separator text) = trimEndMatches isNewline text :=
  trimEndMatches_of_append (separator_breaks text)

theorem upsert_located (plain : PlainTable header values) (content : List Char) : ∃ before gap after,
      Located (upsertTomlTable content header (buildTomlTable header values)).1 header before
        (buildTomlTable header values ++ gap) after ∧
      (∀ c ∈ gap, isNewline c = true) ∧
      shownRows before = shownLines (beforeRows content header) ∧ rows after = afterRows content header ∧
      ((upsertTomlTable content header (buildTomlTable header values)).2 = .inserted →
        after = [] ∧ trimEndMatches isNewline before = trimEnd content) := by
  rcases exists_located plain.header content with absent | ⟨before, table, after, located⟩
  · rw [(absent_edits plain.header absent _).1, (absent_rows absent).1, (absent_rows absent).2]
    obtain ⟨rest, same, blank⟩ := trimEndMatches_append isWhitespace content
    have trimmed : trimEndMatches isNewline (trimEnd content) = trimEnd content := by
      refine trimEndMatches_of_last fun c last => ?_
      by_contra newline
      rw [Bool.not_eq_false] at newline
      have white := last_trimEndMatches isWhitespace content c last
      rw [isWhitespace_of_isNewline newline] at white
      cases white
    have breaks : ∀ c ∈ ['\n'], isNewline c = true := by simp [isNewline]
    have front : ∀ row ∈ rows (trimEnd content ++ rest), (headerLine header).isPrefixOf row = false := by
      rwa [trimEnd, ← same]
    refine ⟨trimEnd content ++ separator (trimEnd content), ['\n'], [], ?_, breaks, ?_, rfl, fun _ => ⟨rfl, ?_⟩⟩
    · have written := plain.located (separator_closed (trimEnd content)) (absent_front plain.header front)
        breaks (.inl rfl)
      simpa using written
    · rw [separator_shown]
      conv => rhs; rw [same]
      exact (shownRows_append_blank blank).symm
    · rw [trimBreaks_separator, trimmed]
  rw [located.upsert plain.header, (located.rows_eq plain.header).1, (located.rows_eq plain.header).2]
  split
  · rename_i unchanged
    obtain ⟨gap, same, breaks⟩ := trimEndMatches_append isNewline table
    rw [unchanged] at same
    rw [same] at located
    exact ⟨before, gap, after, located, breaks, rfl, rfl, fun inserted => nomatch inserted⟩
  obtain ⟨rest, same, -⟩ := trimEndMatches_append isNewline before
  have lines := located.absent
  rw [same] at lines
  have breaks : ∀ c ∈ if after = [] then ['\n'] else ['\n', '\n'], isNewline c = true := by
    split <;> simp [isNewline]
  refine ⟨trimEndMatches isNewline before ++ separator (trimEndMatches isNewline before),
    if after = [] then ['\n'] else ['\n', '\n'], after, ?_, breaks, ?_, rfl, fun inserted => nomatch inserted⟩
  · have written := plain.located (separator_closed (trimEndMatches isNewline before))
      (absent_front plain.header lines) breaks
      (located.ending.imp id fun found => ⟨by split <;> simp, found.2⟩)
    simpa using written
  · rw [separator_shown, shownRows_trimBreaks]
    rfl

theorem removeTomlTable_shown (plain : '\n' ∉ header) (content : List Char) :
    shownRows (removeTomlTable content header).1 =
      shownLines (beforeRows content header) ++ shownLines (afterRows content header) := by
  rcases exists_located plain content with absent | ⟨before, table, after, located⟩
  · rw [(absent_edits plain absent []).2, (absent_rows absent).1, (absent_rows absent).2]
    exact (append_nil _).symm
  rw [located.remove plain, (located.rows_eq plain).1, (located.rows_eq plain).2]
  have front := shownRows_trimBreaks before
  change _ = shownRows before ++ shownRows after
  rw [← front]
  split
  · rename_i empty
    rw [append_nil]
    rcases empty with empty | empty
    · rw [empty]
      rfl
    · rw [empty, append_nil]
      exact (append_nil _).symm
  have closed : Closed (trimEndMatches isNewline before ++ ['\n', '\n']) := by
    have ended := closed_concat (trimEndMatches isNewline before ++ ['\n'])
    rwa [append_assoc] at ended
  have gap := @shownRows_append_blank (trimEndMatches isNewline before) ['\n', '\n'] (by decide)
  rw [Text.shownRows_append closed]
  exact congrArg (· ++ _) gap

/-- A table is defined once, so that no later line has its header. -/
theorem absent_afterRows (unique : (rows content).countP ((headerLine header).isPrefixOf ·) ≤ 1) :
    ∀ row ∈ afterRows content header, (headerLine header).isPrefixOf row = false := by
  intro row mem
  unfold afterRows at mem
  rw [← takeWhile_append_dropWhile (p := fun row => !(headerLine header).isPrefixOf row) (l := rows content),
    countP_append] at unique
  cases rest : (rows content).dropWhile fun row => !(headerLine header).isPrefixOf row with
  | nil =>
    rw [rest] at mem
    cases mem
  | cons first later =>
    have starts : (headerLine header).isPrefixOf first = true := by
      have stop := head?_dropWhile_not (fun row => !(headerLine header).isPrefixOf row) (rows content)
      rw [rest] at stop
      simpa using stop
    rw [rest, countP_cons_of_pos starts] at unique
    rw [rest, tail_cons] at mem
    have none' : later.countP (headerLine header).isPrefixOf = 0 := by omega
    rw [← Bool.not_eq_true]
    exact countP_eq_zero.mp none' row ((dropWhile_sublist _).subset mem)

theorem last_intercalate {lines : List (List Char)} (plain : ∀ line ∈ lines, '\n' ∉ line ∧ line ≠ [])
    {c : Char} (last : (['\n'].intercalate lines).getLast? = some c) : c ≠ '\n' := by
  induction lines with
  | nil => cases last
  | cons line lines ih =>
    obtain ⟨unbroken, nonempty⟩ := plain line mem_cons_self
    cases lines with
    | nil =>
      rw [intercalate_singleton] at last
      rintro rfl
      exact unbroken (mem_of_getLast? last)
    | cons other lines =>
      rw [intercalate_cons_cons, getLast?_append] at last
      have others := fun line mem => plain line (mem_cons_of_mem _ mem)
      cases rest : (['\n'].intercalate (other :: lines)).getLast? with
      | none =>
        have lost := congrArg rows (getLast?_eq_none_iff.mp rest)
        rw [rows_intercalate others] at lost
        cases lost
      | some d =>
        rw [rest] at last
        exact ih others (rest.trans last)

theorem PlainTable.trim_block (plain : PlainTable header values) (some' : values ≠ []) {gap : List Char}
    (breaks : ∀ c ∈ gap, isNewline c = true) :
    trimEndMatches isNewline (buildTomlTable header values ++ gap) = buildTomlTable header values := by
  rw [trimEndMatches_of_append breaks]
  refine trimEndMatches_of_last fun c last => ?_
  have lines : ∀ line ∈ values.map serializeEntry, '\n' ∉ line ∧ line ≠ [] := fun line mem => by
    obtain ⟨entry, listed, rfl⟩ := mem_map.mp mem
    exact ⟨(plain.entry listed).1, (plain.entry listed).2.1⟩
  rw [buildTomlTable, getLast?_append, getLast?_cons] at last
  unfold serializeTomlTableBody at last
  cases rest : (['\n'].intercalate (values.map serializeEntry)).getLast? with
  | none =>
    have lost := congrArg rows (getLast?_eq_none_iff.mp rest)
    rw [rows_intercalate lines] at lost
    exact absurd (map_eq_nil_iff.mp lost) some'
  | some d =>
    rw [rest] at last
    exact decide_eq_false (last_intercalate lines (rest.trans last))

end Edits

/-- The lines outside of the table, which ends at the next header of either kind. -/
def foreignRows (content header : List Char) : List (List Char) :=
  beforeRows content header ++
    ((rows content).dropWhile fun row => !(headerLine header).isPrefixOf row).tail.dropWhile
      fun row => (row.dropWhile isWhitespace).head? ≠ some '['

/-- The edits keep the lines outside of the table, and they can be repeated and undone. -/
structure KeepsForeignRows (content header : List Char) (values : List (List Char × TomlValue)) : Prop where
  upserted : (foreignRows content header).Sublist
    (rows (upsertTomlTable content header (buildTomlTable header values)).1)
  removed : (foreignRows content header).Sublist (rows (removeTomlTable content header).1)
  once : occurrences (rows (buildTomlTable header values))
    (rows (upsertTomlTable content header (buildTomlTable header values)).1) = 1
  again : upsertTomlTable (upsertTomlTable content header (buildTomlTable header values)).1 header
      (buildTomlTable header values) =
    ((upsertTomlTable content header (buildTomlTable header values)).1, .unchanged)
  undone : (upsertTomlTable content header (buildTomlTable header values)).2 = .inserted →
    trimEnd (removeTomlTable (upsertTomlTable content header (buildTomlTable header values)).1 header).1 =
      trimEnd content

/-- The lines that are not blank stay, before the header and from the next line with a single bracket on. -/
structure EditsTable (content header : List Char) (values : List (List Char × TomlValue)) : Prop where
  upserted : (shownLines (beforeRows content header) ++ shownLines (afterRows content header)).Sublist
    (shownRows (upsertTomlTable content header (buildTomlTable header values)).1)
  removed : (shownLines (beforeRows content header) ++ shownLines (afterRows content header)).Sublist
    (shownRows (removeTomlTable content header).1)
  once : occurrences (rows (buildTomlTable header values))
    (rows (upsertTomlTable content header (buildTomlTable header values)).1) = 1
  again : values ≠ [] → upsertTomlTable (upsertTomlTable content header (buildTomlTable header values)).1
      header (buildTomlTable header values) =
    ((upsertTomlTable content header (buildTomlTable header values)).1, .unchanged)
  undone : (upsertTomlTable content header (buildTomlTable header values)).2 = .inserted →
    trimEnd (removeTomlTable (upsertTomlTable content header (buildTomlTable header values)).1 header).1 =
      trimEnd content

/-- The entry that is written under the header. -/
def newValues : List (List Char × TomlValue) := [("c".toList, .string "3".toList)]

theorem newValues_plain : PlainTable "h".toList newValues :=
  ⟨by decide +kernel, by decide +kernel, by decide +kernel⟩

end Codegraph.Installer
