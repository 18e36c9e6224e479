import Codegraph.Library.Positions
import Mathlib.Data.List.GetD

namespace Codegraph.LineIndex

open Library List

abbrev Bytes := List UInt8

def newline : UInt8 := 10

def stripCr (line : Bytes) : Bytes := if line.getLast? = some 13 then line.dropLast else line

def startsFrom (count : Nat) : Bytes → List Nat
  | [] => []
  | byte :: rest => if byte = newline then (count + 1) :: startsFrom (count + 1) rest
    else startsFrom (count + 1) rest

def starts (source : Bytes) : List Nat := 0 :: startsFrom 0 source

def between (source : Bytes) (start stop : Nat) : Bytes := (source.take stop).drop start

/-- The last lines of a text end with it. -/
def lineEnd (source : Bytes) (index : Nat) : Nat := (starts source)[index]?.elim source.length (· - 1)

/-- A text with its line starts. -/
structure Lines where
  source : Bytes

namespace Lines

variable (lines : Lines)

def len : Nat := (starts lines.source).length

def strLinesLen : Nat :=
  if lines.source = [] then 0
  else if lines.source.getLast? = some newline then lines.len - 1
  else lines.len

def get (index : Nat) : Option Bytes :=
  (starts lines.source)[index]?.map fun start =>
    stripCr (between lines.source start (lineEnd lines.source (index + 1)))

def rawText (first last : Nat) : Bytes :=
  let stop := min last lines.len
  let start := min first stop
  if start = stop then []
  else between lines.source ((starts lines.source).getD start 0) (lineEnd lines.source stop)

def join (first last : Nat) : Bytes :=
  let stop := min last lines.len
  let start := min first stop
  (range' start (stop - start)).foldl (fun out index =>
    (if first < index then out ++ [newline] else out) ++ (lines.get index).getD []) []

end Lines

/-- A run of the lines of a text. -/
structure LineSpan where
  lines : Lines
  start : Nat
  stop : Nat

def Lines.span (lines : Lines) : LineSpan := ⟨lines, 0, lines.len⟩

namespace LineSpan

variable (span : LineSpan)

def len : Nat := span.stop - span.start

def get (index : Nat) : Option Bytes :=
  if span.len ≤ index then none else span.lines.get (span.start + index)

/-- Positions are machine words. -/
def slice (first last : Nat) : LineSpan :=
  let stop := min ((span.start + last) % 2 ^ 64) span.stop
  ⟨span.lines, min ((span.start + first) % 2 ^ 64) stop, stop⟩

def iter : List Bytes := (range' span.start span.len).filterMap span.lines.get

def join (separator : Bytes) : Bytes :=
  span.iter.zipIdx.foldl (fun out line => (if 0 < line.2 then out ++ separator else out) ++ line.1) []

end LineSpan

/-- A line number has 32 bits. -/
def lineOf (text : Bytes) (offset : Nat) : Nat := upTo (starts text) offset % 2 ^ 32

def lineStart (text : Bytes) (line : Nat) : Nat :=
  if line = 0 then 0 else ((starts text)[line - 1]?).getD (text.length + 1)

def sliceLines (source : Bytes) (startLine endLine : Nat) : Option Bytes :=
  if startLine = 0 ∨ endLine = 0 then none
  else
    let start := min (startLine - 1) (starts source).length
    let stop := min endLine (starts source).length
    some (if stop ≤ start then [] else
      between source ((starts source).getD start 0) (lineEnd source stop))

/-- The text between newlines. -/
def items (source : Bytes) : List Bytes := source.splitOn newline

/-- A last line that is empty does not count. -/
def strLines (source : Bytes) : List Bytes :=
  if (items source).getLast? = some [] then (items source).dropLast else items source

/-- The lines of a list from one index up to another. -/
def cut (lines : List Bytes) (first last : Nat) : List Bytes := (lines.take last).drop first

section Starts

variable (source : Bytes)

theorem startsFrom_add (count more : Nat) :
    startsFrom (count + more) source = (startsFrom count source).map (· + more) := by
  induction source generalizing count with
  | nil => rfl
  | cons byte rest ih =>
    have next := ih (count + 1)
    rw [add_right_comm] at next
    unfold startsFrom
    split
    · rw [next, map_cons, add_right_comm]
    · exact next

theorem startsFrom_plain {row : Bytes} (plain : newline ∉ row) (rest : Bytes) (count : Nat) :
    startsFrom count (row ++ rest) = startsFrom (count + row.length) rest := by
  induction row generalizing count with
  | nil => rfl
  | cons byte row ih =>
    rw [mem_cons, not_or] at plain
    rw [cons_append, startsFrom, if_neg (Ne.symm plain.1), ih plain.2, length_cons]
    congr 1
    omega

theorem starts_plain {row : Bytes} (plain : newline ∉ row) : starts row = [0] := by
  have same := startsFrom_plain plain [] 0
  rw [append_nil] at same
  rw [starts, same]
  rfl

theorem starts_row {row : Bytes} (plain : newline ∉ row) (rest : Bytes) :
    starts (row ++ newline :: rest) = 0 :: (starts rest).map (· + (row.length + 1)) := by
  rw [starts, startsFrom_plain plain, startsFrom, if_pos rfl, starts, map_cons, ← startsFrom_add]
  simp

theorem lt_of_mem_startsFrom {source : Bytes} {count start : Nat} (mem : start ∈ startsFrom count source) :
    count < start := by
  induction source generalizing count with
  | nil => cases mem
  | cons byte rest ih =>
    unfold startsFrom at mem
    split at mem
    · rcases mem_cons.mp mem with rfl | later
      · exact Nat.lt_succ_self _
      · exact Nat.lt_of_succ_lt (ih later)
    · exact Nat.lt_of_succ_lt (ih mem)

theorem starts_sorted : (starts source).Pairwise (· < ·) := by
  have later (count : Nat) : (startsFrom count source).Pairwise (· < ·) := by
    induction source generalizing count with
    | nil => exact .nil
    | cons byte rest ih =>
      unfold startsFrom
      split
      · exact pairwise_cons.mpr ⟨fun _ => lt_of_mem_startsFrom, ih _⟩
      · exact ih _
  exact pairwise_cons.mpr ⟨fun _ => lt_of_mem_startsFrom, later 0⟩

theorem lineEnd_row {row : Bytes} (plain : newline ∉ row) (rest : Bytes) (index : Nat) :
    lineEnd (row ++ newline :: rest) (index + 2) = row.length + 1 + lineEnd rest (index + 1) := by
  unfold lineEnd
  rw [starts_row plain, getElem?_cons_succ, getElem?_map]
  cases found : (starts rest)[index + 1]? with
  | none =>
    simp only [Option.map_none, Option.elim_none, length_append, length_cons]
    omega
  | some start =>
    have positive := lt_of_mem_startsFrom (mem_of_getElem? (found : (startsFrom 0 rest)[index]? = some start))
    simp only [Option.map_some, Option.elim_some]
    omega

theorem between_append (front rest : Bytes) (start stop : Nat) :
    between (front ++ rest) (front.length + start) (front.length + stop) = between rest start stop := by
  simp [between, take_append, drop_append]

theorem between_rows {rows : List Bytes} (plain : ∀ row ∈ rows, newline ∉ row) (nonempty : rows ≠ []) :
    (starts ([newline].intercalate rows)).length = rows.length ∧
      ∀ first last, first < last → last ≤ rows.length →
        between ([newline].intercalate rows) ((starts ([newline].intercalate rows)).getD first 0)
          (lineEnd ([newline].intercalate rows) last) = [newline].intercalate (cut rows first last) := by
  induction rows with
  | nil => contradiction
  | cons row rows ih =>
    have ⟨here, later⟩ := forall_mem_cons.mp plain
    cases rows with
    | nil =>
      rw [intercalate_singleton, starts_plain here]
      refine ⟨rfl, fun first last less inside => ?_⟩
      obtain ⟨rfl, rfl⟩ : first = 0 ∧ last = 1 := by grind
      simp [lineEnd, starts_plain here, between, cut]
    | cons next rows =>
      obtain ⟨count, pieces⟩ := ih later (cons_ne_nil _ _)
      generalize whole : next :: rows = others at *
      have present : others ≠ [] := whole ▸ cons_ne_nil _ _
      have split : [newline].intercalate (row :: others) = row ++ newline :: [newline].intercalate others :=
        (intercalate_cons_of_ne_nil present).trans (append_assoc ..)
      rw [split, starts_row here, length_cons, length_map, count]
      refine ⟨rfl, fun first last less inside => ?_⟩
      have zero : lineEnd (row ++ newline :: [newline].intercalate others) 1 = row.length := by
        rw [lineEnd, starts_row here]
        simp [starts]
      match first, last with
      | 0, 1 =>
        rw [zero]
        simp [between, cut]
      | first + 1, last + 2 =>
        have piece := pieces first (last + 1) (by omega) (by simpa using inside)
        have stored : first < (starts ([newline].intercalate others)).length := by
          rw [count]
          simp only [length_cons] at inside
          omega
        rw [getD_eq_getElem _ _ stored] at piece
        rw [lineEnd_row here, getD_cons_succ, getD_eq_getElem _ _ (by simpa using stored), getElem_map, Nat.add_comm _ (row.length + 1)]
        have moved := between_append (row ++ [newline]) ([newline].intercalate others)
        simp only [length_append, length_singleton, append_assoc, singleton_append] at moved
        rw [moved, piece]
        rfl
      | 0, last + 2 =>
        have piece : take (lineEnd ([newline].intercalate others) (last + 1)) ([newline].intercalate others) =
            [newline].intercalate (others.take (last + 1)) :=
          pieces 0 (last + 1) (Nat.succ_pos _) (by simpa using inside)
        rw [lineEnd_row here]
        change take _ _ = [newline].intercalate (row :: others.take (last + 1))
        rw [intercalate_cons_of_ne_nil (by simp [← whole]), ← piece, take_append, take_of_length_le (by omega),
          show row.length + 1 + lineEnd ([newline].intercalate others) (last + 1) - row.length =
            lineEnd ([newline].intercalate others) (last + 1) + 1 by omega, append_assoc]
        rfl

theorem intercalate_items : [newline].intercalate (items source) = source := intercalate_splitOn newline

theorem plain_items : ∀ row ∈ items source, newline ∉ row := by
  unfold items
  induction source with
  | nil => simp
  | cons byte rest ih =>
    rw [splitOn_cons_eq_if_modifyHead]
    split
    · exact forall_mem_cons.mpr ⟨not_mem_nil, ih⟩
    rename_i other
    revert ih
    cases rest.splitOn newline with
    | nil => exact fun _ => nofun
    | cons row rows =>
      intro ih
      obtain ⟨here, later⟩ := forall_mem_cons.mp ih
      refine forall_mem_cons.mpr ⟨fun mem => ?_, later⟩
      rcases mem_cons.mp mem with rfl | inside
      · exact other (beq_self_eq_true _)
      · exact here inside

theorem between_items : (starts source).length = (items source).length ∧
    ∀ first last, first < last → last ≤ (items source).length →
      between source ((starts source).getD first 0) (lineEnd source last) =
        [newline].intercalate (cut (items source) first last) := by
  have rows := between_rows (plain_items source) (splitOn_ne_nil _ _)
  rwa [intercalate_items] at rows

end Starts

section Views

variable (source : Bytes)

variable (first last : Nat)

/-- A range is clamped to the lines. -/
theorem between_clamped : (if min last (items source).length ≤ first then []
    else between source ((starts source).getD first 0) (lineEnd source (min last (items source).length))) =
      [newline].intercalate (cut (items source) first last) := by
  split
  · rename_i beyond
    rw [cut, drop_of_length_le (by rwa [length_take])]
    rfl
  rename_i inside
  rw [(between_items source).2 first _ (Nat.lt_of_not_le inside) (min_le_right _ _), cut, cut,
    take_eq_take_iff.mpr (min_eq_left (min_le_right last _))]

theorem rawText_eq : (Lines.mk source).rawText first last =
    [newline].intercalate (cut (items source) first last) := by
  rw [← between_clamped]
  unfold Lines.rawText Lines.len
  dsimp only
  rw [(between_items source).1]
  by_cases inside : min last (items source).length ≤ first
  · rw [if_pos inside, if_pos (by omega)]
  · rw [if_neg inside, if_neg (by omega), show min first (min last (items source).length) = first by omega]

theorem sliceLines_eq {startLine endLine : Nat} (first : startLine ≠ 0) (last : endLine ≠ 0) :
    sliceLines source startLine endLine =
      some ([newline].intercalate (cut (items source) (startLine - 1) endLine)) := by
  rw [sliceLines, if_neg (by omega), ← between_clamped]
  dsimp only
  rw [(between_items source).1]
  congr 1
  by_cases inside : min endLine (items source).length ≤ startLine - 1
  · rw [if_pos inside, if_pos (by omega)]
  · rw [if_neg inside, if_neg (by omega), show min (startLine - 1) (items source).length = startLine - 1 by omega]

theorem get_eq (index : Nat) : (Lines.mk source).get index = (items source)[index]?.map stripCr := by
  obtain ⟨count, pieces⟩ := between_items source
  unfold Lines.get
  rcases lt_or_ge index (items source).length with inside | beyond
  · have stored : index < (starts source).length := by rwa [count]
    have piece := pieces index (index + 1) (Nat.lt_succ_self _) inside
    rw [getD_eq_getElem _ _ stored] at piece
    rw [getElem?_eq_getElem stored, getElem?_eq_getElem inside, Option.map_some, Option.map_some, piece]
    rw [cut, drop_take, Nat.add_sub_cancel_left, drop_eq_getElem_cons inside, take_succ_cons, take_zero,
      intercalate_singleton]
  · rw [getElem?_eq_none (by rwa [count]), getElem?_eq_none beyond]
    rfl

theorem length_items (source : Bytes) : (items source).length = source.count newline + 1 := by
  unfold items
  induction source with
  | nil => rfl
  | cons byte rest ih =>
    rw [splitOn_cons_eq_if_modifyHead, count_cons]
    split
    · rw [length_cons, ih]
    · rw [length_modifyHead, ih, Nat.add_zero]

theorem countP_startsFrom (offset count : Nat) :
    (startsFrom count source).countP (· ≤ count + offset) = (source.take offset).count newline := by
  induction source generalizing offset count with
  | nil => simp [startsFrom]
  | cons byte rest ih =>
    unfold startsFrom
    cases offset with
    | zero =>
      rw [take_zero, count_nil, countP_eq_zero]
      intro start mem
      have := @lt_of_mem_startsFrom (byte :: rest) _ _ mem
      simpa using this
    | succ offset =>
      have shifted : count + (offset + 1) = count + 1 + offset := by omega
      rw [take_succ_cons, count_cons, shifted]
      split
      · rename_i here
        rw [countP_cons_of_pos (by simp), ih, here]
        simp
      rename_i other
      rw [ih]
      simp [other]

theorem upTo_starts (offset : Nat) : upTo (starts source) offset = (items (source.take offset)).length := by
  have counted := countP_startsFrom source offset 0
  rw [Nat.zero_add] at counted
  rw [length_items, ← counted, upTo, starts, countP_cons_of_pos (by simp)]

theorem intercalate_concat (separator row : Bytes) (rows : List Bytes) :
    separator.intercalate (rows ++ [row]) =
      (if 0 < rows.length then separator.intercalate rows ++ separator else separator.intercalate rows) ++ row := by
  induction rows with
  | nil => exact intercalate_singleton
  | cons first rows ih =>
    rw [if_pos (length_pos_of_ne_nil (cons_ne_nil _ _)), cons_append]
    cases rows with
    | nil => simp
    | cons next rows =>
      rw [if_pos (length_pos_of_ne_nil (cons_ne_nil _ _))] at ih
      rw [intercalate_cons_of_ne_nil (by simp), ih, intercalate_cons_cons]
      simp only [append_assoc]

theorem foldl_zipIdx (separator : Bytes) (rows : List Bytes) :
    rows.zipIdx.foldl (fun out line => (if 0 < line.2 then out ++ separator else out) ++ line.1) [] =
      separator.intercalate rows := by
  induction rows using reverseRecOn with
  | nil => rfl
  | append_singleton rows row ih =>
    rw [zipIdx_concat, foldl_append, ih, intercalate_concat]
    rfl

theorem foldl_range' (separator : Bytes) (text : Nat → Bytes) (first count : Nat) :
    (range' first count).foldl
        (fun out index => (if first < index then out ++ separator else out) ++ text index) [] =
      separator.intercalate ((range' first count).map text) := by
  induction count with
  | zero => rfl
  | succ count ih =>
    rw [range'_concat, foldl_append, ih, map_append, map_singleton, intercalate_concat]
    simp

theorem strLinesLen_eq : (Lines.mk source).strLinesLen = (strLines source).length := by
  obtain none | ⟨rows, row, split⟩ := eq_nil_or_concat (items source)
  · exact absurd none (splitOn_ne_nil _ _)
  have plain : newline ∉ row := plain_items source row (by simp [split])
  have whole := intercalate_items source
  rw [concat_eq_append] at split
  rw [split, intercalate_concat] at whole
  unfold Lines.strLinesLen Lines.len strLines
  dsimp only
  rw [(between_items source).1, split, getLast?_concat, dropLast_concat, length_append, length_singleton]
  rcases eq_or_ne row [] with rfl | written
  · rw [if_pos rfl]
    rw [append_nil] at whole
    split at whole
    · simp [← whole]
    rename_i alone
    obtain rfl : rows = [] := by simpa using alone
    simp [← whole]
  have ended : source.getLast? = row.getLast? := by rw [← whole, getLast?_append_of_ne_nil _ written]
  have other : row.getLast? ≠ some newline := fun last => plain (mem_of_getLast? last)
  have present : source ≠ [] := by
    rw [← whole]
    exact append_ne_nil_of_right_ne_nil _ written
  rw [if_neg present, ended, if_neg other, if_neg (by simpa using written), length_append, length_singleton]

theorem map_get_range' {first count : Nat} (inside : first + count ≤ (items source).length) :
    (range' first count).map ((Lines.mk source).get ·) =
      ((((items source).map stripCr).drop first).take count).map some := by
  refine ext_getElem (by simp; omega) fun index stored _ => ?_
  rw [length_map, length_range'] at stored
  simp [get_eq, getElem?_eq_getElem (show first + index < (items source).length by omega)]

theorem join_eq : (Lines.mk source).join first last =
    [newline].intercalate ((cut (items source) first last).map stripCr) := by
  unfold Lines.join Lines.len
  dsimp only
  rw [(between_items source).1]
  generalize clamped : min last (items source).length = stop
  have taken : (items source).take last = (items source).take stop := take_eq_take_iff.mpr (by omega)
  rw [cut, taken]
  rcases le_total stop first with beyond | inside
  · rw [min_eq_right beyond, Nat.sub_self, drop_of_length_le (by rw [length_take]; omega)]
    rfl
  have lines := map_get_range' source (show first + (stop - first) ≤ _ by omega)
  have texts := congrArg (map (Option.getD · [])) lines
  rw [map_map, map_map] at texts
  rw [min_eq_left inside, foldl_range', map_drop, map_take, drop_take]
  exact congrArg _ (texts.trans (map_id _))

end Views

section Spans

/-- The spans that slicing all the lines again and again gives, each with the lines that the same slices of a
list give. -/
inductive Nested (lines : Lines) : LineSpan → List Bytes → Prop
  | whole : Nested lines lines.span ((items lines.source).map stripCr)
  | slice {span : LineSpan} {rows : List Bytes} {first last : Nat} (inner : Nested lines span rows)
      (firstFits : span.start + first < 2 ^ 64) (lastFits : span.start + last < 2 ^ 64) :
      Nested lines (span.slice first last) (cut rows first last)

theorem cut_cut (rows : List Bytes) (start stop first last : Nat) : cut (cut rows start stop) first last =
    cut rows (min (start + first) (min (start + last) stop)) (min (start + last) stop) := by
  unfold cut
  rw [take_drop, drop_drop, take_take]
  generalize min (start + last) stop = cap
  rcases le_total (start + first) cap with inside | beyond
  · rw [min_eq_left inside]
  · rw [min_eq_right beyond, drop_of_length_le ((length_take_le _ _).trans beyond),
      drop_of_length_le (length_take_le _ _)]

theorem Nested.window {lines : Lines} {span : LineSpan} {rows : List Bytes} (nested : Nested lines span rows) :
    span.lines = lines ∧ span.start ≤ span.stop ∧ span.stop ≤ (items lines.source).length ∧
      rows = cut ((items lines.source).map stripCr) span.start span.stop := by
  induction nested with
  | whole =>
    have count := (between_items lines.source).1
    refine ⟨rfl, Nat.zero_le _, count.le, ?_⟩
    rw [cut, Lines.span, Lines.len, count, take_of_length_le (length_map _).le]
    rfl
  | @slice span rows first last inner firstFits lastFits ih =>
    obtain ⟨same, _, inside, rfl⟩ := ih
    rw [LineSpan.slice, Nat.mod_eq_of_lt firstFits, Nat.mod_eq_of_lt lastFits]
    exact ⟨same, min_le_right _ _, (min_le_right _ _).trans inside, cut_cut ..⟩

theorem Nested.iter_eq {lines : Lines} {span : LineSpan} {rows : List Bytes} (nested : Nested lines span rows) :
    span.iter = rows := by
  obtain ⟨same, order, inside, window⟩ := nested.window
  have texts := map_get_range' lines.source (show span.start + span.len ≤ _ by unfold LineSpan.len; omega)
  rw [LineSpan.len, ← drop_take, ← LineSpan.len] at texts
  have kept := congrArg (filterMap id) texts
  rw [filterMap_map, filterMap_map] at kept
  rw [window, LineSpan.iter, same]
  exact kept.trans filterMap_some

theorem Nested.get_eq {lines : Lines} {span : LineSpan} {rows : List Bytes} (nested : Nested lines span rows)
    (index : Nat) : span.get index = rows[index]? := by
  obtain ⟨same, order, inside, window⟩ := nested.window
  have count : rows.length = span.len := by
    rw [window, cut, length_drop, length_take, length_map, min_eq_left inside]
    rfl
  unfold LineSpan.get
  split
  · rename_i beyond
    rw [getElem?_eq_none (count.trans_le beyond)]
  rename_i present
  rw [same, LineIndex.get_eq lines.source, window, cut, getElem?_drop, getElem?_take_of_lt, getElem?_map]
  unfold LineSpan.len at present
  omega

theorem Nested.join_eq {lines : Lines} {span : LineSpan} {rows : List Bytes} (nested : Nested lines span rows)
    (separator : Bytes) : span.join separator = separator.intercalate rows := by
  rw [LineSpan.join, nested.iter_eq, foldl_zipIdx]

end Spans

theorem lineOf_eq {text : Bytes} (few : (items text).length + 1 < 2 ^ 32) (offset : Nat) :
    lineOf text offset = upTo (starts text) offset := by
  have bounded := upTo_le_length (starts text) offset
  rw [(between_items text).1] at bounded
  exact Nat.mod_eq_of_lt (by omega)

theorem lineStart_spans {text : Bytes} (few : (items text).length + 1 < 2 ^ 32) {offset : Nat}
    (inside : offset ≤ text.length) :
    lineStart text (lineOf text offset) ≤ offset ∧ offset < lineStart text (lineOf text offset + 1) := by
  rw [lineOf_eq few]
  have positive : upTo (starts text) offset ≠ 0 := by
    rw [upTo_starts, length_items]
    exact Nat.succ_ne_zero _
  have bounded := upTo_le_length (starts text) offset
  unfold lineStart
  rw [if_neg positive, if_neg (Nat.succ_ne_zero _), Nat.add_sub_cancel]
  have earlier : upTo (starts text) offset - 1 < (starts text).length := by omega
  rw [getElem?_eq_getElem earlier, Option.getD_some]
  refine ⟨(getElem_le_iff_lt_upTo (starts_sorted text) _ _ earlier).mpr (by omega), ?_⟩
  rcases lt_or_ge (upTo (starts text) offset) (starts text).length with later | final
  · rw [getElem?_eq_getElem later, Option.getD_some, ← Nat.not_le,
      getElem_le_iff_lt_upTo (starts_sorted text) _ _ later]
    exact Nat.lt_irrefl _
  · rw [getElem?_eq_none final]
    exact Nat.lt_succ_of_le inside

/-- The views of a text by its line starts agree with its items, where no sum of a slice leaves a machine word
and the numbers of the lines fit in 32 bits. -/
theorem views_split (text : Bytes) :
    (∀ index, (Lines.mk text).get index = (items text)[index]?.map stripCr) ∧
      (∀ first last, (Lines.mk text).rawText first last = [newline].intercalate (cut (items text) first last)) ∧
      (∀ first last, (Lines.mk text).join first last =
        [newline].intercalate ((cut (items text) first last).map stripCr)) ∧
      (Lines.mk text).strLinesLen = (strLines text).length ∧
      (∀ span rows, Nested ⟨text⟩ span rows → span.iter = rows ∧ (∀ index, span.get index = rows[index]?) ∧
        ∀ separator, span.join separator = separator.intercalate rows) ∧
      (∀ startLine endLine, sliceLines text startLine endLine = if startLine = 0 ∨ endLine = 0 then none
        else some ([newline].intercalate (cut (items text) (startLine - 1) endLine))) ∧
      ((items text).length + 1 < 2 ^ 32 → ∀ offset ≤ text.length,
        lineOf text offset = (items (text.take offset)).length ∧
          lineStart text (lineOf text offset) ≤ offset ∧ offset < lineStart text (lineOf text offset + 1)) := by
  refine ⟨get_eq text, rawText_eq text, join_eq text, strLinesLen_eq text,
    fun span rows nested => ⟨nested.iter_eq, nested.get_eq, nested.join_eq⟩, fun startLine endLine => ?_,
    fun few offset inside => ⟨(lineOf_eq few offset).trans (upTo_starts ..), lineStart_spans few inside⟩⟩
  split
  · rename_i zero
    exact if_pos zero
  · rename_i numbered
    exact sliceLines_eq text (fun zero => numbered (.inl zero)) fun zero => numbered (.inr zero)

/-- The second slice of two lines, the last of them first. -/
theorem views_split_second : (((Lines.mk [97, 10, 98]).span.slice 1 2).slice 0 1).iter = [[98]] ∧
    lineOf [97, 10, 98] 2 = (items [97, 10]).length :=
  have nested : Nested ⟨[97, 10, 98]⟩ (((Lines.mk [97, 10, 98]).span.slice 1 2).slice 0 1) [[98]] :=
    .slice (.slice .whole (by decide) (by decide)) (by decide) (by decide)
  have views := views_split [97, 10, 98]
  ⟨(views.2.2.2.2.1 _ _ nested).1, (views.2.2.2.2.2.2 (by decide) 2 (by decide)).1⟩

/-- A line number of more than 32 bits is cut, and a slice up to the largest word of a span that starts at the
second line is empty. -/
theorem views_overflow :
    lineOf (replicate (2 ^ 32) newline) (2 ^ 32) ≠ (items ((replicate (2 ^ 32) newline).take (2 ^ 32))).length ∧
      (((Lines.mk [10, 10]).span.slice 1 3).slice 0 (2 ^ 64 - 1)).iter ≠
        cut ((Lines.mk [10, 10]).span.slice 1 3).iter 0 (2 ^ 64 - 1) := by
  refine ⟨?_, by decide⟩
  rw [lineOf, upTo_starts, length_items, take_of_length_le length_replicate.le, count_replicate_self]
  omega

end Codegraph.LineIndex
