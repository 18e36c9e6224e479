import Codegraph.Library.Dict
import Codegraph.RustCfg.Verdicts

namespace Codegraph.RustCfg

open Library List

/-- How many lines an attribute may have after its first one. -/
def maxAttributeLines : Nat := 12

/-- The texts between the line breaks. -/
def splitLines : List Char → List (List Char)
  | [] => [[]]
  | c :: text => if c = '\n' then [] :: splitLines text else (splitLines text).modifyHead (c :: ·)

def stripReturn (line : List Char) : List Char := (Text.stripSuffix ['\r'] line).getD line

def linesOf (source : List Char) : List (List Char) := (splitLines source).map stripReturn

/-- What is known of the brackets after a part of a text. -/
structure Brackets where
  depth : Int
  inString : Bool
  escaped : Bool

def Brackets.read (state : Brackets) (c : Char) : Brackets :=
  if state.inString then
    if c = '\\' ∧ state.escaped = false then { state with escaped := true }
    else if c = '"' ∧ state.escaped = false then { state with inString := false }
    else { state with escaped := false }
  else if c = '"' then { state with inString := true }
  else if c = '[' ∨ c = '(' then { state with depth := state.depth + 1 }
  else if c = ']' ∨ c = ')' then { state with depth := state.depth - 1 }
  else state

/-- The brackets of an attribute's text are closed. -/
def balanced (text : List Char) : Bool := (text.foldl Brackets.read ⟨0, false, false⟩).depth ≤ 0

/-- The text before the last place of a character. -/
def beforeLast (c : Char) (text : List Char) : Option (List Char) :=
  if c ∈ text then some ((text.reverse.dropWhile fun other => other ≠ c).tail.reverse) else none

/-- What follows the opening parenthesis of a `cfg`. -/
def cfgBody (content : List Char) : Option (List Char) :=
  (Text.stripPrefix ['c', 'f', 'g'] (content.dropWhile Text.isWhitespace)).bind fun rest =>
    Text.stripPrefix ['('] (rest.dropWhile Text.isWhitespace)

def cfgPredicate (attr : List Char) : Option (List Char) :=
  (Text.stripPrefix ['#', '['] attr).bind fun content =>
    (cfgBody content).bind fun rest => (beforeLast ')' rest).map Text.trim

/-- Lines are joined to an attribute until its brackets are closed. -/
def gather : Nat → List Char → List (List Char) → List Char × List (List Char)
  | limit + 1, attr, line :: later =>
    if balanced attr then (attr, line :: later) else gather limit (attr ++ ' ' :: Text.trim line) later
  | _, attr, later => (attr, later)

/-- The predicates guarding each item, by the line the item starts on. -/
structure FileCfgs where
  byLine : Dict Nat (List (List Char))

def lineNumber (index : Nat) : Nat := min (index + 1) (2 ^ 32 - 1)

def record (index : Nat) (pending : List (List Char)) (byLine : Dict Nat (List (List Char))) :
    Dict Nat (List (List Char)) :=
  if pending = [] then byLine else byLine.set (lineNumber index) pending

/-- Each turn reads a line at least, so the number of lines is fuel enough. -/
def scanFrom : Nat → Nat → List (List Char) → List (List Char) → Dict Nat (List (List Char)) →
    Dict Nat (List (List Char))
  | fuel + 1, index, line :: later, pending, byLine =>
    let text := Text.trim line
    if ['#', '['].isPrefixOf text then
      let (attr, left) := gather maxAttributeLines text later
      scanFrom fuel (index + 1 + (later.length - left.length)) left
        (pending ++ (cfgPredicate attr).toList) byLine
    else if text = [] ∨ ['/', '/'].isPrefixOf text then
      scanFrom fuel (index + 1) later pending byLine
    else scanFrom fuel (index + 1) later [] (record index pending byLine)
  | _, _, _, _, byLine => byLine

def scan (source : List Char) : FileCfgs :=
  let lines := linesOf source
  ⟨scanFrom lines.length 0 lines [] ∅⟩

/-- Blanks with line breaks among them read as one space for each break. -/
def foldBlanks (run : List Char) : List Char :=
  if '\n' ∈ run then (run.filter fun c => c = '\n').map fun _ => ' ' else run

/-- A text on one line. The run holds the blanks before the text. -/
def oneLine (run : List Char) : List Char → List Char
  | [] => foldBlanks run
  | c :: text =>
    if Text.isWhitespace c then oneLine (run ++ [c]) text else foldBlanks run ++ c :: oneLine [] text

/-- The other lines of an attribute follow a space each. -/
def spaced (lines : List (List Char)) : List Char := lines.flatMap fun line => ' ' :: Text.trim line

/-- The text that the lines of an attribute are joined to. -/
def joined : List (List Char) → List Char
  | [] => []
  | line :: later => Text.trim line ++ spaced later

/-- The same where the first line goes on an earlier text. -/
def joinedAfter : List (List Char) → List Char
  | [] => []
  | line :: later => trimEnd line ++ spaced later

section Trimming

variable {text first last : List Char} {c : Char}

theorem trimEnd_blank (blank : Predicate.Blank text) : trimEnd text = [] := by
  rw [trimEnd, Text.trimEndMatches, dropWhile_eq_nil_iff.mpr fun c mem => blank c (mem_reverse.mp mem)]
  rfl

theorem trimEnd_append_solid (solid : Text.isWhitespace c = false) (first last : List Char) :
    trimEnd (first ++ c :: last) = first ++ c :: trimEnd last := by
  have stops : (c :: first.reverse).dropWhile Text.isWhitespace = c :: first.reverse :=
    dropWhile_cons_of_neg (by rw [solid]; decide)
  have split : (first ++ c :: last).reverse = last.reverse ++ c :: first.reverse := by simp
  unfold trimEnd Text.trimEndMatches
  rw [split, dropWhile_append, stops]
  split
  · rename_i none
    rw [List.isEmpty_iff] at none
    rw [none]
    simp
  · simp

theorem trimEnd_cons_solid (solid : Text.isWhitespace c = false) (text : List Char) :
    trimEnd (c :: text) = c :: trimEnd text := trimEnd_append_solid solid [] text

theorem trim_cons_blank (blank : Text.isWhitespace c = true) (text : List Char) :
    Text.trim (c :: text) = Text.trim text := by
  unfold Text.trim
  rw [dropWhile_cons_of_pos blank]

theorem trim_cons_solid (solid : Text.isWhitespace c = false) (text : List Char) :
    Text.trim (c :: text) = c :: trimEnd text := by
  rw [Text.trim, dropWhile_cons_of_neg (by rw [solid]; decide)]
  exact trimEnd_cons_solid solid text

theorem mem_of_mem_trimEnd (mem : c ∈ trimEnd text) : c ∈ text := by
  have kept := (dropWhile_sublist Text.isWhitespace).subset (mem_reverse.mp mem)
  exact mem_reverse.mp kept

theorem mem_of_mem_trim (mem : c ∈ Text.trim text) : c ∈ text :=
  (dropWhile_sublist Text.isWhitespace).subset (mem_of_mem_trimEnd mem)

theorem solid_ne_newline (solid : Text.isWhitespace c = false) : c ≠ '\n' := by
  intro same
  rw [same] at solid
  exact absurd solid (by decide)

end Trimming

section Splitting

variable {text : List Char} {c : Char}

theorem splitLines_eq_cons (text : List Char) : ∃ line later, splitLines text = line :: later := by
  induction text with
  | nil => exact ⟨[], [], rfl⟩
  | cons c text ih =>
    obtain ⟨line, later, same⟩ := ih
    unfold splitLines
    split
    · exact ⟨[], _, rfl⟩
    · exact ⟨c :: line, later, by rw [same]; rfl⟩

theorem splitLines_newline (text : List Char) : splitLines ('\n' :: text) = [] :: splitLines text :=
  if_pos rfl

theorem splitLines_cons (apart : c ≠ '\n') {line : List Char} {later : List (List Char)}
    (same : splitLines text = line :: later) : splitLines (c :: text) = (c :: line) :: later := by
  rw [splitLines, if_neg apart, same]
  rfl

theorem splitLines_plain_append {line : List Char} (plain : '\n' ∉ line) {head : List Char}
    {later : List (List Char)} (same : splitLines text = head :: later) :
    splitLines (line ++ text) = (line ++ head) :: later := by
  induction line with
  | nil => exact same
  | cons c line ih =>
    rw [mem_cons, not_or] at plain
    exact splitLines_cons (Ne.symm plain.1) (ih plain.2)

theorem mem_of_mem_splitLines {line : List Char} (found : line ∈ splitLines text) (mem : c ∈ line) :
    c ∈ text := by
  induction text generalizing line with
  | nil => rwa [mem_singleton.mp found] at mem
  | cons d text ih =>
    by_cases newline : d = '\n'
    · subst newline
      rw [splitLines_newline] at found
      rcases mem_cons.mp found with rfl | found
      · exact absurd mem not_mem_nil
      · exact mem_cons_of_mem _ (ih found mem)
    obtain ⟨head, later, same⟩ := splitLines_eq_cons text
    rw [splitLines_cons newline same] at found
    rcases mem_cons.mp found with rfl | found
    · rcases mem_cons.mp mem with rfl | mem
      · exact mem_cons_self
      · exact mem_cons_of_mem _ (ih (by rw [same]; exact mem_cons_self) mem)
    · exact mem_cons_of_mem _ (ih (by rw [same]; exact mem_cons_of_mem _ found) mem)

end Splitting

section Joining

variable {text run : List Char} {c : Char}

theorem joined_newline (text : List Char) :
    joined (splitLines ('\n' :: text)) = ' ' :: joined (splitLines text) := by
  obtain ⟨line, later, same⟩ := splitLines_eq_cons text
  rw [splitLines_newline, same]
  rfl

theorem joined_blank (blank : Text.isWhitespace c = true) (apart : c ≠ '\n') (text : List Char) :
    joined (splitLines (c :: text)) = joined (splitLines text) := by
  obtain ⟨line, later, same⟩ := splitLines_eq_cons text
  rw [splitLines_cons apart same, same, joined, joined, trim_cons_blank blank]

theorem joined_solid (solid : Text.isWhitespace c = false) (text : List Char) :
    joined (splitLines (c :: text)) = c :: joinedAfter (splitLines text) := by
  obtain ⟨line, later, same⟩ := splitLines_eq_cons text
  rw [splitLines_cons (solid_ne_newline solid) same, same, joined, joinedAfter, trim_cons_solid solid]
  rfl

/-- Each break among the blanks before a text is a space. -/
theorem joined_blanks (blank : Predicate.Blank run) (solid : Text.isWhitespace c = false)
    (text : List Char) : joined (splitLines (run ++ c :: text)) =
      ((run.filter fun c => c = '\n').map fun _ => ' ') ++ c :: joinedAfter (splitLines text) := by
  induction run with
  | nil => exact joined_solid solid text
  | cons d run ih =>
    have rest := ih fun other mem => blank other (mem_cons_of_mem _ mem)
    by_cases newline : d = '\n'
    · subst newline
      rw [cons_append, joined_newline, rest]
      rfl
    · rw [cons_append, joined_blank (blank d mem_cons_self) newline, rest,
        filter_cons_of_neg (by simpa using newline)]

theorem joinedAfter_blanks (blank : Predicate.Blank run) (solid : Text.isWhitespace c = false)
    (text : List Char) : joinedAfter (splitLines (run ++ c :: text)) =
      foldBlanks run ++ c :: joinedAfter (splitLines text) := by
  unfold foldBlanks
  split
  · rename_i broken
    obtain ⟨before, after, rfl, plain⟩ := eq_append_cons_of_mem broken
    have start : Predicate.Blank before := fun other mem => blank other (by simp [mem])
    have stop : Predicate.Blank after := fun other mem => blank other (by simp [mem])
    have none : before.filter (fun c => c = '\n') = [] := by
      rw [filter_eq_nil_iff]
      rintro other mem same
      obtain rfl := of_decide_eq_true same
      exact plain mem
    have breaks : (before ++ '\n' :: after).filter (fun c => c = '\n') =
        '\n' :: after.filter fun c => c = '\n' := by
      rw [filter_append, none, nil_append, filter_cons_of_pos (by decide)]
    obtain ⟨line, later, same⟩ := splitLines_eq_cons (after ++ c :: text)
    have lines : splitLines ((before ++ '\n' :: after) ++ c :: text) = before :: line :: later := by
      have first := splitLines_plain_append plain ((splitLines_newline (after ++ c :: text)).trans (by rw [same]))
      rw [append_nil] at first
      rwa [append_assoc]
    have tail := joined_blanks stop solid text
    rw [same] at tail
    rw [lines, breaks, joinedAfter, trimEnd_blank start, map_cons, cons_append, ← tail]
    rfl
  rename_i plain
  obtain ⟨line, later, same⟩ := splitLines_eq_cons text
  rw [splitLines_plain_append plain (splitLines_cons (solid_ne_newline solid) same), same, joinedAfter,
    joinedAfter, trimEnd_append_solid solid, append_assoc]
  rfl

theorem joinedAfter_cut (blank : Predicate.Blank run) (solid : Text.isWhitespace c = false)
    (first last : List Char) : joinedAfter (splitLines (run ++ (first ++ c :: last))) =
      oneLine run first ++ c :: joinedAfter (splitLines last) := by
  induction first generalizing run with
  | nil => exact joinedAfter_blanks blank solid last
  | cons d first ih =>
    unfold oneLine
    split
    · rename_i space
      have longer : Predicate.Blank (run ++ [d]) := by
        intro other mem
        rcases mem_append.mp mem with mem | mem
        · exact blank other mem
        · rwa [mem_singleton.mp mem]
      rw [← ih longer, append_assoc]
      rfl
    rename_i other
    have visible : Text.isWhitespace d = false := by simpa using other
    have empty : Predicate.Blank [] := fun _ mem => absurd mem not_mem_nil
    rw [cons_append, joinedAfter_blanks blank visible, append_assoc, cons_append, ← ih empty]
    rfl

theorem mem_joinedAfter (solid : Text.isWhitespace c = false) :
    c ∈ joinedAfter (splitLines text) ↔ c ∈ text := by
  constructor
  · intro mem
    obtain ⟨line, later, same⟩ := splitLines_eq_cons text
    rw [same, joinedAfter, mem_append] at mem
    rcases mem with mem | mem
    · exact mem_of_mem_splitLines (by rw [same]; exact mem_cons_self) (mem_of_mem_trimEnd mem)
    obtain ⟨line', held, inside⟩ := mem_flatMap.mp mem
    rcases mem_cons.mp inside with rfl | inside
    · exact absurd solid (by decide)
    · exact mem_of_mem_splitLines (by rw [same]; exact mem_cons_of_mem _ held) (mem_of_mem_trim inside)
  intro mem
  obtain ⟨before, after, rfl⟩ := append_of_mem mem
  have cut := joinedAfter_cut (fun _ mem => absurd mem not_mem_nil) solid before after
  rw [nil_append] at cut
  rw [cut]
  simp

end Joining

section OneLine

variable {text run : List Char} {c : Char}

theorem blank_nil : Predicate.Blank [] := fun _ mem => absurd mem not_mem_nil

theorem foldBlanks_blank (blank : Predicate.Blank run) : Predicate.Blank (foldBlanks run) := by
  unfold foldBlanks
  split
  · intro c mem
    obtain ⟨-, -, rfl⟩ := mem_map.mp mem
    decide
  · exact blank

theorem oneLine_append_solid (solid : Text.isWhitespace c = false) (run first last : List Char) :
    oneLine run (first ++ c :: last) = oneLine run first ++ c :: oneLine [] last := by
  induction first generalizing run with
  | nil =>
    have visible : ¬ Text.isWhitespace c = true := by rw [solid]; decide
    rw [nil_append]
    exact if_neg visible
  | cons d first ih =>
    rw [cons_append, oneLine, oneLine]
    split
    · exact ih _
    · rw [ih, append_assoc]
      rfl

theorem oneLine_blank (blank : Predicate.Blank text) : oneLine run text = foldBlanks (run ++ text) := by
  induction text generalizing run with
  | nil => rw [oneLine, append_nil]
  | cons c text ih =>
    obtain ⟨white, blank⟩ := forall_mem_cons.mp blank
    rw [oneLine, if_pos white, ih blank, append_assoc]
    rfl

theorem blank_oneLine (blank : Predicate.Blank text) : Predicate.Blank (oneLine [] text) := by
  rw [oneLine_blank blank]
  exact foldBlanks_blank blank

/-- No blank comes before what follows the first blanks. -/
theorem dropWhile_oneLine {stop : List Char} (blank : Predicate.Blank run)
    (solid : Text.isWhitespace c = false) :
    (oneLine run text ++ c :: stop).dropWhile Text.isWhitespace =
      oneLine [] (text.dropWhile Text.isWhitespace) ++ c :: stop := by
  induction text generalizing run with
  | nil =>
    rw [oneLine, dropWhile_append_of_pos (foldBlanks_blank blank),
      dropWhile_cons_of_neg (by rw [solid]; decide)]
    rfl
  | cons d text ih =>
    rw [oneLine]
    split
    · rename_i white
      have longer := forall_mem_append.mpr ⟨blank, forall_mem_singleton.mpr white⟩
      rw [dropWhile_cons_of_pos white]
      exact ih longer
    rename_i visible
    rw [append_assoc, dropWhile_append_of_pos (foldBlanks_blank blank), cons_append,
      dropWhile_cons_of_neg visible, dropWhile_cons_of_neg visible, oneLine, if_neg visible]
    rfl

/-- Only a line that starts without blanks starts with another character. -/
theorem nil_of_foldBlanks {rest more : List Char} (blank : Predicate.Blank run)
    (solid : Text.isWhitespace c = false) (same : foldBlanks run ++ more = c :: rest) : run = [] := by
  cases folded : foldBlanks run with
  | nil =>
    unfold foldBlanks at folded
    split at folded
    · rename_i broken
      have mem : '\n' ∈ run.filter fun c => c = '\n' := mem_filter.mpr ⟨broken, rfl⟩
      rw [map_eq_nil_iff.mp folded] at mem
      exact absurd mem not_mem_nil
    · exact folded
  | cons d folds =>
    have white := foldBlanks_blank blank d (by rw [folded]; exact mem_cons_self)
    rw [folded] at same
    rw [(List.cons.inj same).1, solid] at white
    contradiction

theorem oneLine_cons {d : Char} {stop rest : List Char} (blank : Predicate.Blank run)
    (solid : Text.isWhitespace d = false) (apart : d ≠ c) (same : oneLine run text ++ c :: stop = d :: rest) :
    run = [] ∧ ∃ later, text = d :: later ∧ rest = oneLine [] later ++ c :: stop := by
  induction text generalizing run with
  | nil =>
    rw [oneLine] at same
    obtain rfl := nil_of_foldBlanks blank solid same
    exact absurd (List.cons.inj same).1.symm apart
  | cons e text ih =>
    rw [oneLine] at same
    split at same
    · rename_i white
      have none := (ih (forall_mem_append.mpr ⟨blank, forall_mem_singleton.mpr white⟩) same).1
      exact absurd none (append_ne_nil_of_right_ne_nil _ (cons_ne_nil e []))
    rw [append_assoc] at same
    obtain rfl := nil_of_foldBlanks blank solid same
    obtain ⟨rfl, rfl⟩ := List.cons.inj same
    exact ⟨rfl, text, rfl, rfl⟩

theorem mem_oneLine (solid : Text.isWhitespace c = false) (mem : c ∈ text) : c ∈ oneLine run text := by
  obtain ⟨before, after, rfl⟩ := append_of_mem mem
  rw [oneLine_append_solid solid]
  simp

theorem mem_of_mem_oneLine (solid : Text.isWhitespace c = false) (mem : c ∈ oneLine [] text) : c ∈ text := by
  by_contra absent
  have folded {run : List Char} (blank : Predicate.Blank run) (found : c ∈ oneLine run text) : c ∈ text := by
    clear mem absent
    induction text generalizing run with
    | nil =>
      have white := foldBlanks_blank blank c found
      rw [solid] at white
      contradiction
    | cons d text ih =>
      rw [oneLine] at found
      split at found
      · rename_i white
        exact mem_cons_of_mem _
          (ih (forall_mem_append.mpr ⟨blank, forall_mem_singleton.mpr white⟩) found)
      rcases mem_append.mp found with found | found
      · have white := foldBlanks_blank blank c found
        rw [solid] at white
        contradiction
      rcases mem_cons.mp found with rfl | found
      · exact mem_cons_self
      · exact mem_cons_of_mem _ (ih blank_nil found)
  exact absent (folded blank_nil mem)

end OneLine

section Reading

variable {text rest : List Char} {c : Char}

theorem stripPrefix_append (start rest : List Char) : Text.stripPrefix start (start ++ rest) = some rest := by
  rw [Text.stripPrefix, if_pos ( isPrefixOf_iff_prefix.mpr (prefix_append start rest)), drop_left]

theorem eq_append_of_stripPrefix {start : List Char} (found : Text.stripPrefix start text = some rest) :
    text = start ++ rest := by
  unfold Text.stripPrefix at found
  split at found
  · rename_i starts
    obtain ⟨after, rfl⟩ := isPrefixOf_iff_prefix.mp starts
    rw [drop_left] at found
    rw [Option.some.inj found]
  · contradiction

theorem beforeLast_append (absent : c ∉ rest) (text : List Char) :
    beforeLast c (text ++ c :: rest) = some text := by
  have passed : ∀ other ∈ rest.reverse, decide (other ≠ c) = true := by
    intro other mem
    refine decide_eq_true ?_
    rintro rfl
    exact absent (mem_reverse.mp mem)
  have split : (text ++ c :: rest).reverse = rest.reverse ++ c :: text.reverse := by simp
  rw [beforeLast, if_pos (by simp), split, dropWhile_append_of_pos passed,
    dropWhile_cons_of_neg (by simp), tail_cons, reverse_reverse]

/-- Blanks around the name and its parenthesis are passed over. -/
theorem cfgBody_blanks {before gap : List Char} (blank : Predicate.Blank before) (blank' : Predicate.Blank gap)
    (rest : List Char) : cfgBody (before ++ ['c', 'f', 'g'] ++ gap ++ '(' :: rest) = some rest := by
  have first : (before ++ ['c', 'f', 'g'] ++ gap ++ '(' :: rest).dropWhile Text.isWhitespace =
      ['c', 'f', 'g'] ++ (gap ++ '(' :: rest) := by
    rw [append_assoc, append_assoc, dropWhile_append_of_pos blank]
    exact dropWhile_cons_of_neg (by decide)
  have second : (gap ++ '(' :: rest).dropWhile Text.isWhitespace = ['('] ++ rest := by
    rw [dropWhile_append_of_pos blank']
    exact dropWhile_cons_of_neg (by decide)
  rw [cfgBody, first, stripPrefix_append, Option.bind_some, second, stripPrefix_append]

theorem exists_of_cfgBody_oneLine {stop : List Char}
    (found : cfgBody (oneLine [] text ++ ']' :: stop) = some rest) : ∃ before gap later,
      Predicate.Blank before ∧ Predicate.Blank gap ∧ text = before ++ ['c', 'f', 'g'] ++ gap ++ '(' :: later := by
  obtain ⟨after, name, paren⟩ := Option.bind_eq_some_iff.mp found
  have start := eq_append_of_stripPrefix name
  rw [dropWhile_oneLine blank_nil (by decide)] at start
  obtain ⟨-, second, first, start⟩ := oneLine_cons blank_nil (by decide) (by decide) start
  obtain ⟨-, third, next, start⟩ := oneLine_cons blank_nil (by decide) (by decide) start.symm
  obtain ⟨-, fourth, last, start⟩ := oneLine_cons blank_nil (by decide) (by decide) start.symm
  have stops := eq_append_of_stripPrefix paren
  have same : after = oneLine [] fourth ++ ']' :: stop := start
  rw [same, dropWhile_oneLine blank_nil (by decide)] at stops
  obtain ⟨-, later, opens, -⟩ := oneLine_cons blank_nil (by decide) (by decide) stops
  refine ⟨text.takeWhile Text.isWhitespace, fourth.takeWhile Text.isWhitespace, later,
    fun c mem => mem_takeWhile_imp mem, fun c mem => mem_takeWhile_imp mem, ?_⟩
  have whole := takeWhile_append_dropWhile (p := Text.isWhitespace) (l := fourth)
  rw [opens] at whole
  have all := takeWhile_append_dropWhile (p := Text.isWhitespace) (l := text)
  rw [first, next, last] at all
  refine all.symm.trans ?_
  rw [append_assoc, append_assoc]
  exact congrArg (fun rest => text.takeWhile Text.isWhitespace ++ 'c' :: 'f' :: 'g' :: rest) whole.symm

end Reading

end Codegraph.RustCfg
