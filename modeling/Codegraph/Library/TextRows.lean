import Codegraph.Library.Text
import Mathlib.Data.List.Infix
import Mathlib.Data.List.TakeWhile

namespace Codegraph.Library.Text

open List

/-- The lines without their breaks. No line follows a break at the end. -/
def rows : List Char → List (List Char)
  | [] => []
  | c :: text =>
    if c = '\n' then [] :: rows text
    else
      match rows text with
      | [] => [[c]]
      | row :: later => (c :: row) :: later

/-- The first place at which the text occurs. -/
def findText (needle : List Char) : List Char → Option Nat
  | [] => if needle.isEmpty then some 0 else none
  | c :: text => if needle.isPrefixOf (c :: text) then some 0 else (findText needle text).map (· + 1)

/-- The text is empty or ends with a line break. -/
def Closed (text : List Char) : Prop := ∀ c, text.getLast? = some c → c = '\n'

theorem closed_nil : Closed [] := fun _ found => nomatch found

theorem Closed.tail {c d : Char} {text : List Char} (closed : Closed (c :: d :: text)) :
    Closed (d :: text) := fun last found => closed last (by rw [getLast?_cons_cons]; exact found)

theorem Closed.append {first second : List Char} (closed : Closed first) (closed' : Closed second) :
    Closed (first ++ second) := by
  intro c found
  rw [getLast?_append] at found
  cases last : second.getLast? with
  | none =>
    rw [last] at found
    exact closed c found
  | some d =>
    rw [last] at found
    obtain rfl := Option.some.inj found
    exact closed' d last

theorem closed_concat (text : List Char) : Closed (text ++ ['\n']) := by
  intro c found
  rw [getLast?_concat] at found
  exact (Option.some.inj found).symm

section Rows

variable {text first second : List Char}

theorem rows_ne_nil (nonempty : text ≠ []) : rows text ≠ [] := by
  cases text with
  | nil => exact absurd rfl nonempty
  | cons c text =>
    unfold rows
    split
    · exact cons_ne_nil _ _
    · split <;> exact cons_ne_nil _ _

theorem rows_newline (text : List Char) : rows ('\n' :: text) = [] :: rows text := by
  rw [rows, if_pos rfl]

theorem rows_cons {c : Char} (apart : c ≠ '\n') {row : List Char} {later : List (List Char)}
    (same : rows text = row :: later) : rows (c :: text) = (c :: row) :: later := by
  rw [rows, if_neg apart, same]

theorem rows_singleton {c : Char} (apart : c ≠ '\n') : rows [c] = [[c]] := by
  rw [rows, if_neg apart]
  rfl

/-- Lines are split apart at the end of a line. -/
theorem rows_append (closed : Closed first) : rows (first ++ second) = rows first ++ rows second := by
  induction first with
  | nil => rfl
  | cons c first ih =>
    cases first with
    | nil =>
      obtain rfl := closed c rfl
      rw [singleton_append, rows_newline, rows_newline]
      rfl
    | cons d first =>
      have rest := ih closed.tail
      by_cases newline : c = '\n'
      · subst newline
        rw [cons_append, rows_newline, rows_newline, rest, cons_append]
      obtain ⟨row, later, same⟩ := exists_cons_of_ne_nil (rows_ne_nil (cons_ne_nil d first))
      rw [same, cons_append] at rest
      rw [rows_cons newline same, cons_append]
      exact rows_cons newline rest

/-- A break ends the last line or adds an empty one. -/
theorem rows_concat_newline (text : List Char) :
    rows (text ++ ['\n']) = rows text ∨ rows (text ++ ['\n']) = rows text ++ [[]] := by
  induction text with
  | nil => exact .inr rfl
  | cons c text ih =>
    by_cases newline : c = '\n'
    · subst newline
      rwa [cons_append, rows_newline, rows_newline, cons_append, cons_inj_right, cons_inj_right]
    cases text with
    | nil =>
      left
      rw [cons_append, nil_append, rows_cons newline (rows_newline []), rows_singleton newline]
      rfl
    | cons d text =>
      obtain ⟨row, later, same⟩ := exists_cons_of_ne_nil (rows_ne_nil (cons_ne_nil d text))
      rw [same] at ih
      rw [cons_append, rows_cons newline same]
      exact ih.imp (rows_cons newline) (rows_cons newline)

theorem rows_append_newline (first second : List Char) :
    rows (first ++ '\n' :: second) = rows first ++ rows second ∨
      rows (first ++ '\n' :: second) = rows first ++ [] :: rows second := by
  have split : rows (first ++ '\n' :: second) = rows (first ++ ['\n']) ++ rows second := by
    rw [← rows_append (closed_concat first), append_assoc]
    rfl
  rw [split]
  exact (rows_concat_newline first).imp (congrArg (· ++ _)) fun same => by rw [same, append_assoc]; rfl

/-- A line is followed by the end or by a break and the other lines. -/
theorem rows_eq_cons {row : List Char} {later : List (List Char)} (same : rows text = row :: later) :
    '\n' ∉ row ∧ (text = row ∧ later = [] ∨ ∃ rest, text = row ++ '\n' :: rest ∧ rows rest = later) := by
  induction text generalizing row with
  | nil => cases same
  | cons c text ih =>
    by_cases newline : c = '\n'
    · subst newline
      rw [rows_newline] at same
      obtain ⟨rfl, rfl⟩ := List.cons.inj same
      exact ⟨not_mem_nil, .inr ⟨text, rfl, rfl⟩⟩
    cases found : rows text with
    | nil =>
      have empty : text = [] := by
        by_contra nonempty
        exact rows_ne_nil nonempty found
      subst empty
      rw [rows_singleton newline] at same
      obtain ⟨rfl, rfl⟩ := List.cons.inj same
      exact ⟨by simpa using Ne.symm newline, .inl ⟨rfl, rfl⟩⟩
    | cons row' later' =>
      rw [rows_cons newline found] at same
      obtain ⟨rfl, rfl⟩ := List.cons.inj same
      obtain ⟨plain, whole⟩ := ih found
      refine ⟨by simpa [plain] using Ne.symm newline, whole.imp ?_ ?_⟩
      · rintro ⟨rfl, none⟩
        exact ⟨rfl, none⟩
      · rintro ⟨rest, rfl, others⟩
        exact ⟨rest, rfl, others⟩

theorem tail_rows_cons {c : Char} (apart : c ≠ '\n') (text : List Char) :
    (rows (c :: text)).tail = (rows text).tail := by
  cases found : rows text with
  | nil =>
    rw [rows, if_neg apart, found]
    rfl
  | cons row later =>
    rw [rows_cons apart found]
    rfl

/-- Another character makes the last line longer or starts a line. -/
theorem rows_concat {c : Char} (apart : c ≠ '\n') (text : List Char) :
    rows (text ++ [c]) = rows text ++ [[c]] ∨
      ∃ front last, rows text = front ++ [last] ∧ rows (text ++ [c]) = front ++ [last ++ [c]] := by
  induction text with
  | nil => exact .inl (rows_singleton apart)
  | cons d text ih =>
    by_cases newline : d = '\n'
    · subst newline
      rw [cons_append, rows_newline, rows_newline]
      rcases ih with same | ⟨front, last, same, longer⟩
      · exact .inl (congrArg _ same)
      · exact .inr ⟨[] :: front, last, congrArg _ same, congrArg _ longer⟩
    cases text with
    | nil => exact .inr ⟨[], [d], rows_singleton newline, rows_cons newline (rows_singleton apart)⟩
    | cons e text =>
      rcases ih with same | ⟨front, last, same, longer⟩
      · obtain ⟨row, later, found⟩ := exists_cons_of_ne_nil (rows_ne_nil (cons_ne_nil e text))
        rw [found] at same
        rw [rows_cons newline found]
        exact .inl (rows_cons newline same)
      right
      cases front with
      | nil => exact ⟨[], d :: last, rows_cons newline same, rows_cons newline longer⟩
      | cons row front =>
        exact ⟨(d :: row) :: front, last, rows_cons newline same, rows_cons newline longer⟩

theorem rows_line {row : List Char} (plain : '\n' ∉ row) (rest : List Char) :
    rows (row ++ '\n' :: rest) = row :: rows rest := by
  induction row with
  | nil => exact rows_newline rest
  | cons c row ih =>
    rw [mem_cons, not_or] at plain
    rw [cons_append]
    exact rows_cons (Ne.symm plain.1) (ih plain.2)

theorem rows_plain {row : List Char} (plain : '\n' ∉ row) (nonempty : row ≠ []) : rows row = [row] := by
  rcases rows_concat_newline row with same | same
  · rw [← same, rows_line plain]
    rfl
  rw [rows_line plain] at same
  have lengths := congrArg List.length same
  rw [length_append] at lengths
  exact absurd (length_eq_zero_iff.mp (show (rows row).length = 0 by simpa [rows] using lengths))
    (rows_ne_nil nonempty)

end Rows

section Starts

/-- Only the first line of a text decides. -/
structure FirstRow (start : List Char → Bool) : Prop where
  empty : start [] = false
  row : ∀ row rest, '\n' ∉ row → start (row ++ '\n' :: rest) = start row

variable {start : List Char → Bool}

section

variable (firstRow : FirstRow start)
include firstRow

theorem FirstRow.head {text row : List Char} {later : List (List Char)}
    (same : rows text = row :: later) : start row = start text := by
  obtain ⟨plain, ⟨rfl, -⟩ | ⟨rest, rfl, -⟩⟩ := rows_eq_cons same
  · rfl
  · exact (firstRow.row row rest plain).symm

variable (text : List Char)

/-- A later line starts so when a text after a break does. -/
theorem FirstRow.exists_tail_iff :
    (∃ row ∈ (rows text).tail, start row = true) ↔ ∃ front rest, text = front ++ '\n' :: rest ∧ start rest = true := by
  induction text with
  | nil => simp [rows]
  | cons c text ih =>
    have shift : (∃ front rest, c :: text = front ++ '\n' :: rest ∧ start rest = true) ↔
        (c = '\n' ∧ start text = true) ∨ ∃ front rest, text = front ++ '\n' :: rest ∧ start rest = true := by
      constructor
      · rintro ⟨front, rest, same, starts⟩
        cases front with
        | nil =>
          obtain ⟨rfl, rfl⟩ := List.cons.inj same
          exact .inl ⟨rfl, starts⟩
        | cons d front => exact .inr ⟨front, rest, (List.cons.inj same).2, starts⟩
      rintro (⟨rfl, starts⟩ | ⟨front, rest, rfl, starts⟩)
      · exact ⟨[], text, rfl, starts⟩
      · exact ⟨c :: front, rest, rfl, starts⟩
    rw [shift]
    by_cases newline : c = '\n'
    · subst newline
      rw [rows_newline, tail_cons]
      cases same : rows text with
      | nil =>
        have empty : text = [] := by
          by_contra nonempty
          exact rows_ne_nil nonempty same
        subst empty
        simp [firstRow.empty]
      | cons row later =>
        rw [← ih, same, tail_cons, exists_mem_cons_iff, firstRow.head same]
        simp
    · rw [tail_rows_cons newline, ih]
      simp [newline]

theorem FirstRow.exists_iff : (∃ row ∈ rows text, start row = true) ↔
      start text = true ∨ ∃ front rest, text = front ++ '\n' :: rest ∧ start rest = true := by
  rw [← firstRow.exists_tail_iff]
  cases same : rows text with
  | nil =>
    have empty : text = [] := by
      by_contra nonempty
      exact rows_ne_nil nonempty same
    subst empty
    simp [firstRow.empty]
  | cons row later => rw [exists_mem_cons_iff, firstRow.head same, tail_cons]

theorem FirstRow.exists_cut :
    ∃ before after, text = before ++ after ∧ (∀ row ∈ rows before, start row = false) ∧
      (after = [] ∨ Closed before ∧ start after = true) := by
  induction same : rows text generalizing text with
  | nil =>
    refine ⟨text, [], (append_nil _).symm, ?_, .inl rfl⟩
    rw [same]
    exact fun row mem => nomatch mem
  | cons row later ih =>
    by_cases starts : start text = true
    · exact ⟨[], text, rfl, by simp [rows], .inr ⟨closed_nil, starts⟩⟩
    rw [Bool.not_eq_true, ← firstRow.head same] at starts
    obtain ⟨plain, ⟨rfl, rfl⟩ | ⟨rest, rfl, rfl⟩⟩ := rows_eq_cons same
    · refine ⟨text, [], (append_nil _).symm, fun row mem => ?_, .inl rfl⟩
      rw [same, mem_singleton] at mem
      rw [mem, starts]
    obtain ⟨before, after, rfl, absent, ending⟩ := ih rest rfl
    refine ⟨row ++ '\n' :: before, after, by simp, fun other mem => ?_,
      ending.imp id fun found => ⟨?_, found.2⟩⟩
    · rw [rows_line plain] at mem
      rcases mem_cons.mp mem with rfl | later
      · exact starts
      · exact absent other later
    have closed := (closed_concat row).append found.1
    rwa [append_assoc] at closed

theorem FirstRow.cut_rows {before after : List Char} (absent : ∀ row ∈ rows before, start row = false)
    (ending : after = [] ∨ Closed before ∧ start after = true) :
    (rows (before ++ after)).takeWhile (!start ·) = rows before ∧
      (rows (before ++ after)).dropWhile (!start ·) = rows after := by
  have kept : ∀ row ∈ rows before, (!start row) = true := fun row mem => by rw [absent row mem]; rfl
  rcases ending with rfl | ⟨closed, starts⟩
  · rw [append_nil]
    exact ⟨takeWhile_eq_self_iff.mpr kept, dropWhile_eq_nil_iff.mpr kept⟩
  rw [rows_append closed, takeWhile_append_of_pos kept, dropWhile_append_of_pos kept]
  cases same : rows after with
  | nil => exact ⟨by simp, rfl⟩
  | cons row later =>
    have stop : (!start row) = false := by rw [firstRow.head same, starts]; rfl
    rw [takeWhile_cons_of_neg (by rw [stop]; decide), dropWhile_cons_of_neg (by rw [stop]; decide),
      append_nil]
    exact ⟨rfl, rfl⟩

/-- A break before such a line is found. -/
theorem FirstRow.offset {c : Char} {before after : List Char}
    (absent : ∀ row ∈ (rows (c :: before)).tail, start row = false)
    (ending : after = [] ∨ Closed (c :: before) ∧ start after = true) :
    (c = '\n' ∧ start (before ++ after) = true) ↔ c = '\n' ∧ before = [] ∧ after ≠ [] := by
  refine and_congr_right fun newline => ?_
  subst newline
  rw [rows_newline, tail_cons] at absent
  cases same : rows before with
  | nil =>
    have empty : before = [] := by
      by_contra nonempty
      exact rows_ne_nil nonempty same
    subst empty
    rcases ending with rfl | ⟨-, starts⟩
    · simp [firstRow.empty]
    have nonempty : after ≠ [] := fun nothing => by
      rw [nothing, firstRow.empty] at starts
      cases starts
    simp [starts, nonempty]
  | cons row later =>
    have nonempty : before ≠ [] := fun nothing => by
      rw [nothing] at same
      cases same
    have first : start (before ++ after) = start row := by
      obtain ⟨plain, ⟨rfl, -⟩ | ⟨rest, rfl, -⟩⟩ := rows_eq_cons same
      · rcases ending with rfl | ⟨closed, -⟩
        · rw [append_nil]
        have last : before.getLast? = some '\n' := by
          have found := getLast?_eq_some_getLast nonempty
          have broken : before.getLast nonempty = '\n' := closed _ (by rw [getLast?_cons, found]; rfl)
          rw [found, broken]
        exact absurd (mem_of_getLast? last) plain
      · rw [append_assoc, cons_append, firstRow.row _ _ plain]
    rw [first, absent row (by rw [same]; exact mem_cons_self)]
    simp [nonempty]

end

theorem FirstRow.none_tail {c : Char} {before : List Char}
    (absent : ∀ row ∈ (rows (c :: before)).tail, start row = false) :
    ∀ row ∈ (rows before).tail, start row = false := by
  intro row mem
  by_cases newline : c = '\n'
  · subst newline
    rw [rows_newline, tail_cons] at absent
    exact absent row (mem_of_mem_tail mem)
  · rw [tail_rows_cons newline] at absent
    exact absent row mem

theorem FirstRow.ending_tail {c d : Char} {before after : List Char}
    (ending : after = [] ∨ Closed (c :: d :: before) ∧ start after = true) :
    after = [] ∨ Closed (d :: before) ∧ start after = true := ending.imp id fun found => ⟨found.1.tail, found.2⟩

theorem firstRow_prefix {needle : List Char} (plain : '\n' ∉ needle) (nonempty : needle ≠ []) :
    FirstRow (needle.isPrefixOf ·) where
  empty := by
    cases needle with
    | nil => exact absurd rfl nonempty
    | cons => rfl
  row row rest _ := by
    rw [Bool.eq_iff_iff, isPrefixOf_iff_prefix, isPrefixOf_iff_prefix]
    refine ⟨fun front => ?_, fun front => front.trans (prefix_append _ _)⟩
    rcases lt_or_ge row.length needle.length with long | short
    · have line : row ++ ['\n'] <+: row ++ '\n' :: rest := ⟨rest, by simp⟩
      have within := prefix_of_prefix_length_le line front (by simpa using long)
      exact absurd (within.subset (mem_append_right _ (mem_singleton_self _))) plain
    · exact prefix_of_prefix_length_le front (prefix_append _ _) short

/-- The first break before such a line is at the cut. -/
theorem findText_cut {needle : List Char} (plain : '\n' ∉ needle) (nonempty : needle ≠ [])
    {before after : List Char} (some' : before ≠ [])
    (absent : ∀ row ∈ (rows before).tail, needle.isPrefixOf row = false)
    (ending : after = [] ∨ Closed before ∧ needle.isPrefixOf after = true) :
    findText ('\n' :: needle) (before ++ after) = if after = [] then none else some (before.length - 1) := by
  have firstRow := firstRow_prefix plain nonempty
  induction before with
  | nil => exact absurd rfl some'
  | cons c before ih =>
    have here : ('\n' :: needle).isPrefixOf (c :: (before ++ after)) = true ↔
        c = '\n' ∧ before = [] ∧ after ≠ [] := by
      rw [← firstRow.offset absent ending, List.isPrefixOf, Bool.and_eq_true, beq_iff_eq, eq_comm]
    rw [cons_append, findText]
    split
    · rename_i found
      obtain ⟨rfl, rfl, follows⟩ := here.mp found
      rw [if_neg follows]
      rfl
    rename_i lost
    cases before with
    | nil =>
      have empty : after = [] := by
        by_contra follows
        rcases ending with nothing | ⟨closed, -⟩
        · exact follows nothing
        · exact lost (here.mpr ⟨closed c rfl, rfl, follows⟩)
      rw [empty]
      rfl
    | cons d before =>
      rw [ih (cons_ne_nil d before) (FirstRow.none_tail absent)
        (FirstRow.ending_tail ending)]
      split <;> simp

end Starts

section Shown

def trimEnd (text : List Char) : List Char := trimEndMatches isWhitespace text

/-- The lines that are not blank, without the white space at their ends. -/
def shownLines (lines : List (List Char)) : List (List Char) := (lines.map trimEnd).filter (· ≠ [])

def shownRows (text : List Char) : List (List Char) := shownLines (rows text)

theorem shownRows_append_newline (first second : List Char) :
    shownRows (first ++ '\n' :: second) = shownRows first ++ shownRows second := by
  unfold shownRows shownLines
  rcases rows_append_newline first second with same | same
  · rw [same, map_append, filter_append]
  · rw [same, map_append, filter_append, map_cons]
    rfl

theorem shownRows_append {first second : List Char} (closed : Closed first) :
    shownRows (first ++ second) = shownRows first ++ shownRows second := by
  unfold shownRows shownLines
  rw [rows_append closed, map_append, filter_append]

theorem trimEnd_concat {c : Char} (blank : isWhitespace c = true) (text : List Char) :
    trimEnd (text ++ [c]) = trimEnd text := by
  unfold trimEnd trimEndMatches
  rw [reverse_append, reverse_singleton, singleton_append, dropWhile_cons_of_pos blank]

theorem shownRows_concat {c : Char} (blank : isWhitespace c = true) (text : List Char) :
    shownRows (text ++ [c]) = shownRows text := by
  by_cases newline : c = '\n'
  · subst newline
    rw [shownRows_append_newline]
    exact append_nil _
  unfold shownRows shownLines
  have nothing : trimEnd [c] = [] := trimEnd_concat blank []
  rcases rows_concat newline text with same | ⟨front, last, same, longer⟩
  · rw [same, map_append, filter_append, map_singleton, nothing]
    exact append_nil _
  · rw [same, longer, map_append, map_append, map_singleton, map_singleton, trimEnd_concat blank]

theorem shownRows_append_blank {text blank : List Char} (white : ∀ c ∈ blank, isWhitespace c = true) :
    shownRows (text ++ blank) = shownRows text := by
  induction blank using List.reverseRecOn with
  | nil => rw [append_nil]
  | append_singleton blank c ih =>
    rw [← append_assoc, shownRows_concat (white c (mem_append_right _ (mem_singleton_self c)))]
    exact ih fun other mem => white other (mem_append_left _ mem)

/-- What is cut off at the end. -/
theorem trimEndMatches_append (drop : Char → Bool) (text : List Char) :
    ∃ rest, text = trimEndMatches drop text ++ rest ∧ ∀ c ∈ rest, drop c = true := by
  refine ⟨(text.reverse.takeWhile drop).reverse, ?_, fun c mem => ?_⟩
  · rw [trimEndMatches, ← reverse_append, takeWhile_append_dropWhile, reverse_reverse]
  · exact mem_takeWhile_imp (mem_reverse.mp mem)

theorem trimEndMatches_of_append {drop : Char → Bool} {text rest : List Char}
    (dropped : ∀ c ∈ rest, drop c = true) : trimEndMatches drop (text ++ rest) = trimEndMatches drop text := by
  unfold trimEndMatches
  rw [reverse_append, dropWhile_append_of_pos fun c mem => dropped c (mem_reverse.mp mem)]

theorem trimEndMatches_of_last {drop : Char → Bool} {text : List Char}
    (kept : ∀ c, text.getLast? = some c → drop c = false) : trimEndMatches drop text = text := by
  induction text using List.reverseRecOn with
  | nil => rfl
  | append_singleton text c _ =>
    have last := kept c getLast?_concat
    rw [trimEndMatches, reverse_append, reverse_singleton, singleton_append,
      dropWhile_cons_of_neg (by rw [last]; decide), reverse_cons, reverse_reverse]

theorem last_trimEndMatches (drop : Char → Bool) (text : List Char) :
    ∀ c, (trimEndMatches drop text).getLast? = some c → drop c = false := by
  intro c found
  rw [trimEndMatches, getLast?_reverse] at found
  have stop := head?_dropWhile_not drop text.reverse
  rw [found] at stop
  simpa using stop

end Shown

section Occurrences

/-- The places at which the lines occur one after another. -/
def occurrences (lines all : List (List Char)) : Nat := all.tails.countP (lines.isPrefixOf ·)

theorem occurrences_eq_zero {line : List Char} {lines all : List (List Char)} (absent : line ∉ all) :
    occurrences (line :: lines) all = 0 := by
  rw [occurrences, countP_eq_zero]
  intro rest mem found
  exact absent (((mem_tails _ _).mp mem).subset
    (( isPrefixOf_iff_prefix.mp found).subset mem_cons_self))

/-- Lines of which the first one stands nowhere else occur once. -/
theorem occurrences_eq_one {line : List Char} {lines before after : List (List Char)}
    (absent : line ∉ before) (absent' : line ∉ after) (front : lines <+: after) :
    occurrences (line :: lines) (before ++ line :: after) = 1 := by
  induction before with
  | nil =>
    have here := isPrefixOf_iff_prefix.mpr ((prefix_cons_inj line).mpr front)
    have rest := @occurrences_eq_zero line lines after absent'
    unfold occurrences at rest ⊢
    rw [nil_append, tails_cons, countP_cons_of_pos here, rest]
  | cons other before ih =>
    rw [mem_cons, not_or] at absent
    have here : ¬(line :: lines).isPrefixOf (other :: (before ++ line :: after)) = true := by
      intro found
      exact absent.1 (cons_prefix_cons.mp ( isPrefixOf_iff_prefix.mp found)).1
    have rest := ih absent.2
    unfold occurrences at rest ⊢
    rw [cons_append, tails_cons, countP_cons_of_neg here, rest]

end Occurrences

end Codegraph.Library.Text
