import Codegraph.Library.TextRows

namespace Codegraph.MarkedSection

open Library.Text List

inductive MarkedSectionAction where
  | created
  | updated
  | appended
  | unchanged
deriving DecidableEq

inductive FileAction where
  | removed
  | notFound
  | kept
deriving DecidableEq

def appendSection (content body : List Char) : List Char :=
  trimEnd content ++ (if trimEnd content ≠ [] then ['\n', '\n'] else []) ++ body ++ ['\n']

/-- The action and the content of the file afterwards. -/
def replaceOrAppendMarkedSection (file : Option (List Char)) (body startMarker endMarker : List Char) :
    MarkedSectionAction × List Char :=
  match file with
  | none => (.created, body ++ ['\n'])
  | some content =>
    match findText startMarker content, findText endMarker content with
    | some startIdx, some endIdx =>
      if startIdx < endIdx then
        if (content.take (endIdx + endMarker.length)).drop startIdx = body then (.unchanged, content)
        else (.updated, content.take startIdx ++ body ++ content.drop (endIdx + endMarker.length))
      else (.appended, appendSection content body)
    | _, _ => (.appended, appendSection content body)

/-- The action and the file, which is deleted when nothing is left in it. -/
def removeMarkedSection (file : Option (List Char)) (startMarker endMarker : List Char) :
    FileAction × Option (List Char) :=
  match file with
  | none => (.kept, none)
  | some content =>
    match findText startMarker content, findText endMarker content with
    | some startIdx, some endIdx =>
      if endIdx ≤ startIdx then (.notFound, some content)
      else
        let before := trimEnd (content.take startIdx)
        let after := (content.drop (endIdx + endMarker.length)).dropWhile isWhitespace
        let joined := before ++ (if before ≠ [] ∧ after ≠ [] then ['\n', '\n'] else []) ++ after
        (.removed, if trim joined = [] then none else some (trim joined ++ ['\n']))
    | _, _ => (.notFound, some content)

/-- Both markers start with a character that they have nowhere else, end with no white space, and
neither one starts the other. -/
structure Markers where
  fence : Char
  name : Bool → List Char
  plain : ∀ side, fence ∉ name side
  apart : ∀ side, ¬name side <+: name !side
  solid : ∀ side, ∀ c ∈ (fence :: name side).getLast?, isWhitespace c = false

namespace Markers

variable (markers : Markers)

/-- The start marker or the end marker. -/
def marker (side : Bool) : List Char := markers.fence :: markers.name side

def Occurs (side : Bool) (text : List Char) (place : Nat) : Prop := markers.marker side <+: text.drop place

/-- A text from a start marker to an end marker without a marker in between. -/
def Block (text : List Char) : Prop :=
  ∃ inside, text = markers.marker true ++ inside ++ markers.marker false ∧
    ∀ side place, ¬markers.Occurs side inside place

/-- The block that ends with the first end marker. -/
structure PreviousBlock (content before block after : List Char) : Prop where
  split : content = before ++ block ++ after
  block : markers.Block block
  first : ∀ place, ¬markers.Occurs false before place

def replaced (content body : List Char) : MarkedSectionAction × List Char :=
  replaceOrAppendMarkedSection (some content) body (markers.marker true) (markers.marker false)

def removed (content : List Char) : Option (List Char) :=
  (removeMarkedSection (some content) (markers.marker true) (markers.marker false)).2

/-- The file has the text without the white space around it, and is gone if there is no text. -/
def Leaves (file : Option (List Char)) (own : List Char) : Prop :=
  file = if trim own = [] then none else some (trim own ++ ['\n'])

def Blank (gap : List Char) : Prop := ∀ c ∈ gap, isWhitespace c = true

/-- A second run changes nothing, and the text of the user is kept and left over. -/
structure Kept (content body : List Char) : Prop where
  again : markers.replaced (markers.replaced content body).2 body =
    (.unchanged, (markers.replaced content body).2)
  around : ∀ before block after, markers.PreviousBlock content before block after →
    (markers.replaced content body).2 = before ++ body ++ after ∧ ∃ gap, Blank gap ∧
      Leaves (markers.removed (markers.replaced content body).2)
        (trimEnd before ++ gap ++ after.dropWhile isWhitespace)
  above : (∀ before block after, ¬markers.PreviousBlock content before block after) →
    (∃ gap, Blank gap ∧ (markers.replaced content body).2 = trimEnd content ++ gap ++ body ++ ['\n']) ∧
      Leaves (markers.removed (markers.replaced content body).2) content

/-- There is no marker, or one block stands before all other markers. -/
def Unambiguous (content : List Char) : Prop :=
  (∀ side place, ¬markers.Occurs side content place) ∨
    ∃ before block after, content = before ++ block ++ after ∧ markers.Block block ∧
      ∀ side place, ¬markers.Occurs side before place

end Markers

section Occurrences

variable {markers : Markers} {side : Bool} {place : Nat} {before block after text : List Char}

theorem findText_eq_some {needle : List Char} (nonempty : needle ≠ []) : findText needle text = some place ↔
    needle <+: text.drop place ∧ ∀ earlier < place, ¬needle <+: text.drop earlier := by
  induction text generalizing place with
  | nil => simp [findText, nonempty]
  | cons c text ih =>
    unfold findText
    split
    · rename_i here
      have here' := isPrefixOf_iff_prefix.mp here
      constructor
      · rintro same
        cases same
        exact ⟨here', fun earlier below => absurd below (Nat.not_lt_zero _)⟩
      rintro ⟨-, first⟩
      rcases Nat.eq_zero_or_pos place with rfl | positive
      · rfl
      · exact absurd here' (first 0 positive)
    rename_i apart
    have apart' : ¬needle <+: c :: text := fun here => apart ( isPrefixOf_iff_prefix.mpr here)
    cases place with
    | zero => simpa using fun here => absurd here apart'
    | succ place =>
      rw [Option.map_eq_some_iff]
      simp only [Nat.add_right_cancel_iff, exists_eq_right, ih, drop_succ_cons]
      refine and_congr_right fun _ => ⟨fun first earlier below => ?_, fun first earlier below => ?_⟩
      · cases earlier with
        | zero => exact apart'
        | succ earlier => exact first earlier (Nat.lt_of_succ_lt_succ below)
      · exact first (earlier + 1) (Nat.succ_lt_succ below)

theorem findText_eq_none {needle : List Char} (nonempty : needle ≠ []) :
    findText needle text = none ↔ ∀ place, ¬needle <+: text.drop place := by
  constructor
  · intro none place here
    have somewhere : ∃ place, needle <+: text.drop place := ⟨place, here⟩
    have found := (findText_eq_some nonempty).mpr
      ⟨Nat.find_spec somewhere, fun earlier below => Nat.find_min somewhere below⟩
    rw [none] at found
    cases found
  intro absent
  cases found : findText needle text with
  | none => rfl
  | some place => exact absurd ((findText_eq_some nonempty).mp found).1 (absent place)

theorem prefix_append_cases {needle rest : List Char} (here : needle <+: text ++ rest) :
    needle <+: text ∨ ∃ more, more ≠ [] ∧ needle = text ++ more ∧ more <+: rest := by
  rcases prefix_or_prefix_of_prefix here (prefix_append text rest) with inside | ⟨more, rfl⟩
  · exact .inl inside
  cases more with
  | nil => exact .inl (by rw [append_nil])
  | cons c more => exact .inr ⟨_, cons_ne_nil _ _, rfl, (prefix_append_right_inj text).mp here⟩

theorem occurs_append_blank {gap : List Char} (blank : Markers.Blank gap) :
    markers.Occurs side (text ++ gap) place ↔ markers.Occurs side text place := by
  rw [Markers.Occurs, drop_append]
  constructor
  · intro here
    rcases prefix_append_cases here with inside | ⟨more, nonempty, same, ends⟩
    · exact inside
    have last := more.getLast_mem nonempty
    have white := blank _ (mem_of_mem_drop (ends.subset last))
    have solid := markers.solid side (more.getLast nonempty) (by
      change _ ∈ (markers.marker side).getLast?
      rw [same, getLast?_append_of_ne_nil _ nonempty, getLast?_eq_some_getLast nonempty]
      rfl)
    rw [white] at solid
    cases solid
  · exact fun here => here.trans (prefix_append _ _)

/-- No occurrence crosses the start of a marker. -/
theorem occurs_append_marker (other : Bool) : markers.Occurs side (before ++ markers.marker other ++ after) place ↔
    (place < before.length ∧ markers.Occurs side before place) ∨ (place = before.length ∧ side = other) ∨
      ∃ later, place = before.length + (markers.marker other).length + later ∧ markers.Occurs side after later := by
  unfold Markers.Occurs
  rcases lt_trichotomy place before.length with early | rfl | late
  · have cut : (before ++ markers.marker other ++ after).drop place =
        before.drop place ++ (markers.marker other ++ after) := by
      rw [append_assoc, drop_append_of_le_length early.le]
    rw [cut]
    constructor
    · intro here
      rcases prefix_append_cases here with inside | ⟨more, nonempty, same, ends⟩
      · exact .inl ⟨early, inside⟩
      obtain ⟨first, rest, split⟩ := exists_cons_of_ne_nil (show before.drop place ≠ [] by simpa using early)
      obtain ⟨c, more, rfl⟩ := exists_cons_of_ne_nil nonempty
      obtain ⟨rfl, -⟩ := cons_prefix_cons.mp ends
      rw [split, Markers.marker, cons_append] at same
      exact absurd (by rw [(cons.inj same).2]; simp) (markers.plain side)
    rintro (⟨-, inside⟩ | ⟨rfl, -⟩ | ⟨later, rfl, -⟩)
    · exact inside.trans (prefix_append _ _)
    · omega
    · omega
  · rw [append_assoc, drop_left]
    constructor
    · intro here
      refine .inr (.inl ⟨rfl, ?_⟩)
      by_contra apart
      obtain rfl : side = !other := by cases side <;> cases other <;> simp_all
      have named := (cons_prefix_cons.mp here).2
      rcases prefix_or_prefix_of_prefix named (prefix_append _ after) with inside | inside
      · exact markers.apart (!other) (by rwa [Bool.not_not])
      · exact markers.apart other inside
    rintro (⟨below, -⟩ | ⟨-, rfl⟩ | ⟨later, same, -⟩)
    · exact absurd below (lt_irrefl _)
    · exact prefix_append _ _
    · simp [Markers.marker] at same
      omega
  obtain ⟨j, rfl⟩ := Nat.exists_eq_add_of_lt late
  have cut : (before ++ markers.marker other ++ after).drop (before.length + j + 1) =
      (markers.name other).drop j ++ after.drop (j - (markers.name other).length) := by
    rw [append_assoc, add_assoc, ← drop_drop, drop_left, Markers.marker, cons_append, drop_succ_cons,
      drop_append]
  have length : (markers.marker other).length = (markers.name other).length + 1 := rfl
  rw [cut, length]
  by_cases within : j < (markers.name other).length
  · obtain ⟨c, rest, split⟩ := exists_cons_of_ne_nil
      (show (markers.name other).drop j ≠ [] by simpa using within)
    refine iff_of_false (fun here => ?_) (by rintro (⟨_, -⟩ | ⟨_, -⟩ | ⟨later, _, -⟩) <;> omega)
    rw [split] at here
    have same := (cons_prefix_cons.mp here).1
    refine markers.plain other (mem_of_mem_drop (i := j) ?_)
    rw [split, same]
    exact mem_cons_self
  rw [drop_of_length_le (not_lt.mp within), nil_append]
  constructor
  · exact fun here => .inr (.inr ⟨_, by omega, here⟩)
  rintro (⟨below, -⟩ | ⟨same, -⟩ | ⟨later, same, here⟩)
  · omega
  · omega
  · rwa [show j - (markers.name other).length = later by omega]

theorem occurs_around (isBlock : markers.Block block) : markers.Occurs side (before ++ block ++ after) place ↔
      (place < before.length ∧ markers.Occurs side before place) ∨ (side = true ∧ place = before.length) ∨
        (side = false ∧ place + (markers.marker false).length = before.length + block.length) ∨
          ∃ later, place = before.length + block.length + later ∧ markers.Occurs side after later := by
  obtain ⟨inside, rfl, none⟩ := isBlock
  have regroup : before ++ (markers.marker true ++ inside ++ markers.marker false) ++ after =
      before ++ markers.marker true ++ (inside ++ markers.marker false ++ after) := by
    simp only [append_assoc]
  rw [regroup, occurs_append_marker]
  simp only [occurs_append_marker, length_append, none, and_false, false_or]
  refine or_congr_right ?_
  constructor
  · rintro (⟨rfl, rfl⟩ | ⟨_, rfl, ⟨rfl, rfl⟩ | ⟨later, rfl, here⟩⟩)
    · exact .inl ⟨rfl, rfl⟩
    · exact .inr (.inl ⟨rfl, by omega⟩)
    · exact .inr (.inr ⟨later, by omega, here⟩)
  rintro (⟨rfl, rfl⟩ | ⟨rfl, same⟩ | ⟨later, rfl, here⟩)
  · exact .inl ⟨rfl, rfl⟩
  · exact .inr ⟨inside.length, by omega, .inl ⟨rfl, rfl⟩⟩
  · exact .inr ⟨inside.length + (markers.marker false).length + later, by omega, .inr ⟨later, rfl, here⟩⟩

theorem marker_ne_nil : markers.marker side ≠ [] := cons_ne_nil _ _

theorem Markers.Block.length_lt (isBlock : markers.Block block) :
    (markers.marker false).length < block.length := by
  obtain ⟨inside, rfl, -⟩ := isBlock
  simp [Markers.marker]
  omega

theorem findText_marker {text : List Char} (here : markers.Occurs side text place)
    (first : ∀ earlier, markers.Occurs side text earlier → place ≤ earlier) :
    findText (markers.marker side) text = some place :=
  (findText_eq_some marker_ne_nil).mpr ⟨here, fun earlier below here => absurd (first earlier here) (not_le.mpr below)⟩

section Around

variable (after) (isBlock : markers.Block block) (clear : ∀ side place, ¬markers.Occurs side before place)
include isBlock clear

theorem findText_around : findText (markers.marker true) (before ++ block ++ after) = some before.length ∧
    ∃ last, findText (markers.marker false) (before ++ block ++ after) = some last ∧
      last + (markers.marker false).length = before.length + block.length := by
  have longer := isBlock.length_lt
  constructor
  · refine findText_marker ((occurs_around isBlock).mpr (.inr (.inl ⟨rfl, rfl⟩))) fun earlier here => ?_
    rcases (occurs_around isBlock).mp here with ⟨-, here⟩ | ⟨-, rfl⟩ | ⟨side, -⟩ | ⟨later, rfl, -⟩
    · exact absurd here (clear _ _)
    · exact le_refl _
    · cases side
    · omega
  refine ⟨before.length + (block.length - (markers.marker false).length), findText_marker
    ((occurs_around isBlock).mpr (.inr (.inr (.inl ⟨rfl, by omega⟩)))) fun earlier here => ?_, by omega⟩
  rcases (occurs_around isBlock).mp here with ⟨-, here⟩ | ⟨side, -⟩ | ⟨-, same⟩ | ⟨later, rfl, -⟩
  · exact absurd here (clear _ _)
  · cases side
  · omega
  · omega

theorem replaced_around (body : List Char) : markers.replaced (before ++ block ++ after) body =
    if block = body then (.unchanged, before ++ block ++ after) else (.updated, before ++ body ++ after) := by
  obtain ⟨starts, last, ends, same⟩ := findText_around after isBlock clear
  have longer := isBlock.length_lt
  have cut : (before ++ block ++ after).take (before.length + block.length) = before ++ block := by
    rw [← length_append, take_left]
  have rest : (before ++ block ++ after).drop (before.length + block.length) = after := by
    rw [← length_append, drop_left]
  unfold Markers.replaced replaceOrAppendMarkedSection
  dsimp only
  rw [starts, ends]
  dsimp only
  rw [if_pos (by omega), same, cut, rest, drop_left, append_assoc, take_left]

theorem removed_around : ∃ gap, Markers.Blank gap ∧ (after.dropWhile isWhitespace = [] → gap = []) ∧
    Markers.Leaves (markers.removed (before ++ block ++ after))
      (trimEnd before ++ gap ++ after.dropWhile isWhitespace) := by
  obtain ⟨starts, last, ends, same⟩ := findText_around after isBlock clear
  have longer := isBlock.length_lt
  have rest : (before ++ block ++ after).drop (before.length + block.length) = after := by
    rw [← length_append, drop_left]
  have front : (before ++ block ++ after).take before.length = before := by rw [append_assoc, take_left]
  unfold Markers.removed removeMarkedSection
  dsimp only
  rw [starts, ends]
  dsimp only
  rw [if_neg (by omega), same, rest, front]
  refine ⟨_, ?_, ?_, rfl⟩
  · split
    · simp [Markers.Blank]
      decide
    · simp [Markers.Blank]
  · intro none
    rw [if_neg fun both => both.2 none]

theorem previous_unique {before' block' after' : List Char}
    (previous : markers.PreviousBlock (before ++ block ++ after) before' block' after') :
    before' = before ∧ block' = block ∧ after' = after := by
  have longer := isBlock.length_lt
  have longer' := previous.block.length_lt
  have first : markers.Occurs false (before ++ block ++ after)
      (before.length + (block.length - (markers.marker false).length)) :=
    (occurs_around isBlock).mpr (.inr (.inr (.inl ⟨rfl, by omega⟩)))
  have first' : markers.Occurs false (before' ++ block' ++ after')
      (before'.length + (block'.length - (markers.marker false).length)) :=
    (occurs_around previous.block).mpr (.inr (.inr (.inl ⟨rfl, by omega⟩)))
  have start' : markers.Occurs true (before' ++ block' ++ after') before'.length :=
    (occurs_around previous.block).mpr (.inr (.inl ⟨rfl, rfl⟩))
  rw [previous.split] at first
  rw [← previous.split] at first' start'
  have ends : before.length + block.length = before'.length + block'.length := by
    rcases (occurs_around previous.block).mp first with ⟨-, here⟩ | ⟨side, -⟩ | ⟨-, same⟩ | ⟨later, same, -⟩
    · exact absurd here (previous.first _)
    · cases side
    · omega
    · rcases (occurs_around isBlock).mp first' with ⟨-, here⟩ | ⟨side, -⟩ | ⟨-, same'⟩ | ⟨later', same', -⟩
      · exact absurd here (clear _ _)
      · cases side
      · omega
      · omega
  have starts : before'.length = before.length := by
    rcases (occurs_around isBlock).mp start' with ⟨-, here⟩ | ⟨-, same⟩ | ⟨side, -⟩ | ⟨later, same, -⟩
    · exact absurd here (clear _ _)
    · exact same
    · cases side
    · omega
  obtain ⟨same, rfl⟩ := append_inj previous.split (by rw [length_append, length_append, ends])
  obtain ⟨rfl, rfl⟩ := append_inj same starts.symm
  exact ⟨rfl, rfl, rfl⟩

end Around

theorem Markers.Occurs.lt (here : markers.Occurs side text place) : place < text.length := by
  by_contra beyond
  rw [Markers.Occurs, drop_of_length_le (not_lt.mp beyond)] at here
  exact marker_ne_nil (prefix_nil.mp here)

theorem trim_append_blank {gap : List Char} (blank : Markers.Blank gap) : trim (text ++ gap) = trim text := by
  unfold trim
  rw [dropWhile_append]
  split
  · rename_i empty
    rw [isEmpty_iff.mp empty, dropWhile_eq_nil_iff.mpr blank]
  · exact trimEndMatches_of_append blank

theorem appendSection_eq (content body : List Char) : ∃ gap, Markers.Blank gap ∧
    appendSection content body = trimEnd content ++ gap ++ body ++ ['\n'] ∧
      ∀ (markers : Markers) side place,
        markers.Occurs side (trimEnd content ++ gap) place ↔ markers.Occurs side content place := by
  have blank : Markers.Blank (if trimEnd content ≠ [] then ['\n', '\n'] else []) := by
    split
    · simp [Markers.Blank]
      decide
    · simp [Markers.Blank]
  obtain ⟨rest, split, white⟩ := trimEndMatches_append isWhitespace content
  refine ⟨_, blank, rfl, fun markers side place => ?_⟩
  rw [occurs_append_blank blank]
  conv_rhs => rw [split]
  exact (occurs_append_blank white).symm

theorem kept_of_unambiguous {content body : List Char} (isBlock : markers.Block body)
    (unambiguous : markers.Unambiguous content) : markers.Kept content body := by
  rcases unambiguous with none | ⟨before, block, after, rfl, isBlock', clear⟩
  · obtain ⟨gap, blank, same, occurs⟩ := appendSection_eq content body
    have next : (markers.replaced content body).2 = trimEnd content ++ gap ++ body ++ ['\n'] := by
      unfold Markers.replaced replaceOrAppendMarkedSection
      dsimp only
      rwa [(findText_eq_none marker_ne_nil).mpr (none true)]
    have clear (side : Bool) (place : Nat) : ¬markers.Occurs side (trimEnd content ++ gap) place :=
      fun here => none side place ((occurs markers side place).mp here)
    refine ⟨?_, ?_, ?_⟩
    · rw [next, replaced_around _ isBlock clear, if_pos rfl]
    · intro before block after previous
      have start : markers.Occurs true (before ++ block ++ after) before.length :=
        (occurs_around previous.block).mpr (.inr (.inl ⟨rfl, rfl⟩))
      rw [← previous.split] at start
      exact absurd start (none _ _)
    refine fun _ => ⟨⟨gap, blank, next⟩, ?_⟩
    obtain ⟨rest, split, white⟩ := trimEndMatches_append isWhitespace content
    obtain ⟨gap', -, empty, leaves⟩ := removed_around ['\n'] isBlock clear
    have trimmed : trimEnd (trimEnd content ++ gap) = trimEnd content :=
      (trimEndMatches_of_append blank).trans (trimEndMatches_of_last (last_trimEndMatches _ _))
    have own : trim content = trim (trimEnd content) := by
      conv_lhs => rw [split]
      exact trim_append_blank white
    rw [show ['\n'].dropWhile isWhitespace = [] from rfl, append_nil, empty rfl, trimmed, append_nil] at leaves
    rwa [next, Markers.Leaves, own]
  have next : (markers.replaced (before ++ block ++ after) body).2 = before ++ body ++ after := by
    rw [replaced_around _ isBlock' clear]
    split
    · rename_i same
      rw [same]
    · rfl
  refine ⟨?_, ?_, fun none => absurd ⟨rfl, isBlock', clear false⟩ (none before block after)⟩
  · rw [next, replaced_around _ isBlock clear, if_pos rfl]
  intro before' block' after' previous
  obtain ⟨rfl, rfl, rfl⟩ := previous_unique _ isBlock' clear previous
  obtain ⟨gap, blank, -, leaves⟩ := removed_around after' isBlock clear
  rw [next]
  exact ⟨rfl, gap, blank, leaves⟩

theorem exists_previousBlock {first last : Nat} (start : markers.Occurs true text first)
    (stop : markers.Occurs false text last) (stops : ∀ earlier < last, ¬markers.Occurs false text earlier)
    (ordered : first < last) :
    ∃ before block after, markers.PreviousBlock text before block after ∧
      before.length + block.length = last + (markers.marker false).length := by
  classical
  -- The start marker that is the last one before the end marker.
  obtain ⟨nearest, high, here, none⟩ : ∃ nearest, nearest ≤ last ∧ markers.Occurs true text nearest ∧
      ∀ place, nearest < place → place ≤ last → ¬markers.Occurs true text place :=
    ⟨Nat.findGreatest (markers.Occurs true text) last, Nat.findGreatest_le last, Nat.findGreatest_spec ordered.le start,
      fun place late early => Nat.findGreatest_is_greatest late early⟩
  obtain ⟨rest, split⟩ := id here
  have front := length_take_of_le here.lt.le
  have whole : text = text.take nearest ++ markers.marker true ++ rest := by
    rw [append_assoc, split, take_append_drop]
  have within {side : Bool} {place : Nat} : markers.Occurs side text place ↔
      (place < nearest ∧ markers.Occurs side (text.take nearest) place) ∨ (place = nearest ∧ side = true) ∨
        ∃ later, place = nearest + (markers.marker true).length + later ∧ markers.Occurs side rest later := by
    conv_lhs => rw [whole]
    rw [occurs_append_marker, front]
  rcases within.mp stop with ⟨below, -⟩ | ⟨-, side⟩ | ⟨inner, same, ending⟩
  · exact absurd below (not_lt.mpr high)
  · cases side
  obtain ⟨after, split'⟩ := id ending
  have whole' : rest = rest.take inner ++ markers.marker false ++ after := by
    rw [append_assoc, split', take_append_drop]
  have inside := length_take_of_le ending.lt.le
  refine ⟨text.take nearest, markers.marker true ++ rest.take inner ++ markers.marker false, after, ⟨?_, ?_, ?_⟩, ?_⟩
  · conv_lhs => rw [whole, whole']
    simp only [append_assoc]
  · refine ⟨_, rfl, fun side place found => ?_⟩
    have early := inside ▸ found.lt
    have found' : markers.Occurs side text (nearest + (markers.marker true).length + place) := by
      refine within.mpr (.inr (.inr ⟨place, rfl, ?_⟩))
      rw [whole', occurs_append_marker]
      exact .inl ⟨found.lt, found⟩
    have positive : 0 < (markers.marker true).length := Nat.succ_pos _
    cases side with
    | false => exact stops _ (by omega) found'
    | true => exact none _ (by omega) (by omega) found'
  · intro place found
    have early := front ▸ found.lt
    exact stops _ (by omega) (within.mpr (.inl ⟨early, found⟩))
  · rw [front, length_append, length_append, inside, same]
    omega

theorem Markers.Occurs.le (here : markers.Occurs side text place) :
    place + (markers.marker side).length ≤ text.length := by
  have inside := here.lt
  have short := here.length_le
  rw [length_drop] at short
  omega

theorem replaced_between {first last : Nat} {body : List Char}
    (starts : findText (markers.marker true) text = some first)
    (ends : findText (markers.marker false) text = some last) (below : first < last) :
    (markers.replaced text body).2 = text.take first ++ body ++ text.drop (last + (markers.marker false).length) := by
  unfold Markers.replaced replaceOrAppendMarkedSection
  dsimp only
  rw [starts, ends]
  dsimp only
  rw [if_pos below]
  split
  · rename_i same
    have front : (text.take (last + (markers.marker false).length)).take first = text.take first := by
      rw [take_take, min_eq_left (by omega)]
    rw [← same, ← front, take_append_drop, take_append_drop]
  · rfl

theorem replaced_apart {body : List Char} (apart : ¬∃ first last, findText (markers.marker true) text = some first ∧
    findText (markers.marker false) text = some last ∧ first < last) :
    markers.replaced text body = (.appended, appendSection text body) := by
  unfold Markers.replaced replaceOrAppendMarkedSection
  dsimp only
  split
  · rename_i first last starts ends
    rw [if_neg fun below => apart ⟨first, last, starts, ends, below⟩]
  · rfl

theorem unambiguous_of_kept {content body : List Char} (isBlock : markers.Block body)
    (kept : markers.Kept content body) : markers.Unambiguous content := by
  by_cases ordered : ∃ first last, findText (markers.marker true) content = some first ∧
    findText (markers.marker false) content = some last ∧ first < last
  · obtain ⟨first, last, starts, ends, below⟩ := ordered
    obtain ⟨start, starts'⟩ := (findText_eq_some marker_ne_nil).mp starts
    obtain ⟨stop, stops⟩ := (findText_eq_some marker_ne_nil).mp ends
    obtain ⟨before, block, after, previous, length⟩ := exists_previousBlock start stop stops below
    have next := congrArg List.length (kept.around before block after previous).1
    have all := congrArg List.length previous.split
    rw [replaced_between starts ends below] at next
    simp only [length_append, length_take, length_drop] at next all
    have same : before.length = first := by omega
    refine .inr ⟨before, block, after, previous.split, previous.block, fun side place found => ?_⟩
    have found' : markers.Occurs side content place := by
      rw [previous.split, occurs_around previous.block]
      exact .inl ⟨found.lt, found⟩
    cases side with
    | false => exact previous.first place found
    | true => exact starts' place (same ▸ found.lt) found'
  -- The section is appended, and the second run finds it only behind a text without markers.
  obtain ⟨gap, blank, appended, occurs⟩ := appendSection_eq content body
  have again := kept.again
  rw [replaced_apart ordered, appended] at again
  generalize written : trimEnd content ++ gap ++ body ++ ['\n'] = text at again
  have around {side : Bool} {place : Nat} :=
    @occurs_around markers side place (trimEnd content ++ gap) body ['\n'] isBlock
  rw [written] at around
  by_cases ordered' : ∃ first last, findText (markers.marker true) text = some first ∧
    findText (markers.marker false) text = some last ∧ first < last
  · obtain ⟨first, last, starts, ends, below⟩ := ordered'
    have same := congrArg (fun result => result.2.length) again
    rw [replaced_between starts ends below] at same
    simp only [length_append, length_take, length_drop] at same
    obtain ⟨start, starts'⟩ := (findText_eq_some marker_ne_nil).mp starts
    obtain ⟨stop, stops'⟩ := (findText_eq_some marker_ne_nil).mp ends
    have inside := Markers.Occurs.le stop
    have low : first ≤ (trimEnd content ++ gap).length := by
      by_contra late
      exact starts' _ (not_le.mp late) (around.mpr (.inr (.inl ⟨rfl, rfl⟩)))
    have early {side : Bool} {place : Nat} (here : markers.Occurs side content place) :
        place < (trimEnd content ++ gap).length ∧ markers.Occurs side text place := by
      have here' := (occurs markers side place).mpr here
      exact ⟨here'.lt, around.mpr (.inl ⟨here'.lt, here'⟩)⟩
    rcases around.mp stop with ⟨_, stop'⟩ | ⟨side, -⟩ | ⟨-, ending⟩ | ⟨later, -, beyond⟩
    · rcases around.mp start with ⟨_, start'⟩ | ⟨-, rfl⟩ | ⟨side, -⟩ | ⟨later, rfl, -⟩
      · refine absurd ⟨first, last, ?_, ?_, below⟩ ordered
        · exact (findText_eq_some marker_ne_nil).mpr
            ⟨(occurs _ _ _).mp start', fun earlier low here => starts' earlier low (early here).2⟩
        · exact (findText_eq_some marker_ne_nil).mpr
            ⟨(occurs _ _ _).mp stop', fun earlier low here => stops' earlier low (early here).2⟩
      · omega
      · cases side
      · omega
    · cases side
    · refine .inl fun side place here => ?_
      obtain ⟨short, here'⟩ := early here
      cases side with
      | true => exact starts' place (by omega) here'
      | false => exact stops' place (by omega) here'
    · have blank' : Markers.Blank ['\n'] := by
        simp [Markers.Blank]
        decide
      have beyond' : markers.Occurs false ([] ++ ['\n']) later := beyond
      exact absurd ((occurs_append_blank blank').mp beyond').lt (Nat.not_lt_zero _)
  · rw [replaced_apart ordered'] at again
    cases again

/-- The section is kept apart from the text of the user exactly if the text has no marker or its
first block comes before all other markers. -/
theorem kept_iff {content body : List Char} (isBlock : markers.Block body) :
    markers.Kept content body ↔ markers.Unambiguous content :=
  ⟨unambiguous_of_kept isBlock, kept_of_unambiguous isBlock⟩

end Occurrences

def codegraphMarkers : Markers where
  fence := '<'
  name side := (if side then "!-- CODEGRAPH_START -->" else "!-- CODEGRAPH_END -->").toList
  plain := by decide +kernel
  apart := by decide +kernel
  solid side := by
    have last : (('<' :: (if side then "!-- CODEGRAPH_START -->" else
        "!-- CODEGRAPH_END -->").toList).getLast?.all fun c => !isWhitespace c) = true := by
      cases side <;> decide +kernel
    simpa [Option.all_eq_true] using last

/-- The markers with a line break in between. -/
def emptyBlock : List Char := codegraphMarkers.marker true ++ ['\n'] ++ codegraphMarkers.marker false

theorem emptyBlock_block : codegraphMarkers.Block emptyBlock :=
  ⟨_, rfl, fun side => (findText_eq_none marker_ne_nil).mp (by cases side <;> decide +kernel)⟩

theorem kept_notes : codegraphMarkers.Kept "# Notes\n".toList emptyBlock :=
  (kept_iff emptyBlock_block).mpr
    (.inl fun side => (findText_eq_none marker_ne_nil).mp (by cases side <;> decide +kernel))

/-- Behind a stray end marker every run appends the section again, and the second run deletes what
follows a stray start marker. -/
theorem not_kept_stray : codegraphMarkers.Block emptyBlock ∧
    ¬codegraphMarkers.Kept (codegraphMarkers.marker false ++ ['\n']) emptyBlock ∧ codegraphMarkers.replaced
          (codegraphMarkers.replaced (codegraphMarkers.marker true ++ "\nNotes\n".toList) emptyBlock).2 emptyBlock =
        (.updated, emptyBlock ++ ['\n']) := by
  refine ⟨emptyBlock_block, fun kept => ?_, by decide +kernel⟩
  have again := congrArg Prod.fst kept.again
  revert again
  decide +kernel

end Codegraph.MarkedSection
