import Codegraph.RustCfg.Layout

namespace Codegraph.RustCfg

open Library List Row

/-- A line on which an item can start. -/
def IsCode (line : List Char) : Prop :=
  Text.trim line ≠ [] ∧ ['/', '/'].isPrefixOf (Text.trim line) = false

instance (line : List Char) : Decidable (IsCode line) := inferInstanceAs (Decidable (_ ∧ _))

/-- A line without attributes. -/
abbrev PlainLine : Type := { line : List Char // Unattributed line }

/-- Above an item are attributes, and lines of comments or blank ones. -/
inductive Part where
  | note (plain : PlainLine)
  | row (attrs : Row)

namespace Part

def lines : Part → List (List Char)
  | note plain => [plain.val]
  | row attrs => attrs.lines

/-- The predicates of a part, when each row has the given ones. -/
def predicates (ofRow : Row → List (List Char)) : Part → List (List Char)
  | note _ => []
  | row attrs => ofRow attrs

end Part

/-- The line on which an item starts, with its attributes there. -/
inductive Start where
  | line (plain : PlainLine) (code : IsCode plain.val)
  | row (attrs : Row) (code : IsCode attrs.tail)

namespace Start

def lines : Start → List (List Char)
  | line plain _ => [plain.val]
  | row attrs _ => attrs.lines

def cfgs : Start → List (List Char)
  | line _ _ => []
  | row attrs _ => attrs.cfgs

end Start

/-- The parts above an item hold attributes and comments only. -/
inductive Commented : List Part → Prop where
  | none : Commented []
  | notes {lines : List PlainLine} {later : List Part}
      (spacing : Spacing (lines.flatMap fun line => line.val ++ ['\n'])) (rest : Commented later) :
      Commented (lines.map Part.note ++ later)
  | row {attrs : Row} {later : List Part} (spacing : Spacing (attrs.tail ++ ['\n'])) (rest : Commented later) :
      Commented (.row attrs :: later)

/-- An item with what is above it, and the lines up to what is above the next item. -/
structure Item where
  above : List Part
  start : Start
  body : List PlainLine
  commented : Commented above

namespace Item

/-- The lines down to the one on which the item starts. -/
def head (item : Item) : List (List Char) := item.above.flatMap Part.lines ++ item.start.lines

def lines (item : Item) : List (List Char) := item.head ++ item.body.map Subtype.val

/-- The predicates of the item's own attributes. -/
def cfgs (item : Item) : List (List Char) :=
  item.above.flatMap (Part.predicates Row.cfgs) ++ item.start.cfgs

end Item

/-- The items of a source after its first lines. -/
structure Layout where
  preamble : List PlainLine
  items : List Item

def Layout.lines (layout : Layout) : List (List Char) :=
  layout.preamble.map Subtype.val ++ layout.items.flatMap Item.lines

/-- The lines of the items that have `cfg` attributes, with the predicates. -/
def placed : Nat → List Item → List (Nat × List (List Char))
  | _, [] => []
  | index, item :: later =>
    (if item.cfgs = [] then [] else [(index + item.head.length, item.cfgs)]) ++
      placed (index + item.lines.length) later

def Layout.placed (layout : Layout) : List (Nat × List (List Char)) :=
  RustCfg.placed layout.preamble.length layout.items

/-- At the line of each item its own predicates are recorded, and no others are. -/
def Exact (layout : Layout) (cfgs : FileCfgs) : Prop :=
  ∀ number predicates, cfgs.byLine.get number = some predicates ↔ (number, predicates) ∈ layout.placed

/-- The lines are joined up to the last one: there the brackets are closed for the first time, or no more
lines are joined. -/
structure ReadTogether (lines : List (List Char)) (ends : Prop) : Prop where
  within : lines.length ≤ maxAttributeLines + 1
  unclosed : ∀ count < lines.length, 0 < count → balanced (joined (lines.take count)) = false
  closed : balanced (joined lines) = true ∨ lines.length = maxAttributeLines + 1 ∨ ends

/-- Each row above the item is joined from its own lines. What is joined from the item's line on ends in the
item's body. -/
def Item.Aligned (item : Item) (following : List (List Char)) : Prop :=
  (∀ attrs, Part.row attrs ∈ item.above → ReadTogether attrs.lines False) ∧
    match item.start with
    | .line _ _ => True
    | .row attrs _ => ∃ front back, item.body.map Subtype.val = front ++ back ∧
        ReadTogether (attrs.lines ++ front) (back ++ following = [])

def Aligned : List Item → Prop
  | [] => True
  | item :: later => item.Aligned (later.flatMap Item.lines) ∧ Aligned later

/-- No line of code comes after the predicates of a row. -/
def Undisturbed (ofRow : Row → List (List Char)) : List (List Char) → List Part → Prop
  | _, [] => True
  | seen, .note plain :: later => (IsCode plain.val → seen = []) ∧ Undisturbed ofRow seen later
  | seen, .row attrs :: later => Undisturbed ofRow (seen ++ ofRow attrs) later

/-- The item has no `cfg`, or its attributes are on lines of their own, the rows are clean, and no code is
between them and the item. -/
def Item.Good (item : Item) : Prop :=
  item.cfgs = [] ∨
    match item.start with
    | .line _ _ => (∀ attrs, Part.row attrs ∈ item.above → attrs.Clean) ∧ Undisturbed Row.cfgs [] item.above
    | .row _ _ => False

section Joining

/-- Lines are joined up to the last one of those that are read together. -/
theorem gather_joined {done more following : List (List Char)} {limit : Nat} (nonempty : done ≠ [])
    (room : more.length ≤ limit)
    (unclosed : ∀ count < more.length, balanced (joined (done ++ more.take count)) = false)
    (closed : balanced (joined (done ++ more)) = true ∨ more.length = limit ∨ following = []) :
    gather limit (joined done) (more ++ following) = (joined (done ++ more), following) := by
  induction more generalizing done limit with
  | nil =>
    rw [append_nil] at closed ⊢
    rw [nil_append]
    cases limit with
    | zero => rw [gather]; exact fun _ _ _ impossible => nomatch impossible
    | succ limit =>
      cases following with
      | nil => rw [gather]; exact fun _ _ _ _ impossible => nomatch impossible
      | cons line following =>
        have stops : balanced (joined done) = true := by
          rcases closed with closed | full | none
          · exact closed
          · exact absurd full (by simp)
          · exact nomatch none
        rw [gather, if_pos stops]
  | cons line more ih =>
    cases limit with
    | zero => exact absurd room (by simp)
    | succ limit =>
      have goesOn : balanced (joined done) = false := by
        have first := unclosed 0 (Nat.succ_pos _)
        rwa [take_zero, append_nil] at first
      have longer : joined done ++ ' ' :: Text.trim line = joined (done ++ [line]) := by
        obtain ⟨first, rest, rfl⟩ := exists_cons_of_ne_nil nonempty
        simp [joined, spaced]
      have split : done ++ line :: more = done ++ [line] ++ more := by simp
      rw [cons_append, gather, if_neg (by rw [goesOn]; decide), longer, split]
      refine ih (by simp) (Nat.le_of_succ_le_succ room) (fun count below => ?_) ?_
      · have next := unclosed (count + 1) (Nat.succ_lt_succ below)
        rwa [take_succ_cons, ← singleton_append, ← append_assoc] at next
      · rw [split] at closed
        exact closed.imp id (Or.imp Nat.succ.inj id)

theorem gather_length (limit : Nat) (attr : List Char) (lines : List (List Char)) :
    (gather limit attr lines).2.length ≤ lines.length := by
  induction limit generalizing attr lines with
  | zero => rw [gather]; exact fun _ _ _ impossible => nomatch impossible
  | succ limit ih =>
    cases lines with
    | nil => rw [gather]; exact fun _ _ _ _ impossible => nomatch impossible
    | cons line lines =>
      rw [gather]
      split
      · exact le_refl _
      · exact (ih _ _).trans (Nat.le_succ _)

end Joining

section Scanning

variable {index number fuel : Nat} {line : List Char} {lines later following pending : List (List Char)}
  {byLine : Dict Nat (List (List Char))}

theorem scanFrom_fuel {fuel' : Nat} (enough : lines.length ≤ fuel) (enough' : lines.length ≤ fuel') :
    scanFrom fuel index lines pending byLine = scanFrom fuel' index lines pending byLine := by
  induction fuel generalizing fuel' index lines pending byLine with
  | zero =>
    obtain rfl := length_eq_zero_iff.mp (Nat.le_zero.mp enough)
    cases fuel' <;> rfl
  | succ fuel ih =>
    cases lines with
    | nil => cases fuel' <;> rfl
    | cons line later =>
      cases fuel' with
      | zero => exact absurd enough' (by simp)
      | succ fuel' =>
        have less := Nat.le_of_succ_le_succ enough
        have less' := Nat.le_of_succ_le_succ enough'
        have left := gather_length maxAttributeLines (Text.trim line) later
        unfold scanFrom
        simp only
        split
        · exact ih (left.trans less) (left.trans less')
        · split <;> exact ih less less'

/-- What the scan records of the lines from an index on. -/
def scanLines (index : Nat) (lines pending : List (List Char)) (byLine : Dict Nat (List (List Char))) :
    Dict Nat (List (List Char)) := scanFrom lines.length index lines pending byLine

theorem scanLines_quiet (plain : Unattributed line) (quiet : ¬ IsCode line) :
    scanLines index (line :: later) pending byLine = scanLines (index + 1) later pending byLine := by
  have skipped : Text.trim line = [] ∨ ['/', '/'].isPrefixOf (Text.trim line) = true := by
    by_contra code
    rw [not_or, Bool.not_eq_true] at code
    exact quiet code
  unfold scanLines
  rw [length_cons, scanFrom]
  simp only
  rw [if_neg (by rw [plain.not_prefix]; decide), if_pos skipped]

theorem scanLines_code (plain : Unattributed line) (code : IsCode line) :
    scanLines index (line :: later) pending byLine =
      scanLines (index + 1) later [] (record index pending byLine) := by
  have kept : ¬ (Text.trim line = [] ∨ ['/', '/'].isPrefixOf (Text.trim line) = true) := by
    rwa [not_or, Bool.not_eq_true]
  unfold scanLines
  rw [length_cons, scanFrom]
  simp only
  rw [if_neg (by rw [plain.not_prefix]; decide), if_neg kept]

theorem scanLines_attribute (starts : ['#', '['].isPrefixOf (Text.trim line) = true)
    (together : ReadTogether (line :: later) (following = [])) :
    scanLines index (line :: later ++ following) pending byLine =
      scanLines (index + (line :: later).length) following
        (pending ++ (cfgPredicate (joined (line :: later))).toList) byLine := by
  have first : joined [line] = Text.trim line := append_nil _
  have gathered := @gather_joined [line] later following maxAttributeLines (cons_ne_nil _ _)
    (Nat.le_of_succ_le_succ together.within)
    (fun count below => together.unclosed (count + 1) (Nat.succ_lt_succ below) (Nat.succ_pos _))
    (together.closed.imp id (Or.imp Nat.succ.inj id))
  rw [first, singleton_append] at gathered
  rw [scanLines, cons_append, length_cons, scanFrom]
  simp only
  rw [if_pos starts, gathered]
  have shift : index + 1 + ((later ++ following).length - following.length) =
      index + (line :: later).length := by
    rw [length_append, length_cons]
    omega
  simp only [shift]
  exact scanFrom_fuel (by simp) (le_refl _)

theorem record_get (number : Nat) : (record index pending byLine).get number =
    if pending ≠ [] ∧ number = lineNumber index then some pending else byLine.get number := by
  unfold record
  by_cases empty : pending = []
  · rw [if_pos empty, if_neg fun both => both.1 empty]
  · rw [if_neg empty, Dict.get_set]
    simp [empty]

theorem lineNumber_eq (short : index + 1 < 2 ^ 32 - 1) : lineNumber index = index + 1 :=
  Nat.min_eq_left (le_of_lt short)

/-- What is recorded for earlier lines stays. -/
theorem scanFrom_get (early : number ≤ index) (short : number < 2 ^ 32 - 1) :
    (scanFrom fuel index lines pending byLine).get number = byLine.get number := by
  induction fuel generalizing index lines pending byLine with
  | zero => cases lines <;> rfl
  | succ fuel ih =>
    cases lines with
    | nil => rfl
    | cons line later =>
      unfold scanFrom
      simp only
      split
      · exact ih (early.trans (by omega))
      split
      · exact ih (Nat.le_succ_of_le early)
      rw [ih (Nat.le_succ_of_le early), record_get, if_neg]
      rintro ⟨-, same⟩
      unfold lineNumber at same
      omega

theorem scanLines_get (early : number ≤ index) (short : number < 2 ^ 32 - 1) :
    (scanLines index lines pending byLine).get number = byLine.get number := scanFrom_get early short

/-- Lines without attributes leave nothing when nothing is pending. -/
theorem scanLines_plain (plain : ∀ line ∈ lines, Unattributed line) :
    scanLines index (lines ++ following) [] byLine = scanLines (index + lines.length) following [] byLine := by
  induction lines generalizing index with
  | nil => rfl
  | cons line lines ih =>
    obtain ⟨first, others⟩ := forall_mem_cons.mp plain
    have step : scanLines index (line :: (lines ++ following)) [] byLine =
        scanLines (index + 1) (lines ++ following) [] byLine := by
      by_cases code : IsCode line
      · exact scanLines_code first code
      · exact scanLines_quiet first code
    rw [cons_append, step, ih others, length_cons, Nat.add_right_comm, add_assoc]

/-- A row yields its predicate. -/
theorem scanLines_row {row : Row} (together : ReadTogether row.lines False) :
    scanLines index (row.lines ++ following) pending byLine =
      scanLines (index + row.lines.length) following (pending ++ row.read) byLine := by
  obtain ⟨line, later, same, starts⟩ := row.lines_eq_cons
  unfold Row.read
  rw [same] at together ⊢
  exact scanLines_attribute starts
    ⟨together.within, together.unclosed, together.closed.imp id (Or.imp id False.elim)⟩

end Scanning

section Above

variable {index : Nat} {parts : List Part} {following pending : List (List Char)}
  {byLine : Dict Nat (List (List Char))}

theorem scanLines_above (together : ∀ row, Part.row row ∈ parts → ReadTogether row.lines False)
    (undisturbed : Undisturbed Row.read pending parts) :
    scanLines index (parts.flatMap Part.lines ++ following) pending byLine =
      scanLines (index + (parts.flatMap Part.lines).length) following
        (pending ++ parts.flatMap (Part.predicates Row.read)) byLine := by
  induction parts generalizing index pending with
  | nil =>
    rw [flatMap_nil, flatMap_nil, append_nil]
    rfl
  | cons part parts ih =>
    have others : ∀ row, Part.row row ∈ parts → ReadTogether row.lines False := fun row mem =>
      together row (mem_cons_of_mem _ mem)
    rw [flatMap_cons, flatMap_cons, append_assoc, length_append, ← add_assoc, ← append_assoc pending]
    cases part with
    | note plain =>
      obtain ⟨calm, undisturbed⟩ := undisturbed
      rw [Part.predicates, append_nil, ← ih others undisturbed]
      by_cases code : IsCode plain.val
      · obtain rfl := calm code
        exact scanLines_code plain.property code
      · exact scanLines_quiet plain.property code
    | row attrs =>
      rw [Part.predicates, ← ih others undisturbed]
      exact scanLines_row (together attrs mem_cons_self)

theorem exists_recorded_above (together : ∀ row, Part.row row ∈ parts → ReadTogether row.lines False)
    (disturbed : ¬ Undisturbed Row.read pending parts)
    (short : index + (parts.flatMap Part.lines).length < 2 ^ 32 - 1) :
    ∃ number, index < number ∧ number ≤ index + (parts.flatMap Part.lines).length ∧
      (scanLines index (parts.flatMap Part.lines ++ following) pending byLine).get number ≠ none := by
  induction parts generalizing index pending byLine with
  | nil => exact absurd trivial disturbed
  | cons part parts ih =>
    have others : ∀ row, Part.row row ∈ parts → ReadTogether row.lines False := fun row mem =>
      together row (mem_cons_of_mem _ mem)
    rw [flatMap_cons, length_append, ← add_assoc] at short
    rw [flatMap_cons, append_assoc, length_append, ← add_assoc]
    cases part with
    | note plain =>
      have short' : index + 1 + (parts.flatMap Part.lines).length < 2 ^ 32 - 1 := short
      show ∃ number, index < number ∧ number ≤ index + 1 + (parts.flatMap Part.lines).length ∧
        (scanLines index (plain.val :: (parts.flatMap Part.lines ++ following)) pending byLine).get number ≠ none
      by_cases code : IsCode plain.val
      · rw [scanLines_code plain.property code]
        by_cases empty : pending = []
        · subst empty
          have later : ¬ Undisturbed Row.read [] parts := fun calm => disturbed ⟨fun _ => rfl, calm⟩
          obtain ⟨number, above, below, found⟩ := @ih (index + 1) [] (record index [] byLine) others later short
          exact ⟨number, by omega, below, found⟩
        refine ⟨index + 1, Nat.lt_succ_self _, Nat.le_add_right _ _, ?_⟩
        have low : index + 1 < 2 ^ 32 - 1 := by omega
        rw [scanLines_get (le_refl _) low, record_get, if_pos ⟨empty, (lineNumber_eq low).symm⟩]
        exact fun none => nomatch none
      rw [scanLines_quiet plain.property code]
      have later : ¬ Undisturbed Row.read pending parts := fun calm =>
        disturbed ⟨fun isCode => absurd isCode code, calm⟩
      obtain ⟨number, above, below, found⟩ := @ih (index + 1) pending byLine others later short
      exact ⟨number, by omega, below, found⟩
    | row attrs =>
      have read := @scanLines_row index (parts.flatMap Part.lines ++ following) pending byLine attrs
        (together attrs mem_cons_self)
      obtain ⟨number, above, below, found⟩ :=
        @ih (index + attrs.lines.length) (pending ++ attrs.read) byLine others disturbed short
      refine ⟨number, by omega, below, ?_⟩
      show (scanLines index (attrs.lines ++ (parts.flatMap Part.lines ++ following)) pending byLine).get number ≠ none
      rwa [read]

end Above

section Rows

/-- Texts read from the parts are those of the parts when none has more of them. -/
theorem flatMap_eq_iff {Element Value : Type} {first second : Element → List Value} {elements : List Element}
    (less : ∀ element ∈ elements, (first element).length ≤ (second element).length) :
    elements.flatMap first = elements.flatMap second ↔ ∀ element ∈ elements, first element = second element := by
  constructor
  · intro same
    induction elements with
    | nil => exact fun element mem => absurd mem not_mem_nil
    | cons element elements ih =>
      obtain ⟨head, others⟩ := forall_mem_cons.mp less
      have rest : (elements.flatMap first).length ≤ (elements.flatMap second).length := by
        rw [length_flatMap, length_flatMap]
        exact sum_le_sum others
      rw [flatMap_cons, flatMap_cons] at same
      have lengths := congrArg List.length same
      rw [length_append, length_append] at lengths
      obtain ⟨front, back⟩ := append_inj same (by omega)
      exact forall_mem_cons.mpr ⟨front, ih others back⟩
  · exact fun same => flatMap_congr same

theorem undisturbed_congr {parts : List Part} (same : ∀ row, Part.row row ∈ parts → row.read = row.cfgs)
    (seen : List (List Char)) : Undisturbed Row.read seen parts ↔ Undisturbed Row.cfgs seen parts := by
  induction parts generalizing seen with
  | nil => exact Iff.rfl
  | cons part parts ih =>
    have others := ih fun row mem => same row (mem_cons_of_mem _ mem)
    cases part with
    | note plain => exact and_congr_right fun _ => others seen
    | row attrs =>
      rw [Undisturbed, same attrs mem_cons_self]
      exact others _

theorem read_above_iff (parts : List Part) : (Undisturbed Row.read [] parts ∧
        parts.flatMap (Part.predicates Row.read) = parts.flatMap (Part.predicates Row.cfgs)) ↔
      (∀ row, Part.row row ∈ parts → row.Clean) ∧ Undisturbed Row.cfgs [] parts := by
  have less : ∀ part ∈ parts, (part.predicates Row.read).length ≤ (part.predicates Row.cfgs).length := by
    intro part mem
    cases part with
    | note plain => exact le_refl _
    | row attrs => exact length_read_le
  rw [flatMap_eq_iff less]
  have rows : (∀ part ∈ parts, part.predicates Row.read = part.predicates Row.cfgs) ↔
      ∀ row, Part.row row ∈ parts → row.Clean := by
    constructor
    · exact fun same row mem => read_eq_iff.mp (same _ mem)
    intro clean part mem
    cases part with
    | note plain => rfl
    | row attrs => exact read_eq_iff.mpr (clean attrs mem)
  rw [rows, and_comm]
  exact and_congr_right fun clean => undisturbed_congr (fun row mem => read_eq_iff.mpr (clean row mem)) []

end Rows

section Items

variable {index : Nat} {item : Item} {following : List (List Char)} {byLine : Dict Nat (List (List Char))}

theorem Start.lines_pos (start : Start) : 0 < start.lines.length := by
  cases start with
  | line plain code => exact Nat.one_pos
  | row attrs code =>
    obtain ⟨line, later, same, -⟩ := attrs.lines_eq_cons
    simp [Start.lines, same]

theorem Item.head_length (item : Item) :
    item.head.length = (item.above.flatMap Part.lines).length + item.start.lines.length := length_append

theorem Item.lines_length (item : Item) : item.lines.length = item.head.length + item.body.length := by
  rw [Item.lines, length_append, length_map]

theorem Item.lines_append (item : Item) (following : List (List Char)) : item.lines ++ following =
    item.above.flatMap Part.lines ++ (item.start.lines ++ (item.body.map Subtype.val ++ following)) := by
  simp [Item.lines, Item.head]

theorem Item.body_plain (item : Item) : ∀ line ∈ item.body.map Subtype.val, Unattributed line := by
  intro line mem
  obtain ⟨plain, -, rfl⟩ := mem_map.mp mem
  exact plain.property

theorem Row.read_of_none {row : Row} (none : row.cfgs = []) : row.read = [] := by
  have less := row.length_read_le
  rw [none] at less
  exact length_eq_zero_iff.mp (Nat.le_zero.mp less)

theorem Item.above_none (none : item.cfgs = []) : ∀ row, Part.row row ∈ item.above → row.cfgs = [] := by
  intro row mem
  have above := (append_eq_nil_iff.mp none).1
  exact flatMap_eq_nil_iff.mp above _ mem

theorem undisturbed_of_none {ofRow : Row → List (List Char)} {parts : List Part}
    (none : ∀ row, Part.row row ∈ parts → ofRow row = []) : Undisturbed ofRow [] parts := by
  induction parts with
  | nil => trivial
  | cons part parts ih =>
    have others := ih fun row mem => none row (mem_cons_of_mem _ mem)
    cases part with
    | note plain => exact ⟨fun _ => rfl, others⟩
    | row attrs => rwa [Undisturbed, none attrs mem_cons_self]

theorem Item.good_line {plain : PlainLine} {code : IsCode plain.val} (start : item.start = .line plain code) :
    item.Good ↔ (∀ row, Part.row row ∈ item.above → row.Clean) ∧ Undisturbed Row.cfgs [] item.above := by
  rw [Item.Good, start]
  refine or_iff_right_of_imp fun none => ⟨fun row mem => ?_, undisturbed_of_none (Item.above_none none)⟩
  rw [← read_eq_iff, Item.above_none none row mem]
  exact read_of_none (Item.above_none none row mem)

theorem Item.cfgs_line {plain : PlainLine} {code : IsCode plain.val} (start : item.start = .line plain code) :
    item.cfgs = item.above.flatMap (Part.predicates Row.cfgs) := by
  rw [Item.cfgs, start]
  exact append_nil _

theorem scanLines_good (aligned : item.Aligned following) (good : item.Good)
    (short : index + item.lines.length < 2 ^ 32 - 1) : ∃ byLine',
      scanLines index (item.lines ++ following) [] byLine =
        scanLines (index + item.lines.length) following [] byLine' ∧
      ∀ number, byLine'.get number =
        if item.cfgs ≠ [] ∧ number = index + item.head.length then some item.cfgs else byLine.get number := by
  obtain ⟨together, onLine⟩ := aligned
  rw [item.lines_append]
  have sizes := item.lines_length
  have sizes' := item.head_length
  cases start : item.start with
  | line plain code =>
    obtain ⟨calm, same⟩ := (read_above_iff item.above).mpr ((Item.good_line start).mp good)
    rw [start] at sizes'
    have number : lineNumber (index + (item.above.flatMap Part.lines).length) = index + item.head.length := by
      rw [sizes', lineNumber_eq]
      · rfl
      · simp only [Start.lines, length_singleton] at sizes'
        omega
    refine ⟨record (index + (item.above.flatMap Part.lines).length) item.cfgs byLine, ?_, fun other => ?_⟩
    · rw [scanLines_above together calm, same, ← Item.cfgs_line start, nil_append]
      show scanLines _ (plain.val :: (item.body.map Subtype.val ++ following)) _ _ = _
      rw [scanLines_code plain.property code, scanLines_plain item.body_plain, length_map, sizes, sizes']
      congr 1
      simp only [Start.lines, length_singleton]
      omega
    · rw [record_get, number]
  | row attrs code =>
    have none : item.cfgs = [] := by
      unfold Item.Good at good
      rw [start] at good
      exact good.resolve_right id
    have reads : item.above.flatMap (Part.predicates Row.read) = [] := by
      rw [flatMap_eq_nil_iff]
      intro part mem
      cases part with
      | note plain => rfl
      | row attrs => exact Row.read_of_none (Item.above_none none attrs mem)
    have calm := undisturbed_of_none fun row mem => Row.read_of_none (Item.above_none none row mem)
    have own : attrs.cfgs = [] := by
      have both := (append_eq_nil_iff.mp none).2
      rw [start] at both
      exact both
    rw [start] at onLine
    obtain ⟨front, back, body, joins⟩ := onLine
    obtain ⟨line, later, first, starts⟩ := attrs.lines_eq_cons
    have unread : cfgPredicate (joined (attrs.lines ++ front)) = .none := by
      cases kind : attrs.first with
      | cfg attr =>
        unfold Row.cfgs at own
        rw [kind] at own
        exact nomatch own
      | other content apart => exact Row.cfgPredicate_other kind front
    have plain : ∀ line ∈ back, Unattributed line := fun line mem =>
      item.body_plain line (by rw [body]; exact mem_append_right _ mem)
    have counts : front.length + back.length = item.body.length := by
      rw [← length_append, ← body, length_map]
    refine ⟨byLine, ?_, fun other => by rw [if_neg fun both => both.1 none]⟩
    rw [scanLines_above together calm, reads, append_nil, body, Start.lines, append_assoc,
      ← append_assoc attrs.lines]
    rw [first, cons_append] at joins unread ⊢
    rw [scanLines_attribute starts joins, unread, Option.toList_none, append_nil, scanLines_plain plain, sizes,
      sizes', start]
    congr 1
    simp only [Start.lines, first, length_cons, length_append]
    omega

theorem exists_wrong (aligned : item.Aligned following) (bad : ¬ item.Good)
    (short : index + item.lines.length < 2 ^ 32 - 1)
    (fresh : ∀ number, index < number → byLine.get number = none) :
    ∃ number, index < number ∧ number ≤ index + item.lines.length ∧
      (scanLines index (item.lines ++ following) [] byLine).get number ≠
        if item.cfgs ≠ [] ∧ number = index + item.head.length then some item.cfgs else none := by
  obtain ⟨together, onLine⟩ := aligned
  rw [item.lines_append]
  have sizes := item.lines_length
  have sizes' := item.head_length
  have own := item.start.lines_pos
  have positive : 0 < item.head.length := by omega
  by_cases calm : Undisturbed Row.read [] item.above
  · cases start : item.start with
    | line plain code =>
      have differ : item.above.flatMap (Part.predicates Row.read) ≠ item.cfgs := by
        intro same
        rw [Item.cfgs_line start] at same
        exact bad ((Item.good_line start).mpr ((read_above_iff item.above).mp ⟨calm, same⟩))
      rw [start] at sizes'
      simp only [Start.lines, length_singleton] at sizes'
      refine ⟨index + item.head.length, by omega, by omega, ?_⟩
      have number : lineNumber (index + (item.above.flatMap Part.lines).length) = index + item.head.length := by
        rw [sizes']
        exact lineNumber_eq (by omega)
      rw [scanLines_above together calm, nil_append]
      show (scanLines _ (plain.val :: (item.body.map Subtype.val ++ following)) _ _).get _ ≠ _
      rw [scanLines_code plain.property code, scanLines_get (by omega) (by omega), record_get, number,
        fresh _ (by omega)]
      by_cases empty : item.above.flatMap (Part.predicates Row.read) = []
      · rw [if_neg fun both => both.1 empty, if_pos ⟨fun none => differ (empty.trans none.symm), rfl⟩]
        exact fun impossible => nomatch impossible
      rw [if_pos ⟨empty, rfl⟩]
      split
      · exact fun same => differ (Option.some.inj same)
      · exact fun impossible => nomatch impossible
    | row attrs code =>
      have some : item.cfgs ≠ [] := fun none => bad (.inl none)
      rw [start] at onLine
      obtain ⟨front, back, body, joins⟩ := onLine
      obtain ⟨line, later, first, starts⟩ := attrs.lines_eq_cons
      refine ⟨index + item.head.length, by omega, by omega, ?_⟩
      rw [start] at sizes'
      rw [if_pos ⟨some, rfl⟩, scanLines_above together calm, body, Start.lines, append_assoc,
        ← append_assoc attrs.lines]
      have longer : item.head.length ≤
          (item.above.flatMap Part.lines).length + (line :: (later ++ front)).length := by
        simp only [Start.lines, first, length_cons, length_append] at sizes' ⊢
        omega
      rw [first, cons_append] at joins ⊢
      rw [scanLines_attribute starts joins, scanLines_get (by omega) (by omega), fresh _ (by omega)]
      exact fun impossible => nomatch impossible
  · obtain ⟨number, above, below, found⟩ := @exists_recorded_above index item.above
      (item.start.lines ++ (item.body.map Subtype.val ++ following)) [] byLine together calm (by omega)
    refine ⟨number, above, by omega, ?_⟩
    rwa [if_neg (by omega)]

end Items

section Sources

variable {index : Nat} {items : List Item} {byLine : Dict Nat (List (List Char))}

theorem placed_later {number : Nat} {predicates : List (List Char)} (mem : (number, predicates) ∈ placed index items) :
    index < number := by
  induction items generalizing index with
  | nil => exact absurd mem not_mem_nil
  | cons item later ih =>
    have positive := item.start.lines_pos
    have sizes := item.head_length
    rcases mem_append.mp mem with own | other
    · split at own
      · exact absurd own not_mem_nil
      have same := congrArg Prod.fst (mem_singleton.mp own)
      simp only at same
      omega
    · exact Nat.lt_of_le_of_lt (Nat.le_add_right _ _) (ih other)

theorem scanLines_iff (aligned : Aligned items)
    (short : index + (items.flatMap Item.lines).length < 2 ^ 32 - 1)
    (fresh : ∀ number, index < number → byLine.get number = none) :
    (∀ number predicates, index < number →
        ((scanLines index (items.flatMap Item.lines) [] byLine).get number = some predicates ↔
          (number, predicates) ∈ placed index items)) ↔
      ∀ item ∈ items, item.Good := by
  induction items generalizing index byLine with
  | nil =>
    refine iff_of_true (fun number predicates above => ?_) fun item mem => absurd mem not_mem_nil
    show byLine.get number = some predicates ↔ _
    rw [fresh number above]
    exact iff_of_false (fun impossible => nomatch impossible) not_mem_nil
  | cons item later ih =>
    obtain ⟨first, others⟩ := aligned
    rw [flatMap_cons, length_append, ← add_assoc] at short
    have sizes := item.lines_length
    rw [flatMap_cons, forall_mem_cons]
    -- up to the end of the item only its own entry is placed
    have own (number : Nat) (predicates : List (List Char)) (below : number ≤ index + item.lines.length) :
        (number, predicates) ∈ placed index (item :: later) ↔
          (if item.cfgs ≠ [] ∧ number = index + item.head.length then some item.cfgs else none) =
            some predicates := by
      rw [placed, mem_append, or_iff_left fun other => absurd (placed_later other) (not_lt.mpr below)]
      by_cases none : item.cfgs = []
      · simp [none]
      rw [if_neg none, mem_singleton, Prod.mk.injEq]
      by_cases same : number = index + item.head.length
      · rw [if_pos ⟨none, same⟩, Option.some.injEq]
        exact ⟨fun both => both.2.symm, fun equal => ⟨same, equal.symm⟩⟩
      · rw [if_neg fun both => same both.2]
        exact iff_of_false (fun both => same both.1) fun impossible => nomatch impossible
    have rest (number : Nat) (predicates : List (List Char)) (above : index + item.lines.length < number) :
        (number, predicates) ∈ placed index (item :: later) ↔
          (number, predicates) ∈ placed (index + item.lines.length) later := by
      refine mem_append.trans (or_iff_right fun entry => ?_)
      split at entry
      · exact absurd entry not_mem_nil
      have same := congrArg Prod.fst (mem_singleton.mp entry)
      simp only at same
      omega
    by_cases good : item.Good
    · obtain ⟨byLine', run, entries⟩ := @scanLines_good index item _ byLine first good (by omega)
      have fresh' : ∀ number, index + item.lines.length < number → byLine'.get number = none := by
        intro number above
        rw [entries, if_neg fun both => by omega]
        exact fresh number (by omega)
      rw [and_iff_right good, run, ← ih others short fresh']
      constructor
      · intro exact' number predicates above
        rw [← rest number predicates above]
        exact exact' number predicates (by omega)
      intro exact' number predicates above
      by_cases below : number ≤ index + item.lines.length
      · rw [own number predicates below, scanLines_get below (by omega), entries, fresh number above]
      · rw [rest number predicates (by omega)]
        exact exact' number predicates (by omega)
    obtain ⟨number, above, below, wrong⟩ := @exists_wrong index item _ byLine first good (by omega) fresh
    refine iff_of_false (fun exact' => wrong (Option.ext fun predicates => ?_)) fun both => good both.1
    rw [← own number predicates below]
    exact exact' number predicates above

/-- The lines of a source are those of the layout, and attributes end where their lines do. -/
structure Lays (source : List Char) (layout : Layout) : Prop where
  lines : linesOf source = layout.lines
  aligned : Aligned layout.items
  short : layout.lines.length < 2 ^ 32 - 1

/-- The scan records exactly the predicates of the items when each item is good. -/
theorem scan_exact_iff {source : List Char} {layout : Layout} (lays : Lays source layout) :
    Exact layout (scan source) ↔ ∀ item ∈ layout.items, item.Good := by
  have plain : ∀ line ∈ layout.preamble.map Subtype.val, Unattributed line := by
    intro line mem
    obtain ⟨plain, -, rfl⟩ := mem_map.mp mem
    exact plain.property
  have short := lays.short
  rw [Layout.lines, length_append, length_map] at short
  have run : (scan source).byLine =
      scanLines layout.preamble.length (layout.items.flatMap Item.lines) [] ∅ := by
    rw [scan, lays.lines]
    refine (scanLines_plain plain).trans ?_
    rw [Nat.zero_add, length_map]
  rw [← scanLines_iff lays.aligned short fun number _ => Dict.get_empty number, ← run]
  constructor
  · exact fun exact' number predicates _ => exact' number predicates
  intro exact' number predicates
  by_cases above : layout.preamble.length < number
  · exact exact' number predicates above
  refine iff_of_false ?_ fun mem => above (placed_later mem)
  rw [run, scanLines_get (by omega) (by omega), Dict.get_empty]
  exact fun impossible => nomatch impossible

end Sources

/-- A predicate without spacing around it. -/
def bareCfg (predicate : String) : CfgAttribute := ⟨[], [], predicate.toList, [], .none, .none, .none⟩

/-- A row of one `cfg`. -/
def bareRow (predicate tail : String) (unbroken : '\n' ∉ tail.toList) (ended : Unattributed tail.toList) : Row :=
  ⟨[], .cfg (bareCfg predicate), [], tail.toList, blank_nil, not_mem_nil,
    fun _ member => absurd member not_mem_nil, unbroken, ended⟩

theorem newline_spacing : Spacing ['\n'] := .blank (by decide) .none

def guardedSource : List Char :=
  "use std::io;\n#[cfg(unix)]\n\n#[cfg(any(\n    unix,\n    test\n))]\nstruct F(\n);\nstruct G;".toList

def unixRow : Row := bareRow "unix" "" (by decide) (unattributed_of_first (by decide))

def anyRow : Row := bareRow "any(\n    unix,\n    test\n)" "" (by decide) (unattributed_of_first (by decide))

def guardedLayout : Layout where
  preamble := [⟨"use std::io;".toList, unattributed_of_first (by decide)⟩]
  items := [
    { above := [.row unixRow, .note ⟨[], unattributed_of_first (by decide)⟩, .row anyRow]
      start := .line ⟨"struct F(".toList, unattributed_of_first (by decide)⟩ (by decide)
      body := [⟨");".toList, unattributed_of_first (by decide)⟩]
      commented := .row newline_spacing (@Commented.notes [⟨[], _⟩] _ newline_spacing (.row newline_spacing .none)) },
    { above := []
      start := .line ⟨"struct G;".toList, unattributed_of_first (by decide)⟩ (by decide)
      body := []
      commented := .none }]

theorem guarded_rows {attrs : Row} {plain : PlainLine}
    (mem : Part.row attrs ∈ [.row unixRow, .note plain, .row anyRow]) : attrs = unixRow ∨ attrs = anyRow := by
  simpa using mem

theorem guarded_lays : Lays guardedSource guardedLayout := by
  refine ⟨by decide +kernel, ⟨⟨fun attrs mem => ?_, trivial⟩,
    ⟨fun _ mem => absurd mem not_mem_nil, trivial⟩, trivial⟩, by decide +kernel⟩
  rcases guarded_rows mem with rfl | rfl <;>
    exact ⟨by decide +kernel, by decide +kernel, .inl (by decide +kernel)⟩

theorem scan_exact_guarded : Exact guardedLayout (scan guardedSource) := by
  refine (scan_exact_iff guarded_lays).mpr (forall_mem_cons.mpr ⟨.inr ⟨fun attrs mem => ?_, ?_⟩,
    forall_mem_singleton.mpr (.inl rfl)⟩)
  · rcases guarded_rows mem with rfl | rfl <;> exact ⟨blank_nil, blank_nil, by decide⟩
  · exact ⟨fun code => absurd code (by decide), trivial⟩

def sameLineSource : List Char := "#[cfg(unix)] fn f() {}\nfn g() {}\n".toList

def sameLineLayout : Layout where
  preamble := []
  items := [
    { above := []
      start := .row (bareRow "unix" " fn f() {}" (by decide) (unattributed_of_first (by decide))) (by decide)
      body := []
      commented := .none },
    { above := []
      start := .line ⟨"fn g() {}".toList, unattributed_of_first (by decide)⟩ (by decide)
      body := [⟨[], unattributed_of_first (by decide)⟩]
      commented := .none }]

/-- The predicate of an attribute on the item's own line is recorded for the next item. -/
theorem scan_not_exact : ¬ ∀ source layout, Lays source layout → Exact layout (scan source) := by
  intro exact'
  have lays : Lays sameLineSource sameLineLayout := by
    refine ⟨by decide +kernel, ⟨⟨fun _ mem => absurd mem not_mem_nil, [], [], rfl, ?_⟩,
      ⟨fun _ mem => absurd mem not_mem_nil, trivial⟩, trivial⟩, by decide +kernel⟩
    exact ⟨by decide +kernel, by decide +kernel, .inl (by decide +kernel)⟩
  have recorded : (scan sameLineSource).byLine.get 2 = some ["unix)] fn f(".toList] := by decide +kernel
  have placed := (exact' _ _ lays 2 _).mp recorded
  revert placed
  decide +kernel

end Codegraph.RustCfg
