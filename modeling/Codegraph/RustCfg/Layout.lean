import Codegraph.RustCfg.Scan

namespace Codegraph.RustCfg

open Library List Option

/-- White space and comments. A block comment holds no other one. -/
inductive Spacing : List Char → Prop where
  | none : Spacing []
  | blank {c : Char} {rest : List Char} (white : Text.isWhitespace c = true) (later : Spacing rest) :
      Spacing (c :: rest)
  | line {text rest : List Char} (plain : '\n' ∉ text) (later : Spacing rest) :
      Spacing ('/' :: '/' :: (text ++ '\n' :: rest))
  | block {text rest : List Char} (plain : ¬ ['*', '/'] <:+: text) (later : Spacing rest) :
      Spacing ('/' :: '*' :: (text ++ '*' :: '/' :: rest))

/-- No attribute is the first thing of the text. -/
def Unattributed (text : List Char) : Prop :=
  ∀ before rest, Spacing before → text ≠ before ++ '#' :: '[' :: rest

/-- An attribute that holds a predicate. -/
structure CfgAttribute where
  before : List Char
  gap : List Char
  predicate : List Char
  after : List Char
  spacing_before : Spacing before
  spacing_gap : Spacing gap
  spacing_after : Spacing after

def cfgContent (before gap rest : List Char) : List Char := before ++ ['c', 'f', 'g'] ++ gap ++ '(' :: rest

def CfgAttribute.content (attr : CfgAttribute) : List Char :=
  cfgContent attr.before attr.gap (attr.predicate ++ ')' :: attr.after)

/-- The predicate with its lines joined. -/
def CfgAttribute.shown (attr : CfgAttribute) : List Char := Text.trim (oneLine [] attr.predicate)

/-- An outer attribute is a `cfg` or another one. -/
inductive Attribute where
  | cfg (attr : CfgAttribute)
  | other (content : List Char) (apart : ∀ before gap rest, Spacing before → Spacing gap →
      content ≠ cfgContent before gap rest)

namespace Attribute

def content : Attribute → List Char
  | cfg attr => attr.content
  | other content _ => content

def text (attr : Attribute) : List Char := '#' :: '[' :: (attr.content ++ [']'])

def cfgs : Attribute → List (List Char)
  | cfg attr => [attr.shown]
  | other _ _ => []

end Attribute

/-- Attributes that start a line, and what follows the last one on its line. -/
structure Row where
  indent : List Char
  first : Attribute
  others : List (List Char × Attribute)
  tail : List Char
  blank : Predicate.Blank indent
  level : '\n' ∉ indent
  spacing : ∀ other ∈ others, Spacing other.1
  unbroken : '\n' ∉ tail
  ended : Unattributed tail

namespace Row

def rest (row : Row) : List Char := row.others.flatMap (fun other => other.1 ++ other.2.text) ++ row.tail

def lines (row : Row) : List (List Char) := splitLines (row.indent ++ row.first.text ++ row.rest)

/-- The predicates that the row holds. -/
def cfgs (row : Row) : List (List Char) := row.first.cfgs ++ row.others.flatMap fun other => other.2.cfgs

/-- The predicate that the code reads from the lines of the row. -/
def read (row : Row) : List (List Char) := (cfgPredicate (joined row.lines)).toList

/-- A `cfg` comes first, written without comments, and no parenthesis is closed after it. Or no `cfg` is
there. -/
def Clean (row : Row) : Prop :=
  match row.first with
  | .cfg attr => Predicate.Blank attr.before ∧ Predicate.Blank attr.gap ∧ ')' ∉ attr.after ++ row.rest
  | .other _ _ => row.others.flatMap (fun other => other.2.cfgs) = []

end Row

section Spacings

variable {text : List Char}

theorem spacing_of_blank (blank : Predicate.Blank text) : Spacing text := by
  induction text with
  | nil => exact Spacing.none
  | cons c text ih =>
    exact Spacing.blank (blank c mem_cons_self)
      (ih fun other mem => blank other (mem_cons_of_mem _ mem))

theorem Spacing.comment (spacing : Spacing text) (apart : ¬ Predicate.Blank text) :
    ∃ before after, Predicate.Blank before ∧ text = before ++ '/' :: after := by
  induction spacing with
  | none => exact absurd (fun _ mem => absurd mem not_mem_nil) apart
  | @blank c rest white later ih =>
    have inner : ¬ Predicate.Blank rest := fun blank => apart (forall_mem_cons.mpr ⟨white, blank⟩)
    obtain ⟨before, after, blank, rfl⟩ := ih inner
    exact ⟨c :: before, after, forall_mem_cons.mpr ⟨white, blank⟩, rfl⟩
  | line plain later => exact ⟨[], _, fun _ mem => absurd mem not_mem_nil, rfl⟩
  | block plain later => exact ⟨[], _, fun _ mem => absurd mem not_mem_nil, rfl⟩

/-- Such a line is no attribute line. -/
theorem Unattributed.not_prefix (plain : Unattributed text) :
    ['#', '['].isPrefixOf (Text.trim text) = false := by
  rw [← Bool.not_eq_true]
  intro starts
  obtain ⟨rest, same⟩ := isPrefixOf_iff_prefix.mp starts
  have kept : Text.trim text <+: text.dropWhile Text.isWhitespace := by
    have suffix := dropWhile_suffix (l := (text.dropWhile Text.isWhitespace).reverse) Text.isWhitespace
    have reversed := reverse_prefix.mpr suffix
    rwa [reverse_reverse] at reversed
  obtain ⟨after, whole⟩ := kept
  have split := takeWhile_append_dropWhile (p := Text.isWhitespace) (l := text)
  rw [← whole, ← same] at split
  refine plain (text.takeWhile Text.isWhitespace) (rest ++ after) (spacing_of_blank fun c mem =>
    mem_takeWhile_imp mem) (split.symm.trans ?_)
  simp

theorem dropWhile_blank_solid {before rest : List Char} {c : Char} (blank : Predicate.Blank before)
    (solid : Text.isWhitespace c = false) : (before ++ c :: rest).dropWhile Text.isWhitespace = c :: rest := by
  rw [dropWhile_append_of_pos blank, dropWhile_cons_of_neg (by rw [solid]; decide)]

/-- The first character that is no blank tells. -/
theorem unattributed_of_first
    (first : ((text.dropWhile Text.isWhitespace).head?.all fun c => c ≠ '#' && c ≠ '/') = true) :
    Unattributed text := by
  rintro before rest spacing rfl
  by_cases blank : Predicate.Blank before
  · rw [dropWhile_blank_solid blank (by decide)] at first
    simp at first
  obtain ⟨start, comment, blank', rfl⟩ := spacing.comment blank
  rw [append_assoc, cons_append, dropWhile_blank_solid blank' (by decide)] at first
  simp at first

end Spacings

section Rows

variable (row : Row)

theorem Row.text_eq : row.indent ++ row.first.text ++ row.rest =
    row.indent ++ '#' :: '[' :: (row.first.content ++ ']' :: row.rest) := by
  simp [Attribute.text]

theorem Row.lines_eq_cons : ∃ line later, row.lines = line :: later ∧
    ['#', '['].isPrefixOf (Text.trim line) = true := by
  obtain ⟨head, later, same⟩ := splitLines_eq_cons (row.first.content ++ ']' :: row.rest)
  have opened : splitLines ('#' :: '[' :: (row.first.content ++ ']' :: row.rest)) = ('#' :: '[' :: head) :: later :=
    splitLines_cons (by decide) (splitLines_cons (by decide) same)
  refine ⟨row.indent ++ '#' :: '[' :: head, later, ?_, ?_⟩
  · rw [Row.lines, Row.text_eq]
    exact splitLines_plain_append row.level opened
  have trimmed : Text.trim (row.indent ++ '#' :: '[' :: head) = '#' :: '[' :: trimEnd head := by
    rw [Text.trim, dropWhile_append_of_pos row.blank, dropWhile_cons_of_neg (by decide)]
    exact trimEnd_append_solid (by decide) ['#'] head
  rw [trimmed]
  exact isPrefixOf_iff_prefix.mpr ⟨trimEnd head, rfl⟩

theorem Row.joined_lines : joined row.lines = ['#', '['] ++
    (oneLine [] row.first.content ++ ']' :: joinedAfter (splitLines row.rest)) := by
  have breaks : row.indent.filter (fun c => c = '\n') = [] := by
    rw [filter_eq_nil_iff]
    rintro c mem same
    obtain rfl := of_decide_eq_true same
    exact row.level mem
  have inside := joinedAfter_cut blank_nil (by decide : Text.isWhitespace ']' = false) row.first.content row.rest
  have bracket := joinedAfter_cut blank_nil (by decide : Text.isWhitespace '[' = false) []
    (row.first.content ++ ']' :: row.rest)
  rw [Row.lines, Row.text_eq, joined_blanks row.blank (by decide), breaks]
  refine congrArg ('#' :: ·) (bracket.trans ?_)
  exact congrArg ('[' :: ·) inside

theorem Row.cfgPredicate_lines : cfgPredicate (joined row.lines) =
    (cfgBody (oneLine [] row.first.content ++ ']' :: joinedAfter (splitLines row.rest))).bind fun rest =>
      (beforeLast ')' rest).map Text.trim := by
  rw [cfgPredicate, Row.joined_lines, stripPrefix_append, bind_some]

variable {row} {attr : CfgAttribute}

theorem CfgAttribute.oneLine_content (attr : CfgAttribute) : oneLine [] attr.content =
    oneLine [] attr.before ++ ['c', 'f', 'g'] ++ oneLine [] attr.gap ++
      '(' :: (oneLine [] attr.predicate ++ ')' :: oneLine [] attr.after) := by
  rw [CfgAttribute.content, cfgContent, append_assoc, append_assoc]
  show oneLine [] (attr.before ++ 'c' :: 'f' :: 'g' :: (attr.gap ++ '(' :: (attr.predicate ++ ')' :: attr.after))) = _
  have third := oneLine_append_solid (by decide : Text.isWhitespace 'g' = false) [] []
    (attr.gap ++ '(' :: (attr.predicate ++ ')' :: attr.after))
  have second := oneLine_append_solid (by decide : Text.isWhitespace 'f' = false) [] []
    ('g' :: (attr.gap ++ '(' :: (attr.predicate ++ ')' :: attr.after)))
  rw [nil_append] at second third
  rw [oneLine_append_solid (by decide), second, third, oneLine_append_solid (by decide),
    oneLine_append_solid (by decide)]
  simp [oneLine, foldBlanks]

/-- A comment before the name or the parenthesis hides the predicate. -/
theorem CfgAttribute.cfgBody_hidden (hidden : ¬ (Predicate.Blank attr.before ∧ Predicate.Blank attr.gap))
    (stop : List Char) : cfgBody (oneLine [] attr.content ++ ']' :: stop) = none := by
  rw [← not_isSome_iff_eq_none, isSome_iff_exists]
  rintro ⟨rest, found⟩
  obtain ⟨before, gap, later, blank, blank', same⟩ := exists_of_cfgBody_oneLine found
  simp only [CfgAttribute.content, cfgContent, append_assoc, cons_append, nil_append] at same
  have starts := congrArg (List.dropWhile Text.isWhitespace) same
  rw [dropWhile_blank_solid blank (by decide)] at starts
  by_cases plain : Predicate.Blank attr.before
  · rw [dropWhile_blank_solid plain (by decide)] at starts
    have paren : attr.gap ++ '(' :: (attr.predicate ++ ')' :: attr.after) = gap ++ '(' :: later := by
      simpa using starts
    obtain ⟨start, comment, blank, commented⟩ := attr.spacing_gap.comment fun spaces => hidden ⟨plain, spaces⟩
    have apart := congrArg (List.dropWhile Text.isWhitespace) paren
    rw [commented, append_assoc, cons_append, dropWhile_blank_solid blank (by decide),
      dropWhile_blank_solid blank' (by decide)] at apart
    exact absurd (List.cons.inj apart).1 (by decide)
  obtain ⟨start, comment, blank, commented⟩ := attr.spacing_before.comment plain
  rw [commented, append_assoc, cons_append, dropWhile_blank_solid blank (by decide)] at starts
  exact absurd (List.cons.inj starts).1 (by decide)

theorem Row.cfgBody_first (first : row.first = .cfg attr) (blank : Predicate.Blank attr.before)
    (blank' : Predicate.Blank attr.gap) :
    cfgBody (oneLine [] row.first.content ++ ']' :: joinedAfter (splitLines row.rest)) =
      some (oneLine [] attr.predicate ++
        ')' :: (oneLine [] attr.after ++ ']' :: joinedAfter (splitLines row.rest))) := by
  rw [first]
  show cfgBody (oneLine [] attr.content ++ _) = _
  rw [attr.oneLine_content]
  have body := cfgBody_blanks (blank_oneLine blank) (blank_oneLine blank') (oneLine [] attr.predicate ++
    ')' :: (oneLine [] attr.after ++ ']' :: joinedAfter (splitLines row.rest)))
  rw [← body]
  simp

theorem trim_longer {c : Char} (solid : Text.isWhitespace c = false) (text more : List Char) :
    Text.trim (text ++ c :: more) ≠ Text.trim text := by
  have front : (text ++ c :: more).dropWhile Text.isWhitespace =
      text.dropWhile Text.isWhitespace ++ c :: more := by
    rw [dropWhile_append]
    split
    · rename_i none
      rw [List.isEmpty_iff] at none
      rw [none, dropWhile_cons_of_neg (by rw [solid]; decide)]
      rfl
    · rfl
  have long : Text.trim (text ++ c :: more) = text.dropWhile Text.isWhitespace ++ c :: trimEnd more := by
    rw [Text.trim, front]
    exact trimEnd_append_solid solid _ more
  have short : (Text.trim text).length ≤ (text.dropWhile Text.isWhitespace).length := by
    rw [Text.trim, Text.trimEndMatches, length_reverse]
    refine (dropWhile_sublist _).length_le.trans ?_
    rw [length_reverse]
  intro same
  rw [← same, long, length_append, length_cons] at short
  omega

theorem Row.others_closed (absent : ')' ∉ row.rest) : row.others.flatMap (fun other => other.2.cfgs) = [] := by
  rw [flatMap_eq_nil_iff]
  rintro ⟨gap, other⟩ mem
  cases other with
  | other content apart => rfl
  | cfg attr =>
    refine absurd (mem_append_left _ (mem_flatMap.mpr ⟨_, mem, ?_⟩)) absent
    simp [Attribute.text, Attribute.content, CfgAttribute.content, cfgContent]

theorem joined_append {lines : List (List Char)} (nonempty : lines ≠ []) (more : List (List Char)) :
    joined (lines ++ more) = joined lines ++ spaced more := by
  obtain ⟨line, later, rfl⟩ := exists_cons_of_ne_nil nonempty
  simp [joined, spaced]

theorem Row.cfgPredicate_other {content : List Char} {apart} (first : row.first = .other content apart)
    (more : List (List Char)) : cfgPredicate (joined (row.lines ++ more)) = none := by
  obtain ⟨line, later, same, -⟩ := row.lines_eq_cons
  have nonempty : row.lines ≠ [] := by
    rw [same]
    exact cons_ne_nil _ _
  rw [cfgPredicate, joined_append nonempty, Row.joined_lines, append_assoc, stripPrefix_append, bind_some,
    bind_eq_none_iff, first, append_assoc]
  intro rest found
  obtain ⟨before, gap, later, blank, blank', same⟩ := exists_of_cfgBody_oneLine found
  exact absurd same (apart before gap later (spacing_of_blank blank) (spacing_of_blank blank'))

theorem Row.read_other {content : List Char} {apart} (first : row.first = .other content apart) :
    row.read = [] := by
  have none := Row.cfgPredicate_other first []
  rw [append_nil] at none
  rw [Row.read, none]
  rfl

theorem Row.read_cfg (first : row.first = .cfg attr) (clean : row.Clean) : row.read = [attr.shown] := by
  rw [Row.Clean, first] at clean
  obtain ⟨blank, blank', closed⟩ := clean
  rw [mem_append, not_or] at closed
  have last : ')' ∉ oneLine [] attr.after ++ ']' :: joinedAfter (splitLines row.rest) := by
    rw [mem_append, mem_cons, mem_joinedAfter (by decide)]
    rintro (early | bracket | late)
    · exact closed.1 (mem_of_mem_oneLine (by decide) early)
    · exact absurd bracket (by decide)
    · exact closed.2 late
  rw [Row.read, Row.cfgPredicate_lines, Row.cfgBody_first first blank blank', bind_some,
    beforeLast_append last]
  rfl

theorem Row.read_cfg_ne (first : row.first = .cfg attr) (unclean : ¬ row.Clean)
    (others : List (List Char)) : row.read ≠ attr.shown :: others := by
  rw [Row.Clean, first] at unclean
  by_cases blank : Predicate.Blank attr.before ∧ Predicate.Blank attr.gap
  · have closed : ')' ∈ oneLine [] attr.after ++ ']' :: joinedAfter (splitLines row.rest) := by
      have mem : ')' ∈ attr.after ++ row.rest := by
        by_contra absent
        exact unclean ⟨blank.1, blank.2, absent⟩
      rw [mem_append, mem_cons, mem_joinedAfter (by decide)]
      exact (mem_append.mp mem).imp (mem_oneLine (by decide)) .inr
    obtain ⟨late, early, split, absent⟩ := eq_append_cons_of_mem (mem_reverse.mpr closed)
    have whole : oneLine [] attr.after ++ ']' :: joinedAfter (splitLines row.rest) =
        early.reverse ++ ')' :: late.reverse := by
      rw [← reverse_reverse (oneLine [] attr.after ++ _), split]
      simp
    have cut : oneLine [] attr.predicate ++ ')' :: (early.reverse ++ ')' :: late.reverse) =
        (oneLine [] attr.predicate ++ ')' :: early.reverse) ++ ')' :: late.reverse := by simp
    rw [Row.read, Row.cfgPredicate_lines, Row.cfgBody_first first blank.1 blank.2, bind_some, whole, cut,
      beforeLast_append fun mem => absent (mem_reverse.mp mem)]
    intro same
    exact trim_longer (by decide) _ _ (List.cons.inj same).1
  · rw [Row.read, Row.cfgPredicate_lines, first, Attribute.content, attr.cfgBody_hidden blank]
    exact fun same => nomatch same

theorem Row.read_eq_iff : row.read = row.cfgs ↔ row.Clean := by
  cases first : row.first with
  | cfg attr =>
    have whole : row.cfgs = attr.shown :: row.others.flatMap fun other => other.2.cfgs := by
      rw [Row.cfgs, first]
      rfl
    rw [whole]
    constructor
    · intro same
      by_contra unclean
      exact Row.read_cfg_ne first unclean _ same
    intro clean
    rw [Row.read_cfg first clean, Row.others_closed]
    rw [Row.Clean, first] at clean
    exact fun mem => clean.2.2 (mem_append_right _ mem)
  | other content apart =>
    unfold Row.Clean Row.cfgs
    rw [Row.read_other first, first]
    exact eq_comm

/-- No predicate is read where none is. -/
theorem Row.length_read_le : row.read.length ≤ row.cfgs.length := by
  cases first : row.first with
  | cfg attr =>
    rw [Row.read, Row.cfgs, first]
    cases cfgPredicate (joined row.lines) with
    | none => exact Nat.zero_le _
    | some predicate => exact Nat.le_add_left 1 _
  | other content apart =>
    rw [Row.read_other first]
    exact Nat.zero_le _

end Rows

end Codegraph.RustCfg
