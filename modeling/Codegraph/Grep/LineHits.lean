import Codegraph.Grep.MatchingLines

namespace Codegraph.Grep

open Library List

/-- The lines start at the start of the text and behind newlines. Nothing starts at the end. -/
def lineStarts (buf : Bytes) : List Nat :=
  (List.range buf.length).filter fun start => start = 0 ∨ buf[start - 1]? = some newline

/-- The end of the line that starts at a position, without its terminator. -/
def textEndAt (buf : Bytes) (start : Nat) : Nat :=
  if start < lineEndAt buf start ∧ buf[lineEndAt buf start - 1]? = some carriageReturn then
    lineEndAt buf start - 1
  else lineEndAt buf start

def lineText (buf : Bytes) (start : Nat) : Bytes := slice buf start (textEndAt buf start)

def textMatches (regex : Regex) (buf : Bytes) (start : Nat) : Bool :=
  (regex.findAt (lineText buf start) 0).isSome

/-- The number and the range of the line that starts at a position. -/
def lineRange (buf : Bytes) (start : Nat) : Nat × Nat × Nat :=
  (1 + (slice buf 0 start).count newline, start, textEndAt buf start)

/-- The engine finds the leftmost range that the pattern accepts, and what it accepts inside a line
depends on that line only. -/
structure Regex.LineOriented (regex : Regex) (accepts : Bytes → Nat → Nat → Prop) : Prop where
  lawful : regex.Lawful
  accepted : ∀ buf pos start stop, regex.findAt buf pos = some (start, stop) → accepts buf start stop
  leftmost : ∀ buf pos start stop, accepts buf start stop → pos ≤ start →
    ∃ first last, regex.findAt buf pos = some (first, last) ∧ first ≤ start
  resumed : ∀ buf pos pos' start stop, regex.findAt buf pos = some (start, stop) → pos ≤ pos' →
    pos' ≤ start → regex.findAt buf pos' = some (start, stop)
  lineOnly : ∀ buf start first last, start ∈ lineStarts buf → start ≤ first → first ≤ last →
    last ≤ textEndAt buf start →
      (accepts buf first last ↔ accepts (lineText buf start) (first - start) (last - start))

/-- However long the loop may run, it reports each line that matches on its own, once and in order,
and a column inside it. -/
def ReportsMatchingLines (regex : Regex) (buf : Bytes) : Prop :=
  ∀ fuel, buf.length < fuel →
    (forEachMatchingLine regex buf fuel {}).map (fun found => (found.line, found.start, found.stop)) =
        ((lineStarts buf).filter (textMatches regex buf)).map (lineRange buf) ∧
      ∀ found ∈ forEachMatchingLine regex buf fuel {}, found.start + found.column ≤ found.stop

/-- Where the text before a carriage return does not match, the first match of the line runs past its
newline, and the text with the carriage return does not match either. -/
def NoReturnHit (regex : Regex) (buf : Bytes) : Prop :=
  ∀ start ∈ lineStarts buf, textEndAt buf start < lineEndAt buf start →
    textMatches regex buf start = false →
      ∀ first last, regex.findAt buf start = some (first, last) → first ≤ lineEndAt buf start →
        lineEndAt buf start < last ∧ regex.findAt (slice buf start (lineEndAt buf start)) 0 = none

section Lines

variable {buf : Bytes} {start position : Nat}

theorem mem_lineStarts : start ∈ lineStarts buf ↔
    start < buf.length ∧ (start = 0 ∨ buf[start - 1]? = some newline) := by
  simp [lineStarts]

/-- A line ends at its first newline or at the end of the text. -/
structure EndsAt (buf : Bytes) (position stop : Nat) : Prop where
  after : position ≤ stop
  inside : stop ≤ buf.length
  clear : ∀ index, position ≤ index → index < stop → buf[index]? ≠ some newline
  ended : stop < buf.length → buf[stop]? = some newline

theorem EndsAt.unique {stop stop' : Nat} (ends : EndsAt buf position stop)
    (ends' : EndsAt buf position stop') : stop = stop' := by
  rcases Nat.lt_trichotomy stop stop' with less | equal | more
  · exact absurd (ends.ended (less.trans_le ends'.inside)) (ends'.clear stop ends.after less)
  · exact equal
  · exact absurd (ends'.ended (more.trans_le ends.inside)) (ends.clear stop' ends'.after more)

theorem getElem?_takeWhile_clear (list : Bytes) {index : Nat}
    (early : index < (list.takeWhile fun byte => byte ≠ newline).length) :
    list[index]? ≠ some newline := by
  intro here
  have bound := @length_takeWhile_le _ (fun byte => decide (byte ≠ newline)) _ _ _ here (by simp)
  omega

section

variable (inside : position ≤ buf.length)
include inside

theorem lineEndAt_endsAt : EndsAt buf position (lineEndAt buf position) := by
  refine ⟨le_lineEndAt position, ?_, fun index after before => ?_, newline_lineEndAt⟩
  · have bound := (takeWhile_sublist (fun byte => byte ≠ newline)
      (l := buf.drop position)).length_le
    rw [length_drop] at bound
    unfold lineEndAt
    omega
  have clear := @getElem?_takeWhile_clear (buf.drop position) (index - position) (by
    unfold lineEndAt at before
    omega)
  rwa [getElem?_drop, Nat.add_sub_cancel' after] at clear

theorem lineStartAt_clear {index : Nat}
    (after : lineStartAt buf position ≤ index) (before : index < position) :
    buf[index]? ≠ some newline := by
  have length : (buf.take position).length = position := by rw [length_take, min_eq_left inside]
  have clear := @getElem?_takeWhile_clear (buf.take position).reverse (position - 1 - index) (by
    unfold lineStartAt at after
    omega)
  rw [getElem?_reverse (by omega), length, getElem?_take_of_lt (by omega)] at clear
  have same : position - 1 - (position - 1 - index) = index := by omega
  rwa [same] at clear

theorem lineStartAt_starts :
    lineStartAt buf position = 0 ∨ buf[lineStartAt buf position - 1]? = some newline := by
  have length : (buf.take position).reverse.length = position := by
    rw [length_reverse, length_take, min_eq_left inside]
  by_cases whole : ((buf.take position).reverse.takeWhile fun byte => byte ≠ newline).length <
      (buf.take position).reverse.length
  · right
    obtain ⟨byte, here, stops⟩ := getElem?_length_takeWhile (fun byte => byte ≠ newline) _ whole
    rw [getElem?_reverse (by simpa using whole)] at here
    rw [length] at whole
    have length' : (buf.take position).length = position := by simpa using length
    rw [length', getElem?_take_of_lt (by omega)] at here
    have same : lineStartAt buf position - 1 = position - 1 -
        ((buf.take position).reverse.takeWhile fun byte => byte ≠ newline).length := by
      unfold lineStartAt
      omega
    rw [same, here]
    simpa using stops
  left
  unfold lineStartAt
  omega

theorem lineEndAt_lineStartAt : lineEndAt buf (lineStartAt buf position) = lineEndAt buf position := by
  have before := @lineStartAt_le buf position
  have ends := lineEndAt_endsAt inside
  refine (lineEndAt_endsAt (before.trans inside)).unique
    ⟨before.trans ends.after, ends.inside, fun index after early => ?_, ends.ended⟩
  rcases Nat.lt_or_ge index position with less | more
  · exact lineStartAt_clear inside after less
  · exact ends.clear index more early

end

theorem lineEndAt_lt {next : Nat} (listed : start ∈ lineStarts buf) (next' : next ∈ lineStarts buf)
    (later : start < next) : lineEndAt buf start < next := by
  obtain ⟨inside, starts⟩ := mem_lineStarts.mp next'
  have ends := lineEndAt_endsAt (Nat.le_of_lt (mem_lineStarts.mp listed).1)
  by_contra more
  have newline' := starts.resolve_left (Nat.ne_of_gt (Nat.zero_lt_of_lt later))
  exact ends.clear (next - 1) (by omega) (by omega) newline'

theorem textEndAt_le : textEndAt buf start ≤ lineEndAt buf start := by
  unfold textEndAt
  split
  · exact Nat.sub_le _ 1
  · exact le_refl _

theorem le_textEndAt : start ≤ textEndAt buf start := by
  have ends := @le_lineEndAt buf start
  unfold textEndAt
  split <;> omega

theorem count_slice_add {first second : Nat} (upwards : first ≤ second) : (slice buf 0 second).count newline =
      (slice buf 0 first).count newline + (slice buf first second).count newline := by
  unfold slice
  rw [drop_zero, drop_zero, ← count_append]
  congr 1
  have split := take_append_drop first (buf.take second)
  rwa [take_take, min_eq_left upwards, eq_comm] at split

end Lines

section Scanning

variable {regex : Regex} {accepts : Bytes → Nat → Nat → Prop} {buf : Bytes}

/-- What the loop decides of a line. -/
def reports (regex : Regex) (buf : Bytes) (start : Nat) : Bool :=
  match regex.findAt buf start with
  | none => false
  | some (first, last) =>
    first ≤ lineEndAt buf start && (last ≤ lineEndAt buf start ||
      (regex.findAt (slice buf start (lineEndAt buf start)) 0).isSome)

/-- The reported lines from a position on. -/
def reported (regex : Regex) (buf : Bytes) (pos : Nat) : List Nat :=
  ((lineStarts buf).filter (pos ≤ ·)).filter (reports regex buf)

theorem mem_reported {pos start : Nat} : start ∈ reported regex buf pos ↔
    start ∈ lineStarts buf ∧ pos ≤ start ∧ reports regex buf start = true := by
  simp only [reported, mem_filter, decide_eq_true_eq, and_assoc]

theorem reported_sorted (pos : Nat) : (reported regex buf pos).Pairwise (· < ·) :=
  ((pairwise_lt_range.filter _).filter _).filter _

theorem reported_eq_nil {pos : Nat}
    (none : ∀ start ∈ lineStarts buf, pos ≤ start → reports regex buf start = false) :
    reported regex buf pos = [] := by
  refine eq_nil_iff_forall_not_mem.mpr fun start mem => ?_
  obtain ⟨listed, after, hit⟩ := mem_reported.mp mem
  rw [none start listed after] at hit
  exact Bool.false_ne_true hit

/-- The lines before the one of the first match are not reported. -/
theorem reported_split {pos start : Nat} (listed : start ∈ lineStarts buf) (after : pos ≤ start)
    (skipped : ∀ other ∈ lineStarts buf, pos ≤ other → other < start → reports regex buf other = false) :
    reported regex buf pos = (if reports regex buf start then [start] else []) ++
      reported regex buf (lineEndAt buf start + 1) := by
  have ends := @le_lineEndAt buf start
  refine List.Pairwise.eq_of_mem_iff (reported_sorted pos) ?_ fun other => ?_
  · rw [pairwise_append]
    refine ⟨?_, reported_sorted _, fun first mem second mem' => ?_⟩
    · split
      · exact pairwise_singleton _ _
      · exact List.Pairwise.nil
    have later := (mem_reported.mp mem').2.1
    split at mem
    · rw [mem_singleton.mp mem]
      omega
    · cases mem
  rw [mem_append, mem_reported, mem_reported]
  constructor
  · rintro ⟨listed', after', hit⟩
    rcases Nat.lt_trichotomy other start with less | rfl | more
    · rw [skipped other listed' after' less] at hit
      exact absurd hit Bool.false_ne_true
    · rw [if_pos hit]
      exact .inl (mem_singleton_self other)
    · exact .inr ⟨listed', lineEndAt_lt listed listed' more, hit⟩
  rintro (here | ⟨listed', later, hit⟩)
  · split at here
    · rename_i hit
      rw [mem_singleton.mp here]
      exact ⟨listed, after, hit⟩
    · cases here
  · exact ⟨listed', by omega, hit⟩

theorem reports_of_findAt {start first last : Nat}
    (found : regex.findAt buf start = some (first, last)) : reports regex buf start =
      (first ≤ lineEndAt buf start && (last ≤ lineEndAt buf start ||
        (regex.findAt (slice buf start (lineEndAt buf start)) 0).isSome)) := by
  rw [reports, found]

theorem not_reports {start first last : Nat}
    (found : regex.findAt buf start = some (first, last)) (beyond : lineEndAt buf start < first) :
    reports regex buf start = false := by
  rw [reports_of_findAt found, decide_eq_false (Nat.not_le_of_lt beyond)]
  rfl

/-- What the loop reports of the lines from a position on. -/
def Reports (regex : Regex) (buf : Bytes) (pos : Nat) (found : List LineMatch) : Prop :=
  found.map (fun found => (found.line, found.start, found.stop)) =
      (reported regex buf pos).map (lineRange buf) ∧
    ∀ hit ∈ found, hit.start + hit.column ≤ hit.stop

theorem reports_nil {pos : Nat}
    (none : ∀ start ∈ lineStarts buf, pos ≤ start → reports regex buf start = false) :
    Reports regex buf pos [] := by
  rw [Reports, reported_eq_nil none]
  exact ⟨rfl, fun _ impossible => absurd impossible not_mem_nil⟩

/-- The loop reports the lines from its position on. -/
theorem scan_reported (engine : regex.LineOriented accepts) {fuel : Nat} {state : LineScan}
    (enough : buf.length < fuel + state.pos) (inside : state.pos ≤ buf.length)
    (starts : state.pos = 0 ∨ buf[state.pos - 1]? = some newline)
    (behind : state.countedTo ≤ state.pos)
    (counted : state.line = 1 + (slice buf 0 state.countedTo).count newline) :
    Reports regex buf state.pos (forEachMatchingLine regex buf fuel state) := by
  induction fuel generalizing state with
  | zero => omega
  | succ fuel ih =>
    rw [forEachMatchingLine, if_neg (Nat.not_lt_of_le inside)]
    cases search : regex.findAt buf state.pos with
    | none =>
      refine reports_nil fun start listed after => ?_
      unfold reports
      cases found : regex.findAt buf start with
      | none => rfl
      | some range =>
        obtain ⟨first, last⟩ := range
        have least := (engine.lawful _ _ _ _ found).1
        obtain ⟨_, _, search', -⟩ := engine.leftmost buf state.pos first last
          (engine.accepted _ _ _ _ found) (after.trans least)
        rw [search] at search'
        cases search'
    | some range =>
      obtain ⟨first, last⟩ := range
      obtain ⟨least, upwards, within⟩ := engine.lawful _ _ _ _ search
      have resumed {start : Nat} (after : state.pos ≤ start) (before : start ≤ first) :
          regex.findAt buf start = some (first, last) :=
        engine.resumed buf state.pos start first last search after before
      dsimp only
      by_cases final : first = buf.length ∧ (buf = [] ∨ buf.getLast? = some newline)
      · rw [if_pos final]
        refine reports_nil fun start listed after => ?_
        obtain ⟨early, -⟩ := mem_lineStarts.mp listed
        refine not_reports (resumed after (by omega)) ?_
        have newline' : buf[buf.length - 1]? = some newline := by
          rw [← getLast?_eq_getElem?]
          exact final.2.resolve_left (ne_nil_of_length_pos (by omega))
        by_contra more
        exact (lineEndAt_endsAt early.le).clear (buf.length - 1) (by omega) (by omega) newline'
      rw [if_neg final]
      have before := @lineStartAt_le buf first
      have early : lineStartAt buf first < buf.length := by
        refine lt_of_le_of_ne (before.trans (upwards.trans within)) fun whole => ?_
        have last' : first = buf.length := by omega
        have starts' := @lineStartAt_starts buf first (by omega)
        rw [whole] at starts'
        refine final ⟨last', starts'.imp length_eq_zero_iff.mp fun newline' => ?_⟩
        rwa [getLast?_eq_getElem?]
      have listed := mem_lineStarts.mpr ⟨early, lineStartAt_starts (by omega)⟩
      have ends := @lineEndAt_lineStartAt buf first (by omega)
      have after := le_lineStartAt least (by omega) starts
      have split := @reported_split regex buf _ _ listed after
        fun other listed' after' earlier => not_reports (resumed after' (by omega))
          ((lineEndAt_lt listed' listed earlier).trans_le before)
      have hit := reports_of_findAt (resumed after before)
      rw [ends, decide_eq_true (le_lineEndAt first), Bool.true_and] at hit
      rw [ends] at split
      have next := @le_lineEndAt buf first
      have tail {line countedTo : Nat} (behind' : countedTo ≤ lineEndAt buf first + 1)
          (counted' : line = 1 + (slice buf 0 countedTo).count newline) :
          Reports regex buf (lineEndAt buf first + 1)
            (if buf.length < lineEndAt buf first + 1 then []
            else forEachMatchingLine regex buf fuel
              ⟨lineEndAt buf first + 1, line, countedTo⟩) := by
        by_cases final' : buf.length < lineEndAt buf first + 1
        · rw [if_pos final']
          refine reports_nil fun start listed' after' => ?_
          have := (mem_lineStarts.mp listed').1
          omega
        rw [if_neg final']
        exact @ih ⟨lineEndAt buf first + 1, line, countedTo⟩
          (by dsimp only; omega) (by dsimp only; omega)
          (.inr (newline_lineEndAt (by omega))) behind' counted'
      have textEnd : (if lineStartAt buf first < lineEndAt buf first ∧
          buf[lineEndAt buf first - 1]? = some carriageReturn then lineEndAt buf first - 1
          else lineEndAt buf first) = textEndAt buf (lineStartAt buf first) := by
        rw [textEndAt, ends]
      have decided : (if last ≤ lineEndAt buf first then
          some (first - lineStartAt buf first)
          else (regex.findAt (slice buf (lineStartAt buf first) (lineEndAt buf first)) 0).map
            Prod.fst).isSome = reports regex buf (lineStartAt buf first) := by
        rw [hit]
        by_cases whole : last ≤ lineEndAt buf first <;> simp [whole]
      split
      · rename_i column
        rw [column] at decided
        rw [← decided] at split
        rw [Reports, split]
        exact tail (by omega) counted
      rename_i column value
      rw [value] at decided
      rw [← decided] at split
      have number : state.line + (slice buf state.countedTo (lineStartAt buf first)).count
          newline = 1 + (slice buf 0 (lineStartAt buf first)).count newline := by
        have := @count_slice_add buf state.countedTo (lineStartAt buf first) (by omega)
        omega
      obtain ⟨rest, columns⟩ := @tail (1 + (slice buf 0 (lineStartAt buf first)).count
        newline) (lineStartAt buf first) (by omega) rfl
      rw [number, textEnd]
      rw [Reports, split]
      refine ⟨by rw [map_cons, rest]; rfl, fun entry mem => ?_⟩
      rcases mem_cons.mp mem with rfl | later
      · have := @le_textEndAt buf (lineStartAt buf first)
        dsimp only
        omega
      · exact columns entry later

theorem length_slice (start stop : Nat) : (slice buf start stop).length = min stop buf.length - start := by
  rw [slice, length_drop, length_take]

theorem getElem?_slice (start stop index : Nat) : (slice buf start stop)[index]? =
    if start + index < stop then buf[start + index]? else none := by
  rw [slice, getElem?_drop, getElem?_take]

theorem textMatches_iff (engine : regex.LineOriented accepts) {start : Nat} :
    textMatches regex buf start = true ↔ ∃ first last, first ≤ last ∧
      last ≤ (lineText buf start).length ∧ accepts (lineText buf start) first last := by
  rw [textMatches, Option.isSome_iff_exists]
  constructor
  · rintro ⟨⟨first, last⟩, found⟩
    obtain ⟨-, upwards, inside⟩ := engine.lawful _ _ _ _ found
    exact ⟨first, last, upwards, inside, engine.accepted _ _ _ _ found⟩
  rintro ⟨first, last, -, -, accepted⟩
  obtain ⟨first', last', found, -⟩ := engine.leftmost _ 0 _ _ accepted (Nat.zero_le first)
  exact ⟨_, found⟩

theorem length_lineText {start : Nat} (listed : start ∈ lineStarts buf) :
    (lineText buf start).length = textEndAt buf start - start := by
  have inside := (lineEndAt_endsAt (mem_lineStarts.mp listed).1.le).inside
  have early := @textEndAt_le buf start
  rw [lineText, length_slice, min_eq_left (early.trans inside)]

theorem slice_returned {start : Nat} (listed : start ∈ lineStarts buf)
    (returned : textEndAt buf start < lineEndAt buf start) :
    0 ∈ lineStarts (slice buf start (lineEndAt buf start)) ∧
      lineText (slice buf start (lineEndAt buf start)) 0 = lineText buf start := by
  have ends := lineEndAt_endsAt (mem_lineStarts.mp listed).1.le
  have length : (slice buf start (lineEndAt buf start)).length = lineEndAt buf start - start := by
    rw [length_slice, min_eq_left ends.inside]
  have shorter : start < lineEndAt buf start ∧ buf[lineEndAt buf start - 1]? = some carriageReturn ∧
      textEndAt buf start = lineEndAt buf start - 1 := by
    unfold textEndAt at returned ⊢
    split at returned
    · rename_i here
      exact ⟨here.1, here.2, if_pos here⟩
    · exact absurd returned (lt_irrefl _)
  obtain ⟨room, last, textEnd⟩ := shorter
  have whole : lineEndAt (slice buf start (lineEndAt buf start)) 0 = lineEndAt buf start - start := by
    refine (lineEndAt_endsAt (Nat.zero_le _)).unique
      ⟨Nat.zero_le _, length.ge, fun index _ before => ?_, fun impossible => ?_⟩
    · rw [getElem?_slice, if_pos (by omega)]
      exact ends.clear _ (Nat.le_add_right _ _) (by omega)
    · rw [length] at impossible
      exact absurd impossible (lt_irrefl _)
  have textEnd' : textEndAt (slice buf start (lineEndAt buf start)) 0 =
      lineEndAt buf start - start - 1 := by
    rw [textEndAt, whole, if_pos]
    refine ⟨by omega, ?_⟩
    rw [getElem?_slice, if_pos (by omega), ← last]
    congr 1
    omega
  refine ⟨mem_lineStarts.mpr ⟨by omega, .inl rfl⟩, ?_⟩
  unfold lineText
  rw [textEnd', textEnd]
  unfold slice
  rw [drop_zero, take_drop, take_take]
  congr 2
  omega

theorem reports_of_textMatches (engine : regex.LineOriented accepts) {start : Nat}
    (listed : start ∈ lineStarts buf) (alone : textMatches regex buf start = true) :
    reports regex buf start = true := by
  have textEnd := @textEndAt_le buf start
  have textStart := @le_textEndAt buf start
  obtain ⟨first, last, upwards, inside, accepted⟩ := (textMatches_iff engine).mp alone
  rw [length_lineText listed] at inside
  have inBuf : accepts buf (start + first) (start + last) := by
    refine (engine.lineOnly buf start _ _ listed (by omega) (by omega) (by omega)).mpr ?_
    rwa [Nat.add_sub_cancel_left, Nat.add_sub_cancel_left]
  obtain ⟨first', last', found, before⟩ := engine.leftmost buf start _ _ inBuf (by omega)
  rw [reports_of_findAt found, decide_eq_true (by omega), Bool.true_and, Bool.or_eq_true]
  right
  by_cases returned : textEndAt buf start < lineEndAt buf start
  · obtain ⟨listed', same⟩ := slice_returned listed returned
    have again : accepts (slice buf start (lineEndAt buf start)) first last := by
      have length := length_lineText listed'
      rw [same, length_lineText listed] at length
      refine (engine.lineOnly _ 0 _ _ listed' (Nat.zero_le _) upwards (by omega)).mpr ?_
      rwa [same]
    obtain ⟨_, _, found', -⟩ := engine.leftmost _ 0 _ _ again (Nat.zero_le _)
    rw [found']
    rfl
  have whole : textEndAt buf start = lineEndAt buf start := by omega
  rwa [textMatches, lineText, whole] at alone

theorem textMatches_of_reports (engine : regex.LineOriented accepts) {start : Nat}
    (listed : start ∈ lineStarts buf) (plain : textEndAt buf start = lineEndAt buf start)
    (hit : reports regex buf start = true) : textMatches regex buf start = true := by
  cases found : regex.findAt buf start with
  | none =>
    rw [reports, found] at hit
    cases hit
  | some range =>
    obtain ⟨first, last⟩ := range
    obtain ⟨after, upwards, -⟩ := engine.lawful _ _ _ _ found
    rw [reports_of_findAt found, Bool.and_eq_true, Bool.or_eq_true, decide_eq_true_eq,
      decide_eq_true_eq] at hit
    rcases hit.2 with whole | alone
    · refine (textMatches_iff engine).mpr ⟨first - start, last - start, by omega, ?_, ?_⟩
      · rw [length_lineText listed]
        omega
      · exact (engine.lineOnly buf start first last listed after upwards (by omega)).mp
          (engine.accepted _ _ _ _ found)
    rwa [textMatches, lineText, plain]

theorem reports_eq_iff (engine : regex.LineOriented accepts) :
    (∀ start ∈ lineStarts buf, reports regex buf start = textMatches regex buf start) ↔
      NoReturnHit regex buf := by
  constructor
  · intro same start listed _ apart first last found before
    have silent := same start listed
    rw [apart, reports_of_findAt found, decide_eq_true before, Bool.true_and,
      Bool.or_eq_false_iff, decide_eq_false_iff_not, not_le] at silent
    exact ⟨silent.1, Option.isNone_iff_eq_none.mp (Option.isSome_eq_false_iff.mp silent.2)⟩
  intro quiet start listed
  cases alone : textMatches regex buf start with
  | true => exact reports_of_textMatches engine listed alone
  | false =>
    by_contra hit
    rw [Bool.not_eq_false] at hit
    by_cases returned : textEndAt buf start < lineEndAt buf start
    · cases found : regex.findAt buf start with
      | none =>
        rw [reports, found] at hit
        cases hit
      | some range =>
        rw [reports_of_findAt found, Bool.and_eq_true, Bool.or_eq_true,
          decide_eq_true_eq, decide_eq_true_eq] at hit
        obtain ⟨beyond, silent⟩ := quiet start listed returned alone _ _ found hit.1
        rw [silent] at hit
        rcases hit.2 with whole | impossible
        · omega
        · cases impossible
    have textEnd := @textEndAt_le buf start
    rw [textMatches_of_reports engine listed (by omega) hit] at alone
    cases alone

/-- The loop reports the lines that match on their own exactly when no carriage return makes a line
match. -/
theorem reportsMatchingLines_iff (engine : regex.LineOriented accepts) :
    ReportsMatchingLines regex buf ↔ NoReturnHit regex buf := by
  have scanned {fuel : Nat} (enough : buf.length < fuel) :
      Reports regex buf 0 (forEachMatchingLine regex buf fuel {}) :=
    @scan_reported regex accepts buf engine fuel {} (by dsimp only; omega) (Nat.zero_le _)
      (.inl rfl) (le_refl 0) (by simp [slice])
  have all : reported regex buf 0 = (lineStarts buf).filter (reports regex buf) := by
    have whole : (lineStarts buf).filter (0 ≤ ·) = lineStarts buf := filter_eq_self.mpr (by simp)
    rw [reported, whole]
  rw [← reports_eq_iff engine]
  constructor
  · intro reportsLines
    obtain ⟨lines, -⟩ := reportsLines (buf.length + 1) (Nat.lt_succ_self _)
    rw [(scanned (Nat.lt_succ_self _)).1, all] at lines
    have starts := congrArg (List.map fun range : Nat × Nat × Nat => range.2.1) lines
    rw [map_map, map_map] at starts
    have same : (fun range : Nat × Nat × Nat => range.2.1) ∘ lineRange buf = id := rfl
    rw [same, map_id, map_id] at starts
    intro start listed
    have mem : start ∈ (lineStarts buf).filter (reports regex buf) ↔
        start ∈ (lineStarts buf).filter (textMatches regex buf) := by rw [starts]
    rw [mem_filter, mem_filter, and_iff_right listed, and_iff_right listed] at mem
    exact Bool.eq_iff_iff.mpr mem
  intro same fuel enough
  obtain ⟨lines, columns⟩ := scanned enough
  refine ⟨?_, columns⟩
  rw [lines, all, filter_congr same]

end Scanning

/-- A pattern that matches one byte of a class. -/
def classRegex (holds : UInt8 → Bool) : Regex where
  findAt buf pos := ((buf.drop pos).findIdx? holds).map fun offset => (pos + offset, pos + offset + 1)

def classAccepts (holds : UInt8 → Bool) (buf : Bytes) (start stop : Nat) : Prop :=
  stop = start + 1 ∧ ∃ byte, buf[start]? = some byte ∧ holds byte = true

theorem classRegex_findAt {holds : UInt8 → Bool} {buf : Bytes} {pos start stop : Nat} :
    (classRegex holds).findAt buf pos = some (start, stop) ↔
      pos ≤ start ∧ classAccepts holds buf start stop ∧
        ∀ other byte, pos ≤ other → other < start → buf[other]? = some byte → holds byte = false := by
  simp only [classRegex, classAccepts, Option.map_eq_some_iff, Prod.mk.injEq,
    findIdx?_eq_some_iff_getElem, getElem_drop, Bool.not_eq_true, length_drop]
  constructor
  · rintro ⟨offset, ⟨inside, here, before⟩, rfl, rfl⟩
    refine ⟨Nat.le_add_right _ _, ⟨rfl, _, getElem?_eq_getElem (by omega), here⟩, ?_⟩
    intro other byte after early found
    obtain ⟨_, rfl⟩ := List.getElem?_eq_some_iff.mp found
    have silent := before (other - pos) (by omega)
    simpa only [Nat.add_sub_cancel' after] using silent
  rintro ⟨after, ⟨rfl, byte, found, here⟩, before⟩
  obtain ⟨inside, rfl⟩ := List.getElem?_eq_some_iff.mp found
  refine ⟨start - pos, ⟨by omega, ?_, fun index early => ?_⟩, by omega, by omega⟩
  · simpa only [Nat.add_sub_cancel' after] using here
  · exact before (pos + index) _ (Nat.le_add_right _ _) (by omega)
      (getElem?_eq_getElem (by omega))

theorem classRegex_lineOriented (holds : UInt8 → Bool) :
    (classRegex holds).LineOriented (classAccepts holds) := by
  refine ⟨fun buf pos start stop found => ?_, fun buf pos start stop found => ?_,
    fun buf pos start stop accepted after => ?_, fun buf pos pos' start stop found after before => ?_,
    fun buf start first last listed after upwards inside => ?_⟩
  · obtain ⟨after, ⟨rfl, byte, here, -⟩, -⟩ := classRegex_findAt.mp found
    have inside := (List.getElem?_eq_some_iff.mp here).1
    omega
  · exact (classRegex_findAt.mp found).2.1
  · obtain ⟨-, byte, here, holds'⟩ := accepted
    have mem : (buf.drop pos)[start - pos]? = some byte := by
      rwa [getElem?_drop, Nat.add_sub_cancel' after]
    cases search : (buf.drop pos).findIdx? holds with
    | none =>
      have silent := findIdx?_eq_none_iff.mp search byte (mem_of_getElem? mem)
      rw [holds'] at silent
      cases silent
    | some offset =>
      obtain ⟨_, _, before⟩ := findIdx?_eq_some_iff_getElem.mp search
      refine ⟨pos + offset, pos + offset + 1, by unfold classRegex; dsimp only; rw [search]; rfl, ?_⟩
      by_contra more
      obtain ⟨_, same⟩ := List.getElem?_eq_some_iff.mp mem
      exact before (start - pos) (by omega) (by rw [same]; exact holds')
  · obtain ⟨-, accepted, silent⟩ := classRegex_findAt.mp found
    exact classRegex_findAt.mpr ⟨before, accepted,
      fun other byte after' early => silent other byte (after.trans after') early⟩
  · unfold classAccepts lineText
    rw [getElem?_slice, Nat.add_sub_cancel' after]
    constructor
    · rintro ⟨rfl, byte, here, holds'⟩
      rw [if_pos (by omega)]
      exact ⟨by omega, byte, here, holds'⟩
    rintro ⟨same, byte, here, holds'⟩
    rw [if_pos (by omega)] at here
    exact ⟨by omega, byte, here, holds'⟩

/-- The pattern for one blank. -/
def blankRegex : Regex := classRegex fun byte => byte ∈ [9, 10, 11, 12, 13, 32]

/-- Two lines of one word each, with the endings of another system. -/
def returned : Bytes := [97, 13, 10, 98, 13, 10]

theorem reportsMatchingLines_iff_returned :
    ReportsMatchingLines blankRegex returned ↔ NoReturnHit blankRegex returned :=
  reportsMatchingLines_iff (classRegex_lineOriented _)

/-- The carriage return is taken for a blank of the line. -/
theorem returned_not_reportsMatchingLines : ¬ReportsMatchingLines blankRegex returned := by
  intro reportsLines
  have lines := (reportsLines 7 (by decide)).1
  revert lines
  decide +kernel

end Codegraph.Grep
