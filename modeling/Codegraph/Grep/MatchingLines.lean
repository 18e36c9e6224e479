import Codegraph.Grep.Paging

namespace Codegraph.Grep

open Library List

/-- A search from a position finds a range of the text that starts there or later. -/
def Regex.Lawful (regex : Regex) : Prop :=
  ∀ buf pos start stop, regex.findAt buf pos = some (start, stop) →
    pos ≤ start ∧ start ≤ stop ∧ stop ≤ buf.length

/-- The numbers of the lines that the search reports. -/
def matchingLines (regex : Regex) (buf : Bytes) : List Nat :=
  (forEachMatchingLine regex buf (buf.length + 1) {}).map LineMatch.line

/-- The ranges of a file that the session was sent. -/
def sentRangesOf (query : Query) (candidate : Candidate) (buf : Bytes) : List (Nat × Nat) :=
  if query.sent.tracks candidate.path then
    query.sent.ranges candidate.path (query.fingerprint buf)
  else []

/-- The matching lines that the session holds. -/
def sentLines (query : Query) (candidate : Candidate) (buf : Bytes) : List Nat :=
  (matchingLines query.regex buf).filter (covers (sentRangesOf query candidate buf))

section Scanning

variable {regex : Regex} {buf : Bytes} {position : Nat}

theorem length_takeWhile_le {Element : Type} {keep : Element → Bool} {list : List Element}
    {index : Nat} {element : Element} (found : list[index]? = some element)
    (stops : keep element = false) : (list.takeWhile keep).length ≤ index := by
  induction list generalizing index with
  | nil => contradiction
  | cons head rest ih =>
    cases index with
    | zero =>
      obtain rfl := Option.some.inj found
      rw [takeWhile_cons_of_neg (by simp [stops])]
      exact le_refl 0
    | succ index =>
      rw [takeWhile_cons]
      split
      · exact Nat.succ_le_succ (ih found)
      · exact Nat.zero_le _

theorem getElem?_length_takeWhile {Element : Type} (keep : Element → Bool) (list : List Element)
    (shorter : (list.takeWhile keep).length < list.length) :
    ∃ element, list[(list.takeWhile keep).length]? = some element ∧ keep element = false := by
  induction list with
  | nil => exact absurd shorter (lt_irrefl 0)
  | cons head rest ih =>
    cases held : keep head with
    | false =>
      rw [takeWhile_cons_of_neg (by simp [held])]
      exact ⟨head, rfl, held⟩
    | true =>
      rw [takeWhile_cons_of_pos held] at shorter ⊢
      exact ih (Nat.lt_of_succ_lt_succ shorter)

theorem le_lineStartAt {found : Nat} (behind : position ≤ found) (inside : found ≤ buf.length)
    (ended : position = 0 ∨ buf[position - 1]? = some newline) :
    position ≤ lineStartAt buf found := by
  unfold lineStartAt
  rcases Nat.eq_zero_or_pos position with rfl | positive
  · exact Nat.zero_le _
  have last := ended.resolve_left (Nat.ne_of_gt positive)
  have reversed : (buf.take found).reverse[found - position]? = some newline := by
    have length : (buf.take found).length = found := by rw [length_take, Nat.min_eq_left inside]
    rw [getElem?_reverse (by omega), length, getElem?_take_of_lt (by omega), ← last]
    congr 1
    omega
  have bound := @length_takeWhile_le _ (fun byte => byte ≠ newline) _ _ _ reversed (by simp)
  omega

theorem lineStartAt_le (found : Nat) : lineStartAt buf found ≤ found := Nat.sub_le _ _

theorem le_lineEndAt (found : Nat) : found ≤ lineEndAt buf found := Nat.le_add_right _ _

theorem newline_lineEndAt {found : Nat} (inside : lineEndAt buf found < buf.length) :
    buf[lineEndAt buf found]? = some newline := by
  unfold lineEndAt at inside ⊢
  obtain ⟨byte, here, stops⟩ := getElem?_length_takeWhile (fun byte => byte ≠ newline)
    (buf.drop found) (by rw [length_drop]; omega)
  rw [getElem?_drop] at here
  rw [here]
  simpa using stops

theorem count_slice_pos {start stop : Nat} (first : start ≤ position) (last : position < stop)
    (here : buf[position]? = some newline) : 0 < (slice buf start stop).count newline := by
  rw [count_pos_iff]
  unfold slice
  apply mem_of_getElem? (i := position - start)
  rw [getElem?_drop, Nat.add_sub_cancel' first, getElem?_take_of_lt last, here]

theorem lines_increasing (lawful : regex.Lawful) {fuel : Nat} {state : LineScan}
    (counted : state.countedTo ≤ state.pos)
    (ended : state.pos = 0 ∨ state.countedTo < state.pos ∧ buf[state.pos - 1]? = some newline) :
    ((forEachMatchingLine regex buf fuel state).map LineMatch.line).Pairwise (· < ·) ∧
      ∀ number ∈ (forEachMatchingLine regex buf fuel state).map LineMatch.line,
        state.line + (if state.pos = 0 then 0 else 1) ≤ number := by
  induction fuel generalizing state with
  | zero => exact ⟨List.Pairwise.nil, fun _ impossible => absurd impossible not_mem_nil⟩
  | succ fuel ih =>
    have none : (([] : List LineMatch).map LineMatch.line).Pairwise (· < ·) ∧
        ∀ number ∈ ([] : List LineMatch).map LineMatch.line,
          state.line + (if state.pos = 0 then 0 else 1) ≤ number :=
      ⟨List.Pairwise.nil, fun _ impossible => absurd impossible not_mem_nil⟩
    unfold forEachMatchingLine
    split
    · exact none
    split
    · exact none
    rename_i found stop search
    obtain ⟨behind, upwards, inside⟩ := lawful _ _ _ _ search
    split
    · exact none
    have newline' (more : ¬buf.length < lineEndAt buf found + 1) :
        buf[lineEndAt buf found + 1 - 1]? = some newline := by
      rw [Nat.add_sub_cancel]
      exact newline_lineEndAt (by omega)
    have atStart := le_lineStartAt behind (by omega) (ended.imp_right And.right)
    have start := @lineStartAt_le buf found
    have last := @le_lineEndAt buf found
    simp only
    split
    · split
      · exact none
      rename_i more
      obtain ⟨increasing, above⟩ := @ih { state with pos := lineEndAt buf found + 1 }
        (le_of_lt (by change state.countedTo < lineEndAt buf found + 1; omega))
        (.inr ⟨by change state.countedTo < lineEndAt buf found + 1; omega, newline' more⟩)
      refine ⟨increasing, fun number mem => ?_⟩
      have least : state.line + 1 ≤ number := above number mem
      split <;> omega
    have here : state.line + (if state.pos = 0 then 0 else 1) ≤
        state.line + (slice buf state.countedTo (lineStartAt buf found)).count newline := by
      rcases ended with zero | ⟨before, last⟩
      · rw [if_pos zero]
        omega
      have one := @count_slice_pos buf (state.pos - 1) state.countedTo
        (lineStartAt buf found) (by omega) (by omega) last
      split <;> omega
    rw [map_cons]
    by_cases more : buf.length < lineEndAt buf found + 1
    · rw [if_pos more]
      exact ⟨pairwise_singleton _ _, fun number mem => mem_singleton.mp mem ▸ here⟩
    rw [if_neg more]
    obtain ⟨increasing, above⟩ := @ih ⟨lineEndAt buf found + 1,
      state.line + (slice buf state.countedTo (lineStartAt buf found)).count newline,
      lineStartAt buf found⟩
      (by change lineStartAt buf found ≤ lineEndAt buf found + 1; omega)
      (.inr ⟨by change lineStartAt buf found < lineEndAt buf found + 1; omega, newline' more⟩)
    rw [pairwise_cons]
    refine ⟨⟨fun number mem => above number mem, increasing⟩, ?_⟩
    intro number mem
    rcases mem_cons.mp mem with rfl | later
    · exact here
    have least := above number later
    simp only [Nat.add_eq_zero_iff, one_ne_zero, and_false, if_false] at least
    omega

theorem matchingLines_increasing (lawful : regex.Lawful) : (matchingLines regex buf).Pairwise (· < ·) :=
  (lines_increasing lawful (le_refl 0) (.inl rfl)).1

theorem matchingLines_nodup (lawful : regex.Lawful) : (matchingLines regex buf).Nodup :=
  (matchingLines_increasing lawful).imp Nat.ne_of_lt

end Scanning

section Keeping

variable {query : Query} {index : Nat} {candidate : Candidate} {buf : Bytes}
variable {ranges : List (Nat × Nat)}

theorem take_concat (list : List Nat) (added : Nat) : (list ++ [added]).take maxSentListed =
      if (list.take maxSentListed).length < maxSentListed then list.take maxSentListed ++ [added]
      else list.take maxSentListed := by
  rw [length_take]
  split
  · rename_i few
    have short : list.length < maxSentListed := by omega
    rw [take_of_length_le (le_of_lt short), take_of_length_le]
    rwa [length_append, length_singleton]
  · rw [take_append_of_le_length (by omega)]

theorem onLine_sent {state : FileSearch} {found : LineMatch} (sent : covers ranges found.line) :
    let next := FileSearch.onLine query candidate.language buf ranges state found
    next.out.sentTotal = state.out.sentTotal + 1 ∧
      next.out.sent = (if state.out.sent.length < maxSentListed then
        state.out.sent ++ [found.line] else state.out.sent) ∧
      next.code = state.code ∧ next.comments = state.comments := by
  simp only [FileSearch.onLine, sent, if_true]
  exact ⟨trivial, trivial, trivial, trivial⟩

/-- Another line is kept at most once. -/
theorem onLine_unsent {state : FileSearch} {found : LineMatch} (unsent : covers ranges found.line = false) :
    let next := FileSearch.onLine query candidate.language buf ranges state found
    next.out.sentTotal = state.out.sentTotal ∧ next.out.sent = state.out.sent ∧
      ((next.code ++ next.comments).map Hit.line).Subperm
        ((state.code ++ state.comments).map Hit.line ++ [found.line]) := by
  have skip : ((state.code ++ state.comments).map Hit.line).Subperm
      ((state.code ++ state.comments).map Hit.line ++ [found.line]) :=
    (sublist_append_left _ _).subperm
  simp only [FileSearch.onLine, unsent, Bool.false_eq_true, if_false]
  split
  · refine ⟨rfl, rfl, ?_⟩
    simp only
    split
    · rw [← append_assoc, map_append]
      exact List.Subperm.refl _
    · exact skip
  refine ⟨rfl, rfl, ?_⟩
  simp only
  split
  · rw [append_assoc, map_append, map_append, map_append, append_assoc]
    exact (List.Perm.append_left _ perm_append_comm).subperm
  · exact skip

/-- What the search has kept of the lines so far: the first sent ones, and each line that is worth
showing once. -/
theorem onLine_foldl (found : List LineMatch) :
    let final := found.foldl (FileSearch.onLine query candidate.language buf ranges)
      { out := { index := index } }
    final.out.sentTotal = ((found.map LineMatch.line).filter (covers ranges)).length ∧ final.out.sent =
        ((found.map LineMatch.line).filter (covers ranges)).take maxSentListed ∧
      ((final.code ++ final.comments).map Hit.line).Subperm
        ((found.map LineMatch.line).filter fun line => !covers ranges line) := by
  induction found using List.reverseRecOn with
  | nil => exact ⟨rfl, rfl, List.Subperm.refl _⟩
  | append_singleton before last ih =>
    have lines : (before ++ [last]).map LineMatch.line = before.map LineMatch.line ++ [last.line] := by
      rw [map_append, map_singleton]
    simp only [foldl_append, foldl_cons, foldl_nil, lines, filter_append]
    obtain ⟨total, listed, kept⟩ := ih
    cases sent : covers ranges last.line with
    | true =>
      obtain ⟨total', listed', code, comments⟩ := @onLine_sent query candidate buf ranges _ last sent
      rw [total', listed', code, comments, total, listed, filter_singleton, filter_singleton, sent]
      refine ⟨by simp, (take_concat _ _).symm, ?_⟩
      simpa using kept
    | false =>
      obtain ⟨total', listed', kept'⟩ := @onLine_unsent query candidate buf ranges _ last sent
      rw [total', listed', total, listed, filter_singleton, filter_singleton, sent]
      refine ⟨by simp, by simp, kept'.trans ?_⟩
      exact (subperm_append_right _).mpr kept

/-- What a search has seen at the end of a file. -/
def searched (query : Query) (index : Nat) (candidate : Candidate) (buf : Bytes) : FileSearch :=
  (forEachMatchingLine query.regex buf (buf.length + 1) {}).foldl
    (FileSearch.onLine query candidate.language buf (sentRangesOf query candidate buf))
    { out := { index := index } }

theorem searchFile_eq : searchFile query index candidate buf =
    if (searched query index candidate buf).out.count = 0 then none
    else
      some { (searched query index candidate buf).out with
        hits := ((searched query index candidate buf).code ++
          (searched query index candidate buf).comments).mergeSort
            fun first second => first.line ≤ second.line } := rfl

theorem searchFile_lines {hits : FileHits} (found : searchFile query index candidate buf = some hits) :
    hits.count = (matchingLines query.regex buf).length ∧
      hits.sentTotal = (sentLines query candidate buf).length ∧
      hits.sent = (sentLines query candidate buf).take maxSentListed ∧
      (hits.hits.map Hit.line).Subperm ((matchingLines query.regex buf).filter
        fun line => !covers (sentRangesOf query candidate buf) line) := by
  obtain ⟨-, counted, -⟩ := counts_foldl query candidate.language buf
    (sentRangesOf query candidate buf)
    (forEachMatchingLine query.regex buf (buf.length + 1) {}) { out := { index := index } }
  obtain ⟨total, listed, kept⟩ := @onLine_foldl query index candidate buf
    (sentRangesOf query candidate buf) (forEachMatchingLine query.regex buf (buf.length + 1) {})
  rw [searchFile_eq] at found
  split at found
  · contradiction
  obtain rfl := Option.some.inj found
  refine ⟨?_, total, listed, ?_⟩
  · rw [matchingLines, length_map]
    exact counted.trans (Nat.zero_add _)
  · exact ((mergeSort_perm _ _).map Hit.line).subperm.trans kept

end Keeping

end Codegraph.Grep
