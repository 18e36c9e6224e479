import Codegraph.StripComments.Scanners

namespace Codegraph.StripComments

open Library Utf8 List Option

/-- A character ends or starts at the position, as an ASCII byte beside it shows. -/
def Edge (src : Bytes) (position : Nat) : Prop :=
  position = src.length ∨ (∃ byte, src[position]? = some byte ∧ byte < 128) ∨
    0 < position ∧ ∃ byte, src[position - 1]? = some byte ∧ byte < 128

section Loops

variable {src : Bytes} {start : Nat}

theorem byteAt_eq {position : Nat} {byte : UInt8} (read : byteAt src position = byte)
    (nonzero : byte ≠ 0) : src[position]? = some byte := by
  unfold byteAt at read
  cases found : src[position]? with
  | none =>
    rw [found] at read
    exact absurd read.symm nonzero
  | some other =>
    rw [found] at read
    exact congrArg some read

theorem lt_of_getElem? {position : Nat} {byte : UInt8} (found : src[position]? = some byte) :
    position < src.length := (List.getElem?_eq_some_iff.mp found).1

theorem edge_after {position : Nat} {byte : UInt8} (found : src[position]? = some byte)
    (ascii : byte < 128) : Edge src (position + 1) :=
  .inr (.inr ⟨Nat.succ_pos _, byte, found, ascii⟩)

/-- A loop over positions ends when its body moves on and stays inside the text. -/
theorem advance_spec {body : UInt8 → Nat → Option (Round Nat)} (Inv Post : Nat → Prop)
    (within : ∀ i, Inv i → i ≤ src.length)
    (rounds : ∀ i c, Inv i → src[i]? = some c →
      (∃ next, body c i = some (.next next) ∧ Inv next ∧ i < next) ∨
        ∃ last, body c i = some (.done last) ∧ Post last)
    (ended : Inv src.length → Post src.length) (first : Inv start) :
    ∃ last, advance src body start = some last ∧ Post last := by
  refine whileLoop_spec (src.length - ·) Inv Post (fun i inv => ?_) first (by omega)
  by_cases inside : i < src.length
  · have found := getElem?_eq_getElem inside
    rw [if_pos inside, found, bind_some]
    rcases rounds i _ inv found with ⟨next, moved, kept, later⟩ | last
    · exact .inl ⟨next, moved, kept, by omega⟩
    · exact .inr last
  rw [if_neg inside]
  have whole : i = src.length := by
    have := within i inv
    omega
  rw [whole] at inv ⊢
  exact .inr ⟨src.length, rfl, ended inv⟩

/-- The position is between the start of a loop and the end of the text. -/
def Ranges (src : Bytes) (start i : Nat) : Prop := start ≤ i ∧ i ≤ src.length

theorem lineEnd_spec (inside : start ≤ src.length) :
    ∃ stop, lineEnd src start = some stop ∧ Ranges src start stop ∧
      (stop = src.length ∨ src[stop]? = some newline) := by
  refine advance_spec (Ranges src start)
    (fun stop => Ranges src start stop ∧ (stop = src.length ∨ src[stop]? = some newline))
    (fun _ => And.right) (fun i c inv found => ?_) (fun inv => ⟨inv, .inl rfl⟩) ⟨le_rfl, inside⟩
  have early := lt_of_getElem? found
  by_cases last : c = newline
  · exact .inr ⟨i, by rw [if_neg (not_not.mpr last)], inv, .inr (last ▸ found)⟩
  · exact .inl ⟨i + 1, by rw [if_pos last], ⟨inv.1.trans (Nat.le_succ i), early⟩, Nat.lt_succ_self i⟩

theorem edge_of_lineEnd {stop : Nat} (ends : stop = src.length ∨ src[stop]? = some newline) : Edge src stop :=
  ends.imp_right fun found => .inl ⟨newline, found, by decide⟩

theorem blockEnd_spec (inside : start ≤ src.length) :
    ∃ stop, blockEnd src start = some stop ∧ Ranges src start stop ∧ Edge src stop := by
  have looped : ∃ i, advance src (fun c i => some (if c = star ∧ byteAt src (i + 1) = slash then
      .done i else .next (i + 1))) start = some i ∧
      Ranges src start i ∧ (i = src.length ∨ src[i + 1]? = some slash) := by
    refine advance_spec (Ranges src start) _ (fun _ => And.right) (fun i c inv found => ?_)
      (fun inv => ⟨inv, .inl rfl⟩) ⟨le_rfl, inside⟩
    have early := lt_of_getElem? found
    by_cases last : c = star ∧ byteAt src (i + 1) = slash
    · exact .inr ⟨i, by rw [if_pos last], inv, .inr (byteAt_eq last.2 (by decide))⟩
    · exact .inl ⟨i + 1, by rw [if_neg last], ⟨inv.1.trans (Nat.le_succ i), early⟩, Nat.lt_succ_self i⟩
  obtain ⟨i, looped, inv, either⟩ := looped
  rw [blockEnd, looped, map_some]
  rcases either with whole | found
  · exact ⟨i, by rw [if_neg (by omega)], inv, .inl whole⟩
  have early := lt_of_getElem? found
  have before := inv.1
  exact ⟨i + 2, by rw [if_pos (by omega)], ⟨by omega, early⟩, edge_after found (by decide)⟩

theorem nestedEnd_spec (inside : start ≤ src.length) :
    ∃ stop, nestedEnd src start = some stop ∧ Ranges src start stop ∧ Edge src stop := by
  have looped : ∃ last, whileLoop (nestedRound src) (src.length + 1) (start, 1) = some last ∧
      Ranges src start last.1 ∧ Edge src last.1 := by
    refine whileLoop_spec (fun state : Nat × Nat => src.length - state.1)
      (fun state => Ranges src start state.1 ∧ (state.2 = 0 → Edge src state.1)) _
      (fun ⟨i, depth⟩ ⟨inv, edge⟩ => ?_)
      ⟨⟨le_rfl, inside⟩, fun impossible => absurd impossible one_ne_zero⟩
      (Nat.lt_succ_of_le (Nat.sub_le _ _))
    unfold nestedRound
    by_cases open' : i < src.length ∧ 0 < depth
    · rw [if_pos open', getElem?_eq_getElem open'.1, map_some]
      obtain ⟨before, -⟩ := inv
      left
      by_cases opens : src[i] = slash ∧ byteAt src (i + 1) = star
      · have next := lt_of_getElem? (byteAt_eq opens.2 (by decide))
        exact ⟨(i + 2, depth + 1), by rw [if_pos opens], ⟨⟨by dsimp only; omega, next⟩,
          fun impossible => absurd impossible (Nat.succ_ne_zero depth)⟩, by dsimp only; omega⟩
      by_cases closes : src[i] = star ∧ byteAt src (i + 1) = slash
      · have found := byteAt_eq closes.2 (by decide)
        have next := lt_of_getElem? found
        exact ⟨(i + 2, depth - 1), by rw [if_neg opens, if_pos closes], ⟨⟨by dsimp only; omega, next⟩,
          fun _ => edge_after found (by decide)⟩, by dsimp only; omega⟩
      · exact ⟨(i + 1, depth), by rw [if_neg opens, if_neg closes], ⟨⟨by dsimp only; omega, open'.1⟩,
          fun impossible => absurd impossible (Nat.ne_of_gt open'.2)⟩, by dsimp only; omega⟩
    rw [if_neg open']
    refine .inr ⟨_, rfl, inv, ?_⟩
    rcases not_and_or.mp open' with ended | closed
    · exact .inl (le_antisymm inv.2 (Nat.le_of_not_lt ended))
    · exact edge (Nat.eq_zero_of_not_pos closed)
  obtain ⟨⟨stop, depth⟩, looped, spec⟩ := looped
  refine ⟨stop, ?_, spec⟩
  rw [nestedEnd, looped]
  rfl

theorem closeQuote_spec {quote : UInt8} {i : Nat} (inv : Ranges src start i) :
    ∃ stop, closeQuote src quote i = some stop ∧ Ranges src start stop := by
  unfold closeQuote
  by_cases inside : i < src.length
  · rw [if_pos inside, getElem?_eq_getElem inside, map_some]
    split
    · exact ⟨i + 1, rfl, inv.1.trans (Nat.le_succ i), inside⟩
    · exact ⟨i, rfl, inv⟩
  · rw [if_neg inside]
    exact ⟨i, rfl, inv⟩

theorem quotedEnd_spec (spans : Bool) (quote : UInt8) (inside : start ≤ src.length) :
    ∃ stop, quotedEnd src spans quote start = some stop ∧ Ranges src start stop := by
  have looped : ∃ i, advance src (fun c i => some (
      if c = quote then .done i
      else if c = backslash ∧ i + 1 < src.length then .next (i + 2)
      else if spans = false ∧ c = newline then .done i
      else .next (i + 1))) start = some i ∧ Ranges src start i := by
    refine advance_spec (Ranges src start) _ (fun _ => And.right) (fun i c inv found => ?_)
      (fun inv => inv) ⟨le_rfl, inside⟩
    have early := lt_of_getElem? found
    obtain ⟨before, -⟩ := inv
    by_cases last : c = quote
    · exact .inr ⟨i, by rw [if_pos last], before, early.le⟩
    rw [if_neg last]
    by_cases escape : c = backslash ∧ i + 1 < src.length
    · exact .inl ⟨i + 2, by rw [if_pos escape], ⟨by omega, escape.2⟩, by omega⟩
    rw [if_neg escape]
    by_cases broken : spans = false ∧ c = newline
    · exact .inr ⟨i, by rw [if_pos broken], before, early.le⟩
    · exact .inl ⟨i + 1, by rw [if_neg broken], ⟨by omega, early⟩, by omega⟩
  obtain ⟨i, looped, inv⟩ := looped
  rw [quotedEnd, looped]
  exact closeQuote_spec inv

theorem rawEnd_spec (inside : start ≤ src.length) :
    ∃ stop, rawEnd src start = some stop ∧ Ranges src start stop := by
  have looped : ∃ i, advance src (fun c i => some (if c = backtick then .done i
      else .next (i + 1))) start = some i ∧ Ranges src start i := by
    refine advance_spec (Ranges src start) _ (fun _ => And.right) (fun i c inv found => ?_)
      (fun inv => inv) ⟨le_rfl, inside⟩
    have early := lt_of_getElem? found
    obtain ⟨before, -⟩ := inv
    by_cases last : c = backtick
    · exact .inr ⟨i, by rw [if_pos last], before, early.le⟩
    · exact .inl ⟨i + 1, by rw [if_neg last], ⟨by omega, early⟩, by omega⟩
  obtain ⟨i, looped, before, within⟩ := looped
  rw [rawEnd, looped, map_some]
  split
  · exact ⟨i + 1, rfl, by omega, by omega⟩
  · exact ⟨i, rfl, before, within⟩

theorem tripleEnd_spec {quote : UInt8} (nonzero : quote ≠ 0) (ascii : quote < 128)
    (inside : start ≤ src.length) :
    ∃ stop, tripleEnd src quote start = some stop ∧ Ranges src start stop ∧ Edge src stop := by
  refine advance_spec (Ranges src start) (fun stop => Ranges src start stop ∧ Edge src stop)
    (fun _ => And.right) (fun i c inv found => ?_) (fun inv => ⟨inv, .inl rfl⟩) ⟨le_rfl, inside⟩
  have early := lt_of_getElem? found
  obtain ⟨before, -⟩ := inv
  by_cases escape : c = backslash ∧ i + 1 < src.length
  · exact .inl ⟨i + 2, by rw [if_pos escape], ⟨by omega, escape.2⟩, by omega⟩
  rw [if_neg escape]
  by_cases last : c = quote ∧ byteAt src (i + 1) = quote ∧ byteAt src (i + 2) = quote
  · have third := byteAt_eq last.2.2 nonzero
    have within := lt_of_getElem? third
    exact .inr ⟨i + 3, by rw [if_pos last], ⟨by omega, within⟩, edge_after third ascii⟩
  · exact .inl ⟨i + 1, by rw [if_neg last], ⟨by omega, early⟩, by omega⟩

theorem blanksEnd_spec (inside : start ≤ src.length) :
    ∃ stop, blanksEnd src start = some stop ∧ Ranges src start stop := by
  refine advance_spec (Ranges src start) _ (fun _ => And.right) (fun i c inv found => ?_)
    (fun inv => inv) ⟨le_rfl, inside⟩
  have early := lt_of_getElem? found
  obtain ⟨before, -⟩ := inv
  by_cases more : c = space ∨ c = tab
  · exact .inl ⟨i + 1, by rw [if_pos more], ⟨by omega, early⟩, by omega⟩
  · exact .inr ⟨i, by rw [if_neg more], before, early.le⟩

theorem beginEnd_spec (inside : start ≤ src.length) :
    ∃ stop, beginEnd src start = some stop ∧ Ranges src start stop ∧ Edge src stop := by
  refine advance_spec (Ranges src start) (fun stop => Ranges src start stop ∧ Edge src stop)
    (fun _ => And.right) (fun i c inv found => ?_) (fun inv => ⟨inv, .inl rfl⟩) ⟨le_rfl, inside⟩
  have early := lt_of_getElem? found
  obtain ⟨before, -⟩ := inv
  by_cases line : c = newline
  · rw [if_pos line]
    obtain ⟨j, blanks, after, within⟩ := @blanksEnd_spec src (i + 1) early
    rw [blanks, bind_eq_bind, bind_some]
    rw [rest, if_pos within, bind_eq_bind, bind_some]
    by_cases mark : endMark.isPrefixOf (src.drop j)
    · have length := ( isPrefixOf_iff_prefix.mp mark).length_le
      rw [length_drop] at length
      have room : 0 < endMark.length := by decide
      obtain ⟨stop, ended, ⟨later, within'⟩, ends⟩ := @lineEnd_spec src (j + endMark.length) (by omega)
      rw [if_pos mark, ended]
      exact .inr ⟨stop, rfl, ⟨by omega, within'⟩, edge_of_lineEnd ends⟩
    · rw [if_neg mark]
      exact .inl ⟨i + 1, rfl, ⟨by omega, early⟩, by omega⟩
  · exact .inl ⟨i + 1, by rw [if_neg line], ⟨by omega, early⟩, by omega⟩

end Loops

/-- A round moves on inside the text, and what it blanks lies between characters. -/
structure Move.Sound (src : Bytes) (i : Nat) (move : Move) : Prop where
  later : i < move.next
  within : move.next ≤ src.length
  blanks : ∀ stop, move.blanked = some stop → i ≤ stop ∧ stop ≤ src.length ∧ Edge src i ∧ Edge src stop

section Rounds

variable {src : Bytes} {i : Nat} {c : UInt8}

theorem literal_sound {start : Nat} {stop : Option Nat} (later : i < start)
    (spec : ∃ last, stop = some last ∧ Ranges src start last) :
    ∃ move, literal stop = some move ∧ Move.Sound src i move := by
  obtain ⟨last, rfl, after, within⟩ := spec
  exact ⟨_, rfl, by dsimp only; omega, within, fun _ impossible => nomatch impossible⟩

theorem blockComment_sound {start : Nat} {stop : Option Nat} (found : src[i]? = some c)
    (ascii : c < 128) (later : i < start)
    (spec : ∃ last, stop = some last ∧ Ranges src start last ∧ Edge src last) :
    ∃ move, blockComment src stop = some move ∧ Move.Sound src i move := by
  obtain ⟨last, rfl, ⟨after, within⟩, edge⟩ := spec
  refine ⟨_, rfl, by dsimp only; omega, within, fun stop' same => ?_⟩
  obtain rfl := some.inj same
  rw [min_eq_left within]
  exact ⟨by omega, within, .inr (.inl ⟨c, found, ascii⟩), edge⟩

theorem lineComment_sound (found : src[i]? = some c) (ascii : c < 128) (mark : c ≠ newline) :
    ∃ move, lineComment src i = some move ∧ Move.Sound src i move := by
  have early := lt_of_getElem? found
  obtain ⟨stop, ended, ⟨after, within⟩, ends⟩ := @lineEnd_spec src i early.le
  have later : i < stop := by
    refine lt_of_le_of_ne after fun same => ?_
    rcases ends with whole | last
    · omega
    · rw [← same, found] at last
      exact mark (some.inj last)
  refine ⟨⟨stop, some stop⟩, by unfold lineComment; rw [ended]; rfl, later, within, fun stop' same => ?_⟩
  obtain rfl := some.inj same
  exact ⟨after, within, .inr (.inl ⟨c, found, ascii⟩), edge_of_lineEnd ends⟩

theorem skip_sound (early : i < src.length) : Move.Sound src i ⟨i + 1, none⟩ :=
  ⟨Nat.lt_succ_self i, early, fun _ impossible => nomatch impossible⟩

theorem slashStar_sound {stop : Nat → Option Nat} (found : src[i]? = some c)
    (opens : c = slash ∧ byteAt src (i + 1) = star)
    (spec : ∀ {start}, start ≤ src.length →
      ∃ last, stop start = some last ∧ Ranges src start last ∧ Edge src last) :
    ∃ move, blockComment src (stop (i + 2)) = some move ∧ Move.Sound src i move := by
  have second := lt_of_getElem? (byteAt_eq opens.2 (by decide))
  exact blockComment_sound found (by rw [opens.1]; decide) (by omega) (spec second)

theorem slashSlash_sound (found : src[i]? = some c) (opens : c = slash ∧ byteAt src (i + 1) = slash) :
    ∃ move, lineComment src i = some move ∧ Move.Sound src i move :=
  lineComment_sound found (by rw [opens.1]; decide) (by rw [opens.1]; decide)

theorem hash_sound (found : src[i]? = some c) (opens : c = hash) :
    ∃ move, lineComment src i = some move ∧ Move.Sound src i move :=
  lineComment_sound found (by rw [opens]; decide) (by rw [opens]; decide)

theorem quoted_sound (early : i < src.length) (spans : Bool) (quote : UInt8) :
    ∃ move, literal (quotedEnd src spans quote (i + 1)) = some move ∧ Move.Sound src i move :=
  literal_sound (Nat.lt_succ_self i) (quotedEnd_spec spans quote early)

theorem roundPython_sound (early : i < src.length) :
    ∃ move, roundPython src i = some move ∧ Move.Sound src i move := by
  unfold roundPython
  have found := getElem?_eq_getElem early
  rw [found, bind_eq_bind, bind_some]
  by_cases triple : (src[i] = doubleQuote ∨ src[i] = singleQuote) ∧
      byteAt src (i + 1) = src[i] ∧ byteAt src (i + 2) = src[i]
  · have nonzero : src[i] ≠ 0 := by rcases triple.1 with same | same <;> rw [same] <;> decide
    have ascii : src[i] < 128 := by rcases triple.1 with same | same <;> rw [same] <;> decide
    have third := lt_of_getElem? (byteAt_eq triple.2.2 nonzero)
    rw [if_pos triple]
    exact blockComment_sound found ascii (by omega) (tripleEnd_spec nonzero ascii third)
  rw [if_neg triple]
  split
  · exact quoted_sound early _ _
  split
  · rename_i opens
    exact hash_sound found opens
  · exact ⟨_, rfl, skip_sound early⟩

theorem roundCStyle_sound (allow : Bool) (early : i < src.length) :
    ∃ move, roundCStyle src allow i = some move ∧ Move.Sound src i move := by
  unfold roundCStyle
  have found := getElem?_eq_getElem early
  rw [found, bind_eq_bind, bind_some]
  split
  · rename_i opens
    exact slashStar_sound found opens blockEnd_spec
  split
  · rename_i opens
    exact slashSlash_sound found opens
  split
  · exact quoted_sound early _ _
  · exact ⟨_, rfl, skip_sound early⟩

theorem roundPhp_sound (early : i < src.length) :
    ∃ move, roundPhp src i = some move ∧ Move.Sound src i move := by
  unfold roundPhp
  have found := getElem?_eq_getElem early
  rw [found, bind_eq_bind, bind_some]
  split
  · rename_i opens
    exact slashStar_sound found opens blockEnd_spec
  split
  · rename_i opens
    exact slashSlash_sound found opens
  split
  · rename_i opens
    exact hash_sound found opens
  split
  · exact quoted_sound early _ _
  · exact ⟨_, rfl, skip_sound early⟩

theorem roundGo_sound (early : i < src.length) :
    ∃ move, roundGo src i = some move ∧ Move.Sound src i move := by
  unfold roundGo
  have found := getElem?_eq_getElem early
  rw [found, bind_eq_bind, bind_some]
  split
  · rename_i opens
    exact slashStar_sound found opens blockEnd_spec
  split
  · rename_i opens
    exact slashSlash_sound found opens
  split
  · exact literal_sound (Nat.lt_succ_self i) (rawEnd_spec early)
  split
  · exact quoted_sound early _ _
  split
  · exact quoted_sound early _ _
  · exact ⟨_, rfl, skip_sound early⟩

theorem roundRust_sound (early : i < src.length) :
    ∃ move, roundRust src i = some move ∧ Move.Sound src i move := by
  unfold roundRust
  have found := getElem?_eq_getElem early
  rw [found, bind_eq_bind, bind_some]
  split
  · rename_i opens
    exact slashStar_sound found opens nestedEnd_spec
  split
  · rename_i opens
    exact slashSlash_sound found opens
  split
  · exact quoted_sound early _ _
  split
  · exact quoted_sound early _ _
  · exact ⟨_, rfl, skip_sound early⟩

theorem tagged_sound {State : Type} {move : Option Move} (state : State)
    (sound : ∃ next, move = some next ∧ Move.Sound src i next) :
    ∃ next, move.map (·, state) = some next ∧ Move.Sound src i next.1 := by
  obtain ⟨next, rfl, sound⟩ := sound
  exact ⟨(next, state), rfl, sound⟩

theorem roundRuby_sound (atLineStart : Bool) (early : i < src.length) :
    ∃ next, roundRuby src atLineStart i = some next ∧ Move.Sound src i next.1 := by
  unfold roundRuby
  have found := getElem?_eq_getElem early
  rw [found, bind_eq_bind, bind_some]
  split
  · rename_i opens
    have length := ( isPrefixOf_iff_prefix.mp opens.2.2).length_le
    rw [length_drop] at length
    have room : 0 < beginMark.length := by decide
    obtain ⟨stop, ended, ranges, edge⟩ := @beginEnd_spec src (i + beginMark.length) (by omega)
    rw [ended]
    obtain ⟨move, moved, sound⟩ := blockComment_sound found (by rw [opens.2.1]; decide)
      (Nat.lt_add_of_pos_right room) ⟨stop, rfl, ranges, edge⟩
    obtain rfl := some.inj moved
    exact ⟨_, rfl, sound⟩
  split
  · exact tagged_sound _ (quoted_sound early _ _)
  split
  · rename_i opens
    exact tagged_sound _ (hash_sound found opens)
  split
  · exact ⟨_, rfl, skip_sound early⟩
  split
  · exact ⟨_, rfl, skip_sound early⟩
  · exact ⟨_, rfl, skip_sound early⟩

end Rounds

section Scanning

variable {src : Bytes} {chosen : Nat → Bool}

/-- Blanking a range of the text chooses its bytes too. -/
theorem blankRange_overlay {start stop : Nat} (before : start ≤ stop) (within : stop ≤ src.length) :
    blankRange src (overlay blank chosen src) start stop =
      some (overlay blank (fun index => chosen index || (start ≤ index && index < stop)) src) := by
  have blanked (count : Nat) (room : start + count ≤ src.length) :
      (List.range' start count).foldlM (fun out i => do
        let byte ← src[i]?
        if i < out.length then some (out.set i (blank byte)) else none) (overlay blank chosen src) =
      some (overlay blank (fun index => chosen index || (start ≤ index && index < start + count))
        src) := by
    induction count with
    | zero =>
      have empty : (fun index => chosen index || (start ≤ index && index < start + 0)) = chosen := by
        funext index
        have none : (decide (start ≤ index) && decide (index < start + 0)) = false := by
          rw [Bool.and_eq_false_iff, decide_eq_false_iff_not, decide_eq_false_iff_not]
          omega
        rw [none, Bool.or_false]
      rw [empty]
      rfl
    | succ count ih =>
      have inside : start + count < src.length := by omega
      rw [range'_concat, foldlM_append, ih (by omega)]
      simp only [one_mul, bind_eq_bind, bind_some, foldlM_cons,
        foldlM_nil, getElem?_eq_getElem inside, length_overlay, inside, if_true]
      refine congrArg some (ext_getElem? fun index => ?_)
      rw [getElem?_set, getElem?_overlay, getElem?_overlay, length_overlay]
      by_cases here : start + count = index
      · subst here
        simp [inside]
      rw [if_neg here]
      have same : (start ≤ index && index < start + count) =
          (decide (start ≤ index) && decide (index < start + (count + 1))) := by
        rw [Bool.eq_iff_iff]
        simp only [Bool.and_eq_true, decide_eq_true_eq]
        omega
      rw [same]
  have sum := Nat.add_sub_cancel' before
  rw [blankRange, blanked _ (by omega), sum]

/-- The bytes that are blanked after a move. -/
def Move.choose (move : Move) (i : Nat) (chosen : Nat → Bool) : Nat → Bool :=
  match move.blanked with
  | some stop => fun index => chosen index || (i ≤ index && index < stop)
  | none => chosen

theorem scan_step {State : Type} {round : State → Nat → Option (Move × State)} {state next : State}
    {move : Move} {i fuel : Nat} (early : i < src.length)
    (moved : round state i = some (move, next)) (sound : move.Sound src i) :
    scan src round (fuel + 1) state i (overlay blank chosen src) =
      scan src round fuel next move.next (overlay blank (move.choose i chosen) src) := by
  conv => left; unfold scan
  rw [if_pos early, moved, bind_eq_bind, bind_some]
  unfold Move.choose
  dsimp only
  have blanks := sound.blanks
  cases stop : move.blanked with
  | none => rfl
  | some stop' =>
    obtain ⟨after, within, -⟩ := blanks stop' stop
    dsimp only
    rw [blankRange_overlay after within]
    rfl

variable {chars : List Char}

theorem boundary_of_edge {position : Nat} (edge : Edge (encode chars) position) :
    Boundary chars position := by
  rcases edge with rfl | ⟨byte, found, ascii⟩ | ⟨positive, byte, found, ascii⟩
  · exact boundary_length chars
  · exact (boundary_of_ascii found ascii).1
  · have after := (boundary_of_ascii found ascii).2
    rwa [Nat.sub_add_cancel positive] at after

theorem Move.Sound.whole {move : Move} {i : Nat} (sound : move.Sound (encode chars) i)
    (whole : Whole chars chosen) : Whole chars (move.choose i chosen) := by
  unfold Move.choose
  have blanks := sound.blanks
  cases stop : move.blanked with
  | none => exact whole
  | some stop' =>
    obtain ⟨-, -, first, last⟩ := blanks stop' stop
    exact whole.range (boundary_of_edge first) (boundary_of_edge last)

theorem scan_whole {State : Type} {round : State → Nat → Option (Move × State)}
    (rounds : ∀ state i, i < (encode chars).length →
      ∃ next, round state i = some next ∧ next.1.Sound (encode chars) i)
    (fuel : Nat) (state : State) (i : Nat) (whole : Whole chars chosen)
    (within : i ≤ (encode chars).length) (enough : (encode chars).length - i < fuel) :
    ∃ chosen', Whole chars chosen' ∧ scan (encode chars) round fuel state i
      (overlay blank chosen (encode chars)) = some (overlay blank chosen' (encode chars)) := by
  induction fuel generalizing state i chosen with
  | zero => exact absurd enough (Nat.not_lt_zero _)
  | succ fuel ih =>
    by_cases early : i < (encode chars).length
    · obtain ⟨⟨move, next⟩, moved, sound⟩ := rounds state i early
      have later : i < move.next := sound.later
      have bounded := sound.within
      rw [scan_step early moved sound]
      exact ih next move.next (sound.whole whole) bounded (by omega)
    refine ⟨chosen, whole, ?_⟩
    rw [scan, if_neg early]

end Scanning

/-- Every byte is kept, or it is no newline and a blank stands in its place. -/
def KeepsLayout (content out : String) : Prop :=
  (utf8Bytes out).length = (utf8Bytes content).length ∧
    (∀ (i : Nat) (byte : UInt8), (utf8Bytes content)[i]? = some byte →
      (utf8Bytes out)[i]? = some byte ∨ byte ≠ newline ∧ (utf8Bytes out)[i]? = some space) ∧
    ∀ i : Nat, (utf8Bytes out)[i]? = some newline ↔ (utf8Bytes content)[i]? = some newline

theorem blank_ascii (byte : UInt8) : ∃ c, String.utf8EncodeChar c = [blank byte] := by
  unfold blank
  split
  · exact ⟨'\n', by decide⟩
  · exact ⟨' ', by decide⟩

theorem overlay_keepsLayout {content out : String} {chosen : Nat → Bool}
    (bytes : utf8Bytes out = overlay blank chosen (utf8Bytes content)) : KeepsLayout content out := by
  rw [KeepsLayout, bytes]
  refine ⟨length_overlay, fun i byte found => ?_, fun i => ?_⟩
  · rw [getElem?_overlay, found, map_some]
    by_cases here : chosen i = true
    · rw [if_pos here]
      unfold blank
      by_cases line : byte = newline
      · rw [if_pos line, line]
        exact .inl rfl
      · rw [if_neg line]
        exact .inr ⟨line, rfl⟩
    · rw [if_neg here]
      exact .inl rfl
  rw [getElem?_overlay]
  cases (utf8Bytes content)[i]? with
  | none => exact Iff.rfl
  | some byte =>
    have blanks : blank byte = newline ↔ byte = newline := by
      unfold blank
      by_cases line : byte = newline
      · simp [line]
      · rw [if_neg line]
        exact iff_of_false (by decide) line
    cases chosen i <;> simp [blanks]

theorem stripWith_keepsLayout {State : Type} {round : Bytes → State → Nat → Option (Move × State)}
    (rounds : ∀ src state i, i < src.length → ∃ next, round src state i = some next ∧ next.1.Sound src i)
    (start : State) (content : String) :
    ∃ out, stripWith round start content = some out ∧ KeepsLayout content out := by
  obtain ⟨chosen, whole, scanned⟩ := @scan_whole _ content.toList _ _
    (rounds (encode content.toList)) ((encode content.toList).length + 1) start 0
    (whole_none content.toList) (Nat.zero_le _) (Nat.lt_succ_of_le (Nat.sub_le _ _))
  obtain ⟨chars, encoded⟩ := overlay_encode blank_ascii whole
  obtain ⟨out, read, bytes⟩ := utf8Text_encode chars
  rw [overlay_none] at scanned
  refine ⟨out, ?_, @overlay_keepsLayout _ _ chosen ?_⟩
  · unfold stripWith
    dsimp only
    rwa [utf8Bytes_eq, scanned, bind_some, encoded]
  · rw [bytes, utf8Bytes_eq, encoded]

theorem stateless_sound {round : Bytes → Nat → Option Move}
    (rounds : ∀ {src : Bytes} {i : Nat}, i < src.length →
      ∃ move, round src i = some move ∧ move.Sound src i)
    (src : Bytes) (state : Unit) (i : Nat) (early : i < src.length) :
    ∃ next, stateless round src state i = some next ∧ next.1.Sound src i :=
  tagged_sound () (rounds early)

/-- Stripping never fails, whatever the language and the text are, and keeps the layout. -/
theorem stripCommentsForRegex_keepsLayout (content : String) (lang : CommentLang) :
    ∃ out, stripCommentsForRegex content lang = some out ∧ KeepsLayout content out := by
  cases lang with
  | python => exact stripWith_keepsLayout (stateless_sound roundPython_sound) () content
  | ruby =>
    exact stripWith_keepsLayout (fun _ state _ early => roundRuby_sound state early) true content
  | rust => exact stripWith_keepsLayout (stateless_sound roundRust_sound) () content
  | php => exact stripWith_keepsLayout (stateless_sound roundPhp_sound) () content
  | go => exact stripWith_keepsLayout (stateless_sound roundGo_sound) () content
  | javascript | typescript =>
    exact stripWith_keepsLayout (stateless_sound (roundCStyle_sound true)) () content
  | java | csharp | swift =>
    exact stripWith_keepsLayout (stateless_sound (roundCStyle_sound false)) () content

end Codegraph.StripComments
