import Codegraph.StripComments.Tokens

namespace Codegraph.StripComments

open Library Utf8 List Option

/-- The rounds of the languages with tokens. -/
def roundOf (lang : CommentLang) (src : Bytes) : Nat → Option Move :=
  match lang with
  | .rust => roundRust src
  | .go => roundGo src
  | _ => roundCStyle src false

section Rounds

variable {lang : CommentLang} {src tail rest : Bytes} {i stop : Nat} {c : UInt8}
variable {chosen : Nat → Bool} {final : Bytes}

theorem strip_eq (known : lang ∈ tokenLangs) (content : String) :
    stripCommentsForRegex content lang = stripWith (stateless (roundOf lang)) () content := by
  simp only [tokenLangs, mem_cons, not_mem_nil, or_false] at known
  rcases known with rfl | rfl | rfl | rfl | rfl <;> rfl

theorem roundOf_sound (early : i < src.length) :
    ∃ move, roundOf lang src i = some move ∧ move.Sound src i := by
  unfold roundOf
  split
  · exact roundRust_sound early
  · exact roundGo_sound early
  · exact roundCStyle_sound false early

/-- The scanner ends with the given bytes when it goes on from a position. -/
def Finishes (lang : CommentLang) (src : Bytes) (i : Nat) (chosen : Nat → Bool) (final : Bytes) : Prop :=
  ∀ fuel, src.length - i < fuel →
    scan src (stateless (roundOf lang) src) fuel () i (overlay blank chosen src) = some final

theorem finishes_end (whole : i = src.length) : Finishes lang src i chosen (overlay blank chosen src) := by
  intro fuel enough
  cases fuel with
  | zero => exact absurd enough (Nat.not_lt_zero _)
  | succ fuel => rw [scan, if_neg (by omega)]

theorem finishes_round {move : Move} (early : i < src.length) (moved : roundOf lang src i = some move)
    (after : Finishes lang src move.next (move.choose i chosen) final) :
    Finishes lang src i chosen final := by
  intro fuel enough
  obtain ⟨move', moved', sound⟩ := @roundOf_sound lang src i early
  obtain rfl : move = move' := some.inj (moved.symm.trans moved')
  cases fuel with
  | zero => exact absurd enough (Nat.not_lt_zero _)
  | succ fuel =>
    have later := sound.later
    have tagged : stateless (roundOf lang) src () i = some (move, ()) := by
      rw [stateless, moved]
      rfl
    rw [scan_step early tagged sound]
    exact after fuel (by omega)

/-- The bytes that a scanner passes one by one, whatever follows. -/
def Passes (lang : CommentLang) (byte : UInt8) : Prop :=
  byte ≠ doubleQuote ∧ (lang ≠ .rust → byte ≠ backtick) ∧ (lang = .go ∨ lang = .rust → byte ≠ singleQuote)

theorem round_passes (found : src[i]? = some c) (passes : Passes lang c)
    (comment : ¬(c = slash ∧ (byteAt src (i + 1) = star ∨ byteAt src (i + 1) = slash))) :
    roundOf lang src i = some ⟨i + 1, none⟩ := by
  obtain ⟨double, back, single⟩ := passes
  have block : ¬(c = slash ∧ byteAt src (i + 1) = star) := fun both => comment ⟨both.1, .inl both.2⟩
  have line : ¬(c = slash ∧ byteAt src (i + 1) = slash) := fun both => comment ⟨both.1, .inr both.2⟩
  unfold roundOf
  split
  · rw [roundRust, found, bind_eq_bind, bind_some, if_neg block, if_neg line, if_neg double,
      if_neg (single (.inr rfl))]
  · rw [roundGo, found, bind_eq_bind, bind_some, if_neg block, if_neg line, if_neg (back (by decide)),
      if_neg double, if_neg (single (.inl rfl))]
  rename_i plain _
  rw [roundCStyle, found, bind_eq_bind, bind_some, if_neg block, if_neg line, if_neg]
  simp [double, back plain]

theorem round_lineComment (found : src[i]? = some slash) (next : byteAt src (i + 1) = slash) :
    roundOf lang src i = lineComment src i := by
  have block : ¬(slash = slash ∧ byteAt src (i + 1) = star) := by
    rw [next]
    decide
  unfold roundOf
  split
  · rw [roundRust, found, bind_eq_bind, bind_some, if_neg block, if_pos ⟨rfl, next⟩]
  · rw [roundGo, found, bind_eq_bind, bind_some, if_neg block, if_pos ⟨rfl, next⟩]
  · rw [roundCStyle, found, bind_eq_bind, bind_some, if_neg block, if_pos ⟨rfl, next⟩]

theorem round_blockComment (found : src[i]? = some slash) (next : byteAt src (i + 1) = star) :
    roundOf lang src i = blockComment src
      (if lang = .rust then nestedEnd src (i + 2) else blockEnd src (i + 2)) := by
  unfold roundOf
  split
  · rw [roundRust, found, bind_eq_bind, bind_some, if_pos ⟨rfl, next⟩, if_pos rfl]
  · rw [roundGo, found, bind_eq_bind, bind_some, if_pos ⟨rfl, next⟩, if_neg (by decide)]
  rename_i other _
  rw [roundCStyle, found, bind_eq_bind, bind_some, if_pos ⟨rfl, next⟩, if_neg other]

theorem round_string (found : src[i]? = some doubleQuote) :
    roundOf lang src i = literal (quotedEnd src (lang = .rust) doubleQuote (i + 1)) := by
  have other {d : UInt8} : ¬(doubleQuote = slash ∧ byteAt src (i + 1) = d) :=
    fun both => absurd both.1 (by decide)
  unfold roundOf
  split
  · rw [roundRust, found, bind_eq_bind, bind_some, if_neg other, if_neg other, if_pos rfl]
    rfl
  · rw [roundGo, found, bind_eq_bind, bind_some, if_neg other, if_neg other, if_neg (by decide), if_pos rfl]
    rfl
  rename_i plain _
  rw [roundCStyle, found, bind_eq_bind, bind_some, if_neg other, if_neg other, if_pos (.inl rfl),
    decide_eq_false plain]
  rfl

theorem round_character (found : src[i]? = some singleQuote) (counts : lang = .go ∨ lang = .rust) :
    roundOf lang src i = literal (quotedEnd src false singleQuote (i + 1)) := by
  have other {d : UInt8} : ¬(singleQuote = slash ∧ byteAt src (i + 1) = d) :=
    fun both => absurd both.1 (by decide)
  rcases counts with rfl | rfl
  · change roundGo src i = _
    rw [roundGo, found, bind_eq_bind, bind_some, if_neg other, if_neg other, if_neg (by decide),
      if_neg (by decide), if_pos rfl]
  change roundRust src i = _
  rw [roundRust, found, bind_eq_bind, bind_some, if_neg other, if_neg other, if_neg (by decide), if_pos rfl]

theorem round_backtick (found : src[i]? = some backtick) (swift : lang = .swift) :
    roundOf lang src i = literal (quotedEnd src true backtick (i + 1)) := by
  have other {d : UInt8} : ¬(backtick = slash ∧ byteAt src (i + 1) = d) :=
    fun both => absurd both.1 (by decide)
  subst swift
  change roundCStyle src false i = _
  rw [roundCStyle, found, bind_eq_bind, bind_some, if_neg other, if_neg other, if_pos (.inr (.inr rfl))]
  rfl

/-- A literal or a single byte is passed without blanking anything. -/
theorem finishes_literal {last : Nat} {stop : Option Nat} (early : i < src.length)
    (moved : roundOf lang src i = literal stop) (ends : stop = some last)
    (after : Finishes lang src last chosen final) : Finishes lang src i chosen final := by
  subst ends
  exact finishes_round early moved after

theorem finishes_passes (found : src[i]? = some c) (passes : Passes lang c)
    (comment : ¬(c = slash ∧ (byteAt src (i + 1) = star ∨ byteAt src (i + 1) = slash)))
    (after : Finishes lang src (i + 1) chosen final) : Finishes lang src i chosen final :=
  finishes_round (lt_of_getElem? found) (round_passes found passes comment) after

/-- Bytes without a slash are passed up to the next token. -/
theorem finishes_word (ahead : Ahead src tail stop rest i)
    (passes : ∀ byte ∈ rest, Passes lang byte ∧ byte ≠ slash)
    (after : Finishes lang src stop chosen final) : Finishes lang src i chosen final := by
  induction rest generalizing i with
  | nil => exact ahead.empty_head.1 ▸ after
  | cons byte rest ih =>
    obtain ⟨⟨pass, slashed⟩, passes⟩ := forall_mem_cons.mp passes
    exact finishes_passes ahead.head pass (fun both => slashed both.1)
      (ih ahead.next passes)

/-- Nothing happens on the quiet rest of a line, wherever the scanner is. -/
theorem finishes_line {start : Nat} (line : OnLine src start stop) (counts : lang ≠ .go)
    (comment : ∀ j, start ≤ j → j < stop → ¬(src[j]? = some slash ∧
      (byteAt src (j + 1) = star ∨ byteAt src (j + 1) = slash)))
    (spanning : ∀ j, start ≤ j → j < stop → src[j]? ≠ some (if lang = .rust then doubleQuote else backtick))
    (first : start ≤ i) (inside : i ≤ stop) (after : Finishes lang src stop chosen final) :
    Finishes lang src i chosen final := by
  induction left : stop - i using Nat.strong_induction_on generalizing i with
  | _ count ih =>
    by_cases ended : i = stop
    · exact ended ▸ after
    have early : i < stop := by omega
    have within := early.trans_le line.within
    have found := getElem?_eq_getElem within
    have plain := comment i first early
    have narrow := spanning i first early
    rw [found] at plain narrow
    have jump {last : Nat} (later : i < last) (bounded : last ≤ stop) :
        Finishes lang src last chosen final :=
      ih (stop - last) (by omega) (by omega) bounded rfl
    have quoted (quote : UInt8) (mark : quote ≠ newline)
        (moved : roundOf lang src i = literal (quotedEnd src false quote (i + 1))) :
        Finishes lang src i chosen final := by
      obtain ⟨last, ends, later, bounded⟩ :=
        @quotedEnd_onLine src start stop (i + 1) quote line (by omega) (by omega) mark
      exact finishes_literal within moved ends (jump (by omega) bounded)
    by_cases rust : lang = .rust
    · rw [if_pos rust] at narrow
      by_cases single : src[i] = singleQuote
      · rw [single] at found
        exact quoted singleQuote (by decide) (round_character found (.inr rust))
      refine finishes_passes found ⟨fun same => narrow (congrArg some same),
        fun other => absurd rust other, fun _ => single⟩ ?_ (jump (Nat.lt_succ_self i) early)
      exact fun both => plain ⟨congrArg some both.1, both.2⟩
    rw [if_neg rust] at narrow
    by_cases double : src[i] = doubleQuote
    · rw [double] at found
      have moved := @round_string lang src i found
      rw [decide_eq_false rust] at moved
      exact quoted doubleQuote (by decide) moved
    refine finishes_passes found ⟨double, fun _ same => narrow (congrArg some same), ?_⟩ ?_
      (jump (Nat.lt_succ_self i) early)
    · exact fun either => (either.elim counts rust).elim
    · exact fun both => plain ⟨congrArg some both.1, both.2⟩

theorem passes_of (double : c ≠ doubleQuote) (back : c ≠ backtick) (single : c ≠ singleQuote) :
    Passes lang c := ⟨double, fun _ => back, fun _ => single⟩

theorem passes_class {holds : UInt8 → Bool} (double : holds doubleQuote = false)
    (back : holds backtick = false) (single : holds singleQuote = false)
    (slashed : holds slash = false) (mem : holds c = true) : Passes lang c ∧ c ≠ slash := by
  have apart {d : UInt8} (outside : holds d = false) : c ≠ d := by
    rintro rfl
    rw [outside] at mem
    cases mem
  exact ⟨passes_of (apart double) (apart back) (apart single), apart slashed⟩

theorem flat_of_nested {depth : Nat} (nested : NestedText depth rest) (top : depth = 1)
    (single : ¬[slash, star] <:+: rest) : FlatText rest := by
  induction nested with
  | close => exact .close
  | inner => omega
  | nest => exact absurd ⟨[], _, rfl⟩ single
  | byte kept _ _ ih =>
    exact .byte kept (ih top fun inside => single (inside.trans (suffix_cons _ _).isInfix))

/-- The bytes that a token marks as a comment. -/
def Token.marks (token : Token) (i index : Nat) : Bool :=
  token.isComment && (i ≤ index && index < i + token.bytes.length)

theorem finishes_unmarked {token : Token} (plain : token.isComment = false)
    (after : Finishes lang src stop (fun index => chosen index || token.marks i index) final) :
    Finishes lang src stop chosen final := by
  have same : (fun index => chosen index || token.marks i index) = chosen := by
    funext index
    rw [Token.marks, plain, Bool.false_and, Bool.or_false]
  exact same ▸ after

/-- A round that blanks the comment up to its end. -/
theorem finishes_comment {token : Token} (comment : token.isComment = true)
    (ahead : Ahead src tail stop token.bytes i) (early : i < src.length)
    (moved : roundOf lang src i = some ⟨stop, some stop⟩)
    (after : Finishes lang src stop (fun index => chosen index || token.marks i index) final) :
    Finishes lang src i chosen final := by
  refine finishes_round early moved ?_
  have same : (⟨stop, some stop⟩ : Move).choose i chosen =
      fun index => chosen index || token.marks i index := by
    funext index
    rw [Token.marks, Move.choose, comment, ahead.ends, Bool.true_and]
  exact same.symm ▸ after

theorem finishes_first {rest : Bytes} (ahead : Ahead src tail stop (c :: rest ++ [singleQuote]) i)
    (plain : lang ≠ .go ∧ lang ≠ .rust) (double : c ≠ doubleQuote) (back : c ≠ backtick)
    (digits : ∀ byte ∈ rest, isCharacterRest byte = true)
    (after : Finishes lang src stop chosen final) : Finishes lang src i chosen final := by
  have quoted {byte : UInt8} (other : byte ≠ doubleQuote) (other' : byte ≠ backtick) :
      Passes lang byte := ⟨other, fun _ => other', fun either => (either.elim plain.1 plain.2).elim⟩
  have passes : ∀ byte ∈ rest ++ [singleQuote], Passes lang byte ∧ byte ≠ slash := by
    intro byte mem
    rcases mem_append.mp mem with digit | last
    · exact passes_class (by decide) (by decide) (by decide) (by decide) (digits byte digit)
    · rw [mem_singleton.mp last]
      exact ⟨quoted (by decide) (by decide), by decide⟩
  refine finishes_passes ahead.head (quoted double back) ?_ (finishes_word ahead.next passes after)
  rintro ⟨-, either⟩
  have next (d : UInt8) (nonzero : d ≠ 0) (outside : isCharacterRest d = false)
      (other : d ≠ singleQuote) : byteAt src (i + 1) ≠ d := by
    intro same
    have head := (ahead.second_eq nonzero).mp same
    cases rest with
    | nil => exact other (some.inj head).symm
    | cons digit rest =>
      have mem := digits digit mem_cons_self
      rw [some.inj head, outside] at mem
      cases mem
  rcases either with same | same
  · exact next star (by decide) (by decide) (by decide) same
  · exact next slash (by decide) (by decide) (by decide) same

theorem finishes_quoted {spans : Bool} {quote : UInt8} {items : List Item}
    (ahead : Ahead src tail stop (quote :: items.flatMap Item.bytes ++ [quote]) i)
    (slashed : quote ≠ backslash) (fits : ∀ item ∈ items, item.Fits spans quote)
    (moved : roundOf lang src i = literal (quotedEnd src spans quote (i + 1)))
    (after : Finishes lang src stop chosen final) : Finishes lang src i chosen final := by
  have ends := ahead.ends
  rw [length_append, length_cons, length_singleton] at ends
  have closed := quotedEnd_eq ahead.next.left slashed fits
  have same : i + 1 + (items.flatMap Item.bytes).length + 1 = stop := by omega
  rw [same] at closed
  exact finishes_literal (lt_of_getElem? ahead.head) moved closed after

theorem flatMap_plain (bytes : Bytes) : (bytes.map Item.plain).flatMap Item.bytes = bytes := by
  induction bytes with
  | nil => rfl
  | cons byte bytes ih =>
    rw [map_cons, flatMap_cons, ih]
    rfl

theorem fits_plain {holds : UInt8 → Bool} {spans : Bool} {quote : UInt8} {bytes : Bytes}
    (quoted : holds quote = false) (slashed : holds backslash = false)
    (line : holds newline = false) (members : ∀ byte ∈ bytes, holds byte = true) :
    ∀ item ∈ bytes.map Item.plain, item.Fits spans quote := by
  intro item mem
  obtain ⟨byte, listed, rfl⟩ := mem_map.mp mem
  have apart {d : UInt8} (outside : holds d = false) : byte ≠ d := by
    rintro rfl
    rw [members byte listed] at outside
    cases outside
  exact ⟨apart quoted, apart slashed, fun _ => apart line⟩

theorem finishes_token {token : Token} (valid : token.Valid lang) (calm : ¬token.Misread lang)
    (flat : lang = .swift → ∀ text, token = .blockComment text → ¬[slash, star] <:+: text)
    (before : token.Before tail.head?) (ahead : Ahead src tail stop token.bytes i)
    (after : Finishes lang src stop (fun index => chosen index || token.marks i index) final) :
    Finishes lang src i chosen final := by
  cases token with
  | whitespace byte =>
    refine finishes_word ahead (fun other mem => ?_) (finishes_unmarked rfl after)
    rw [mem_singleton.mp mem]
    exact passes_class (by decide) (by decide) (by decide) (by decide) valid
  | identifier name =>
    refine finishes_word ahead (fun byte mem => ?_) (finishes_unmarked rfl after)
    exact passes_class (by decide) (by decide) (by decide) (by decide) (valid byte mem)
  | quotedIdentifier name =>
    have spelled := flatMap_plain name
    have fits := @fits_plain isWord true backtick name (by decide) (by decide) (by decide) valid.2
    rw [← spelled] at ahead
    exact finishes_quoted ahead (by decide) fits (round_backtick ahead.head valid.1)
      (finishes_unmarked rfl after)
  | punctuation byte =>
    have passes : Passes lang byte := by
      have apart {d : UInt8} (outside : isPunctuation d = false) : byte ≠ d := by
        rintro rfl
        change isPunctuation byte = true at valid
        rw [outside] at valid
        cases valid
      exact passes_of (apart (by decide)) (apart (by decide)) (apart (by decide))
    refine finishes_passes ahead.head passes ?_ (ahead.ends ▸ finishes_unmarked rfl after)
    rintro ⟨same, either⟩
    obtain ⟨line, block⟩ := before same
    rcases either with next | next
    · exact block ((ahead.second_eq (by decide)).mp next)
    · exact line ((ahead.second_eq (by decide)).mp next)
  | lineComment text =>
    have line : newline ∉ slash :: slash :: text := by
      have opening : newline ≠ slash := by decide
      simp only [mem_cons, not_or]
      exact ⟨opening, opening, valid⟩
    have next := (ahead.second_eq (by decide)).mpr rfl
    refine finishes_comment rfl ahead (lt_of_getElem? ahead.head) ?_ after
    rw [round_lineComment ahead.head next]
    rw [lineComment, lineEnd_eq ahead line before]
    rfl
  | blockComment text =>
    have next := (ahead.second_eq (by decide)).mpr rfl
    have inner := ahead.next.next
    refine finishes_comment rfl ahead (lt_of_getElem? ahead.head) ?_ after
    rw [round_blockComment ahead.head next]
    have ended : (if lang = .rust then nestedEnd src (i + 2) else blockEnd src (i + 2)) = some stop := by
      change if nests lang then NestedText 1 text else FlatText text at valid
      by_cases rust : lang = .rust
      · rw [if_pos rust]
        rw [if_pos (by rw [rust]; rfl)] at valid
        exact nestedEnd_eq inner valid
      rw [if_neg rust]
      refine blockEnd_eq inner ?_
      by_cases swift : lang = .swift
      · rw [if_pos (by rw [swift]; rfl)] at valid
        exact flat_of_nested valid rfl (flat swift text rfl)
      · rwa [if_neg (by simp [nests, rust, swift])] at valid
    rw [ended]
    rw [blockComment, map_some, Nat.min_eq_left ahead.stop_le]
  | string items =>
    exact finishes_quoted ahead (by decide) valid (round_string ahead.head)
      (finishes_unmarked rfl after)
  | character first rest =>
    obtain ⟨swift, fit, digits⟩ := valid
    by_cases counts : lang = .go ∨ lang = .rust
    · have fits := @fits_plain isCharacterRest false singleQuote rest (by decide) (by decide)
        (by decide) digits
      have spelled := flatMap_plain rest
      change Ahead src tail stop (singleQuote :: (first.bytes ++ rest) ++ [singleQuote]) i at ahead
      rw [← spelled, ← flatMap_cons] at ahead
      exact finishes_quoted ahead (by decide) (forall_mem_cons.mpr ⟨fit, fits⟩)
        (round_character ahead.head counts) (finishes_unmarked rfl after)
    have plain := not_or.mp counts
    have unquoted : first.bytes.getLast? ≠ some doubleQuote ∧ first.bytes.getLast? ≠ some backtick := by
      refine not_or.mp fun either => calm ⟨?_, either⟩
      simpa using plain
    have quoted {byte : UInt8} (other : byte ≠ doubleQuote) (other' : byte ≠ backtick) :
        Passes lang byte := ⟨other, fun _ => other', fun either => absurd either counts⟩
    refine finishes_passes ahead.head (quoted (by decide) (by decide))
      (fun both => absurd both.1 (by decide)) ?_
    cases first with
    | plain byte =>
      exact finishes_first ahead.next plain (fun same => unquoted.1 (congrArg some same))
        (fun same => unquoted.2 (congrArg some same)) digits (finishes_unmarked rfl after)
    | escape byte =>
      refine finishes_passes ahead.next.head (quoted (by decide) (by decide))
        (fun both => absurd both.1 (by decide)) ?_
      exact finishes_first ahead.next.next plain (fun same => unquoted.1 (congrArg some same))
        (fun same => unquoted.2 (congrArg some same)) digits (finishes_unmarked rfl after)
  | lifetime name => exact absurd trivial calm

end Rounds

section Lines

variable {lang : CommentLang} {src tail : Bytes} {i stop : Nat} {tokens rest : List Token}
variable {chosen : Nat → Bool} {final : Bytes}

theorem Item.newline_notMem {quote : UInt8} {item : Item} (fits : item.Fits false quote) :
    newline ∉ item.bytes := by
  cases item with
  | plain byte => exact fun mem => fits.2.2 rfl (mem_singleton.mp mem).symm
  | escape byte =>
    intro mem
    rcases mem_cons.mp mem with same | mem
    · exact absurd same (by decide)
    · exact fits rfl (mem_singleton.mp mem).symm

theorem notMem_of_class {holds : UInt8 → Bool} {byte : UInt8} {bytes : Bytes}
    (outside : holds byte = false) (members : ∀ other ∈ bytes, holds other = true) :
    byte ∉ bytes := by
  intro mem
  rw [members byte mem] at outside
  cases outside

theorem Token.newline_notMem {token : Token} (valid : token.Valid lang)
    (other : token ≠ .whitespace newline) (block : ¬[slash, star] <:+: token.bytes)
    (string : lang = .rust → doubleQuote ∉ token.bytes) : newline ∉ token.bytes := by
  cases token with
  | whitespace byte => exact fun mem => other (congrArg Token.whitespace (mem_singleton.mp mem).symm)
  | identifier name => exact notMem_of_class (by decide) valid
  | quotedIdentifier name =>
    have inside := @notMem_of_class isWord newline name (by decide) valid.2
    have mark : newline ≠ backtick := by decide
    simp [Token.bytes, inside, mark]
  | punctuation byte =>
    exact @notMem_of_class isPunctuation _ [byte] (by decide) (forall_mem_singleton.mpr valid)
  | lineComment text =>
    have mark : newline ≠ slash := by decide
    simp only [Token.bytes, mem_cons, not_or]
    exact ⟨mark, mark, valid⟩
  | blockComment text => exact absurd ⟨[], text, rfl⟩ block
  | string items =>
    by_cases rust : lang = .rust
    · exact absurd mem_cons_self (string rust)
    have inside : newline ∉ items.flatMap Item.bytes := by
      intro mem
      obtain ⟨item, listed, mem⟩ := mem_flatMap.mp mem
      have fits := valid item listed
      rw [decide_eq_false rust] at fits
      exact item.newline_notMem fits mem
    have mark : newline ≠ doubleQuote := by decide
    simp only [Token.bytes, mem_append, mem_cons, not_mem_nil, or_false, not_or]
    exact ⟨⟨mark, inside⟩, mark⟩
  | character first rest =>
    obtain ⟨-, fit, digits⟩ := valid
    have head := first.newline_notMem fit
    have inside := @notMem_of_class isCharacterRest newline rest (by decide) digits
    have mark : newline ≠ singleQuote := by decide
    simp only [Token.bytes, mem_append, mem_cons, not_mem_nil, or_false, not_or]
    exact ⟨⟨mark, head, inside⟩, mark⟩
  | lifetime name =>
    have inside := @notMem_of_class isWord newline name (by decide) valid.2
    have mark : newline ≠ singleQuote := by decide
    exact fun mem => (mem_cons.mp mem).elim mark inside

theorem infix_of_getElem? {bytes : Bytes} {k : Nat} {first second : UInt8}
    (here : bytes[k]? = some first) (next : bytes[k + 1]? = some second) :
    [first, second] <:+: bytes := by
  obtain ⟨inside, rfl⟩ := List.getElem?_eq_some_iff.mp next
  obtain ⟨_, rfl⟩ := List.getElem?_eq_some_iff.mp here
  refine ⟨bytes.take k, bytes.drop (k + 2), ?_⟩
  rw [append_assoc, cons_append, cons_append, nil_append,
    getElem_cons_drop, getElem_cons_drop, take_append_drop]

theorem finishes_quiet {line : Bytes} (ahead : Ahead src tail stop line i)
    (quiet : Quiet lang line) (clear : newline ∉ line) (counts : lang ≠ .go)
    (ends : tail.head? = none ∨ tail.head? = some newline)
    (after : Finishes lang src stop chosen final) : Finishes lang src i chosen final := by
  have lengths := ahead.ends
  have last : ∀ byte, src[stop]? = some byte → byte = newline := by
    intro byte found
    rw [ahead.stop_head] at found
    rcases ends with none | some'
    · rw [none] at found
      cases found
    · exact some.inj (found.symm.trans some')
  refine @finishes_line lang src i stop chosen final i ⟨ahead.stop_le, fun j after' before found => ?_,
    fun early => ?_, fun early found => ?_⟩ counts (fun j after' before both => ?_)
    (fun j after' before found => ?_) le_rfl (by omega) after
  · rw [ahead.getElem? after' before] at found
    exact clear (mem_of_getElem? found)
  · have found := getElem?_eq_getElem early
    rw [found, last _ found]
  · rw [ahead.getElem? (by omega) (by omega)] at found
    refine quiet.escaped ?_
    rw [getLast?_eq_getElem?, ← found]
    congr 1
    omega
  · obtain ⟨here, either⟩ := both
    rw [ahead.getElem? after' before] at here
    by_cases inner : j + 1 < stop
    · have index : j + 1 - i = j - i + 1 := by omega
      rcases either with next | next
      · have found := byteAt_eq next (by decide)
        rw [ahead.getElem? (by omega) inner, index] at found
        exact quiet.blockComment (infix_of_getElem? here found)
      have found := byteAt_eq next (by decide)
      rw [ahead.getElem? (by omega) inner, index] at found
      exact quiet.lineComment (infix_of_getElem? here found)
    have edge : j + 1 = stop := by omega
    rw [edge] at either
    rcases either with next | next
    · exact absurd (last _ (byteAt_eq next (by decide))) (by decide)
    · exact absurd (last _ (byteAt_eq next (by decide))) (by decide)
  · rw [ahead.getElem? after' before] at found
    exact quiet.spanning (mem_of_getElem? found)

/-- The bytes that the tokens from a position on mark as comments. -/
def marksFrom : Nat → List Token → Nat → Bool
  | _, [], _ => false
  | i, token :: rest, index => token.marks i index || marksFrom (i + token.bytes.length) rest index

theorem marksFrom_append (first second : List Token) (i index : Nat) : marksFrom i (first ++ second) index =
      (marksFrom i first index || marksFrom (i + (tokenBytes first).length) second index) := by
  induction first generalizing i with
  | nil => rfl
  | cons token first ih =>
    rw [cons_append, marksFrom, marksFrom, ih, Bool.or_assoc, tokenBytes_cons, length_append, add_assoc]

theorem marksFrom_plain (plain : ∀ token ∈ tokens, token.isComment = false) (i index : Nat) :
    marksFrom i tokens index = false := by
  induction tokens generalizing i with
  | nil => rfl
  | cons token tokens ih =>
    obtain ⟨here, rest⟩ := forall_mem_cons.mp plain
    rw [marksFrom, ih rest]
    rw [Token.marks, here]
    rfl

theorem WellFormed.valid (wellFormed : WellFormed lang tokens) : ∀ token ∈ tokens, token.Valid lang := by
  induction tokens with
  | nil => exact fun _ impossible => absurd impossible not_mem_nil
  | cons token tokens ih => exact forall_mem_cons.mpr ⟨wellFormed.1, ih wellFormed.2.2⟩

theorem WellFormed.of_append {first : List Token} (wellFormed : WellFormed lang (first ++ rest)) :
    WellFormed lang rest := by
  induction first with
  | nil => exact wellFormed
  | cons token first ih => exact ih wellFormed.2.2

theorem Readable.of_append {first : List Token} (readable : Readable lang (first ++ rest)) :
    Readable lang rest := by
  refine ⟨fun before token after split misread => ?_, fun swift text mem => ?_⟩
  · refine readable.misread (first ++ before) token after ?_ misread
    rw [split, append_assoc]
  · exact readable.flat swift text (mem_append_right first mem)

theorem quiet_line (quiet : Quiet lang (tokenBytes tokens))
    (valid : ∀ token ∈ tokens, token.Valid lang) (others : ∀ token ∈ tokens, token ≠ .whitespace newline) :
    newline ∉ tokenBytes tokens ∧ ∀ token ∈ tokens, token.isComment = false := by
  have part {token : Token} (mem : token ∈ tokens) : token.bytes <:+: tokenBytes tokens := by
    obtain ⟨before, after, rfl⟩ := append_of_mem mem
    refine ⟨tokenBytes before, tokenBytes after, ?_⟩
    rw [tokenBytes_append, tokenBytes_cons, append_assoc]
  have block {token : Token} (mem : token ∈ tokens) : ¬[slash, star] <:+: token.bytes :=
    fun inside => quiet.blockComment (inside.trans (part mem))
  refine ⟨fun inside => ?_, fun token mem => ?_⟩
  · obtain ⟨token, mem, here⟩ := mem_flatMap.mp inside
    refine Token.newline_notMem (valid token mem) (others token mem) (block mem)
      (fun rust inside => ?_) here
    have spanning := quiet.spanning
    rw [if_pos rust] at spanning
    exact spanning ((part mem).subset inside)
  cases token with
  | lineComment text => exact absurd (List.IsInfix.trans ⟨[], text, rfl⟩ (part mem)) quiet.lineComment
  | blockComment text => exact absurd ⟨[], text, rfl⟩ (block mem)
  | _ => rfl

theorem lineRest_split (tokens : List Token) : ∃ after, tokens = lineRest tokens ++ after ∧
      ((tokenBytes after).head? = none ∨ (tokenBytes after).head? = some newline) := by
  refine ⟨tokens.dropWhile (· ≠ .whitespace newline), takeWhile_append_dropWhile.symm, ?_⟩
  cases found : tokens.dropWhile (· ≠ .whitespace newline) with
  | nil => exact .inl rfl
  | cons token after =>
    have head := head?_dropWhile_not (fun token => decide (token ≠ .whitespace newline)) tokens
    rw [found] at head
    have same : token = .whitespace newline := by simpa using head
    rw [same]
    exact .inr rfl

theorem finishes_tokens (wellFormed : WellFormed lang tokens) (readable : Readable lang tokens)
    (ahead : Ahead src [] src.length (tokenBytes tokens) i) :
    Finishes lang src i chosen
      (overlay blank (fun index => chosen index || marksFrom i tokens index) src) := by
  induction size : tokens.length using Nat.strong_induction_on generalizing tokens i chosen with
  | _ count ih =>
    cases tokens with
    | nil =>
      have none : (fun index => chosen index || marksFrom i [] index) = chosen :=
        funext fun index => Bool.or_false _
      rw [none]
      exact finishes_end ahead.empty_head.1
    | cons token rest =>
      by_cases misread : token.Misread lang
      · obtain ⟨after, split, ends⟩ := lineRest_split rest
        have quiet := readable.misread [] token rest rfl misread
        have valid := wellFormed.valid
        have kept : ∀ other ∈ token :: lineRest rest, other.Valid lang ∧ other ≠ .whitespace newline := by
          refine forall_mem_cons.mpr ⟨⟨valid token mem_cons_self, ?_⟩, fun other mem => ⟨?_, ?_⟩⟩
          · rintro rfl
            exact misread
          · exact valid other (mem_cons_of_mem _
              ((takeWhile_sublist _).subset mem))
          · simpa using mem_takeWhile_imp mem
        obtain ⟨clear, plain⟩ := quiet_line quiet (fun other mem => (kept other mem).1)
          fun other mem => (kept other mem).2
        have counts : lang ≠ .go := by
          rintro rfl
          cases token with
          | character first rest => exact misread.1 (by decide)
          | lifetime name => exact absurd (valid _ mem_cons_self).1 (by decide)
          | _ => exact misread
        have whole : token :: rest = (token :: lineRest rest) ++ after := by rw [cons_append, ← split]
        rw [whole, tokenBytes_append] at ahead
        have line := ahead.left
        rw [append_nil] at line
        have fewer : after.length < count := by
          have length := congrArg List.length split
          rw [length_append] at length
          rw [← size, length_cons]
          omega
        rw [whole] at wellFormed readable
        have moved : Finishes lang src (i + (tokenBytes (token :: lineRest rest)).length) chosen
            (overlay blank (fun index => chosen index ||
              marksFrom (i + (tokenBytes (token :: lineRest rest)).length) after index) src) :=
          ih after.length fewer wellFormed.of_append readable.of_append ahead.skip rfl
        have same : (fun index => chosen index ||
            marksFrom (i + (tokenBytes (token :: lineRest rest)).length) after index) =
            fun index => chosen index || marksFrom i (token :: rest) index := by
          funext index
          rw [whole, marksFrom_append, marksFrom_plain plain, Bool.false_or]
        rw [same] at moved
        exact finishes_quiet line quiet clear counts ends moved
      · rw [tokenBytes_cons] at ahead
        have first := ahead.left
        rw [append_nil] at first
        have readable' : Readable lang ([token] ++ rest) := readable
        have same : (fun index => (chosen index || token.marks i index) ||
            marksFrom (i + token.bytes.length) rest index) =
            fun index => chosen index || marksFrom i (token :: rest) index :=
          funext fun index => Bool.or_assoc _ _ _
        have moved : Finishes lang src (i + token.bytes.length)
            (fun index => chosen index || token.marks i index) (overlay blank (fun index =>
              (chosen index || token.marks i index) ||
                marksFrom (i + token.bytes.length) rest index) src) :=
          ih rest.length (by simp [← size]) wellFormed.2.2 readable'.of_append
            ahead.skip rfl
        rw [same] at moved
        refine finishes_token wellFormed.1 misread (fun swift text same => ?_) wellFormed.2.1
          first moved
        exact readable.flat swift text (same ▸ mem_cons_self)

theorem marksFrom_below {index : Nat} (below : index < i) : marksFrom i tokens index = false := by
  induction tokens generalizing i with
  | nil => rfl
  | cons token tokens ih =>
    have early : decide (i ≤ index) = false := decide_eq_false (by omega)
    rw [marksFrom, ih (below.trans_le (Nat.le_add_right _ _))]
    rw [Token.marks, early, Bool.false_and, Bool.and_false, Bool.or_false]

theorem overlay_append (first : Nat → Bool) (left right : Bytes) : overlay blank first (left ++ right) =
      overlay blank first left ++ overlay blank (fun index => first (index + left.length)) right :=
  mapIdx_append

theorem overlay_marksFrom (tokens : List Token) (i : Nat) :
    overlay blank (fun index => marksFrom i tokens (i + index)) (tokenBytes tokens) =
      tokens.flatMap Token.stripped := by
  induction tokens generalizing i with
  | nil => rfl
  | cons token tokens ih =>
    rw [tokenBytes_cons, overlay_append, flatMap_cons]
    congr 1
    · refine overlay_const fun index inside => ?_
      have here : decide (i ≤ i + index) = true := decide_eq_true (Nat.le_add_right _ _)
      have there : decide (i + index < i + token.bytes.length) = true := decide_eq_true (by omega)
      rw [marksFrom, marksFrom_below (by omega), Bool.or_false]
      rw [Token.marks, here, there, Bool.and_true, Bool.and_true]
    · rw [← ih (i + token.bytes.length)]
      congr 1
      funext index
      have moved : i + (index + token.bytes.length) = i + token.bytes.length + index := by omega
      have beyond : decide (i + token.bytes.length + index < i + token.bytes.length) = false :=
        decide_eq_false (by omega)
      rw [marksFrom, moved]
      rw [Token.marks, beyond, Bool.and_false, Bool.and_false, Bool.false_or]

end Lines

/-- A string and a comment after it. -/
def quotedThenComment : List Token := [.string [.plain 47], .whitespace 32, .lineComment [34]]

/-- A comment behind a quotation mark in a character literal. -/
def quoteThenComment : List Token := [.character (.plain doubleQuote) [], .lineComment [99]]

/-- A comment behind a lifetime. -/
def lifetimeThenComment : List Token := [.lifetime [97], .blockComment [99, star, slash]]

/-- A comment inside a comment. -/
def commentInComment : List Token := [.blockComment [slash, star, star, slash, 99, star, slash]]

theorem not_stripsExactly {lang : CommentLang} {tokens : List Token} (content out : String)
    (spelled : utf8Bytes content = tokenBytes tokens)
    (stripped : stripCommentsForRegex content lang = some out)
    (apart : utf8Bytes out ≠ tokens.flatMap Token.stripped) : ¬StripsExactly lang tokens := by
  intro exactly
  obtain ⟨out', stripped', same⟩ := exactly content spelled
  obtain rfl := some.inj (stripped.symm.trans stripped')
  exact apart same

end Codegraph.StripComments
