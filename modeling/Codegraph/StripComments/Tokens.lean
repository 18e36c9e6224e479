import Codegraph.StripComments.Validity
import Mathlib.Data.List.TakeWhile

namespace Codegraph.StripComments

open Library Utf8 List Option

/-- A byte of a literal that stands for itself or follows a backslash. -/
inductive Item where
  | plain (byte : UInt8)
  | escape (byte : UInt8)
deriving DecidableEq

/-- The text of a comment comes without its opening mark and a block comment keeps its closing one.
The first item of a character literal may be followed by the rest of its character or of its
escape. -/
inductive Token where
  | whitespace (byte : UInt8)
  | identifier (name : Bytes)
  | quotedIdentifier (name : Bytes)
  | punctuation (byte : UInt8)
  | lineComment (text : Bytes)
  | blockComment (text : Bytes)
  | string (items : List Item)
  | character (first : Item) (rest : Bytes)
  | lifetime (name : Bytes)
deriving DecidableEq

def Item.bytes : Item → Bytes
  | .plain byte => [byte]
  | .escape byte => [backslash, byte]

namespace Token

def bytes : Token → Bytes
  | whitespace byte => [byte]
  | identifier name => name
  | quotedIdentifier name => backtick :: name ++ [backtick]
  | punctuation byte => [byte]
  | lineComment text => slash :: slash :: text
  | blockComment text => slash :: star :: text
  | string items => doubleQuote :: items.flatMap Item.bytes ++ [doubleQuote]
  | character first rest => singleQuote :: (first.bytes ++ rest) ++ [singleQuote]
  | lifetime name => singleQuote :: name

def isComment : Token → Bool
  | lineComment _ | blockComment _ => true
  | _ => false

/-- What the token should leave in the text. -/
def stripped (token : Token) : Bytes := if token.isComment then token.bytes.map blank else token.bytes

end Token

def isWhitespace (byte : UInt8) : Bool := byte ∈ [9, 10, 11, 12, 13, 32]

def isWord (byte : UInt8) : Bool :=
  (48 ≤ byte && byte ≤ 57) || (65 ≤ byte && byte ≤ 90) || (97 ≤ byte && byte ≤ 122) ||
    byte = 95 || 128 ≤ byte

def isPunctuation (byte : UInt8) : Bool :=
  33 ≤ byte && byte ≤ 126 && !isWord byte && byte ∉ [doubleQuote, singleQuote, backtick]

/-- The text of a block comment ends at its first closing mark. -/
inductive FlatText : Bytes → Prop
  | close : FlatText [star, slash]
  | byte {byte : UInt8} {rest : Bytes} (kept : ¬(byte = star ∧ rest.head? = some slash))
      (tail : FlatText rest) : FlatText (byte :: rest)

/-- The text of a block comment ends where its nested comments are closed and it is too. -/
inductive NestedText : Nat → Bytes → Prop
  | close : NestedText 1 [star, slash]
  | inner {depth : Nat} {rest : Bytes} (tail : NestedText (depth + 1) rest) :
      NestedText (depth + 2) (star :: slash :: rest)
  | nest {depth : Nat} {rest : Bytes} (tail : NestedText (depth + 2) rest) :
      NestedText (depth + 1) (slash :: star :: rest)
  | byte {depth : Nat} {byte : UInt8} {rest : Bytes}
      (kept : ¬(byte = star ∧ rest.head? = some slash))
      (plain : ¬(byte = slash ∧ rest.head? = some star)) (tail : NestedText (depth + 1) rest) :
      NestedText (depth + 1) (byte :: rest)

def nests (lang : CommentLang) : Bool := lang = .swift ∨ lang = .rust

/-- Only in Rust may a string span lines. -/
def Item.Fits (spans : Bool) (quote : UInt8) : Item → Prop
  | .plain byte => byte ≠ quote ∧ byte ≠ backslash ∧ (spans = false → byte ≠ newline)
  | .escape byte => spans = false → byte ≠ newline

/-- The rest of a character beyond ASCII, or the digits and braces of an escape. -/
def isCharacterRest (byte : UInt8) : Bool := isWord byte || byte = 123 || byte = 125

def Token.Valid (lang : CommentLang) : Token → Prop
  | .whitespace byte => isWhitespace byte = true
  | .identifier name => ∀ byte ∈ name, isWord byte = true
  | .quotedIdentifier name => lang = .swift ∧ ∀ byte ∈ name, isWord byte = true
  | .punctuation byte => isPunctuation byte = true
  | .lineComment text => newline ∉ text
  | .blockComment text => if nests lang then NestedText 1 text else FlatText text
  | .string items => ∀ item ∈ items, item.Fits (lang = .rust) doubleQuote
  | .character first rest => lang ≠ .swift ∧ first.Fits false singleQuote ∧
      ∀ byte ∈ rest, isCharacterRest byte = true
  | .lifetime name => lang = .rust ∧ ∀ byte ∈ name, isWord byte = true

/-- A line comment ends at a newline, and a slash does not start a comment. -/
def Token.Before (next : Option UInt8) : Token → Prop
  | .lineComment _ => next = none ∨ next = some newline
  | .punctuation byte => byte = slash → next ≠ some slash ∧ next ≠ some star
  | _ => True

def tokenBytes (tokens : List Token) : Bytes := tokens.flatMap Token.bytes

theorem tokenBytes_cons (token : Token) (rest : List Token) :
    tokenBytes (token :: rest) = token.bytes ++ tokenBytes rest := rfl

theorem tokenBytes_append (first second : List Token) :
    tokenBytes (first ++ second) = tokenBytes first ++ tokenBytes second := flatMap_append

/-- The tokens are those of the language, in an order in which they are read back. -/
def WellFormed (lang : CommentLang) : List Token → Prop
  | [] => True
  | token :: rest => token.Valid lang ∧ token.Before (tokenBytes rest).head? ∧ WellFormed lang rest

/-- The languages with these tokens. -/
def tokenLangs : List CommentLang := [.java, .csharp, .swift, .go, .rust]

/-- Exactly the comments of a text that is spelled by the tokens are blanked. -/
def StripsExactly (lang : CommentLang) (tokens : List Token) : Prop :=
  ∀ content, utf8Bytes content = tokenBytes tokens → ∃ out, stripCommentsForRegex content lang = some out ∧
      utf8Bytes out = tokens.flatMap Token.stripped

/-- The tokens that a scanner does not take for what they are: a character literal with a quotation
mark opens a string in Java and C#, and a lifetime opens a character literal in Rust. -/
def Token.Misread (lang : CommentLang) : Token → Prop
  | .character first _ => lang ∉ [.go, .rust] ∧
      (first.bytes.getLast? = some doubleQuote ∨ first.bytes.getLast? = some backtick)
  | .lifetime _ => True
  | _ => False

/-- The tokens up to the end of the line. -/
def lineRest (tokens : List Token) : List Token := tokens.takeWhile (· ≠ .whitespace newline)

/-- Nothing in the rest of a line starts a comment or a literal that may leave the line. -/
structure Quiet (lang : CommentLang) (bytes : Bytes) : Prop where
  lineComment : ¬[slash, slash] <:+: bytes
  blockComment : ¬[slash, star] <:+: bytes
  spanning : (if lang = .rust then doubleQuote else backtick) ∉ bytes
  escaped : bytes.getLast? ≠ some backslash

/-- A token that is misread has no effect beyond a quiet rest of its line, and no comment is nested
where the scanner does not count. -/
structure Readable (lang : CommentLang) (tokens : List Token) : Prop where
  misread : ∀ before token after, tokens = before ++ token :: after → token.Misread lang →
    Quiet lang (tokenBytes (token :: lineRest after))
  flat : lang = .swift → ∀ text, .blockComment text ∈ tokens → ¬[slash, star] <:+: text

section Loops

variable {src tail rest : Bytes} {start stop i : Nat} {c : UInt8}

/-- The text that lies between two positions and what follows it. -/
structure Ahead (src tail : Bytes) (stop : Nat) (rest : Bytes) (i : Nat) : Prop where
  here : src.drop i = rest ++ tail
  ends : i + rest.length = stop
  within : i ≤ src.length

namespace Ahead

section

variable (ahead : Ahead src tail stop (c :: rest) i)
include ahead

theorem head : src[i]? = some c := by
  have first := congrArg List.head? ahead.here
  rwa [head?_drop] at first

theorem next : Ahead src tail stop rest (i + 1) := by
  have moved := congrArg (List.drop 1) ahead.here
  have ends := ahead.ends
  rw [drop_drop, drop_one, cons_append, tail_cons] at moved
  rw [length_cons] at ends
  exact ⟨moved, by omega, lt_of_getElem? ahead.head⟩

theorem second : byteAt src (i + 1) = (rest ++ tail).head?.getD 0 := by
  rw [byteAt, ← ahead.next.here, head?_drop]

theorem second_eq {d : UInt8} (nonzero : d ≠ 0) : byteAt src (i + 1) = d ↔ (rest ++ tail).head? = some d := by
  rw [ahead.second]
  cases (rest ++ tail).head? with
  | none => exact iff_of_false (fun same => nonzero same.symm) (fun same => nomatch same)
  | some other => exact (some_inj).symm

end

theorem skip {done : Bytes} (ahead : Ahead src tail stop (done ++ rest) i) :
    Ahead src tail stop rest (i + done.length) := by
  induction done generalizing i with
  | nil => exact ahead
  | cons c done ih =>
    have moved := ih ahead.next
    rwa [add_assoc, add_comm 1] at moved

theorem length (ahead : Ahead src tail stop rest i) : stop + tail.length = src.length := by
  have length := congrArg List.length ahead.here
  have ends := ahead.ends
  have within := ahead.within
  rw [length_drop, length_append] at length
  omega

theorem stop_le (ahead : Ahead src tail stop rest i) : stop ≤ src.length :=
  ahead.length ▸ Nat.le_add_right _ _

theorem empty_head (ahead : Ahead src tail stop [] i) : i = stop ∧ src[i]? = tail.head? := by
  have here := ahead.here
  rw [nil_append] at here
  exact ⟨ahead.ends, by rw [← here, head?_drop]⟩

theorem left {first second : Bytes} (ahead : Ahead src tail stop (first ++ second) i) :
    Ahead src (second ++ tail) (i + first.length) first i :=
  ⟨by rw [ahead.here, append_assoc], rfl, ahead.within⟩

theorem getElem? {j : Nat} (ahead : Ahead src tail stop rest i) (after : i ≤ j) (before : j < stop) :
    src[j]? = rest[j - i]? := by
  have ends := ahead.ends
  have value := congrArg (·[j - i]?) ahead.here
  simp only [getElem?_drop] at value
  rwa [Nat.add_sub_cancel' after, getElem?_append_left (by omega)] at value

theorem stop_head (ahead : Ahead src tail stop rest i) : src[stop]? = tail.head? := by
  have whole := (append_nil rest).symm ▸ ahead
  have last := whole.skip.empty_head
  rw [← last.1]
  exact last.2

end Ahead

theorem advance_eq {body : UInt8 → Nat → Option (Round Nat)} (property : Bytes → Prop) (target : Nat)
    (rounds : ∀ rest i c, Ahead src tail stop rest i → property rest → src[i]? = some c →
      (∃ done rest', rest = done ++ rest' ∧ done ≠ [] ∧ property rest' ∧
        body c i = some (.next (i + done.length))) ∨ body c i = some (.done target))
    (ended : ∀ rest, property rest → Ahead src tail stop rest src.length → target = src.length)
    (ahead : Ahead src tail stop rest start) (first : property rest) :
    advance src body start = some target := by
  have looped : ∃ last, advance src body start = some last ∧ last = target := by
    refine advance_spec (fun i => ∃ rest, property rest ∧ Ahead src tail stop rest i) (· = target)
      (fun i ⟨_, _, ahead⟩ => ahead.within) (fun i c ⟨rest, holds, ahead⟩ found => ?_)
      (fun ⟨rest, holds, ahead⟩ => (ended rest holds ahead).symm) ⟨rest, first, ahead⟩
    rcases rounds rest i c ahead holds found with ⟨done, rest', rfl, some', holds', moved⟩ | last
    · have some'' := length_pos_iff.mpr some'
      exact .inl ⟨_, moved, ⟨rest', holds', ahead.skip⟩, by omega⟩
    · exact .inr ⟨target, last, rfl⟩
  obtain ⟨last, looped, rfl⟩ := looped
  exact looped

theorem lineEnd_eq (ahead : Ahead src tail stop rest start) (line : newline ∉ rest)
    (ends : tail.head? = none ∨ tail.head? = some newline) : lineEnd src start = some stop := by
  refine advance_eq (newline ∉ ·) stop (fun rest i c ahead clear found => ?_)
    (fun rest _ ahead => ?_) ahead line
  · cases rest with
    | nil =>
      obtain ⟨rfl, head⟩ := ahead.empty_head
      rw [found] at head
      have last : c = newline := by
        rcases ends with none | some'
        · rw [none] at head
          cases head
        · exact some.inj (head.trans some')
      exact .inr (by rw [if_neg (not_not.mpr last)])
    | cons b rest =>
      obtain rfl : b = c := some.inj (ahead.head.symm.trans found)
      obtain ⟨other, clear'⟩ := not_or.mp (fun either => clear (mem_cons.mpr either))
      exact .inl ⟨[b], rest, rfl, cons_ne_nil _ _, clear', by rw [if_pos (Ne.symm other)]; rfl⟩
  have := ahead.ends
  have := ahead.stop_le
  omega

theorem FlatText.length (flat : FlatText rest) : 2 ≤ rest.length := by
  induction flat with
  | close => exact le_rfl
  | byte _ _ ih => exact ih.trans (Nat.le_succ _)

/-- A block comment without nesting ends at its first closing mark. -/
theorem blockEnd_eq (ahead : Ahead src tail stop rest start) (flat : FlatText rest) :
    blockEnd src start = some stop := by
  have room := flat.length
  have looped : advance src (fun c i => some (if c = star ∧ byteAt src (i + 1) = slash then
      .done i else .next (i + 1))) start = some (stop - 2) := by
    refine advance_eq FlatText (stop - 2) (fun rest i c ahead flat found => ?_)
      (fun rest flat ahead => ?_) ahead flat
    · have ends := ahead.ends
      cases flat with
      | close =>
        obtain rfl : star = c := some.inj (ahead.head.symm.trans found)
        have second := (ahead.second_eq (by decide)).mpr rfl
        refine .inr ?_
        rw [if_pos ⟨rfl, second⟩, ← ends]
        rfl
      | @byte b rest kept flat =>
        obtain rfl : b = c := some.inj (ahead.head.symm.trans found)
        refine .inl ⟨[b], rest, rfl, cons_ne_nil _ _, flat, ?_⟩
        rw [if_neg]
        · rfl
        · rintro ⟨same, second⟩
          rw [ahead.second_eq (by decide)] at second
          refine kept ⟨same, ?_⟩
          cases flat <;> exact second
    have := ahead.ends
    have := ahead.stop_le
    cases flat <;> simp only [length_cons] at * <;> omega
  have bound := ahead.stop_le
  have ends := ahead.ends
  rw [blockEnd, looped, map_some, if_pos (by omega)]
  congr 1
  omega

theorem NestedText.ne_nil {depth : Nat} (nested : NestedText depth rest) : rest ≠ [] := by
  cases nested <;> exact cons_ne_nil _ _

theorem NestedText.depth_pos {depth : Nat} (nested : NestedText depth rest) : 0 < depth := by
  cases nested <;> exact Nat.succ_pos _

theorem nestedEnd_eq (ahead : Ahead src tail stop rest start) (nested : NestedText 1 rest) :
    nestedEnd src start = some stop := by
  have looped : ∃ last, whileLoop (nestedRound src) (src.length + 1) (start, 1) = some last ∧
      last.1 = stop := by
    refine whileLoop_spec (fun state : Nat × Nat => src.length - state.1)
      (fun state => (state.2 = 0 ∧ state.1 = stop) ∨
        ∃ rest, NestedText state.2 rest ∧ Ahead src tail stop rest state.1) _
      (fun ⟨i, depth⟩ inv => ?_) (.inr ⟨rest, nested, ahead⟩)
      (Nat.lt_succ_of_le (Nat.sub_le _ _))
    unfold nestedRound
    rcases inv with ⟨rfl, rfl⟩ | ⟨rest, nested, ahead⟩
    · rw [if_neg (fun both => lt_irrefl 0 both.2)]
      exact .inr ⟨_, rfl, rfl⟩
    obtain ⟨c, rest', rfl⟩ := exists_cons_of_ne_nil nested.ne_nil
    have early := lt_of_getElem? ahead.head
    have ends := ahead.ends
    rw [if_pos ⟨early, nested.depth_pos⟩]
    dsimp only
    rw [ahead.head, map_some]
    left
    have second {d : UInt8} (nonzero : d ≠ 0) :
        byteAt src (i + 1) = d ↔ (rest' ++ tail).head? = some d := ahead.second_eq nonzero
    cases nested with
    | close =>
      have next := (second (by decide)).mpr rfl
      refine ⟨(i + 2, 0), ?_, .inl ⟨rfl, by omega⟩, by dsimp only; omega⟩
      rw [if_neg (fun both => absurd both.1 (by decide)), if_pos ⟨rfl, next⟩]
    | @inner depth rest nested =>
      have next := (second (by decide)).mpr rfl
      refine ⟨(i + 2, depth + 1), ?_, .inr ⟨rest, nested, ahead.next.next⟩, by dsimp only; omega⟩
      rw [if_neg (fun both => absurd both.1 (by decide)), if_pos ⟨rfl, next⟩]
      rfl
    | @nest depth rest nested =>
      have next := (second (by decide)).mpr rfl
      refine ⟨(i + 2, depth + 2), ?_, .inr ⟨rest, nested, ahead.next.next⟩, by dsimp only; omega⟩
      rw [if_pos ⟨rfl, next⟩]
    | @byte depth _ _ kept plain nested =>
      refine ⟨(i + 1, depth + 1), ?_, .inr ⟨rest', nested, ahead.next⟩, by dsimp only; omega⟩
      obtain ⟨b, rest'', rfl⟩ := exists_cons_of_ne_nil nested.ne_nil
      rw [if_neg fun both => plain ⟨both.1, (second (by decide)).mp both.2⟩,
        if_neg fun both => kept ⟨both.1, (second (by decide)).mp both.2⟩]
  obtain ⟨⟨last, depth⟩, looped, rfl⟩ := looped
  rw [nestedEnd, looped]
  rfl

theorem closeQuote_eq {quote : UInt8} (found : src[i]? = some quote) :
    closeQuote src quote i = some (i + 1) := by
  rw [closeQuote, if_pos (lt_of_getElem? found), found, map_some, if_pos rfl]

theorem quotedEnd_eq {spans : Bool} {quote : UInt8} {items : List Item}
    (ahead : Ahead src (quote :: tail) stop (items.flatMap Item.bytes) start)
    (slashed : quote ≠ backslash) (fits : ∀ item ∈ items, item.Fits spans quote) :
    quotedEnd src spans quote start = some (stop + 1) := by
  have looped : advance src (fun c i => some (
      if c = quote then .done i
      else if c = backslash ∧ i + 1 < src.length then .next (i + 2)
      else if spans = false ∧ c = newline then .done i
      else .next (i + 1))) start = some stop := by
    refine advance_eq (fun rest => ∃ items : List Item, rest = items.flatMap Item.bytes ∧
      ∀ item ∈ items, item.Fits spans quote) stop
      (fun rest i c ahead ⟨items, spelled, fits⟩ found => ?_) (fun rest _ ahead => ?_) ahead
      ⟨items, rfl, fits⟩
    · subst spelled
      cases items with
      | nil =>
        obtain ⟨rfl, head⟩ := ahead.empty_head
        obtain rfl : c = quote := some.inj (found.symm.trans head)
        exact .inr (by rw [if_pos rfl])
      | cons item items =>
        obtain ⟨fit, fits'⟩ := forall_mem_cons.mp fits
        cases item with
        | plain byte =>
          obtain rfl : byte = c := some.inj (ahead.head.symm.trans found)
          refine .inl ⟨[byte], _, rfl, cons_ne_nil _ _, ⟨items, rfl, fits'⟩, ?_⟩
          rw [if_neg fit.1, if_neg (fun both => fit.2.1 both.1), if_neg (fun both => fit.2.2 both.1 both.2)]
          rfl
        | escape byte =>
          obtain rfl : backslash = c := some.inj (ahead.head.symm.trans found)
          have next := lt_of_getElem? ahead.next.head
          refine .inl ⟨[backslash, byte], _, rfl, cons_ne_nil _ _, ⟨items, rfl, fits'⟩, ?_⟩
          rw [if_neg (Ne.symm slashed), if_pos ⟨rfl, next⟩]
          rfl
    have length := ahead.length
    have ends := ahead.ends
    rw [length_cons] at length
    omega
  rw [quotedEnd, looped, bind_some]
  exact closeQuote_eq ahead.stop_head

/-- The positions of one line from a start to its end. -/
structure OnLine (src : Bytes) (start stop : Nat) : Prop where
  within : stop ≤ src.length
  clear : ∀ i, start ≤ i → i < stop → src[i]? ≠ some newline
  ended : stop < src.length → src[stop]? = some newline
  escaped : start < stop → src[stop - 1]? ≠ some backslash

/-- A literal that may not span lines does not leave its line. -/
theorem quotedEnd_onLine {quote : UInt8} (line : OnLine src start stop) (first : start ≤ i)
    (inside : i ≤ stop) (mark : quote ≠ newline) :
    ∃ last, quotedEnd src false quote i = some last ∧ i ≤ last ∧ last ≤ stop := by
  have looped : ∃ last, advance src (fun c i => some (
      if c = quote then .done i
      else if c = backslash ∧ i + 1 < src.length then .next (i + 2)
      else if false = false ∧ c = newline then .done i
      else .next (i + 1))) i = some last ∧ i ≤ last ∧ last ≤ stop := by
    refine advance_spec (fun j => i ≤ j ∧ j ≤ stop) _ (fun j inv => inv.2.trans line.within)
      (fun j c ⟨after, before⟩ found => ?_) (fun inv => inv) ⟨le_rfl, inside⟩
    by_cases last : j = stop
    · have here := line.ended (last ▸ lt_of_getElem? found)
      rw [← last, found] at here
      obtain rfl := some.inj here
      refine .inr ⟨j, ?_, after, before⟩
      rw [if_neg (Ne.symm mark), if_neg (fun both => absurd both.1 (by decide)), if_pos ⟨rfl, rfl⟩]
    have early : j < stop := by omega
    by_cases closes : c = quote
    · exact .inr ⟨j, by rw [if_pos closes], after, before⟩
    rw [if_neg closes]
    by_cases escape : c = backslash ∧ j + 1 < src.length
    · have more : j + 1 < stop := by
        refine lt_of_le_of_ne early fun same => ?_
        have kept := line.escaped (by omega)
        rw [← same, Nat.add_sub_cancel, found, escape.1] at kept
        exact kept rfl
      exact .inl ⟨j + 2, by rw [if_pos escape], ⟨by omega, by omega⟩, by omega⟩
    rw [if_neg escape, if_neg]
    · exact .inl ⟨j + 1, rfl, ⟨by omega, by omega⟩, by omega⟩
    · exact fun both => line.clear j (by omega) early (both.2 ▸ found)
  obtain ⟨last, looped, after, before⟩ := looped
  rw [quotedEnd, looped, bind_some]
  unfold closeQuote
  by_cases early : last < src.length
  · rw [if_pos early, getElem?_eq_getElem early, map_some]
    split
    · rename_i closes
      refine ⟨last + 1, rfl, by omega, ?_⟩
      by_contra beyond
      have same : last = stop := by omega
      have here := line.ended (same ▸ early)
      rw [← same, getElem?_eq_getElem early, closes] at here
      exact mark (some.inj here)
    · exact ⟨last, rfl, after, before⟩
  · rw [if_neg early]
    exact ⟨last, rfl, after, before⟩

end Loops

end Codegraph.StripComments
