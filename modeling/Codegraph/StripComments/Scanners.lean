import Codegraph.Library.Iteration
import Codegraph.Library.Utf8

namespace Codegraph.StripComments

open Library

abbrev Bytes := List UInt8

def tab : UInt8 := 9
def newline : UInt8 := 10
def space : UInt8 := 32
def doubleQuote : UInt8 := 34
def hash : UInt8 := 35
def singleQuote : UInt8 := 39
def star : UInt8 := 42
def slash : UInt8 := 47
def equals : UInt8 := 61
def backslash : UInt8 := 92
def backtick : UInt8 := 96

/-- The bytes of `=begin`. -/
def beginMark : Bytes := [61, 98, 101, 103, 105, 110]

/-- The bytes of `=end`. -/
def endMark : Bytes := [61, 101, 110, 100]

inductive CommentLang where
  | python
  | javascript
  | typescript
  | php
  | ruby
  | java
  | csharp
  | swift
  | go
  | rust
deriving DecidableEq

def blank (byte : UInt8) : UInt8 := if byte = newline then newline else space

/-- Reading or writing behind the end fails. -/
def blankRange (src out : Bytes) (start stop : Nat) : Option Bytes :=
  (List.range' start (stop - start)).foldlM (fun out i => do
    let byte ← src[i]?
    if i < out.length then some (out.set i (blank byte)) else none) out

/-- A position behind the end reads as a zero byte. -/
def byteAt (src : Bytes) (i : Nat) : UInt8 := src[i]?.getD 0

section Loops

variable (src : Bytes)

/-- A loop over positions stops behind the end or where its body says so. -/
def advance (body : UInt8 → Nat → Option (Round Nat)) (i : Nat) : Option Nat :=
  whileLoop (fun i =>
    if i < src.length then (src[i]?).bind fun c => body c i else some (.done i))
    (src.length + 1) i

def lineEnd (i : Nat) : Option Nat :=
  advance src (fun c i => some (if c ≠ newline then .next (i + 1) else .done i)) i

/-- The end of a block comment without nesting. -/
def blockEnd (i : Nat) : Option Nat :=
  (advance src (fun c i => some (if c = star ∧ byteAt src (i + 1) = slash then .done i
    else .next (i + 1))) i).map fun i => if i < src.length then i + 2 else i

/-- The depth of a nested block comment is kept beside the position. -/
def nestedRound (state : Nat × Nat) : Option (Round (Nat × Nat)) :=
  if state.1 < src.length ∧ 0 < state.2 then
    (src[state.1]?).map fun c =>
      if c = slash ∧ byteAt src (state.1 + 1) = star then .next (state.1 + 2, state.2 + 1)
      else if c = star ∧ byteAt src (state.1 + 1) = slash then .next (state.1 + 2, state.2 - 1)
      else .next (state.1 + 1, state.2)
  else some (.done state)

def nestedEnd (i : Nat) : Option Nat :=
  (whileLoop (nestedRound src) (src.length + 1) (i, 1)).map Prod.fst

/-- A closing quote belongs to the literal. -/
def closeQuote (quote : UInt8) (i : Nat) : Option Nat :=
  if i < src.length then (src[i]?).map fun c => if c = quote then i + 1 else i else some i

/-- A backslash skips the next byte. A literal that may not span lines is left at a newline. -/
def quotedEnd (spans : Bool) (quote : UInt8) (i : Nat) : Option Nat :=
  (advance src (fun c i => some (
    if c = quote then .done i
    else if c = backslash ∧ i + 1 < src.length then .next (i + 2)
    else if spans = false ∧ c = newline then .done i
    else .next (i + 1))) i).bind (closeQuote src quote)

/-- A raw literal has no escapes. -/
def rawEnd (i : Nat) : Option Nat :=
  (advance src (fun c i => some (if c = backtick then .done i else .next (i + 1))) i).map fun i =>
    if i < src.length then i + 1 else i

/-- The end of a triple-quoted string. -/
def tripleEnd (quote : UInt8) (i : Nat) : Option Nat :=
  advance src (fun c i => some (
    if c = backslash ∧ i + 1 < src.length then .next (i + 2)
    else if c = quote ∧ byteAt src (i + 1) = quote ∧ byteAt src (i + 2) = quote then .done (i + 3)
    else .next (i + 1))) i

def blanksEnd (i : Nat) : Option Nat :=
  advance src (fun c i => some (if c = space ∨ c = tab then .next (i + 1) else .done i)) i

/-- A slice that starts behind the end fails. -/
def rest (i : Nat) : Option Bytes := if i ≤ src.length then some (src.drop i) else none

/-- The comment ends with the line of the first end mark that only blanks precede. -/
def beginEnd (i : Nat) : Option Nat :=
  advance src (fun c i =>
    if c = newline then do
      let j ← blanksEnd src (i + 1)
      let tail ← rest src j
      if endMark.isPrefixOf tail then (lineEnd src (j + endMark.length)).map .done
      else return .next (i + 1)
    else some (.next (i + 1))) i

end Loops

/-- The position after a round of a scanner and the end of the range that the round blanked. -/
structure Move where
  next : Nat
  blanked : Option Nat := none
deriving DecidableEq

section Rounds

variable (src : Bytes)

def literal (stop : Option Nat) : Option Move := stop.map fun stop => ⟨stop, none⟩

def lineComment (i : Nat) : Option Move := (lineEnd src i).map fun stop => ⟨stop, some stop⟩

def blockComment (stop : Option Nat) : Option Move :=
  stop.map fun stop => ⟨stop, some (min stop src.length)⟩

def roundPython (i : Nat) : Option Move := do
  let c ← src[i]?
  if (c = doubleQuote ∨ c = singleQuote) ∧ byteAt src (i + 1) = c ∧ byteAt src (i + 2) = c then
    blockComment src (tripleEnd src c (i + 3))
  else if c = doubleQuote ∨ c = singleQuote then literal (quotedEnd src false c (i + 1))
  else if c = hash then lineComment src i
  else some ⟨i + 1, none⟩

/-- The flag tells whether only blanks precede the position on its line. -/
def roundRuby (atLineStart : Bool) (i : Nat) : Option (Move × Bool) := do
  let c ← src[i]?
  if atLineStart ∧ c = equals ∧ beginMark.isPrefixOf (src.drop i) then
    let stop ← beginEnd src (i + beginMark.length)
    return (⟨stop, some (min stop src.length)⟩, 0 < stop && byteAt src (stop - 1) = newline)
  else if c = doubleQuote ∨ c = singleQuote then
    (literal (quotedEnd src false c (i + 1))).map (·, false)
  else if c = hash then (lineComment src i).map (·, false)
  else if c = newline then some (⟨i + 1, none⟩, true)
  else if c = space ∨ c = tab then some (⟨i + 1, none⟩, atLineStart)
  else some (⟨i + 1, none⟩, false)

def roundCStyle (allowSingleQuoteStrings : Bool) (i : Nat) : Option Move := do
  let c ← src[i]?
  if c = slash ∧ byteAt src (i + 1) = star then blockComment src (blockEnd src (i + 2))
  else if c = slash ∧ byteAt src (i + 1) = slash then lineComment src i
  else if c = doubleQuote ∨ (allowSingleQuoteStrings ∧ c = singleQuote) ∨ c = backtick then
    literal (quotedEnd src (c = backtick) c (i + 1))
  else some ⟨i + 1, none⟩

def roundPhp (i : Nat) : Option Move := do
  let c ← src[i]?
  if c = slash ∧ byteAt src (i + 1) = star then blockComment src (blockEnd src (i + 2))
  else if c = slash ∧ byteAt src (i + 1) = slash then lineComment src i
  else if c = hash then lineComment src i
  else if c = doubleQuote ∨ c = singleQuote ∨ c = backtick then
    literal (quotedEnd src false c (i + 1))
  else some ⟨i + 1, none⟩

def roundGo (i : Nat) : Option Move := do
  let c ← src[i]?
  if c = slash ∧ byteAt src (i + 1) = star then blockComment src (blockEnd src (i + 2))
  else if c = slash ∧ byteAt src (i + 1) = slash then lineComment src i
  else if c = backtick then literal (rawEnd src (i + 1))
  else if c = doubleQuote then literal (quotedEnd src false doubleQuote (i + 1))
  else if c = singleQuote then literal (quotedEnd src false singleQuote (i + 1))
  else some ⟨i + 1, none⟩

/-- A lifetime is read like a character literal. -/
def roundRust (i : Nat) : Option Move := do
  let c ← src[i]?
  if c = slash ∧ byteAt src (i + 1) = star then blockComment src (nestedEnd src (i + 2))
  else if c = slash ∧ byteAt src (i + 1) = slash then lineComment src i
  else if c = doubleQuote then literal (quotedEnd src true doubleQuote (i + 1))
  else if c = singleQuote then literal (quotedEnd src false singleQuote (i + 1))
  else some ⟨i + 1, none⟩

end Rounds

/-- The rounds of a scanner up to the end of the text. -/
def scan {State : Type} (src : Bytes) (round : State → Nat → Option (Move × State)) :
    Nat → State → Nat → Bytes → Option Bytes
  | 0, _, _, _ => none
  | fuel + 1, state, i, out =>
    if i < src.length then do
      let (move, state) ← round state i
      let out ← match move.blanked with
        | some stop => blankRange src out i stop
        | none => some out
      scan src round fuel state move.next out
    else some out

/-- Bytes that are no text fail. -/
def finish (out : Bytes) : Option String := utf8Text out

def stripWith {State : Type} (round : Bytes → State → Nat → Option (Move × State)) (start : State)
    (content : String) : Option String :=
  let src := utf8Bytes content
  (scan src (round src) (src.length + 1) start 0 src).bind finish

/-- A scanner that keeps nothing but its position. -/
def stateless (round : Bytes → Nat → Option Move) (src : Bytes) (_ : Unit) (i : Nat) :
    Option (Move × Unit) := (round src i).map (·, ())

def stripPython : String → Option String := stripWith (stateless roundPython) ()

def stripRuby : String → Option String := stripWith roundRuby true

def stripCStyle (allowSingleQuoteStrings : Bool) : String → Option String :=
  stripWith (stateless (roundCStyle · allowSingleQuoteStrings)) ()

def stripPhp : String → Option String := stripWith (stateless roundPhp) ()

def stripGo : String → Option String := stripWith (stateless roundGo) ()

def stripRust : String → Option String := stripWith (stateless roundRust) ()

def stripCommentsForRegex (content : String) (lang : CommentLang) : Option String :=
  match lang with
  | .python => stripPython content
  | .ruby => stripRuby content
  | .rust => stripRust content
  | .php => stripPhp content
  | .go => stripGo content
  | .javascript | .typescript => stripCStyle true content
  | .java | .csharp | .swift => stripCStyle false content

end Codegraph.StripComments
