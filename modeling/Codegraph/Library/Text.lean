import Mathlib.Tactic

namespace Codegraph.Library.Text

open List Option

/-- A property of the members of a list is decided along the list, also when their type is finite. -/
instance (priority := 2000) decidableForallMem {Element : Type} (P : Element → Prop) [DecidablePred P]
    (elements : List Element) : Decidable (∀ element ∈ elements, P element) :=
  List.decidableBAll P elements

instance (priority := 2000) decidableExistsMem {Element : Type} (P : Element → Prop) [DecidablePred P]
    (elements : List Element) : Decidable (∃ element ∈ elements, P element) :=
  List.decidableBEx P elements

/-- The characters with the White_Space property. -/
def isWhitespace (c : Char) : Bool :=
  (9 ≤ c.toNat && c.toNat ≤ 13) || c.toNat = 0x20 || c.toNat = 0x85 || c.toNat = 0xA0 ||
    c.toNat = 0x1680 || (0x2000 ≤ c.toNat && c.toNat ≤ 0x200A) || c.toNat = 0x2028 ||
    c.toNat = 0x2029 || c.toNat = 0x202F || c.toNat = 0x205F || c.toNat = 0x3000

def trimEndMatches (drop : Char → Bool) (text : List Char) : List Char :=
  (text.reverse.dropWhile drop).reverse

def trim (text : List Char) : List Char := trimEndMatches isWhitespace (text.dropWhile isWhitespace)

def stripPrefix (start text : List Char) : Option (List Char) :=
  if start.isPrefixOf text then some (text.drop start.length) else none

def stripSuffix (ending text : List Char) : Option (List Char) :=
  if ending.isSuffixOf text then some (text.take (text.length - ending.length)) else none

def toDigit (radix : Nat) (c : Char) : Option Nat :=
  let digit :=
    if '0' ≤ c ∧ c ≤ '9' then some (c.toNat - 48)
    else if 'a' ≤ c ∧ c ≤ 'z' then some (c.toNat - 87)
    else if 'A' ≤ c ∧ c ≤ 'Z' then some (c.toNat - 55)
    else none
  digit.filter (· < radix)

/-- At least one digit is required. -/
def parseNat (radix : Nat) : List Char → Option Nat
  | [] => none
  | text => text.foldlM (fun value c => (toDigit radix c).map (value * radix + ·)) 0

/-- One leading sign is accepted. -/
def parseInt (radix : Nat) : List Char → Option Int
  | '-' :: digits => (parseNat radix digits).map fun value => -(value : Int)
  | '+' :: digits => (parseNat radix digits).map fun value => (value : Int)
  | digits => (parseNat radix digits).map fun value => (value : Int)

/-- One leading plus is accepted. -/
def parseUsize : List Char → Option Nat
  | '+' :: digits => (parseNat 10 digits).filter (· < 2 ^ 64)
  | digits => (parseNat 10 digits).filter (· < 2 ^ 64)

def decimal (value : Nat) : List Char := Nat.toDigits 10 value

/-- The two hexadecimal digits of a byte, in lower case. -/
def hexByte (byte : UInt8) : List Char :=
  [Nat.digitChar (byte.toNat / 16), Nat.digitChar (byte.toNat % 16)]

theorem toDigit_of_isDigit {c : Char} (digit : c.isDigit) : toDigit 10 c = some (c.toNat - '0'.toNat) := by
  have bounds : '0' ≤ c ∧ c ≤ '9' := by simpa [Char.isDigit, Char.le_def] using digit
  have below : c.toNat - 48 < 10 := by
    have upper : c.toNat ≤ 57 := bounds.2
    omega
  rw [toDigit, if_pos bounds]
  simp [Option.filter, below]

variable {text : List Char}

theorem foldlM_toDigit (digits : ∀ c ∈ text, c.isDigit) (value : Nat) :
    text.foldlM (fun value c => (toDigit 10 c).map (value * 10 + ·)) value =
      some (Nat.ofDigitChars 10 text value) := by
  induction text generalizing value with
  | nil => simp
  | cons c text ih =>
    rw [foldlM_cons, toDigit_of_isDigit (digits c (by simp)), Nat.ofDigitChars_cons, mul_comm 10 value]
    exact ih (fun c held => digits c (by simp [held])) _

theorem isDigit_of_mem_decimal {value : Nat} {c : Char} (held : c ∈ decimal value) : c.isDigit :=
  Nat.isDigit_of_mem_toDigits (by decide) (by decide) held

theorem parseNat_decimal (value : Nat) : parseNat 10 (decimal value) = some value := by
  have digits : ∀ c ∈ decimal value, c.isDigit := fun _ => isDigit_of_mem_decimal
  have parsed := foldlM_toDigit digits 0
  cases text : decimal value with
  | nil => exact absurd text Nat.toDigits_ne_nil
  | cons c rest =>
    rw [text] at parsed
    refine parsed.trans ?_
    rw [← text]
    exact congrArg some Nat.ofDigitChars_ten_toDigits

theorem parseUsize_decimal {value : Nat} (small : value < 2 ^ 64) :
    parseUsize (decimal value) = some value := by
  have parsed : (parseNat 10 (decimal value)).filter (· < 2 ^ 64) = some value := by
    rw [parseNat_decimal]
    exact if_pos (decide_eq_true small)
  unfold parseUsize
  split
  · rename_i text
    have sign : '+' ∈ decimal value := by rw [text]; simp
    exact absurd (isDigit_of_mem_decimal sign) (by decide)
  · exact parsed

theorem dropWhile_of_none {drop : Char → Bool}
    (kept : ∀ c ∈ text, drop c = false) : text.dropWhile drop = text := by
  cases text with
  | nil => rfl
  | cons c rest => rw [dropWhile_cons_of_neg (by simp [kept c])]

/-- A text without blanks is not trimmed. -/
theorem trim_of_none (plain : ∀ c ∈ text, isWhitespace c = false) : trim text = text := by
  unfold trim trimEndMatches
  have reversed : ∀ c ∈ text.reverse, isWhitespace c = false := fun c held =>
    plain c (mem_reverse.mp held)
  rw [dropWhile_of_none plain, dropWhile_of_none reversed, reverse_reverse]

theorem isDigit_of_toDigit {c : Char} {digit : Nat} (found : toDigit 10 c = some digit) : c.isDigit := by
  obtain ⟨value, small⟩ := filter_eq_some_iff.mp found
  have below : digit < 10 := by simpa using small
  split at value
  · rename_i bounds
    simpa [Char.isDigit, Char.le_def] using bounds
  split at value
  · rename_i bounds
    have lower : 97 ≤ c.toNat := bounds.1
    have same := some.inj value
    omega
  split at value
  · rename_i bounds
    have lower : 65 ≤ c.toNat := bounds.1
    have same := some.inj value
    omega
  · contradiction

theorem isDigit_of_parseNat {value : Nat} (parsed : parseNat 10 text = some value) :
    ∀ c ∈ text, c.isDigit := by
  have folded (text : List Char) (start : Nat)
      (some : (text.foldlM (fun value c => (toDigit 10 c).map (value * 10 + ·)) start).isSome) :
      ∀ c ∈ text, c.isDigit := by
    induction text generalizing start with
    | nil => simp
    | cons c text ih =>
      rw [foldlM_cons] at some
      cases digit : toDigit 10 c with
      | none => simp [digit] at some
      | some digit' =>
        rw [digit] at some
        exact forall_mem_cons.mpr ⟨isDigit_of_toDigit digit, ih _ some⟩
  unfold parseNat at parsed
  split at parsed
  · contradiction
  · exact folded _ 0 (by rw [parsed]; rfl)

theorem isDigit_of_parseUsize {value : Nat} (parsed : parseUsize text = some value) :
    parseInt 10 text = some (value : Int) ∧ ∀ c ∈ text, c.isDigit ∨ c = '+' := by
  unfold parseUsize at parsed
  split at parsed
  · rename_i digits
    have number := (filter_eq_some_iff.mp parsed).1
    refine ⟨?_, fun c mem => ?_⟩
    · simp [parseInt, number]
    rcases mem_cons.mp mem with rfl | mem
    · exact .inr rfl
    · exact .inl (isDigit_of_parseNat number c mem)
  rename_i plus
  have number := (filter_eq_some_iff.mp parsed).1
  have digits := isDigit_of_parseNat number
  refine ⟨?_, fun c mem => .inl (digits c mem)⟩
  unfold parseInt
  split
  · exact absurd (digits '-' mem_cons_self) (by decide)
  · rename_i rest
    exact absurd rfl (plus rest)
  · simp [number]

theorem stripPrefix_eq_none {c : Char} {start text : List Char} (mem : c ∈ start) (absent : c ∉ text) :
    stripPrefix start text = none := by
  rw [stripPrefix, if_neg]
  intro isPrefix
  exact absent (( isPrefixOf_iff_prefix.mp isPrefix).subset mem)

theorem trimEndMatches_of_none {drop : Char → Bool} (kept : ∀ c ∈ text, drop c = false) :
    trimEndMatches drop text = text := by
  rw [trimEndMatches, dropWhile_of_none fun c mem => kept c (mem_reverse.mp mem), reverse_reverse]

theorem isWhitespace_of_isDigit {c : Char} (digit : c.isDigit) : isWhitespace c = false := by
  have bounds : 48 ≤ c.toNat ∧ c.toNat ≤ 57 := by
    simpa [Char.isDigit, Char.le_def, UInt32.le_iff_toNat_le] using digit
  simp only [isWhitespace, Bool.or_eq_false_iff, Bool.and_eq_false_iff, decide_eq_false_iff_not]
  omega

/-- When no character lies between two, the texts between them are those that start with the lower
one. -/
theorem between_iff_prefix {low high : Char} (above : low < high)
    (next : ∀ c, ¬ c < low → c < high → c = low) (head text : List Char) :
    (¬ text < head ++ [low] ∧ text < head ++ [high]) ↔ head ++ [low] <+: text := by
  induction head generalizing text with
  | nil =>
    cases text with
    | nil => simp
    | cons c rest =>
      simp only [nil_append, cons_lt_cons_iff, not_lt_nil, and_false, or_false,
        cons_prefix_cons, nil_prefix, and_true]
      constructor
      · intro ⟨notBelow, below⟩
        exact (next c notBelow below).symm
      intro same
      rw [← same]
      exact ⟨Char.lt_irrefl low, above⟩
  | cons first head ih =>
    cases text with
    | nil => simp
    | cons c rest =>
      simp only [cons_append, cons_lt_cons_iff, cons_prefix_cons, ← ih]
      constructor
      · intro ⟨notBelow, below⟩
        rcases below with less | ⟨same, below⟩
        · exact absurd (.inl less) notBelow
        · exact ⟨same.symm, fun under => notBelow (.inr ⟨same, under⟩), below⟩
      intro ⟨same, notBelow, below⟩
      subst same
      simp [notBelow, below, Char.lt_irrefl]

end Codegraph.Library.Text
