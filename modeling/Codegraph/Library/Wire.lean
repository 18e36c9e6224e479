import Mathlib.Tactic

namespace Codegraph.Library.Wire

open List

abbrev Bytes := List UInt8

/-- A message is malformed, or the reader itself goes wrong. -/
inductive Failure where
  | malformed (message : String)
  | panic
  | diverges
deriving DecidableEq

inductive Value where
  | varint (value : Nat)
  | bytes (payload : Bytes)
  | fixed
deriving DecidableEq

structure Reader where
  bytes : Bytes
  pos : Nat
deriving DecidableEq

def shifts : List Nat := [0, 7, 14, 21, 28, 35, 42, 49, 56, 63]

namespace Reader

def ofBytes (bytes : Bytes) : Reader := ⟨bytes, 0⟩

def atEnd (reader : Reader) : Bool := reader.bytes.length ≤ reader.pos

/-- Each byte adds seven bits until one has no continuation bit. -/
def varintFrom : List Nat → Nat → Reader → Except Failure (Nat × Reader)
  | [], _, _ => .error (.malformed "varint too long")
  | shift :: rest, value, reader =>
    match reader.bytes[reader.pos]? with
    | none => .error (.malformed "truncated varint")
    | some byte =>
      if 64 ≤ shift then .error .panic
      else if byte.toNat < 128 then
        .ok (value ||| ((byte.toNat % 128) <<< shift) % 2 ^ 64, ⟨reader.bytes, reader.pos + 1⟩)
      else
        varintFrom rest (value ||| ((byte.toNat % 128) <<< shift) % 2 ^ 64)
          ⟨reader.bytes, reader.pos + 1⟩

def varint (reader : Reader) : Except Failure (Nat × Reader) := varintFrom shifts 0 reader

/-- The end is computed without overflow, and the slice is then taken from its bounds. -/
def take (reader : Reader) (length : Nat) : Except Failure (Bytes × Reader) :=
  if reader.pos + length < 2 ^ 64 ∧ reader.pos + length ≤ reader.bytes.length then
    if reader.pos ≤ reader.pos + length ∧ reader.pos + length ≤ reader.bytes.length then
      .ok ((reader.bytes.drop reader.pos).take length, ⟨reader.bytes, reader.pos + length⟩)
    else .error .panic
  else .error (.malformed "truncated field")

/-- The value of a field has the wire type of its key. -/
def value (wireType : Nat) (reader : Reader) : Except Failure (Value × Reader) :=
  match wireType with
  | 0 => reader.varint.map fun read => (.varint read.1, read.2)
  | 1 => (reader.take 8).map fun read => (.fixed, read.2)
  | 2 => do
    let (length, reader) ← reader.varint
    (reader.take length).map fun read => (.bytes read.1, read.2)
  | 5 => (reader.take 4).map fun read => (.fixed, read.2)
  | _ => .error (.malformed "unsupported wire type")

/-- The next field, or nothing at the end of the message. -/
def field (reader : Reader) : Except Failure (Option ((Nat × Value) × Reader)) :=
  if reader.atEnd then .ok none
  else do
    let (key, reader) ← reader.varint
    (reader.value (key % 8)).map fun read => some ((key / 8, read.1), read.2)

end Reader

variable {State : Type}

/-- The fields of a message are read in their order. -/
def readFrom (step : State → Nat × Value → Except Failure State) : Nat → Reader → State → Except Failure State
  | 0, _, _ => .error .diverges
  | fuel + 1, reader, state => do
    match ← reader.field with
    | none => .ok state
    | some (entry, next) =>
      let state ← step state entry
      readFrom step fuel next state

def readFields (step : State → Nat × Value → Except Failure State) (bytes : Bytes)
    (state : State) : Except Failure State :=
  readFrom step (bytes.length + 1) (.ofBytes bytes) state

/-- The integers of a packed field. -/
def readPackedFrom : Nat → Reader → List Nat → Except Failure (List Nat)
  | 0, _, _ => .error .diverges
  | fuel + 1, reader, values =>
    if reader.atEnd then .ok values
    else do
      let (value, next) ← reader.varint
      readPackedFrom fuel next (values ++ [value])

def readPacked (bytes : Bytes) : Except Failure (List Nat) :=
  readPackedFrom (bytes.length + 1) (.ofBytes bytes) []

def varintBytes (value : Nat) : Bytes :=
  if value < 128 then [UInt8.ofNat value]
  else UInt8.ofNat (value % 128 + 128) :: varintBytes (value / 128)

def varintField (number value : Nat) : Bytes := varintBytes (number * 8) ++ varintBytes value

def bytesField (number : Nat) (payload : Bytes) : Bytes :=
  varintBytes (number * 8 + 2) ++ varintBytes payload.length ++ payload

/-- A failure is due to the message. -/
def Safe {Result : Type} (result : Except Failure Result) : Prop :=
  ∀ failure, result = .error failure → ∃ message, failure = .malformed message

theorem safe_ok {Result : Type} (result : Result) : Safe (.ok result) := by
  intro failure same
  cases same

theorem safe_malformed {Result : Type} (message : String) :
    Safe (.error (.malformed message) : Except Failure Result) := by
  intro failure same
  exact ⟨message, (Except.error.inj same).symm⟩

theorem Safe.map {First Second : Type} {result : Except Failure First} (safe : Safe result)
    (f : First → Second) : Safe (result.map f) := by
  cases result with
  | ok value => exact safe_ok _
  | error failure =>
    obtain ⟨message, rfl⟩ := safe failure rfl
    exact safe_malformed message

theorem Safe.bind {First Second : Type} {result : Except Failure First} (safe : Safe result)
    {next : First → Except Failure Second} (safely : ∀ value, result = .ok value → Safe (next value)) :
    Safe (result >>= next) := by
  cases result with
  | ok value => exact safely value rfl
  | error failure =>
    obtain ⟨message, rfl⟩ := safe failure rfl
    exact safe_malformed message

namespace Reader

theorem varintFrom_spec (shifts : List Nat) (small : ∀ shift ∈ shifts, shift < 64) (value : Nat)
    (reader : Reader) : Safe (varintFrom shifts value reader) ∧
      ∀ read next, varintFrom shifts value reader = .ok (read, next) →
        next.bytes = reader.bytes ∧ reader.pos < next.pos := by
  induction shifts generalizing value reader with
  | nil => exact ⟨safe_malformed _, by simp [varintFrom]⟩
  | cons shift rest ih =>
    rw [varintFrom]
    cases found : reader.bytes[reader.pos]? with
    | none => exact ⟨safe_malformed _, by simp⟩
    | some byte =>
      have inRange : ¬64 ≤ shift := by
        have := small shift mem_cons_self
        omega
      dsimp only
      rw [if_neg inRange]
      split
      · refine ⟨safe_ok _, ?_⟩
        intro read next same
        obtain ⟨rfl, rfl⟩ := Prod.mk.inj (Except.ok.inj same)
        exact ⟨rfl, Nat.lt_succ_self _⟩
      obtain ⟨safe, moves⟩ := ih (fun other mem => small other (mem_cons_of_mem _ mem))
        (value ||| ((byte.toNat % 128) <<< shift) % 2 ^ 64) ⟨reader.bytes, reader.pos + 1⟩
      refine ⟨safe, ?_⟩
      intro read next same
      obtain ⟨kept, later⟩ := moves read next same
      exact ⟨kept, Nat.lt_of_succ_lt later⟩

theorem varint_safe (reader : Reader) : Safe reader.varint :=
  (varintFrom_spec shifts (by decide) 0 reader).1

theorem varint_moves {reader next : Reader} {read : Nat} (ran : reader.varint = .ok (read, next)) :
    next.bytes = reader.bytes ∧ reader.pos < next.pos :=
  (varintFrom_spec shifts (by decide) 0 reader).2 read next ran

theorem take_safe (reader : Reader) (length : Nat) : Safe (reader.take length) := by
  unfold take
  split
  · rename_i fits
    rw [if_pos ⟨Nat.le_add_right _ _, fits.2⟩]
    exact safe_ok _
  · exact safe_malformed _

theorem take_moves {reader next : Reader} {length : Nat} {read : Bytes}
    (ran : reader.take length = .ok (read, next)) :
    next.bytes = reader.bytes ∧ reader.pos ≤ next.pos := by
  unfold take at ran
  split at ran
  · split at ran
    · obtain ⟨-, rfl⟩ := Prod.mk.inj (Except.ok.inj ran)
      exact ⟨rfl, Nat.le_add_right _ _⟩
    · cases ran
  · cases ran

theorem value_safe (wireType : Nat) (reader : Reader) : Safe (reader.value wireType) := by
  unfold value
  split
  · exact (varint_safe reader).map _
  · exact (take_safe reader 8).map _
  · exact (varint_safe reader).bind fun read _ => (take_safe read.2 read.1).map _
  · exact (take_safe reader 4).map _
  · exact safe_malformed _

end Reader

theorem map_ok_iff {First Second : Type} {result : Except Failure First} {f : First → Second}
    {value : Second} : result.map f = .ok value ↔ ∃ first, result = .ok first ∧ f first = value := by
  cases result with
  | ok first => simp [Except.map]
  | error failure => simp [Except.map]

theorem bind_ok_iff {First Second : Type} {result : Except Failure First}
    {next : First → Except Failure Second} {value : Second} :
    (result >>= next) = .ok value ↔ ∃ first, result = .ok first ∧ next first = .ok value := by
  cases result with
  | ok first => simp [bind, Except.bind]
  | error failure => simp [bind, Except.bind]

namespace Reader

theorem value_moves {wireType : Nat} {reader next : Reader} {read : Value}
    (ran : reader.value wireType = .ok (read, next)) :
    next.bytes = reader.bytes ∧ reader.pos ≤ next.pos := by
  unfold value at ran
  split at ran
  · obtain ⟨first, took, same⟩ := map_ok_iff.mp ran
    obtain ⟨-, rfl⟩ := Prod.mk.inj same
    exact (varint_moves took).imp_right le_of_lt
  · obtain ⟨first, took, same⟩ := map_ok_iff.mp ran
    obtain ⟨-, rfl⟩ := Prod.mk.inj same
    exact take_moves took
  · obtain ⟨length, counted, ran⟩ := bind_ok_iff.mp ran
    obtain ⟨first, took, same⟩ := map_ok_iff.mp ran
    obtain ⟨-, rfl⟩ := Prod.mk.inj same
    obtain ⟨kept, later⟩ := varint_moves counted
    obtain ⟨keptToo, laterToo⟩ := take_moves took
    exact ⟨keptToo.trans kept, later.le.trans laterToo⟩
  · obtain ⟨first, took, same⟩ := map_ok_iff.mp ran
    obtain ⟨-, rfl⟩ := Prod.mk.inj same
    exact take_moves took
  · cases ran

theorem field_safe (reader : Reader) : Safe reader.field := by
  unfold field
  split
  · exact safe_ok _
  · exact (varint_safe reader).bind fun key _ => (value_safe _ key.2).map _

/-- A field that is read takes at least the byte of its key. -/
theorem field_moves {reader next : Reader} {entry : Nat × Value}
    (ran : reader.field = .ok (some (entry, next))) :
    next.bytes = reader.bytes ∧ reader.pos < next.pos ∧ reader.pos < reader.bytes.length := by
  unfold field at ran
  split at ran
  · cases ran
  rename_i unread
  obtain ⟨key, keyed, ran⟩ := bind_ok_iff.mp ran
  obtain ⟨read, valued, same⟩ := map_ok_iff.mp ran
  obtain ⟨-, rfl⟩ := Prod.mk.inj (Option.some.inj same)
  obtain ⟨kept, later⟩ := varint_moves keyed
  obtain ⟨keptToo, laterToo⟩ := value_moves valued
  refine ⟨keptToo.trans kept, later.trans_le laterToo, ?_⟩
  simpa [atEnd] using unread

end Reader

variable {step : State → Nat × Value → Except Failure State} {reader : Reader}

theorem readFrom_safe (safely : ∀ state entry, Safe (step state entry)) {fuel : Nat}
    (enough : reader.bytes.length < reader.pos + fuel) (started : 0 < fuel) (state : State) :
    Safe (readFrom step fuel reader state) := by
  induction fuel generalizing reader state with
  | zero => omega
  | succ fuel ih =>
    rw [readFrom]
    refine (Reader.field_safe reader).bind fun read ran => ?_
    cases read with
    | none => exact safe_ok state
    | some entry =>
      obtain ⟨kept, later, unread⟩ := Reader.field_moves ran
      refine (safely state entry.1).bind fun next _ => ?_
      exact ih (by rw [kept]; omega) (by omega) next

/-- A message is read or malformed. -/
theorem readFields_safe (safely : ∀ state entry, Safe (step state entry)) (bytes : Bytes) (state : State) :
    Safe (readFields step bytes state) :=
  readFrom_safe safely (by simp [Reader.ofBytes]) (Nat.succ_pos _) state

theorem readPackedFrom_safe {fuel : Nat}
    (enough : reader.bytes.length < reader.pos + fuel) (started : 0 < fuel) (values : List Nat) :
    Safe (readPackedFrom fuel reader values) := by
  induction fuel generalizing reader values with
  | zero => omega
  | succ fuel ih =>
    rw [readPackedFrom]
    split
    · exact safe_ok values
    rename_i unread
    refine (Reader.varint_safe reader).bind fun read ran => ?_
    obtain ⟨kept, later⟩ := Reader.varint_moves ran
    have inside : reader.pos < reader.bytes.length := by simpa [Reader.atEnd] using unread
    exact ih (by rw [kept]; omega) (by omega) _

theorem readPacked_safe (bytes : Bytes) : Safe (readPacked bytes) :=
  readPackedFrom_safe (by simp [Reader.ofBytes]) (Nat.succ_pos _) []

theorem readFrom_keeps {kept : State → Prop}
    (keeps : ∀ state entry next, kept state → step state entry = .ok next → kept next)
    {fuel : Nat} {state last : State} (before : kept state)
    (ran : readFrom step fuel reader state = .ok last) : kept last := by
  induction fuel generalizing reader state with
  | zero => cases ran
  | succ fuel ih =>
    rw [readFrom] at ran
    obtain ⟨read, -, ran⟩ := bind_ok_iff.mp ran
    cases read with
    | none =>
      cases ran
      exact before
    | some entry =>
      obtain ⟨next, stepped, ran⟩ := bind_ok_iff.mp ran
      exact ih (keeps state entry.1 next before stepped) ran

theorem readFields_keeps {kept : State → Prop}
    (keeps : ∀ state entry next, kept state → step state entry = .ok next → kept next)
    {bytes : Bytes} {state last : State} (before : kept state)
    (ran : readFields step bytes state = .ok last) : kept last := readFrom_keeps keeps before ran

/-- What the reader has not read yet. -/
def Rest (reader : Reader) (rest : Bytes) : Prop :=
  reader.bytes.length < 2 ^ 64 ∧ reader.bytes.drop reader.pos = rest ∧ reader.pos ≤ reader.bytes.length

def Reader.advance (reader : Reader) (count : Nat) : Reader := ⟨reader.bytes, reader.pos + count⟩

theorem rest_ofBytes {bytes : Bytes} (short : bytes.length < 2 ^ 64) : Rest (.ofBytes bytes) bytes :=
  ⟨short, rfl, Nat.zero_le _⟩

namespace Rest

variable {reader : Reader} {first rest : Bytes}

theorem total (here : Rest reader rest) : reader.bytes.length = reader.pos + rest.length := by
  have counted := congrArg List.length here.2.1
  rw [length_drop] at counted
  have := here.2.2
  omega

theorem advance (here : Rest reader (first ++ rest)) : Rest (reader.advance first.length) rest := by
  have counted := here.total
  rw [length_append] at counted
  refine ⟨here.1, ?_, by simp only [Reader.advance]; omega⟩
  rw [Reader.advance, ← drop_drop, here.2.1, drop_left]

theorem head {byte : UInt8} (here : Rest reader (byte :: rest)) : reader.bytes[reader.pos]? = some byte := by
  have dropped := congrArg List.head? here.2.1
  rwa [head?_drop] at dropped

theorem atEnd_iff (here : Rest reader rest) : reader.atEnd = rest.isEmpty := by
  have counted := here.total
  cases rest with
  | nil => simpa [Reader.atEnd] using counted.le
  | cons byte rest =>
    have inside : reader.pos < reader.bytes.length := by
      rw [counted, length_cons]
      omega
    simpa [Reader.atEnd] using inside

end Rest

theorem varintBytes_length_pos (value : Nat) : 0 < (varintBytes value).length := by
  rw [varintBytes]
  split <;> simp

/-- Seven bits are placed above the ones read before. -/
theorem or_shift {value digit shift : Nat} (below : value < 2 ^ shift) (fits : digit * 2 ^ shift < 2 ^ 64) :
    value ||| (digit <<< shift) % 2 ^ 64 = value + digit * 2 ^ shift := by
  rw [Nat.shiftLeft_eq, Nat.mod_eq_of_lt fits, Nat.or_comm, ← Nat.shiftLeft_eq,
    ← Nat.shiftLeft_add_eq_or_of_lt below, add_comm]

namespace Reader

theorem varintFrom_write (count : Nat) {shift read value : Nat} {reader : Reader} {rest : Bytes}
    (here : Rest reader (varintBytes value ++ rest)) (room : shift < 64)
    (enough : 64 ≤ shift + 7 * count) (fits : value < 2 ^ (64 - shift)) (below : read < 2 ^ shift) :
    varintFrom (List.range' shift count 7) read reader =
      .ok (read + value * 2 ^ shift, reader.advance (varintBytes value).length) := by
  induction count generalizing shift read value reader with
  | zero => omega
  | succ count ih =>
    have whole : 2 ^ (64 - shift) * 2 ^ shift = 2 ^ 64 := by rw [← pow_add, Nat.sub_add_cancel room.le]
    have scaled := whole ▸ Nat.mul_lt_mul_of_pos_right fits (Nat.two_pow_pos shift)
    rw [varintBytes] at here ⊢
    split
    · rename_i last
      rw [if_pos last] at here
      have byte : (UInt8.ofNat value).toNat = value := by
        rw [UInt8.toNat_ofNat']
        omega
      rw [range'_succ, varintFrom, here.head]
      dsimp only
      rw [if_neg (by omega), byte, if_pos last, Nat.mod_eq_of_lt last, or_shift below scaled]
      rfl
    rename_i more
    rw [if_neg more] at here
    have byte : (UInt8.ofNat (value % 128 + 128)).toNat = value % 128 + 128 := by
      rw [UInt8.toNat_ofNat']
      omega
    have digit := (Nat.mul_le_mul_right _ (Nat.mod_le value 128)).trans_lt scaled
    have further : 7 < 64 - shift := by
      by_contra short
      have : 2 ^ (64 - shift) ≤ 2 ^ 7 := Nat.pow_le_pow_right (by decide) (by omega)
      omega
    have split : 2 ^ (64 - shift) = 2 ^ (64 - (shift + 7)) * 128 := by
      rw [show 64 - shift = 64 - (shift + 7) + 7 by omega, pow_add]
      norm_num
    have next : Rest (reader.advance 1) (varintBytes (value / 128) ++ rest) :=
      @Rest.advance reader [UInt8.ofNat (value % 128 + 128)] _ here
    have added : read + value % 128 * 2 ^ shift < 2 ^ (shift + 7) := by
      have : value % 128 * 2 ^ shift ≤ 127 * 2 ^ shift := Nat.mul_le_mul_right _ (by omega)
      rw [pow_add]
      omega
    rw [range'_succ, varintFrom, here.head]
    dsimp only
    rw [if_neg (by omega), byte, if_neg (by omega), Nat.add_mod_right, Nat.mod_mod, or_shift below digit]
    have rest := ih next (by omega) (by omega) (by omega) added
    rw [show (⟨reader.bytes, reader.pos + 1⟩ : Reader) = reader.advance 1 from rfl, rest]
    have value_eq : read + value % 128 * 2 ^ shift + value / 128 * 2 ^ (shift + 7) =
        read + value * 2 ^ shift := by
      rw [pow_add, add_assoc]
      congr 1
      calc value % 128 * 2 ^ shift + value / 128 * (2 ^ shift * 2 ^ 7)
          = (value % 128 + 128 * (value / 128)) * 2 ^ shift := by ring
        _ = value * 2 ^ shift := by rw [Nat.mod_add_div]
    rw [value_eq]
    simp only [advance, length_cons]
    rw [add_assoc, add_comm 1]

theorem varint_write {reader : Reader} {value : Nat} {rest : Bytes}
    (here : Rest reader (varintBytes value ++ rest)) (fits : value < 2 ^ 64) :
    reader.varint = .ok (value, reader.advance (varintBytes value).length) := by
  have read : varintFrom (List.range' 0 10 7) 0 reader = _ :=
    varintFrom_write 10 here (by decide) (by decide) fits (by decide)
  rwa [Nat.zero_add, pow_zero, Nat.mul_one] at read

theorem take_write {reader : Reader} {first rest : Bytes} (here : Rest reader (first ++ rest)) :
    reader.take first.length = .ok (first, reader.advance first.length) := by
  have counted := here.total
  rw [length_append] at counted
  have short := here.1
  rw [take, if_pos ⟨by omega, by omega⟩, if_pos ⟨by omega, by omega⟩, here.2.1, take_left]
  rfl

end Reader

/-- A field as the writer puts it. -/
def fieldBytes (entry : Nat × Value) : Bytes :=
  match entry.2 with
  | .varint value => varintField entry.1 value
  | .bytes payload => bytesField entry.1 payload
  | .fixed => []

/-- A field that the writer can put. -/
def Writable (entry : Nat × Value) : Prop :=
  entry.1 < 2 ^ 61 ∧
    match entry.2 with
    | .varint value => value < 2 ^ 64
    | .bytes _ => True
    | .fixed => False

theorem writable_bytes {number : Nat} (small : number < 2 ^ 61) (payload : Bytes) :
    Writable (number, .bytes payload) := ⟨small, trivial⟩

theorem fieldBytes_length_pos {entry : Nat × Value} (writable : Writable entry) :
    0 < (fieldBytes entry).length := by
  obtain ⟨number, value⟩ := entry
  cases value with
  | varint value =>
    have := varintBytes_length_pos (number * 8)
    simp only [fieldBytes, varintField, length_append]
    omega
  | bytes payload =>
    have := varintBytes_length_pos (number * 8 + 2)
    simp only [fieldBytes, bytesField, length_append]
    omega
  | fixed => exact absurd writable.2 id

theorem Reader.advance_advance (reader : Reader) (first second : Nat) :
    (reader.advance first).advance second = reader.advance (first + second) := by
  simp [Reader.advance, add_assoc]

theorem Reader.field_write {entry : Nat × Value} {rest : Bytes}
    (here : Rest reader (fieldBytes entry ++ rest)) (writable : Writable entry) :
    reader.field = .ok (some (entry, reader.advance (fieldBytes entry).length)) := by
  have unread : ¬reader.atEnd = true := by
    have := fieldBytes_length_pos writable
    rw [here.atEnd_iff, List.isEmpty_iff, append_eq_nil_iff, ← length_eq_zero_iff]
    omega
  obtain ⟨number, value⟩ := entry
  obtain ⟨small, writable⟩ := writable
  rw [Reader.field, if_neg unread]
  cases value with
  | varint value =>
    simp only [fieldBytes, varintField, append_assoc] at here
    have key := varint_write here (by omega)
    have read := varint_write here.advance writable
    rw [key]
    change ((reader.advance _).value (number * 8 % 8)).map _ = _
    rw [Nat.mul_mod_left, Reader.value, read]
    simp [Except.map, fieldBytes, varintField, advance_advance]
  | bytes payload =>
    simp only [fieldBytes, bytesField, append_assoc] at here
    have short : payload.length < 2 ^ 64 := by
      have := here.total
      have := here.1
      simp only [length_append] at *
      omega
    have key := varint_write here (by omega)
    have length := varint_write here.advance short
    have read := take_write here.advance.advance
    have wire : (number * 8 + 2) % 8 = 2 := by omega
    have named : (number * 8 + 2) / 8 = number := by omega
    rw [key]
    change ((reader.advance _).value ((number * 8 + 2) % 8)).map _ = _
    rw [wire, Reader.value, length]
    change (((Reader.advance _ _).take payload.length).map _).map _ = _
    rw [read]
    simp [Except.map, fieldBytes, bytesField, advance_advance, named, add_assoc]
  | fixed => exact absurd writable id

variable {entries : List (Nat × Value)}

theorem readFrom_write (step : State → Nat × Value → Except Failure State)
    (writable : ∀ entry ∈ entries, Writable entry) {fuel : Nat}
    (enough : entries.length < fuel)
    (here : Rest reader (entries.flatMap fieldBytes)) (state : State) :
    readFrom step fuel reader state = entries.foldlM step state := by
  induction entries generalizing fuel reader state with
  | nil =>
    obtain ⟨fuel, rfl⟩ := Nat.exists_eq_succ_of_ne_zero (ne_of_gt enough)
    rw [readFrom, Reader.field, here.atEnd_iff]
    rfl
  | cons entry entries ih =>
    obtain ⟨fuel, rfl⟩ := Nat.exists_eq_succ_of_ne_zero (ne_of_gt (Nat.zero_lt_of_lt enough))
    rw [flatMap_cons] at here
    rw [readFrom, Reader.field_write here (writable entry mem_cons_self), foldlM_cons]
    change (step state entry >>= fun next => readFrom step fuel _ next) = _
    congr 1
    funext next
    exact ih (fun other mem => writable other (mem_cons_of_mem _ mem))
      (Nat.lt_of_succ_lt_succ enough) here.advance next

theorem length_le_flatMap (writable : ∀ entry ∈ entries, Writable entry) :
    entries.length ≤ (entries.flatMap fieldBytes).length := by
  induction entries with
  | nil => exact Nat.zero_le _
  | cons entry entries ih =>
    have := fieldBytes_length_pos (writable entry mem_cons_self)
    have := ih fun other mem => writable other (mem_cons_of_mem _ mem)
    rw [flatMap_cons, length_append, length_cons]
    omega

theorem readFields_write (step : State → Nat × Value → Except Failure State)
    (writable : ∀ entry ∈ entries, Writable entry)
    (short : (entries.flatMap fieldBytes).length < 2 ^ 64) (state : State) :
    readFields step (entries.flatMap fieldBytes) state = entries.foldlM step state :=
  readFrom_write step writable (Nat.lt_succ_of_le (length_le_flatMap writable))
    (rest_ofBytes short) state

theorem readPackedFrom_write {values : List Nat} (small : ∀ value ∈ values, value < 2 ^ 64)
    {fuel : Nat} (enough : values.length < fuel)
    (here : Rest reader (values.flatMap varintBytes)) (before : List Nat) :
    readPackedFrom fuel reader before = .ok (before ++ values) := by
  induction values generalizing fuel reader before with
  | nil =>
    obtain ⟨fuel, rfl⟩ := Nat.exists_eq_succ_of_ne_zero (ne_of_gt enough)
    rw [readPackedFrom, here.atEnd_iff]
    simp
  | cons value values ih =>
    obtain ⟨fuel, rfl⟩ := Nat.exists_eq_succ_of_ne_zero (ne_of_gt (Nat.zero_lt_of_lt enough))
    rw [flatMap_cons] at here
    have unread : ¬reader.atEnd = true := by
      have := varintBytes_length_pos value
      rw [here.atEnd_iff, List.isEmpty_iff, append_eq_nil_iff, ← length_eq_zero_iff]
      omega
    rw [readPackedFrom, if_neg unread, Reader.varint_write here (small value mem_cons_self)]
    change readPackedFrom fuel _ (before ++ [value]) = _
    rw [ih (fun other mem => small other (mem_cons_of_mem _ mem))
      (Nat.lt_of_succ_lt_succ enough) here.advance, append_assoc, singleton_append]

theorem length_le_flatMap_varintBytes (values : List Nat) :
    values.length ≤ (values.flatMap varintBytes).length := by
  induction values with
  | nil => exact Nat.zero_le _
  | cons value values ih =>
    have := varintBytes_length_pos value
    rw [flatMap_cons, length_append, length_cons]
    omega

theorem readPacked_write {values : List Nat} (small : ∀ value ∈ values, value < 2 ^ 64)
    (short : (values.flatMap varintBytes).length < 2 ^ 64) :
    readPacked (values.flatMap varintBytes) = .ok values :=
  readPackedFrom_write small (Nat.lt_succ_of_le (length_le_flatMap_varintBytes values))
    (rest_ofBytes short) []

theorem foldlM_append_ok {state next : State}
    {first : List (Nat × Value)} (ran : first.foldlM step state = .ok next)
    (second : List (Nat × Value)) :
    (first ++ second).foldlM step state = second.foldlM step next := by
  rw [foldlM_append, ran]
  rfl

theorem foldlM_cons_ok {state next : State}
    {entry : Nat × Value} (ran : step state entry = .ok next) (entries : List (Nat × Value)) :
    (entry :: entries).foldlM step state = entries.foldlM step next := by
  rw [foldlM_cons, ran]
  rfl

/-- A byte string is shorter than the message that holds it. -/
theorem payload_short {number : Nat} {payload : Bytes} (mem : (number, .bytes payload) ∈ entries) :
    payload.length < (entries.flatMap fieldBytes).length := by
  obtain ⟨before, after, rfl⟩ := append_of_mem mem
  have := varintBytes_length_pos (number * 8 + 2)
  simp only [flatMap_append, flatMap_cons, length_append, fieldBytes, bytesField]
  omega

end Codegraph.Library.Wire
