import Codegraph.Output.Fitted

namespace Codegraph.Output

open List Option

/-- The fields of an object. -/
abbrev Fields := List (String × Json)

def matchesOf (payload : Fields) : List Json := ((getField payload "matches").bind Json.asArray).getD []

def setMatches (payload : Fields) (items : List Json) : Fields :=
  setField payload "matches" (.array items)

/-- Something was left out. -/
def flag (payload : Fields) : Fields := setField payload "truncated" (.bool true)

def payloadLen (payload : Fields) : Nat := (Json.object payload).len

def withoutCode (detail : Fields) : Fields :=
  removeField (removeField (removeField (removeField detail "code") "codeStartLine")
    "codeEndLine") "outline"

/-- The code and the outline are dropped; the second part tells whether there was one. -/
def withholdCode (detail : Json) : Json × Bool :=
  match detail with
  | .object fields =>
    let had := (getField fields "code").isSome || (getField fields "outline").isSome
    let bare := withoutCode fields
    (.object (if had then setField bare "codeTruncated" (.bool true) else bare), had)
  | other => (other, false)

/-- The second part tells whether the match had something to withhold. -/
def withholdMatch (payload : Fields) (index : Nat) : Fields × Bool :=
  match (matchesOf payload)[index]? with
  | some detail =>
    let (bare, had) := withholdCode detail
    (setMatches payload ((matchesOf payload).set index bare), had)
  | none => (payload, false)

/-- The trailing matches from the given one down to the second lose their code while the payload is
too long. -/
def withholdTrailing (budget : Nat) : Nat → Fields → Fields
  | 0, payload => payload
  | index + 1, payload =>
    if payloadLen payload ≤ budget then payload
    else
      let (bare, had) := withholdMatch payload (index + 1)
      withholdTrailing budget index (if had then flag bare else bare)

/-- The escaped length of a line without its quotes, plus the joint. -/
def lineCost (line : List Char) : Nat := stringLen (String.ofList line) - 2 + 2

/-- The leading lines whose cost stays in the spare room. -/
def keptLines (spare : Nat) : Nat → List (List Char) → List (List Char)
  | _, [] => []
  | used, line :: rest =>
    if spare < used + lineCost line then []
    else line :: keptLines spare (used + lineCost line) rest

def codeLines (code : String) : List (List Char) := code.toList.splitOn '\n'

def joinLines (lines : List (List Char)) : String := String.ofList (['\n'].intercalate lines)

/-- The line where the code of a match starts. -/
def codeStart (detail : Json) : Nat :=
  (((detail.index "codeStartLine").asU64).orElse fun _ => (detail.index "line").asU64).getD 1

/-- The kept lines come back with the range they cover. -/
def restoreCode (detail : Json) (start : Nat) (kept : List (List Char)) : Json :=
  match detail with
  | .object fields =>
    .object (setField (setField (setField fields "code" (.string (joinLines kept)))
      "codeStartLine" (.number start)) "codeEndLine" (.number (start + kept.length - 1)))
  | other => other

/-- The room for the code next to the rest of the payload and two line fields. -/
def spareRoom (payload : Fields) (budget : Nat) : Nat := budget - (payloadLen payload + 64)

/-- As many whole leading lines of the first match's code as fit stay; the second part tells whether
the match changed. -/
def clipCode (payload : Fields) (budget : Nat) : Fields × Bool :=
  match matchesOf payload with
  | [] => (payload, false)
  | detail :: _ =>
    match (detail.index "code").asString with
    | none => withholdMatch payload 0
    | some code =>
      let bare := (withholdMatch payload 0).1
      let kept := keptLines (spareRoom bare budget) 0 (codeLines code)
      if kept = [] then (bare, true)
      else
        (setMatches bare ((matchesOf bare).modifyHead
          fun detail' => restoreCode detail' (codeStart detail) kept), true)

/-- The last match goes while the payload is too long and has another one; the fuel is the number of
matches. -/
def dropTrailing (budget : Nat) : Nat → Fields → Fields
  | 0, payload => payload
  | fuel + 1, payload =>
    if budget < payloadLen payload ∧ 1 < (matchesOf payload).length then
      dropTrailing budget fuel (flag (setMatches payload (matchesOf payload).dropLast))
    else payload

def fitFields (payload : Fields) (budget : Nat) : Fields :=
  let count := (matchesOf payload).length
  let bare := withholdTrailing budget (count - 1) payload
  if payloadLen bare ≤ budget ∨ count = 0 then bare
  else
    let (clipped, changed) := clipCode bare budget
    dropTrailing budget count (if changed then flag clipped else clipped)

/-- A payload without fields has no matches. -/
def fitNodePayload (payload : Json) (budget : Nat) : Json :=
  match payload with
  | .object fields => .object (fitFields fields budget)
  | other => other

/-- A payload with some matches, flagged or not. -/
def payloadWith (payload : Fields) (flagged : Bool) (items : List Json) : Fields :=
  if flagged then flag (setMatches payload items) else setMatches payload items

/-- A match without code and outline and with its flag set. -/
def bareMatch (detail : Json) : Json :=
  match detail with
  | .object fields => .object (setField (withoutCode fields) "codeTruncated" (.bool true))
  | other => other

/-- A symbol's match has a name, a kind and two lines; its code is a text and comes with its range,
and its lines have numbers of 64 bits. -/
structure NodeDetail (detail : Json) : Prop where
  object : detail.IsObject
  name : ∃ text, detail.get "name" = some (.string text)
  kind : ∃ text, detail.get "kind" = some (.string text)
  line : ∃ number, detail.get "line" = some (.number number)
  endLine : ∃ number, detail.get "endLine" = some (.number number)
  code : ∀ value, detail.get "code" = some value → ∃ text, value = .string text
  ranges : detail.get "code" = none → detail.get "codeStartLine" = none ∧ detail.get "codeEndLine" = none
  codeTruncated : detail.get "codeTruncated" = none ∨ detail.get "codeTruncated" = some (.bool true)
  numbers : ∀ text, detail.get "code" = some (.string text) →
    codeStart detail + (codeLines text).length < 2 ^ 64

/-- A payload of the symbol mode lists its matches and may be flagged. -/
structure NodePayload (payload : Fields) (items : List Json) : Prop where
  listed : getField payload "matches" = some (.array items)
  details : ∀ detail ∈ items, NodeDetail detail
  truncated : getField payload "truncated" = none ∨ getField payload "truncated" = some (.bool true)

/-- The first match alone, without code or outline, with all flags set. -/
def reduced (payload : Fields) (items : List Json) : Fields :=
  payloadWith payload true ((items.take 1).map bareMatch)

/-- The bytes a new flag takes. -/
def flagLen (payload : Fields) : Nat := if getField payload "truncated" = none then 17 else 0

section PayloadWith

variable {payload : Fields} {items old : List Json} {flagged : Bool}

theorem payloadWith_self (listed : getField payload "matches" = some (.array old)) :
    payloadWith payload false old = payload :=
  setField_eq_of_getField listed

@[simp] theorem getField_payloadWith (key : String) : getField (payloadWith payload flagged items) key =
      if flagged ∧ key = "truncated" then some (.bool true)
      else if key = "matches" then some (.array items) else getField payload key := by
  unfold payloadWith
  cases flagged with
  | false => simp [setMatches]
  | true => simp [flag, setMatches]

@[simp] theorem matchesOf_payloadWith : matchesOf (payloadWith payload flagged items) = items := by
  simp [matchesOf, Json.asArray]

@[simp] theorem setMatches_payloadWith (items' : List Json) :
    setMatches (payloadWith payload flagged items) items' = payloadWith payload flagged items' := by
  have again : setMatches (setMatches payload items) items' = setMatches payload items' :=
    setField_setField _
  unfold payloadWith
  cases flagged with
  | false => simpa using again
  | true =>
    have found : getField (setMatches payload items) "matches" = some (.array items) := by
      simp [setMatches]
    have swapped : setMatches (flag (setMatches payload items)) items' =
        flag (setMatches (setMatches payload items) items') :=
      setField_comm (by decide) found _
    simp [swapped, again]

@[simp] theorem flag_payloadWith :
    flag (payloadWith payload flagged items) = payloadWith payload true items := by
  unfold payloadWith
  cases flagged with
  | false => simp
  | true =>
    have again : flag (flag (setMatches payload items)) = flag (setMatches payload items) :=
      setField_setField _
    simpa using again

theorem payloadLen_payloadWith (listed : getField payload "matches" = some (.array old))
    (truncated : getField payload "truncated" = none ∨ getField payload "truncated" = some (.bool true)) :
    payloadLen (payloadWith payload flagged items) + (Json.array old).len =
      payloadLen payload + (Json.array items).len + if flagged then flagLen payload else 0 := by
  have replaced : payloadLen (setMatches payload items) + (Json.array old).len =
      payloadLen payload + (Json.array items).len :=
    objectLen_setField_present listed
  unfold payloadWith
  cases flagged with
  | false => simpa using replaced
  | true =>
    have same : getField (setMatches payload items) "truncated" = getField payload "truncated" := by
      simp [setMatches]
    have flagged : payloadLen (flag (setMatches payload items)) =
        payloadLen (setMatches payload items) + flagLen payload := by
      unfold flagLen
      rcases truncated with absent | present
      · rw [if_pos absent]
        exact objectLen_setField_absent (same.trans absent) setField_ne_nil
      have kept : flag (setMatches payload items) = setMatches payload items :=
        setField_eq_of_getField (same.trans present)
      rw [kept, present]
      rfl
    simp only [if_true, flagged]
    omega

end PayloadWith

section Details

variable {detail : Json} {fields : Fields} {value : Json}

@[simp] theorem getField_withoutCode (key : String) : getField (withoutCode fields) key =
      if key = "outline" ∨ key = "codeEndLine" ∨ key = "codeStartLine" ∨ key = "code" then none
      else getField fields key := by
  simp only [withoutCode, getField_removeField]
  split_ifs <;> simp_all

/-- The keys that a cut may change. -/
def codeKeys : List String := ["code", "codeStartLine", "codeEndLine", "outline", "codeTruncated"]

/-- The code is cut after whole lines, and its range names these lines. -/
def Cut (before after : Json) : Prop :=
  ∃ text count, before.get "code" = some (.string text) ∧ 0 < count ∧ count ≤ (codeLines text).length ∧
    after.get "code" = some (.string (joinLines ((codeLines text).take count))) ∧
    after.get "codeStartLine" = some (.number (codeStart before)) ∧
    after.get "codeEndLine" = some (.number (codeStart before + count - 1))

/-- A match stays as it is, or its code is withheld or cut, which is flagged. -/
structure Kept (before after : Json) : Prop where
  others : ∀ key, key ∉ codeKeys → after.get key = before.get key
  code : after = before ∨
    (after.get "code" = none ∨ Cut before after) ∧ after.get "codeTruncated" = some (.bool true)

theorem Kept.refl (detail : Json) : Kept detail detail := ⟨fun _ _ => rfl, .inl rfl⟩

theorem withholdCode_kept (object : detail.IsObject) (had : (withholdCode detail).2 = true) :
    Kept detail (withholdCode detail).1 ∧ (withholdCode detail).1 = bareMatch detail := by
  obtain ⟨fields, rfl⟩ := object
  have found : ((getField fields "code").isSome || (getField fields "outline").isSome) = true := had
  have bare : (withholdCode (.object fields)).1 = bareMatch (.object fields) := by
    simp only [withholdCode, found, if_true, bareMatch]
  refine ⟨⟨?_, .inr ⟨.inl ?_, ?_⟩⟩, bare⟩
  · intro key other
    simp only [codeKeys, mem_cons, not_mem_nil, or_false, not_or] at other
    rw [bare]
    simp [bareMatch, Json.get, other]
  · rw [bare]
    simp [bareMatch, Json.get]
  · rw [bare]
    simp [bareMatch, Json.get]

theorem withholdCode_unchanged (node : NodeDetail detail) (had : (withholdCode detail).2 = false) :
    (withholdCode detail).1 = detail := by
  obtain ⟨fields, rfl⟩ := node.object
  have found : ((getField fields "code").isSome || (getField fields "outline").isSome) = false := had
  obtain ⟨noCode, noOutline⟩ := Bool.or_eq_false_iff.mp found
  rw [isSome_eq_false_iff, isNone_iff_eq_none] at noCode noOutline
  obtain ⟨noStart, noEnd⟩ := node.ranges noCode
  have removed : withoutCode fields = fields := by
    have start : getField fields "codeStartLine" = none := noStart
    have last : getField fields "codeEndLine" = none := noEnd
    rw [withoutCode, removeField_eq_of_absent noCode, removeField_eq_of_absent start,
      removeField_eq_of_absent last, removeField_eq_of_absent noOutline]
  simp only [withholdCode, found, removed]
  rfl

theorem withholdCode_spec (node : NodeDetail detail) : Kept detail (withholdCode detail).1 := by
  cases had : (withholdCode detail).2 with
  | false =>
    rw [withholdCode_unchanged node had]
    exact Kept.refl detail
  | true => exact (withholdCode_kept node.object had).1

/-- The flag of a match adds to its length. -/
theorem len_withholdCode_le (node : NodeDetail detail) :
    (withholdCode detail).1.len ≤ (bareMatch detail).len := by
  cases had : (withholdCode detail).2 with
  | true => rw [(withholdCode_kept node.object had).2]
  | false =>
    have same := withholdCode_unchanged node had
    obtain ⟨fields, rfl⟩ := node.object
    have removed : withoutCode fields = fields := by
      have found : ((getField fields "code").isSome ||
        (getField fields "outline").isSome) = false := had
      have parts : Json.object (withoutCode fields) = Json.object fields := by
        rw [← same]
        simp only [withholdCode, found]
        rfl
      exact Json.object.inj parts
    rw [same]
    simp only [bareMatch, removed]
    rcases node.codeTruncated with absent | present
    · have nonempty : fields ≠ [] := by
        obtain ⟨text, found⟩ := node.name
        rintro rfl
        contradiction
      rw [objectLen_setField_absent absent nonempty]
      omega
    · rw [setField_eq_of_getField present]

/-- A match has at least its name, its kind and its lines. -/
theorem NodeDetail.len_ge {before after : Json} (node : NodeDetail before)
    (kept : Kept before after) (object : after.IsObject) : 39 ≤ after.len := by
  obtain ⟨fields, rfl⟩ := object
  obtain ⟨name, named⟩ := node.name
  obtain ⟨kind, kinded⟩ := node.kind
  obtain ⟨line, lined⟩ := node.line
  obtain ⟨last, ended⟩ := node.endLine
  rw [← kept.others _ (by decide)] at named kinded lined ended
  have first := fieldsLen_removeField_le named
  have second := @fieldsLen_removeField_le (removeField fields "name") "kind" (.string kind)
    (by simpa using kinded)
  have third := @fieldsLen_removeField_le (removeField (removeField fields "name") "kind") "line"
    (.number line) (by simpa using lined)
  have fourth := @fieldsLen_removeField_le
    (removeField (removeField (removeField fields "name") "kind") "line") "endLine"
    (.number last) (by simpa using ended)
  have digits (number : Nat) : 0 < decimalLen number := by exact Nat.length_toDigits_pos
  have keys : stringLen "name" = 6 ∧ stringLen "kind" = 6 ∧ stringLen "line" = 6 ∧
      stringLen "endLine" = 9 := by decide
  have lineDigits := digits line
  have lastDigits := digits last
  simp only [fieldLen, Json.len, keys] at first second third fourth
  unfold stringLen at first second
  simp only [Json.len]
  omega

end Details

section Lines

variable {room used count : Nat} {lines : List (List Char)}

def linesCost (lines : List (List Char)) : Nat := (lines.map lineCost).sum

/-- The count of leading lines is the largest whose cost fits the room. -/
def Largest (room : Nat) (lines : List (List Char)) (count : Nat) : Prop :=
  count ≤ lines.length ∧ linesCost (lines.take count) ≤ room ∧
    ∀ more ≤ lines.length, linesCost (lines.take more) ≤ room → more ≤ count

theorem lineCost_eq (line : List Char) : lineCost line = escapedLen line + 2 := by
  rw [lineCost, stringLen, String.toList_ofList, Nat.add_sub_cancel]

theorem keptLines_largest (small : used ≤ room) :
    ∃ count, keptLines room used lines = lines.take count ∧ Largest (room - used) lines count := by
  induction lines generalizing used with
  | nil =>
    refine ⟨0, rfl, le_refl _, Nat.zero_le _, ?_⟩
    intro more few _
    simpa using few
  | cons line rest ih =>
    unfold keptLines
    by_cases large : room < used + lineCost line
    · rw [if_pos large]
      refine ⟨0, rfl, Nat.zero_le _, Nat.zero_le _, ?_⟩
      intro more _ fits
      cases more with
      | zero => exact le_refl _
      | succ more =>
        simp only [linesCost, take_succ_cons, map_cons, sum_cons] at fits
        omega
    rw [if_neg large]
    obtain ⟨count, kept, few, fits, largest⟩ := ih (Nat.le_of_not_lt large)
    refine ⟨count + 1, by rw [kept, take_succ_cons], ?_, ?_, ?_⟩
    · simpa using few
    · simp only [linesCost, take_succ_cons, map_cons, sum_cons] at fits ⊢
      omega
    intro more few' fits'
    cases more with
    | zero => exact Nat.zero_le _
    | succ more =>
      have short : more ≤ rest.length := by simpa using few'
      have cost : linesCost (rest.take more) ≤ room - (used + lineCost line) := by
        simp only [linesCost, take_succ_cons, map_cons, sum_cons]
          at fits' ⊢
        omega
      have bound := largest more short cost
      omega

theorem Largest.unique {count' : Nat} (first : Largest room lines count)
    (second : Largest room lines count') : count = count' :=
  Nat.le_antisymm (second.2.2 count first.1 first.2.1) (first.2.2 count' second.1 second.2.1)

theorem linesCost_pos (positive : 0 < count) (few : count ≤ lines.length) :
    0 < linesCost (lines.take count) := by
  cases lines with
  | nil =>
    rw [length_nil] at few
    omega
  | cons line rest =>
    obtain ⟨count, rfl⟩ := Nat.exists_eq_succ_of_ne_zero (Nat.ne_of_gt positive)
    simp only [linesCost, take_succ_cons, map_cons, sum_cons, lineCost_eq]
    omega

theorem stringLen_joinLines (nonempty : lines ≠ []) : stringLen (joinLines lines) = linesCost lines := by
  have joined (first : List Char) (rest : List (List Char)) :
      escapedLen (['\n'].intercalate (first :: rest)) + 2 = linesCost (first :: rest) := by
    induction rest generalizing first with
    | nil => simp [linesCost, lineCost_eq]
    | cons second rest ih =>
      have newline : escapedLen ['\n'] = 2 := by decide
      rw [intercalate_cons_cons, escapedLen_append, escapedLen_append, newline]
      have tail := ih second
      simp only [linesCost, map_cons, sum_cons, lineCost_eq] at tail ⊢
      omega
  obtain ⟨first, rest, rfl⟩ := exists_cons_of_ne_nil nonempty
  rw [stringLen, joinLines, String.toList_ofList]
  exact joined first rest

theorem len_restoreCode {fields : Fields} (nonempty : fields ≠ [])
    (noCode : getField fields "code" = none) (noStart : getField fields "codeStartLine" = none)
    (noEnd : getField fields "codeEndLine" = none) (start : Nat) (some : lines ≠ []) :
    (restoreCode (.object fields) start lines).len = (Json.object fields).len + linesCost lines +
      40 + decimalLen start + decimalLen (start + lines.length - 1) := by
  have keys : stringLen "code" = 6 ∧ stringLen "codeStartLine" = 15 ∧
      stringLen "codeEndLine" = 13 := by decide
  unfold restoreCode
  simp only
  rw [objectLen_setField_absent (by simpa using noEnd) setField_ne_nil,
    objectLen_setField_absent (by simpa using noStart) setField_ne_nil,
    objectLen_setField_absent noCode nonempty]
  simp only [fieldLen, Json.len, keys, stringLen_joinLines some]
  omega

end Lines

section Fitting

variable {payload : Fields} {items current : List Json} {flagged : Bool} {budget : Nat}

/-- A match after some cuts is an object with the other fields of the input's match. -/
def Reduced (before after : Json) : Prop := Kept before after ∧ after.IsObject

theorem withholdCode_reduced {detail : Json} (node : NodeDetail detail) :
    Reduced detail (withholdCode detail).1 := by
  refine ⟨withholdCode_spec node, ?_⟩
  obtain ⟨fields, rfl⟩ := node.object
  exact ⟨_, rfl⟩

theorem forall₂_set {index : Nat} {before after : Json}
    (reduced : List.Forall₂ Reduced items current) (found : items[index]? = some before)
    (now : Reduced before after) : List.Forall₂ Reduced items (current.set index after) := by
  induction reduced generalizing index with
  | nil => contradiction
  | @cons head head' rest rest' one others ih =>
    cases index with
    | zero =>
      obtain rfl := some.inj found
      exact List.Forall₂.cons now others
    | succ index => exact List.Forall₂.cons one (ih found)

theorem reduced_details (details : ∀ detail ∈ items, NodeDetail detail) :
    List.Forall₂ Reduced items items := by
  rw [forall₂_same]
  intro detail mem
  exact ⟨Kept.refl detail, (details detail mem).object⟩

/-- One match is withheld and the others stay. -/
theorem withholdMatch_payloadWith {index : Nat} {detail : Json} (found : current[index]? = some detail) :
    withholdMatch (payloadWith payload flagged current) index =
      (payloadWith payload flagged (current.set index (withholdCode detail).1),
        (withholdCode detail).2) := by
  simp only [withholdMatch, matchesOf_payloadWith, found, setMatches_payloadWith]

/-- What the cuts did so far: each match is reduced, and a change is flagged. -/
structure Cuts (items after : List Json) (flagged : Bool) : Prop where
  reduced : List.Forall₂ Reduced items after
  same : (after = items ∧ flagged = false) ∨ flagged = true

/-- A match that is the input's own one is withheld, which is flagged if it had something. -/
theorem Cuts.withhold {index : Nat} {detail : Json} (cuts : Cuts items current flagged)
    (found : items[index]? = some detail) (own : current[index]? = some detail)
    (node : NodeDetail detail) :
    Cuts items (current.set index (withholdCode detail).1)
      ((withholdCode detail).2 || flagged) := by
  refine ⟨forall₂_set cuts.reduced found (withholdCode_reduced node), ?_⟩
  cases had : (withholdCode detail).2 with
  | true => exact .inr rfl
  | false =>
    rw [withholdCode_unchanged node had]
    have kept : current.set index detail = current := by
      obtain ⟨below, rfl⟩ := List.getElem?_eq_some_iff.mp own
      exact set_getElem_self below
    rw [kept]
    exact cuts.same

/-- The matches up to the index are still the input's own ones, so each is withheld once. -/
theorem withholdTrailing_spec (details : ∀ detail ∈ items, NodeDetail detail) {index : Nat}
    (inRange : index < items.length ∨ index = 0) (cuts : Cuts items current flagged)
    (own : ∀ position ≤ index, current[position]? = items[position]?) :
    ∃ after flagged', withholdTrailing budget index (payloadWith payload flagged current) =
        payloadWith payload flagged' after ∧ Cuts items after flagged' ∧ after[0]? = items[0]? := by
  induction index generalizing current flagged with
  | zero => exact ⟨current, flagged, rfl, cuts, own 0 (le_refl _)⟩
  | succ index ih =>
    unfold withholdTrailing
    split
    · exact ⟨current, flagged, rfl, cuts, own 0 (Nat.zero_le _)⟩
    have below : index + 1 < items.length := by omega
    have found := getElem?_eq_getElem below
    have here := (own _ (le_refl _)).trans found
    rw [withholdMatch_payloadWith here]
    have next := cuts.withhold found here (details _ (getElem_mem below))
    have own' (position : Nat) (low : position ≤ index) :
        (current.set (index + 1) (withholdCode items[index + 1]).1)[position]? = items[position]? := by
      rw [getElem?_set_ne (by omega), own position (by omega)]
    obtain ⟨after, flagged', ran, result⟩ := ih (.inl (by omega)) next own'
    refine ⟨after, flagged', ?_, result⟩
    rw [← ran]
    cases (withholdCode items[index + 1]).2 <;> simp

theorem dropTrailing_spec {fuel : Nat} (nonempty : 0 < current.length) (enough : current.length ≤ fuel) :
    ∃ count flagged', dropTrailing budget fuel (payloadWith payload flagged current) =
        payloadWith payload flagged' (current.take count) ∧
      0 < count ∧ count ≤ current.length ∧
      (payloadLen (payloadWith payload flagged' (current.take count)) ≤ budget ∨ count = 1) ∧
      ((count = current.length ∧ flagged' = flagged) ∨ (count < current.length ∧ flagged' = true)) := by
  induction fuel generalizing current flagged with
  | zero => omega
  | succ fuel ih =>
    rw [dropTrailing, matchesOf_payloadWith]
    split
    · rename_i more
      have shorter : current.dropLast.length = current.length - 1 := length_dropLast
      simp only [setMatches_payloadWith, flag_payloadWith]
      obtain ⟨count, flagged', ran, positive, few, ends, same⟩ := @ih current.dropLast true
        (by omega) (by omega)
      have taken : current.dropLast.take count = current.take count := by
        rw [dropLast_eq_take, take_take, min_eq_left (by omega)]
      rw [taken] at ran ends
      refine ⟨count, flagged', ran, positive, by omega, ends, .inr ⟨by omega, ?_⟩⟩
      rcases same with ⟨_, same⟩ | ⟨_, same⟩ <;> exact same
    rename_i done
    refine ⟨current.length, flagged, ?_, nonempty, le_refl _, ?_, .inl ⟨rfl, rfl⟩⟩
    · rw [take_length]
    · rw [take_length]
      omega

end Fitting

section Clipping

variable {payload : Fields} {items rest old : List Json} {first : Json} {text : String}
variable {flagged : Bool} {budget count : Nat}

theorem clipCode_without (node : NodeDetail first) (noCode : first.get "code" = none) :
    clipCode (payloadWith payload flagged (first :: rest)) budget =
      (payloadWith payload flagged ((withholdCode first).1 :: rest), (withholdCode first).2) := by
  have found : (first :: rest)[0]? = some first := rfl
  simp only [clipCode, matchesOf_payloadWith, Json.index, noCode, getD_none, Json.asString]
  rw [withholdMatch_payloadWith found]
  rfl

theorem withholdCode_code (object : first.IsObject) (code : first.get "code" = some (.string text)) :
    withholdCode first = (bareMatch first, true) := by
  have had : (withholdCode first).2 = true := by
    obtain ⟨fields, rfl⟩ := object
    rw [Json.get_object] at code
    simp [withholdCode, code]
  exact Prod.ext (withholdCode_kept object had).2 had

/-- The first match with the given number of its code lines. -/
def clipped (first : Json) (text : String) (count : Nat) : Json :=
  if count = 0 then bareMatch first
  else restoreCode (bareMatch first) (codeStart first) ((codeLines text).take count)

theorem clipCode_code (node : NodeDetail first) (code : first.get "code" = some (.string text))
    (largest : Largest (spareRoom (payloadWith payload flagged (bareMatch first :: rest)) budget)
      (codeLines text) count) :
    clipCode (payloadWith payload flagged (first :: rest)) budget =
      (payloadWith payload flagged (clipped first text count :: rest), true) := by
  have found : (first :: rest)[0]? = some first := rfl
  obtain ⟨count', kept, largest'⟩ := @keptLines_largest
    (spareRoom (payloadWith payload flagged (bareMatch first :: rest)) budget) 0
    (codeLines text) (Nat.zero_le _)
  rw [Nat.sub_zero] at largest'
  obtain rfl := largest.unique largest'
  simp only [clipCode, matchesOf_payloadWith, Json.index, code, getD_some, Json.asString]
  rw [withholdMatch_payloadWith found, withholdCode_code node.object code]
  simp only [set_cons_zero, matchesOf_payloadWith, setMatches_payloadWith, kept]
  unfold clipped
  have nonempty : codeLines text ≠ [] := splitOn_ne_nil _ _
  by_cases none : count = 0
  · simp [none]
  have some : (codeLines text).take count ≠ [] := by simpa [none] using nonempty
  rw [if_neg some, if_neg none]
  rfl

theorem clipped_reduced (node : NodeDetail first) (code : first.get "code" = some (.string text))
    (few : count ≤ (codeLines text).length) : Reduced first (clipped first text count) := by
  have bare := withholdCode_reduced node
  rw [withholdCode_code node.object code] at bare
  unfold clipped
  split
  · exact bare
  rename_i some
  obtain ⟨fields, rfl⟩ := node.object
  refine ⟨⟨?_, .inr ⟨.inr ⟨text, count, code, pos_of_ne_zero some, few, ?_, ?_, ?_⟩, ?_⟩⟩, ⟨_, rfl⟩⟩
  · intro key other
    rw [← bare.1.others key other]
    simp only [codeKeys, mem_cons, not_mem_nil, or_false, not_or] at other
    simp [restoreCode, bareMatch, other]
  · simp [restoreCode, bareMatch]
  · simp [restoreCode, bareMatch]
  · simp [restoreCode, bareMatch, min_eq_left few]
  · simp [restoreCode, bareMatch]

theorem len_clipped (object : first.IsObject) (positive : 0 < count) (few : count ≤ (codeLines text).length) :
    (clipped first text count).len = (bareMatch first).len +
      linesCost ((codeLines text).take count) + 40 + decimalLen (codeStart first) +
      decimalLen (codeStart first + count - 1) := by
  obtain ⟨fields, rfl⟩ := object
  have nonempty : (codeLines text).take count ≠ [] := by
    intro empty
    have length := congrArg List.length empty
    rw [length_take, min_eq_left few] at length
    simp only [length_nil] at length
    omega
  rw [clipped, if_neg (by omega)]
  have length := @len_restoreCode ((codeLines text).take count)
    (setField (withoutCode fields) "codeTruncated" (.bool true)) setField_ne_nil (by simp)
    (by simp) (by simp) (codeStart (.object fields)) nonempty
  rwa [length_take, min_eq_left few] at length

end Clipping

section Bounded

variable {payload : Fields} {items : List Json} {budget : Nat}

/-- The payload fits the budget; it has a prefix of the matches, each as it was or cut after whole
lines, all other fields, and its flag if anything changed. -/
def Bounded (payload : Fields) (items : List Json) (budget : Nat) : Prop :=
  ∃ after kept, fitNodePayload (.object payload) budget = .object after ∧ payloadLen after ≤ budget ∧
    getField after "matches" = some (.array kept) ∧ kept.length ≤ items.length ∧
    List.Forall₂ Kept (items.take kept.length) kept ∧
    (∀ key, key ≠ "matches" → key ≠ "truncated" → getField after key = getField payload key) ∧
    (after = payload ∨ getField after "truncated" = some (.bool true))

/-- The digits of the range of the only match and a new flag fit the reserve and the room that the
kept lines leave. -/
def RangeFits (payload : Fields) (items : List Json) (budget : Nat) : Prop :=
  ∀ detail text count, items = [detail] → budget < payloadLen payload →
    detail.get "code" = some (.string text) →
    Largest (spareRoom (setMatches payload [bareMatch detail]) budget) (codeLines text) count →
    0 < count →
      decimalLen (codeStart detail) + decimalLen (codeStart detail + count - 1) + flagLen payload ≤
        24 + (spareRoom (setMatches payload [bareMatch detail]) budget -
          linesCost ((codeLines text).take count))

theorem bounded_of_cuts {current : List Json} {flagged : Bool} {count : Nat}
    (node : NodePayload payload items)
    (ran : fitFields payload budget = payloadWith payload flagged (current.take count))
    (reduced : List.Forall₂ Reduced items current) (few : count ≤ current.length)
    (same : (current.take count = items ∧ flagged = false) ∨ flagged = true) :
    Bounded payload items budget ↔
      payloadLen (payloadWith payload flagged (current.take count)) ≤ budget := by
  have length : (current.take count).length = count := by rw [length_take, min_eq_left few]
  constructor
  · rintro ⟨after, kept, fitted, fits, -⟩
    simp only [fitNodePayload, ran] at fitted
    rwa [Json.object.inj fitted]
  intro fits
  refine ⟨_, current.take count, congrArg Json.object ran, fits, ?_, ?_, ?_, ?_, ?_⟩
  · simp
  · rwa [length, reduced.length_eq]
  · rw [length]
    exact (forall₂_take count reduced).imp fun _ _ both => both.1
  · intro key other other'
    simp [other, other']
  · rcases same with ⟨same, rfl⟩ | rfl
    · left
      rw [same]
      exact payloadWith_self node.listed
    · right
      simp

end Bounded

section Fits

variable {payload : Fields} {first head : Json} {others : List Json} {budget : Nat}

section

variable (node : NodePayload payload (first :: others))
include node

theorem alone_fits (admits : payloadLen (reduced payload (first :: others)) ≤ budget)
    (short : head.len ≤ (bareMatch first).len) (flagged : Bool) :
    payloadLen (payloadWith payload flagged [head]) ≤ budget := by
  have length := @payloadLen_payloadWith payload [head] _ flagged node.listed node.truncated
  have bare := @payloadLen_payloadWith payload [bareMatch first] _ true node.listed node.truncated
  have least : payloadLen (payloadWith payload true [bareMatch first]) ≤ budget := admits
  have flags : (if flagged then flagLen payload else 0) ≤ flagLen payload := by split <;> omega
  simp only [Json.len, itemsLen, if_true, length_cons, length_nil] at length bare
  omega

/-- The first match is not touched before its code is looked at. -/
theorem withholdTrailing_first : ∃ current flagged, withholdTrailing budget others.length payload =
        payloadWith payload flagged (first :: current) ∧
      Cuts (first :: others) (first :: current) flagged ∧
      (others = [] → current = [] ∧ flagged = false) := by
  have own := payloadWith_self node.listed
  have start : Cuts (first :: others) (first :: others) false :=
    ⟨reduced_details node.details, .inl ⟨rfl, rfl⟩⟩
  cases others with
  | nil => exact ⟨[], false, own.symm, start, fun _ => ⟨rfl, rfl⟩⟩
  | cons second others =>
    obtain ⟨after, flagged, ran, cuts, head⟩ := @withholdTrailing_spec payload
      (first :: second :: others) (first :: second :: others) false budget node.details
      (others.length + 1) (.inl (by simp)) start (fun _ _ => rfl)
    rw [own] at ran
    cases after with
    | nil => contradiction
    | cons first' current =>
      obtain rfl := some.inj head
      exact ⟨current, flagged, ran, cuts, fun impossible => absurd impossible (by simp)⟩

/-- A payload that is too long is clipped, and then loses trailing matches. -/
theorem fitFields_large {current : List Json} {flagged changed : Bool}
    (withheld : withholdTrailing budget others.length payload =
      payloadWith payload flagged (first :: current))
    (large : budget < payloadLen (payloadWith payload flagged (first :: current)))
    (same : current.length = others.length)
    (clips : clipCode (payloadWith payload flagged (first :: current)) budget =
      (payloadWith payload flagged (head :: current), changed)) :
    ∃ count flagged', fitFields payload budget =
        payloadWith payload flagged' ((head :: current).take count) ∧
      0 < count ∧ count ≤ current.length + 1 ∧
      (payloadLen (payloadWith payload flagged' ((head :: current).take count)) ≤ budget ∨ count = 1) ∧
      ((count = current.length + 1 ∧ flagged' = (changed || flagged)) ∨
        (count < current.length + 1 ∧ flagged' = true)) := by
  have length : (matchesOf payload).length = others.length + 1 := by
    rw [← payloadWith_self node.listed, matchesOf_payloadWith, length_cons]
  obtain ⟨count, flagged', ran, rest⟩ := @dropTrailing_spec payload (head :: current)
    (changed || flagged) budget (others.length + 1) (Nat.succ_pos _) (by simp [same])
  refine ⟨count, flagged', ?_, rest⟩
  simp only [fitFields, length, Nat.add_sub_cancel, withheld, clips]
  rw [if_neg (by omega), ← ran]
  cases changed <;> simp

theorem fitFields_small {current : List Json} {flagged : Bool}
    (withheld : withholdTrailing budget others.length payload =
      payloadWith payload flagged (first :: current))
    (small : payloadLen (payloadWith payload flagged (first :: current)) ≤ budget) :
    fitFields payload budget = payloadWith payload flagged (first :: current) := by
  have length : (matchesOf payload).length = others.length + 1 := by
    rw [← payloadWith_self node.listed, matchesOf_payloadWith, length_cons]
  simp only [fitFields, length, Nat.add_sub_cancel, withheld]
  rw [if_pos (.inl small)]

/-- The room is measured beside the other matches, so one of them frees more than the reserve. -/
theorem clipped_fits {text : String} {count : Nat} {second : Json} {rest : List Json} {flagged : Bool}
    (long : 39 ≤ second.len) (code : first.get "code" = some (.string text)) (positive : 0 < count)
    (largest : Largest (spareRoom (payloadWith payload flagged
      (bareMatch first :: second :: rest)) budget) (codeLines text) count) (flagged' : Bool) :
    payloadLen (payloadWith payload flagged' [clipped first text count]) ≤ budget := by
  have detail := node.details first mem_cons_self
  have start := detail.numbers text code
  have digits (number : Nat) (small : number < 2 ^ 64) : decimalLen number ≤ 20 := by
    rw [decimalLen, Nat.length_toDigits_le_iff (by decide) (by decide)]
    omega
  obtain ⟨few, fits, -⟩ := largest
  have cost := linesCost_pos positive few
  have startDigits := digits (codeStart first) (by omega)
  have endDigits := digits (codeStart first + count - 1) (by omega)
  have clippedLen := len_clipped detail.object positive few
  have length := @payloadLen_payloadWith payload [clipped first text count] _ flagged'
    node.listed node.truncated
  have bare := @payloadLen_payloadWith payload (bareMatch first :: second :: rest) _ flagged
    node.listed node.truncated
  have flags : (if flagged' then flagLen payload else 0) ≤ 17 := by
    unfold flagLen
    split_ifs <;> omega
  unfold spareRoom at fits
  simp only [Json.len, itemsLen, length_cons, length_nil] at length bare
  omega

end

end Fits

section Main

variable {payload : Fields} {first : Json} {others items : List Json} {budget : Nat}

/-- With a second match the payload always fits. -/
theorem bounded_of_many (node : NodePayload payload (first :: others)) (many : others ≠ [])
    (admits : payloadLen (reduced payload (first :: others)) ≤ budget) :
    Bounded payload (first :: others) budget := by
  have detail := node.details first mem_cons_self
  obtain ⟨current, flagged, withheld, cuts, -⟩ := @withholdTrailing_first payload first others
    budget node
  have same : current.length = others.length := by simpa using cuts.reduced.length_eq.symm
  by_cases small : payloadLen (payloadWith payload flagged (first :: current)) ≤ budget
  · have ran := fitFields_small node withheld small
    rw [← take_length (l := first :: current)] at ran small
    have unchanged := cuts.same
    rw [← take_length (l := first :: current)] at unchanged
    exact (bounded_of_cuts node ran cuts.reduced (le_refl _) unchanged).mpr small
  have large := Nat.lt_of_not_le small
  obtain ⟨head, changed, clips, next, fits⟩ : ∃ head changed,
      clipCode (payloadWith payload flagged (first :: current)) budget =
        (payloadWith payload flagged (head :: current), changed) ∧
      Cuts (first :: others) (head :: current) (changed || flagged) ∧
      ∀ flagged', payloadLen (payloadWith payload flagged' [head]) ≤ budget := by
    cases code : first.get "code" with
    | none =>
      have next := @Cuts.withhold (first :: others) (first :: current) flagged 0 first cuts
        rfl rfl detail
      exact ⟨_, _, clipCode_without detail code, next, alone_fits node admits (len_withholdCode_le detail)⟩
    | some value =>
      obtain ⟨text, rfl⟩ := detail.code value code
      obtain ⟨count, -, largest⟩ := @keptLines_largest
        (spareRoom (payloadWith payload flagged (bareMatch first :: current)) budget) 0
        (codeLines text) (Nat.zero_le _)
      rw [Nat.sub_zero] at largest
      have next := @forall₂_set (first :: others) (first :: current) 0 first
        (clipped first text count) cuts.reduced rfl (clipped_reduced detail code largest.1)
      refine ⟨_, _, clipCode_code detail code largest, ⟨next, .inr rfl⟩, ?_⟩
      by_cases none : count = 0
      · apply alone_fits node admits
        rw [clipped, if_pos none]
      obtain ⟨second, rest, rfl⟩ := exists_cons_of_ne_nil (l := current) (by
        rintro rfl
        exact many (length_eq_zero_iff.mp same.symm))
      obtain ⟨before, mem, reduced⟩ : ∃ before ∈ others, Reduced before second := by
        cases cuts.reduced with
        | cons _ tail =>
          cases tail with
          | cons one _ => exact ⟨_, mem_cons_self, one⟩
      have long := (node.details before (mem_cons_of_mem _ mem)).len_ge reduced.1
        reduced.2
      exact clipped_fits node long code (pos_of_ne_zero none) largest
  obtain ⟨count, flagged', ran, positive, few, ends, unchanged⟩ :=
    fitFields_large node withheld large same clips
  refine (bounded_of_cuts node ran next.reduced few ?_).mpr ?_
  · rcases unchanged with ⟨rfl, rfl⟩ | ⟨_, flagged'⟩
    · rw [← length_cons (a := head), take_length]
      exact next.same
    · exact .inr flagged'
  rcases ends with fits' | rfl
  · exact fits'
  · exact fits flagged'

theorem bounded_alone_iff (node : NodePayload payload [first])
    (admits : payloadLen (reduced payload [first]) ≤ budget) :
    Bounded payload [first] budget ↔ RangeFits payload [first] budget := by
  have detail := node.details first mem_cons_self
  have own := payloadWith_self node.listed
  have start : Cuts [first] [first] false := ⟨reduced_details node.details, .inl ⟨rfl, rfl⟩⟩
  have withheld : withholdTrailing budget ([] : List Json).length payload =
      payloadWith payload false [first] := own.symm
  by_cases small : payloadLen payload ≤ budget
  · have ran := fitFields_small node withheld (own.symm ▸ small)
    have bounded := (@bounded_of_cuts payload [first] budget [first] false 1 node ran start.reduced
      (le_refl _) start.same).mpr (own.symm ▸ small)
    refine ⟨fun _ => ?_, fun _ => bounded⟩
    intro _ _ _ _ large
    omega
  have large := own.symm ▸ Nat.lt_of_not_le small
  have ends {head : Json} {changed : Bool}
      (clips : clipCode (payloadWith payload false [first]) budget =
        (payloadWith payload false [head], changed))
      (next : Cuts [first] [head] changed) :
      Bounded payload [first] budget ↔ payloadLen (payloadWith payload changed [head]) ≤ budget := by
    obtain ⟨count, flagged', ran, positive, few, -, unchanged⟩ :=
      fitFields_large node withheld large rfl clips
    obtain rfl : count = 1 := by
      simp only [length_nil] at few
      omega
    obtain rfl : flagged' = changed := by simpa using unchanged
    exact @bounded_of_cuts payload [first] budget [head] flagged' 1 node ran next.reduced
      (le_refl _) next.same
  cases code : first.get "code" with
  | none =>
    have next := @Cuts.withhold [first] [first] false 0 first start rfl rfl detail
    rw [Bool.or_false] at next
    rw [ends (clipCode_without detail code) next]
    refine ⟨fun _ => ?_, fun _ => alone_fits node admits (len_withholdCode_le detail) _⟩
    intro _ text count same _ impossible
    obtain rfl := (List.cons.inj same).1
    rw [code] at impossible
    contradiction
  | some value =>
    obtain ⟨text, rfl⟩ := detail.code value code
    obtain ⟨count, -, largest⟩ := @keptLines_largest
      (spareRoom (payloadWith payload false [bareMatch first]) budget) 0
      (codeLines text) (Nat.zero_le _)
    rw [Nat.sub_zero] at largest
    have next := @forall₂_set [first] [first] 0 first (clipped first text count) start.reduced
      rfl (clipped_reduced detail code largest.1)
    rw [ends (clipCode_code detail code largest) ⟨next, .inr rfl⟩]
    have range : RangeFits payload [first] budget ↔
        (0 < count → decimalLen (codeStart first) + decimalLen (codeStart first + count - 1) +
          flagLen payload ≤ 24 + (spareRoom (payloadWith payload false [bareMatch first]) budget -
            linesCost ((codeLines text).take count))) := by
      constructor
      · exact fun fits => fits first text count rfl (Nat.lt_of_not_le small) code largest
      intro fits other text' count' same _ code' largest' positive
      obtain rfl := (List.cons.inj same).1
      rw [code] at code'
      obtain rfl := Json.string.inj (some.inj code')
      obtain rfl := largest.unique largest'
      exact fits positive
    rw [range]
    rcases Nat.eq_zero_or_pos count with rfl | positive
    · refine ⟨fun _ impossible => absurd impossible (Nat.lt_irrefl 0), fun _ => ?_⟩
      exact alone_fits node admits (le_refl _) true
    have clippedLen := len_clipped detail.object positive largest.1
    have length := @payloadLen_payloadWith payload [clipped first text count] _ true
      node.listed node.truncated
    have bare := @payloadLen_payloadWith payload [bareMatch first] _ false
      node.listed node.truncated
    have fits := largest.2.1
    have cost := linesCost_pos positive largest.1
    unfold spareRoom at fits ⊢
    simp only [Json.len, itemsLen, length_cons, length_nil, if_true,
      Bool.false_eq_true, if_false] at length bare
    constructor
    · intro total _
      omega
    intro total
    have total := total positive
    omega

/-- A payload that is fitted into a budget has every property exactly if the range of the clipped
code fits the reserve, which is a question only for a single match that is too long. -/
theorem fitNodePayload_bounded_iff (payload : Fields) (items : List Json) (budget : Nat)
    (node : NodePayload payload items) (admits : payloadLen (reduced payload items) ≤ budget) :
    Bounded payload items budget ↔ RangeFits payload items budget := by
  match items, node, admits with
  | [], node, admits =>
    have own := payloadWith_self node.listed
    have count : matchesOf payload = [] := by rw [← own, matchesOf_payloadWith]
    have ran : fitFields payload budget = payloadWith payload false (([] : List Json).take 0) := by
      rw [fitFields, count, take_nil, own, length_nil, if_pos (.inr rfl)]
      rfl
    have length := @payloadLen_payloadWith payload [] _ false node.listed node.truncated
    have bare := @payloadLen_payloadWith payload [] _ true node.listed node.truncated
    have least : payloadLen (payloadWith payload true []) ≤ budget := admits
    have fits : payloadLen (payloadWith payload false []) ≤ budget := by
      simp only [if_true, Bool.false_eq_true, if_false] at length bare
      omega
    have bounded := (bounded_of_cuts node ran List.Forall₂.nil (le_refl _)
      (.inl ⟨rfl, rfl⟩)).mpr fits
    refine ⟨fun _ => ?_, fun _ => bounded⟩
    intro detail text count impossible
    contradiction
  | [first], node, admits => exact bounded_alone_iff node admits
  | first :: second :: others, node, admits =>
    refine ⟨fun _ => ?_, fun _ => bounded_of_many node (by simp) admits⟩
    intro detail text count impossible
    simp at impossible

end Main

/-- A match with two lines of code. -/
def startMatch : Json :=
  .object [("name", .string "start"), ("kind", .string "function"), ("line", .number 1200),
    ("endLine", .number 1201), ("code", .string ("def start():\n" ++
      "    open_the_store(); read_the_settings(); build_the_index(); watch_the_project(); 1 + 1"))]

def startPayload (items : List Json) : Fields :=
  [("schemaVersion", .number 2), ("kind", .string "node"), ("matchCount", .number 1),
    ("matches", .array items)]

theorem startMatch_node : NodeDetail startMatch where
  object := ⟨_, rfl⟩
  name := ⟨"start", rfl⟩
  kind := ⟨"function", rfl⟩
  line := ⟨1200, rfl⟩
  endLine := ⟨1201, rfl⟩
  code := by
    intro value found
    exact ⟨_, (some.inj found).symm⟩
  ranges := by
    intro absent
    contradiction
  codeTruncated := .inl rfl
  numbers := by
    intro text found
    obtain rfl := Json.string.inj (some.inj found)
    decide +kernel

theorem startPayload_node {items : List Json} (alike : ∀ item ∈ items, item = startMatch) :
    NodePayload (startPayload items) items where
  listed := rfl
  details := fun detail mem => alike detail mem ▸ startMatch_node
  truncated := .inl rfl

/-- Two matches fit a budget that is too small for both. -/
theorem two_starts_bounded : Bounded (startPayload [startMatch, startMatch]) [startMatch, startMatch] 221 :=
  (fitNodePayload_bounded_iff (startPayload [startMatch, startMatch]) [startMatch, startMatch] 221
    (startPayload_node (by simp)) (by decide +kernel)).mpr
    fun _ _ _ impossible => by simp at impossible

/-- Two lines with four digits and the new flag take one byte more than the reserve. -/
theorem start_past_budget : NodePayload (startPayload [startMatch]) [startMatch] ∧
      payloadLen (reduced (startPayload [startMatch]) [startMatch]) ≤ 221 ∧
      (fitNodePayload (.object (startPayload [startMatch])) 221).len = 222 ∧
      ¬Bounded (startPayload [startMatch]) [startMatch] 221 := by
  have long : (fitNodePayload (.object (startPayload [startMatch])) 221).len = 222 := by decide +kernel
  refine ⟨startPayload_node (by simp), by decide +kernel, long, ?_⟩
  rintro ⟨after, kept, fitted, fits, -⟩
  rw [fitted] at long
  change (Json.object after).len ≤ 221 at fits
  omega

end Codegraph.Output
