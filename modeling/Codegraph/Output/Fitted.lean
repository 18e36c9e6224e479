import Codegraph.Output.Json

namespace Codegraph.Output

open List

/-- One array that may be shortened and the count of what it leaves out. -/
structure Trim where
  array : String
  omitted : Option String
  rows : Option String

namespace Trim

def counted (array omitted : String) : Trim := ⟨array, some omitted, none⟩

/-- A flat item is one row and a group has the rows of its inner array. -/
def rowsOf (trim : Trim) (item : Json) : Nat :=
  match trim.rows with
  | some inner => ((item.index inner).asArray.map List.length).getD 0
  | none => 1

end Trim

/-- The number in the field, if it is one. -/
def countAt (value : Json) (key : String) : Nat := (value.index key).asU64.getD 0

def itemsAt (value : Json) (key : String) : List Json := ((value.get key).bind Json.asArray).getD []

/-- What a dropped item adds to its count. -/
def addOmitted (trim : Trim) (dropped value : Json) : Option Json :=
  match trim.omitted with
  | none => some value
  | some omitted => value.set omitted (.number (countAt value omitted + trim.rowsOf dropped))

/-- Trailing items are dropped while the value is too long; the fuel is the length of the array. -/
def shorten (budget : Nat) (trim : Trim) : Nat → Json → Option Json
  | 0, value => some value
  | fuel + 1, value =>
    if budget < value.len then
      match (value.get trim.array).bind Json.asArray with
      | none => some value
      | some items =>
        match items.getLast? with
        | none => some value
        | some dropped =>
          (value.set trim.array (.array items.dropLast)).bind fun shorter =>
            (addOmitted trim dropped shorter).bind (shorten budget trim fuel)
    else some value

/-- The arrays are shortened in the order of the trims; an absent result is a panic. -/
def fitted (payload : Json) (budget : Nat) (trims : List Trim) : Option Json :=
  if payload.len ≤ budget then some payload
  else
    (payload.set "truncated" (.bool true)).bind fun value =>
      trims.foldlM (fun value trim =>
        shorten budget trim ((itemsAt value trim.array).length + 1) value) value

/-- The rows that are listed and those that are counted as left out. -/
def totalOf (trim : Trim) (omitted : String) (value : Json) : Nat :=
  ((itemsAt value trim.array).map trim.rowsOf).sum + countAt value omitted

/-- What shortening does to a value: it fits or is empty, every array keeps a prefix, and no field
but the array and its count changes. -/
structure Shortened (budget : Nat) (trim : Trim) (before after : Json) : Prop where
  object : after.IsObject
  ends : after.len ≤ budget ∨ itemsAt after trim.array = []
  prefixes : ∀ key, itemsAt after key <+: itemsAt before key
  kept : ∀ key, key ≠ trim.array → some key ≠ trim.omitted → after.get key = before.get key
  total : ∀ omitted, trim.omitted = some omitted → omitted ≠ trim.array →
    totalOf trim omitted after = totalOf trim omitted before
  same : before.len ≤ budget → after = before

variable {budget : Nat} {trim : Trim} {value : Json}

theorem itemsAt_congr {first second : Json} {key : String} (same : first.get key = second.get key) :
    itemsAt first key = itemsAt second key := by
  unfold itemsAt
  rw [same]

theorem countAt_congr {first second : Json} {key : String} (same : first.get key = second.get key) :
    countAt first key = countAt second key := by
  unfold countAt Json.index
  rw [same]

theorem drop_counted (object : value.IsObject) {items : List Json} {dropped : Json}
    (listed : (value.get trim.array).bind Json.asArray = some items)
    (last : items.getLast? = some dropped) :
    ∃ after, ((value.set trim.array (.array items.dropLast)).bind (addOmitted trim dropped)) =
        some after ∧ after.IsObject ∧
      (∀ key, itemsAt after key <+: itemsAt value key) ∧
      (itemsAt after trim.array).length < items.length ∧
      (∀ key, key ≠ trim.array → some key ≠ trim.omitted → after.get key = value.get key) ∧
      ∀ omitted, trim.omitted = some omitted → omitted ≠ trim.array →
        totalOf trim omitted after = totalOf trim omitted value := by
  obtain ⟨shorter, set, objectShorter, get⟩ := object.set trim.array (.array items.dropLast)
  have before : itemsAt value trim.array = items := by
    rw [itemsAt, listed]
    rfl
  have nonempty : 0 < items.length := by
    rw [length_pos_iff]
    rintro rfl
    contradiction
  have fewer : items.dropLast.length < items.length := by
    rw [length_dropLast]
    omega
  have middle : itemsAt shorter trim.array = items.dropLast := by
    rw [itemsAt, get, if_pos rfl]
    rfl
  have prefixes (key : String) : itemsAt shorter key <+: itemsAt value key := by
    by_cases same : key = trim.array
    · rw [same, middle, before]
      exact dropLast_prefix items
    · rw [itemsAt_congr ((get key).trans (if_neg same))]
  rw [set, Option.bind_some]
  unfold addOmitted
  cases counted : trim.omitted with
  | none =>
    refine ⟨shorter, rfl, objectShorter, prefixes, middle ▸ fewer, ?_, ?_⟩
    · intro key apart _
      rw [get, if_neg apart]
    · intro omitted impossible
      contradiction
  | some omitted =>
    obtain ⟨after, set', objectAfter, get'⟩ := objectShorter.set omitted
      (.number (countAt shorter omitted + trim.rowsOf dropped))
    have untouched (apart : omitted ≠ trim.array) : itemsAt after trim.array = items.dropLast := by
      rw [itemsAt_congr ((get' trim.array).trans (if_neg (Ne.symm apart))), middle]
    have overwritten : itemsAt after omitted = [] := by
      rw [itemsAt, get', if_pos rfl]
      rfl
    refine ⟨after, set', objectAfter, ?_, ?_, ?_, ?_⟩
    · intro key
      by_cases same : key = omitted
      · rw [same, overwritten]
        exact nil_prefix
      · rw [itemsAt_congr ((get' key).trans (if_neg same))]
        exact prefixes key
    · by_cases same : omitted = trim.array
      · rw [← same, overwritten]
        exact nonempty
      · rw [untouched same]
        exact fewer
    · intro key apart other
      rw [get', if_neg (fun same => other (congrArg some same)), get, if_neg apart]
    · intro omitted' same apart
      cases same
      have count : countAt after omitted = countAt value omitted + trim.rowsOf dropped := by
        have step : countAt after omitted = countAt shorter omitted + trim.rowsOf dropped := by
          unfold countAt Json.index
          rw [get', if_pos rfl]
          rfl
        rw [step, countAt_congr ((get omitted).trans (if_neg apart))]
      have whole := (dropLast_append_getLast? dropped last).symm
      unfold totalOf
      rw [untouched apart, before, count]
      conv_rhs => rw [whole]
      rw [map_append, sum_append, map_singleton, sum_singleton]
      omega

theorem shorten_shortened {fuel : Nat} (object : value.IsObject)
    (enough : (itemsAt value trim.array).length < fuel) :
    ∃ after, shorten budget trim fuel value = some after ∧ Shortened budget trim value after := by
  induction fuel generalizing value with
  | zero => omega
  | succ fuel ih =>
    have unchanged (ends : value.len ≤ budget ∨ itemsAt value trim.array = []) :
        Shortened budget trim value value :=
      ⟨object, ends, fun _ => prefix_rfl, fun _ _ _ => rfl, fun _ _ _ => rfl, fun _ => rfl⟩
    unfold shorten
    by_cases large : budget < value.len
    swap
    · rw [if_neg large]
      exact ⟨value, rfl, unchanged (.inl (Nat.le_of_not_lt large))⟩
    rw [if_pos large]
    cases listed : (value.get trim.array).bind Json.asArray with
    | none =>
      refine ⟨value, rfl, unchanged (.inr ?_)⟩
      rw [itemsAt, listed]
      rfl
    | some items =>
      have here : itemsAt value trim.array = items := by
        rw [itemsAt, listed]
        rfl
      simp only
      cases last : items.getLast? with
      | none =>
        refine ⟨value, rfl, unchanged (.inr ?_)⟩
        rw [here]
        exact getLast?_eq_none_iff.mp last
      | some dropped =>
        obtain ⟨middle, ran, objectMiddle, prefixes, fewer, kept, total⟩ :=
          drop_counted object listed last
        obtain ⟨after, ran', shortened⟩ := ih objectMiddle
          (by rw [here] at enough; omega)
        refine ⟨after, ?_, shortened.object, shortened.ends, ?_, ?_, ?_, ?_⟩
        · simp only
          rwa [← Option.bind_assoc, ran, Option.bind_some]
        · exact fun key => (shortened.prefixes key).trans (prefixes key)
        · exact fun key apart other => (shortened.kept key apart other).trans (kept key apart other)
        · exact fun omitted counted apart =>
            (shortened.total omitted counted apart).trans (total omitted counted apart)
        · exact fun small => absurd small (Nat.not_le_of_lt large)

/-- The array and the count of the trim are no other trim's, nor the flag. -/
structure Alone (trim : Trim) (omitted : String) (others : List Trim) : Prop where
  apart : omitted ≠ trim.array
  flagArray : trim.array ≠ "truncated"
  flagCount : omitted ≠ "truncated"
  arrays : ∀ other ∈ others, other.array ≠ trim.array ∧ other.array ≠ omitted
  counts : ∀ other ∈ others, other.omitted ≠ some trim.array ∧ other.omitted ≠ some omitted

/-- What a list of trims does to a value. -/
structure Fitted (budget : Nat) (trims : List Trim) (before after : Json) : Prop where
  object : after.IsObject
  ends : after.len ≤ budget ∨ ∀ trim ∈ trims, itemsAt after trim.array = []
  prefixes : ∀ key, itemsAt after key <+: itemsAt before key
  kept : ∀ key, (∀ trim ∈ trims, key ≠ trim.array ∧ some key ≠ trim.omitted) →
    after.get key = before.get key
  same : before.len ≤ budget → after = before

theorem trims_fitted (object : value.IsObject) (trims : List Trim) :
    ∃ after, trims.foldlM (fun value trim =>
        shorten budget trim ((itemsAt value trim.array).length + 1) value) value = some after ∧
      Fitted budget trims value after ∧
      ∀ before trim later omitted, trims = before ++ trim :: later → trim.omitted = some omitted →
        Alone trim omitted (before ++ later) → totalOf trim omitted after = totalOf trim omitted value := by
  induction trims generalizing value with
  | nil =>
    refine ⟨value, rfl, ⟨object, .inr (by simp), fun _ => prefix_rfl, fun _ _ => rfl, fun _ => rfl⟩, ?_⟩
    intro before trim later omitted impossible
    simp at impossible
  | cons first rest ih =>
    obtain ⟨middle, ran, shortened⟩ := @shorten_shortened budget first value
      ((itemsAt value first.array).length + 1) object (Nat.lt_succ_self _)
    obtain ⟨after, ran', fits, totals⟩ := ih shortened.object
    refine ⟨after, ?_, ⟨fits.object, ?_, ?_, ?_, ?_⟩, ?_⟩
    · rw [foldlM_cons]
      rwa [ran]
    · rcases shortened.ends with small | empty
      · left
        rwa [fits.same small]
      rcases fits.ends with small | emptied
      · exact .inl small
      right
      intro trim mem
      rcases mem_cons.mp mem with here | later
      · have shorter := fits.prefixes first.array
        rw [empty] at shorter
        rw [here]
        exact prefix_nil.mp shorter
      · exact emptied trim later
    · exact fun key => (fits.prefixes key).trans (shortened.prefixes key)
    · intro key untouched
      have first' := untouched first mem_cons_self
      rw [fits.kept key fun trim mem => untouched trim (mem_cons_of_mem _ mem)]
      exact shortened.kept key first'.1 first'.2
    · intro small
      have still := shortened.same small
      rw [fits.same (still ▸ small), still]
    · intro before trim later omitted whole counted alone
      cases before with
      | nil =>
        obtain ⟨rfl, rfl⟩ := List.cons.inj whole
        have keeps (key : String) (mine : key = first.array ∨ key = omitted) :
            after.get key = middle.get key := by
          apply fits.kept
          intro other mem
          obtain ⟨array, array'⟩ := alone.arrays other mem
          obtain ⟨count, count'⟩ := alone.counts other mem
          rcases mine with rfl | rfl
          · exact ⟨Ne.symm array, Ne.symm count⟩
          · exact ⟨Ne.symm array', Ne.symm count'⟩
        have total := shortened.total omitted counted alone.apart
        rw [← total]
        unfold totalOf
        rw [itemsAt_congr (keeps _ (.inl rfl)), countAt_congr (keeps _ (.inr rfl))]
      | cons head before =>
        obtain ⟨rfl, rfl⟩ := List.cons.inj whole
        have rest := totals before trim later omitted rfl counted
          ⟨alone.apart, alone.flagArray, alone.flagCount,
            fun other mem => alone.arrays other (mem_cons_of_mem _ mem),
            fun other mem => alone.counts other (mem_cons_of_mem _ mem)⟩
        rw [rest]
        obtain ⟨array, array'⟩ := alone.arrays first mem_cons_self
        obtain ⟨count, count'⟩ := alone.counts first mem_cons_self
        unfold totalOf
        rw [itemsAt_congr (shortened.kept trim.array (Ne.symm array) (Ne.symm count)),
          countAt_congr (shortened.kept omitted (Ne.symm array') (Ne.symm count'))]

theorem fitted_spec (payload : Json) (object : payload.IsObject) (budget : Nat) (trims : List Trim) :
    ∃ value, fitted payload budget trims = some value ∧
      (value.len ≤ budget ∨ ∀ trim ∈ trims, itemsAt value trim.array = []) ∧
      (∀ trim ∈ trims, itemsAt value trim.array <+: itemsAt payload trim.array) ∧
      ∀ before trim later omitted, trims = before ++ trim :: later → trim.omitted = some omitted →
        Alone trim omitted (before ++ later) →
          totalOf trim omitted value = totalOf trim omitted payload := by
  unfold fitted
  by_cases small : payload.len ≤ budget
  · rw [if_pos small]
    exact ⟨payload, rfl, .inl small, fun _ _ => prefix_rfl, fun _ _ _ _ _ _ _ => rfl⟩
  rw [if_neg small]
  obtain ⟨flagged, set, objectFlagged, get⟩ := object.set "truncated" (.bool true)
  obtain ⟨value, ran, fits, totals⟩ := @trims_fitted budget flagged objectFlagged trims
  have flag (key : String) : itemsAt flagged key <+: itemsAt payload key := by
    by_cases same : key = "truncated"
    · unfold itemsAt
      rw [get, if_pos same]
      exact nil_prefix
    · rw [itemsAt_congr ((get key).trans (if_neg same))]
  refine ⟨value, ?_, fits.ends, fun trim _ => (fits.prefixes _).trans (flag _), ?_⟩
  · rwa [set]
  intro before trim later omitted whole counted alone
  rw [totals before trim later omitted whole counted alone]
  unfold totalOf
  rw [itemsAt_congr ((get trim.array).trans (if_neg alone.flagArray)),
    countAt_congr ((get omitted).trans (if_neg alone.flagCount))]

end Codegraph.Output
