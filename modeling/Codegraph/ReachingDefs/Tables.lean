import Codegraph.Library.GenKill
import Codegraph.ReachingDefs.Compute

namespace Codegraph

open Library Relation List

/-- The operation a placed definition follows, or none at entry. -/
def siteOf (ops : Nat) (placement : Option Nat × Def) : Option Nat := placement.1.filter (· < ops)

/-- The definitions made at a site, in the order of their numbers. -/
def generatedAt (ops : Nat) (placements : List (Option Nat × Def)) (site : Option Nat) : List Nat :=
  positions (fun placement => siteOf ops placement = site) placements

/-- The first definition overwrites the place of the second. -/
def Kills (defs : List Def) (killer killed : Nat) : Prop :=
  ∃ first second, defs[killer]? = some first ∧ defs[killed]? = some second ∧
    first.strong = true ∧ first.place.covers second.place = true

theorem generatedAt_concat (ops : Nat) (placements : List (Option Nat × Def))
    (last : Option Nat × Def) (site : Option Nat) :
    generatedAt ops (placements ++ [last]) site =
      generatedAt ops placements site ++ if siteOf ops last = site then [placements.length] else [] := by
  simp [generatedAt, positions_concat]

/-- The numbering lists each definition once, at its site. -/
structure Numbered (ops : Nat) (placements : List (Option Nat × Def)) (numbering : Numbering) : Prop where
  defs : numbering.defs = placements.map Prod.snd
  opsLength : numbering.opDefs.length = ops
  atOp : ∀ op < ops, numbering.opDefs.getD op [] = generatedAt ops placements (some op)
  atEntry : numbering.entryDefs = generatedAt ops placements none

theorem numbered_place {ops : Nat} {placements : List (Option Nat × Def)} {numbering : Numbering}
    (numbered : Numbered ops placements numbering) (last : Option Nat × Def) :
    Numbered ops (placements ++ [last]) (numbering.place last.1 last.2) := by
  have count : numbering.defs.length = placements.length := by rw [numbered.defs]; simp
  obtain ⟨site, added⟩ := last
  by_cases inBody : ∃ op, site = some op ∧ op < ops
  · obtain ⟨op, rfl, inside⟩ := inBody
    have placed : numbering.place (some op) added = numbering.atOp op added := by
      simp [Numbering.place, numbered.opsLength, inside]
    have here : siteOf ops (some op, added) = some op := by simp [siteOf, inside]
    rw [placed]
    refine ⟨by simp [Numbering.atOp, numbered.defs],
      by simp [Numbering.atOp, numbered.opsLength], fun other bound => ?_, ?_⟩
    · rw [generatedAt_concat, here, ← numbered.atOp other bound, ← count]
      simp only [Numbering.atOp, Option.some.injEq]
      exact getD_modify_append _ _ _ _ (by rw [numbered.opsLength]; exact inside)
    · rw [generatedAt_concat, here]
      simpa [Numbering.atOp] using numbered.atEntry
  have placed : numbering.place site added = numbering.atEntry added := by
    cases site with
    | none => rfl
    | some op =>
      have outside : ¬ op < ops := fun inside => inBody ⟨op, rfl, inside⟩
      simp [Numbering.place, numbered.opsLength, outside]
  have here : siteOf ops (site, added) = none := by
    cases site with
    | none => rfl
    | some op =>
      have outside : ¬ op < ops := fun inside => inBody ⟨op, rfl, inside⟩
      simpa [siteOf] using outside
  rw [placed]
  refine ⟨by simp [Numbering.atEntry, numbered.defs],
    by simp [Numbering.atEntry, numbered.opsLength], fun other bound => ?_, ?_⟩
  · rw [generatedAt_concat, here, ← numbered.atOp other bound]
    simp [Numbering.atEntry]
  · rw [generatedAt_concat, here, ← numbered.atEntry, ← count]
    simp [Numbering.atEntry]

theorem numberDefs_numbered (func : IrFunction) (extras : List ExtraDef) :
    Numbered func.body.length (placements func extras) (numberDefs func extras) := by
  unfold numberDefs
  induction placements func extras using List.reverseRecOn with
  | nil =>
    refine ⟨rfl, by simp, fun op _ => ?_, rfl⟩
    rw [foldl_nil, replicate_nil_getD]
    rfl
  | append_singleton earlier last ih =>
    rw [foldl_append]
    exact numbered_place ih last

variable (defs : List Def)

/-- The group of a variable lists its definitions in the order of their numbers. -/
theorem groupByBase_getD (var : Var) :
    (groupByBase defs).getD var [] = positions (fun known => known.place.base = var) defs := by
  unfold groupByBase
  induction defs using List.reverseRecOn with
  | nil => simp
  | append_singleton earlier last ih =>
    rw [zipIdx_concat, foldl_append, foldl_cons, foldl_nil, Dict.getD_update, positions_concat]
    by_cases same : last.place.base = var
    · subst same
      simp [ih]
    · simp [same, Ne.symm same, ih]

theorem mem_groupByBase {defs : List Def} {var : Var} {id : Nat} : id ∈ (groupByBase defs).getD var [] ↔
      ∃ known, defs[id]? = some known ∧ known.place.base = var := by
  simp [groupByBase_getD, mem_positions]

theorem words_foldl_insert (ids : List Nat) (keep : Nat → Bool) (set : BitSet) :
    (ids.foldl (fun set id => if keep id then set.insert id else set) set).words.length =
      set.words.length := by
  induction ids generalizing set with
  | nil => rfl
  | cons id ids ih =>
    rw [foldl_cons, ih]
    split <;> simp

/-- Inserting the kept ids adds exactly them. -/
theorem contains_foldl_insert (ids : List Nat) (keep : Nat → Bool) (set : BitSet) (other : Nat)
    (inside : ∀ id ∈ ids, id / 64 < set.words.length) :
    (ids.foldl (fun set id => if keep id then set.insert id else set) set).contains other = true ↔
      set.contains other = true ∨ (other ∈ ids ∧ keep other = true) := by
  induction ids generalizing set with
  | nil => simp
  | cons id ids ih =>
    have bound := inside id (by simp)
    rw [foldl_cons, ih _ fun other mem => by
      have := inside other (by simp [mem])
      split <;> simpa using this]
    by_cases kept : keep id = true
    · rw [if_pos kept, BitSet.contains_insert _ _ _ bound]
      simp only [Bool.or_eq_true, decide_eq_true_eq, mem_cons]
      constructor
      · rintro ((rfl | old) | ⟨mem, keeps⟩)
        · exact .inr ⟨.inl rfl, kept⟩
        · exact .inl old
        · exact .inr ⟨.inr mem, keeps⟩
      rintro (old | ⟨rfl | mem, keeps⟩)
      · exact .inl (.inr old)
      · exact .inl (.inl rfl)
      · exact .inr ⟨mem, keeps⟩
    rw [if_neg kept]
    constructor
    · exact Or.imp (fun old => old) fun later => ⟨mem_cons_of_mem _ later.1, later.2⟩
    rintro (old | ⟨mem, keeps⟩)
    · exact .inl old
    · rcases mem_cons.mp mem with rfl | later
      · exact absurd keeps kept
      · exact .inr ⟨later, keeps⟩

@[simp] theorem words_killSet (defs : List Def) (byBase : Dict Var (List Nat)) (place : Place) :
    (killSet defs byBase place).words.length = (BitSet.new defs.length).words.length :=
  words_foldl_insert _ _ _

theorem contains_killSet (place : Place) (other : Nat) :
    (killSet defs (groupByBase defs) place).contains other = true ↔
      ∃ killed, defs[other]? = some killed ∧ place.covers killed.place = true := by
  rw [killSet, contains_foldl_insert, mem_groupByBase]
  · simp only [BitSet.contains_new, Bool.false_eq_true, false_or]
    constructor
    · rintro ⟨⟨known, found, -⟩, covered⟩
      rw [found] at covered
      exact ⟨known, found, covered⟩
    rintro ⟨known, found, covered⟩
    refine ⟨⟨known, found, (Place.covers_base covered).symm⟩, ?_⟩
    rwa [found]
  · intro id mem
    obtain ⟨known, found, -⟩ := mem_groupByBase.mp mem
    have inside := (List.getElem?_eq_some_iff.mp found).1
    rw [BitSet.words_new]
    omega

/-- Each strong definition so far has the kill set of its place. -/
structure KillsIndexed (defs : List Def) (byBase : Dict Var (List Nat)) (done : List Def)
    (kills : KillIndex) : Prop where
  length : kills.killOf.length = done.length
  shared : ∀ place position, kills.index.get place = some position →
    kills.sets[position]? = some (killSet defs byBase place)
  weak : ∀ (id : Nat) known, done[id]? = some known → known.strong = false → kills.killOf[id]? = some none
  strong : ∀ (id : Nat) known, done[id]? = some known → known.strong = true →
    ∃ position : Nat, kills.killOf[id]? = some (some position) ∧
      kills.sets[position]? = some (killSet defs byBase known.place)

/-- The next entry keeps the earlier ones and may bring a new set. -/
theorem killsIndexed_append {defs : List Def} {byBase : Dict Var (List Nat)} {done : List Def}
    {kills : KillIndex} (indexed : KillsIndexed defs byBase done kills) (added : Def)
    (index : Dict Place Nat) (sets : List BitSet) (entry : Option Nat)
    (shared : ∀ place position, index.get place = some position →
      (kills.sets ++ sets)[position]? = some (killSet defs byBase place))
    (weak : added.strong = false → entry = none)
    (strong : added.strong = true → ∃ position : Nat, entry = some position ∧
      (kills.sets ++ sets)[position]? = some (killSet defs byBase added.place)) :
    KillsIndexed defs byBase (done ++ [added])
      ⟨index, kills.sets ++ sets, kills.killOf ++ [entry]⟩ := by
  have old (id : Nat) (value : Option Nat) (found : kills.killOf[id]? = some value) :
      (kills.killOf ++ [entry])[id]? = some value := by
    rw [List.getElem?_append_left (List.getElem?_eq_some_iff.mp found).1, found]
  have new : (kills.killOf ++ [entry])[done.length]? = some entry := by
    rw [← indexed.length, getElem?_concat_length]
  refine ⟨by simp [indexed.length], shared, ?_, ?_⟩
  · intro id known found isWeak
    rcases getElem?_concat_eq_some.mp found with earlier | ⟨rfl, rfl⟩
    · exact old id _ (indexed.weak id known earlier isWeak)
    · rwa [← weak isWeak]
  intro id known found isStrong
  rcases getElem?_concat_eq_some.mp found with earlier | ⟨rfl, rfl⟩
  · obtain ⟨position, entered, stored⟩ := indexed.strong id known earlier isStrong
    refine ⟨position, old id _ entered, ?_⟩
    rw [List.getElem?_append_left (List.getElem?_eq_some_iff.mp stored).1, stored]
  · obtain ⟨position, rfl, stored⟩ := strong isStrong
    exact ⟨position, new, stored⟩

theorem killsIndexed_add {defs : List Def} {byBase : Dict Var (List Nat)} {done : List Def}
    {kills : KillIndex} (indexed : KillsIndexed defs byBase done kills) (added : Def) :
    KillsIndexed defs byBase (done ++ [added]) (kills.add defs byBase added) := by
  have same : kills.sets ++ [] = kills.sets := append_nil _
  unfold KillIndex.add
  by_cases isStrong : added.strong = true
  · rw [if_pos isStrong]
    cases known : kills.index.get added.place with
    | some position =>
      have appended := killsIndexed_append indexed added kills.index [] (some position)
        (by rw [same]; exact indexed.shared) (by simp [isStrong])
        (fun _ => ⟨position, rfl, by rw [same]; exact indexed.shared _ _ known⟩)
      rwa [same] at appended
    | none =>
      refine killsIndexed_append indexed added _ [killSet defs byBase added.place] _ ?_
        (by simp [isStrong]) (fun _ => ⟨_, rfl, getElem?_concat_length⟩)
      intro place position found
      rw [Dict.get_set] at found
      split at found
      · rename_i here
        subst here
        cases found
        exact getElem?_concat_length
      · have stored := indexed.shared place position found
        rw [List.getElem?_append_left (List.getElem?_eq_some_iff.mp stored).1, stored]
  rw [if_neg isStrong]
  have appended := killsIndexed_append indexed added kills.index [] none
    (by rw [same]; exact indexed.shared) (fun _ => rfl) (fun strong => absurd strong isStrong)
  rwa [same] at appended

theorem killIndex_indexed (byBase : Dict Var (List Nat)) :
    KillsIndexed defs byBase defs (killIndex defs byBase) := by
  have prefixes (done : List Def) :
      KillsIndexed defs byBase done (done.foldl (KillIndex.add defs byBase) ⟨∅, [], []⟩) := by
    induction done using List.reverseRecOn with
    | nil => exact ⟨rfl, by simp, by simp, by simp⟩
    | append_singleton done added ih =>
      rw [foldl_append]
      exact killsIndexed_add ih added
  exact prefixes defs

end Codegraph
