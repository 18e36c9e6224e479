import Mathlib.Data.Rat.Floor
import Mathlib.Tactic

namespace Codegraph.Explore

def minChars : Nat := 700

def fileOverhead : Nat := 200

def cliffFraction : ℚ := 15 / 100

def cliffMax : ℚ := 10

def maxShare : ℚ := 7 / 10

def spineWeightBoost : ℚ := 2

structure Candidate where
  path : String
  score : ℚ
  worth : ℚ
  spine : Bool
deriving DecidableEq

structure Allocation where
  allowances : List (String × Nat)
  cliffed : List String
  slotLimited : List String
  pool : Nat
deriving DecidableEq

/-- Paths are distinct, so that the weight of a path is the one of its candidate. -/
def Candidate.weight (candidate : Candidate) : ℚ :=
  max candidate.score 0 * max 0 (min candidate.worth 1) * if candidate.spine then spineWeightBoost else 1

def top (candidates : List Candidate) : ℚ := candidates.foldl (fun top candidate => max top candidate.weight) 0

def keeps (candidates : List Candidate) (candidate : Candidate) : Bool :=
  candidate.spine || min (top candidates * cliffFraction) cliffMax ≤ candidate.weight

/-- The admitted candidates and the paths over the cliff. -/
def admits (candidates : List Candidate) : List Candidate × List String :=
  let admitted := candidates.filter (keeps candidates)
  let cliffed := (candidates.filter fun candidate => !keeps candidates candidate).map Candidate.path
  if admitted = [] then
    (candidates.take 1, cliffed.filter fun path => path ∉ (candidates.take 1).map Candidate.path)
  else (admitted, cliffed)

def affordable (maxOutputChars : Nat) : Nat := max (maxOutputChars / (minChars + fileOverhead)) 1

/-- The paths that the budget affords, and those of the spine. -/
def affordedPaths (maxOutputChars : Nat) (admitted : List Candidate) : List String :=
  ((admitted.mergeSort fun left right => right.weight ≤ left.weight).take (affordable maxOutputChars)).map
      Candidate.path ++ (admitted.filter Candidate.spine).map Candidate.path

def retains (maxOutputChars : Nat) (admitted : List Candidate) (candidate : Candidate) : Bool :=
  admitted.length ≤ affordable maxOutputChars || candidate.path ∈ affordedPaths maxOutputChars admitted

/-- The candidates that share the pool. -/
def sharing (candidates : List Candidate) (maxOutputChars maxFiles : Nat) : List Candidate :=
  let admitted := (admits candidates).1.take maxFiles
  admitted.filter (retains maxOutputChars admitted)

def ceiling (maxOutputChars : Nat) : Nat := (round ((maxOutputChars : ℚ) * maxShare)).toNat

def total (candidates : List Candidate) : ℚ := (candidates.map Candidate.weight).sum

/-- The share of one of the candidates that share a pool. -/
def share (sharing : List Candidate) (pool maxOutputChars : Nat) (candidate : Candidate) : Nat :=
  let floors := min pool (minChars * sharing.length)
  let remainder := pool - floors
  min (floors / sharing.length + ⌊(remainder : ℚ) * candidate.weight / total sharing⌋₊) (ceiling maxOutputChars)

def allocate (candidates : List Candidate) (maxOutputChars maxFiles : Nat) : Allocation :=
  if candidates = [] then ⟨[], [], [], 0⟩
  else if top candidates ≤ 0 then ⟨[], [], [], 0⟩
  else
    let (admitted, cliffed) := admits candidates
    let slotLimited := (admitted.drop maxFiles).map Candidate.path
    let admitted := admitted.take maxFiles
    let retained := admitted.filter (retains maxOutputChars admitted)
    let cliffed := cliffed ++
      (admitted.filter fun candidate => !retains maxOutputChars admitted candidate).map Candidate.path
    let pool := maxOutputChars - fileOverhead * retained.length
    if retained = [] ∨ total retained ≤ 0 then ⟨[], cliffed, slotLimited, pool⟩
    else
      ⟨retained.map fun candidate => (candidate.path, share retained pool maxOutputChars candidate),
        cliffed, slotLimited, pool⟩

/-- The path is in one of the three, and in no other. -/
def Allocation.Places (allocation : Allocation) (path : String) : Prop :=
  (path ∈ allocation.allowances.map Prod.fst ∧ path ∉ allocation.cliffed ∧ path ∉ allocation.slotLimited) ∨
    (path ∉ allocation.allowances.map Prod.fst ∧ path ∈ allocation.cliffed ∧ path ∉ allocation.slotLimited) ∨
    (path ∉ allocation.allowances.map Prod.fst ∧ path ∉ allocation.cliffed ∧ path ∈ allocation.slotLimited)

/-- Some candidate weighs something, and so does one that shares the pool if there is any. -/
def Weighty (candidates : List Candidate) (maxOutputChars maxFiles : Nat) : Prop :=
  0 < top candidates ∧ (sharing candidates maxOutputChars maxFiles = [] ∨
    0 < total (sharing candidates maxOutputChars maxFiles))

section Parts

variable {candidates : List Candidate} {candidate : Candidate} {maxOutputChars maxFiles : Nat}

theorem weight_nonneg (candidate : Candidate) : 0 ≤ candidate.weight := by
  unfold Candidate.weight spineWeightBoost
  have score := le_max_right candidate.score 0
  have worth := le_max_left 0 (min candidate.worth 1)
  split <;> positivity

theorem top_reached (candidates : List Candidate) :
    top candidates = 0 ∨ ∃ candidate ∈ candidates, candidate.weight = top candidates := by
  unfold top
  induction candidates using List.reverseRecOn with
  | nil => exact .inl rfl
  | append_singleton before last ih =>
    rw [List.foldl_append, List.foldl_cons, List.foldl_nil]
    rcases max_choice (before.foldl (fun top candidate => max top candidate.weight) 0) last.weight with same | same
    · rw [same]
      exact ih.imp_right fun ⟨candidate, mem, heaviest⟩ =>
        ⟨candidate, List.mem_append_left _ mem, heaviest⟩
    · exact .inr ⟨last, List.mem_append_right _ (List.mem_singleton_self _), same.symm⟩

/-- The heaviest candidate is never over the cliff. -/
theorem admit_of_top (positive : 0 < top candidates) : admits candidates = (candidates.filter (keeps candidates),
    (candidates.filter fun candidate => !keeps candidates candidate).map Candidate.path) := by
  obtain ⟨heaviest, mem, same⟩ := (top_reached candidates).resolve_left (ne_of_gt positive)
  have kept : keeps candidates heaviest = true := by
    have below : top candidates * cliffFraction ≤ heaviest.weight := by
      rw [same]
      exact mul_le_of_le_one_right positive.le (by norm_num [cliffFraction])
    simp [keeps, below]
  exact if_neg (List.ne_nil_of_mem (List.mem_filter.mpr ⟨mem, kept⟩))

theorem sharing_of_top (positive : 0 < top candidates) : sharing candidates maxOutputChars maxFiles =
    ((candidates.filter (keeps candidates)).take maxFiles).filter
      (retains maxOutputChars ((candidates.filter (keeps candidates)).take maxFiles)) := by
  rw [sharing, admit_of_top positive]

theorem allocate_of_top (positive : 0 < top candidates) :
    let admitted := candidates.filter (keeps candidates)
    let shared := sharing candidates maxOutputChars maxFiles
    let pool := maxOutputChars - fileOverhead * shared.length
    allocate candidates maxOutputChars maxFiles = ⟨if shared = [] ∨ total shared ≤ 0 then []
        else shared.map fun candidate => (candidate.path, share shared pool maxOutputChars candidate),
      (candidates.filter fun candidate => !keeps candidates candidate).map Candidate.path ++
        ((admitted.take maxFiles).filter fun candidate =>
          !retains maxOutputChars (admitted.take maxFiles) candidate).map Candidate.path,
      (admitted.drop maxFiles).map Candidate.path, pool⟩ := by
  intro admitted shared pool
  have nonempty : candidates ≠ [] := fun same => by
    rw [same] at positive
    exact lt_irrefl _ positive
  have same : shared = (admitted.take maxFiles).filter (retains maxOutputChars (admitted.take maxFiles)) :=
    sharing_of_top positive
  rw [allocate, if_neg nonempty, if_neg (not_le.mpr positive), admit_of_top positive]
  dsimp only
  rw [← same]
  split <;> rfl

theorem allocate_of_weightless (weightless : ¬0 < top candidates) :
    allocate candidates maxOutputChars maxFiles = ⟨[], [], [], 0⟩ := by
  rw [allocate, if_pos (not_lt.mp weightless), ite_self]

/-- The proportional parts of a remainder do not exceed it. -/
theorem sum_floor_le (remainder : Nat) {whole : ℚ} (positive : 0 < whole) (shared : List Candidate) :
    ((shared.map fun candidate => ⌊(remainder : ℚ) * candidate.weight / whole⌋₊).sum : ℚ) ≤
      remainder * total shared / whole := by
  unfold total
  induction shared with
  | nil => simp
  | cons first rest ih =>
    have floor : (⌊(remainder : ℚ) * first.weight / whole⌋₊ : ℚ) ≤ remainder * first.weight / whole :=
      Nat.floor_le (div_nonneg (mul_nonneg (Nat.cast_nonneg _) (weight_nonneg first)) positive.le)
    rw [List.map_cons, List.sum_cons, List.map_cons, List.sum_cons, Nat.cast_add, mul_add, add_div]
    exact add_le_add floor ih

theorem sum_share_le (shared : List Candidate) (pool : Nat) (positive : 0 < total shared) :
    (shared.map fun candidate => share shared pool maxOutputChars candidate).sum ≤ pool := by
  have parts := sum_floor_le (pool - min pool (minChars * shared.length)) positive shared
  rw [mul_div_assoc, div_self positive.ne', mul_one, Nat.cast_le] at parts
  have bounded : (shared.map fun candidate => share shared pool maxOutputChars candidate).sum ≤
      (shared.map fun candidate => min pool (minChars * shared.length) / shared.length +
        ⌊((pool - min pool (minChars * shared.length) : Nat) : ℚ) * candidate.weight / total shared⌋₊).sum :=
    List.sum_le_sum fun candidate _ => min_le_left _ _
  rw [List.sum_map_add, List.map_const', List.sum_replicate, smul_eq_mul] at bounded
  have floors := Nat.mul_div_le (min pool (minChars * shared.length)) shared.length
  omega

theorem min_le_share {shared : List Candidate} {pool : Nat} (nonempty : shared ≠ [])
    (covers : minChars * shared.length ≤ pool) (candidate : Candidate) :
    min minChars (ceiling maxOutputChars) ≤ share shared pool maxOutputChars candidate := by
  unfold share
  dsimp only
  rw [min_eq_right covers, Nat.mul_div_cancel _ (List.length_pos_iff.mpr nonempty)]
  exact min_le_min_right _ (Nat.le_add_right _ _)

theorem path_mem_iff (distinct : (candidates.map Candidate.path).Nodup) (mem : candidate ∈ candidates)
    {part : List Candidate} (within : ∀ other ∈ part, other ∈ candidates) :
    candidate.path ∈ part.map Candidate.path ↔ candidate ∈ part := by
  constructor
  · intro listed
    obtain ⟨other, listed, same⟩ := List.mem_map.mp listed
    rwa [← List.inj_on_of_nodup_map distinct (within other listed) mem same]
  · exact List.mem_map_of_mem

section

variable (positive : 0 < top candidates)
include positive

/-- Where a candidate goes: over the cliff, out of the slots, out of the budget, or to the others
that share the pool. -/
theorem parts_iff (distinct : (candidates.map Candidate.path).Nodup) (mem : candidate ∈ candidates) :
    let allocation := allocate candidates maxOutputChars maxFiles
    let admitted := candidates.filter (keeps candidates)
    let taken := candidate ∈ admitted.take maxFiles
    let retained := retains maxOutputChars (admitted.take maxFiles) candidate = true
    (candidate.path ∈ allocation.cliffed ↔ ¬keeps candidates candidate = true ∨ taken ∧ ¬retained) ∧
      (candidate.path ∈ allocation.slotLimited ↔ keeps candidates candidate = true ∧ ¬taken) ∧
      (candidate ∈ sharing candidates maxOutputChars maxFiles ↔ taken ∧ retained) ∧
      (taken → keeps candidates candidate = true) := by
  intro allocation admitted taken retained
  have inAdmitted : candidate ∈ admitted ↔ keeps candidates candidate = true := by
    rw [List.mem_filter, and_iff_right mem]
  have within : ∀ other ∈ admitted, other ∈ candidates := fun other listed => (List.mem_filter.mp listed).1
  have apart : List.Disjoint (admitted.take maxFiles) (admitted.drop maxFiles) :=
    List.disjoint_take_drop (distinct.of_map.filter _) (le_refl _)
  have split : candidate ∈ admitted ↔ taken ∨ candidate ∈ admitted.drop maxFiles := by
    rw [← List.mem_append, List.take_append_drop]
  have same : allocate candidates maxOutputChars maxFiles = _ := allocate_of_top positive
  refine ⟨?_, ?_, ?_, fun listed => inAdmitted.mp (List.mem_of_mem_take listed)⟩
  · change candidate.path ∈ (allocate candidates maxOutputChars maxFiles).cliffed ↔ _
    rw [same, List.mem_append, path_mem_iff distinct mem fun other listed => (List.mem_filter.mp listed).1,
      path_mem_iff distinct mem fun other listed =>
        within other (List.mem_of_mem_take (List.mem_filter.mp listed).1),
      List.mem_filter, List.mem_filter]
    simp [mem, taken, retained, admitted]
  · change candidate.path ∈ (allocate candidates maxOutputChars maxFiles).slotLimited ↔ _
    rw [same, path_mem_iff distinct mem fun other listed => within other (List.mem_of_mem_drop listed),
      ← inAdmitted, split]
    constructor
    · exact fun listed => ⟨.inr listed, fun early => apart early listed⟩
    · exact fun both => both.1.resolve_left both.2
  · rw [sharing_of_top positive, List.mem_filter]

theorem allowances_of_top :
    let shared := sharing candidates maxOutputChars maxFiles
    let pool := maxOutputChars - fileOverhead * shared.length
    (allocate candidates maxOutputChars maxFiles).pool = pool ∧
      (allocate candidates maxOutputChars maxFiles).allowances = if shared = [] ∨ total shared ≤ 0 then []
        else shared.map fun candidate => (candidate.path, share shared pool maxOutputChars candidate) := by
  have same : allocate candidates maxOutputChars maxFiles = _ := allocate_of_top positive
  rw [same]
  exact ⟨rfl, rfl⟩

/-- The spine is never cut. -/
theorem not_mem_cliffed (distinct : (candidates.map Candidate.path).Nodup)
    (mem : candidate ∈ candidates) (spine : candidate.spine = true) :
    candidate.path ∉ (allocate candidates maxOutputChars maxFiles).cliffed := by
  have kept : keeps candidates candidate = true := by simp [keeps, spine]
  rw [(parts_iff positive distinct mem).1, kept]
  rintro (cliff | ⟨taken, cut⟩)
  · exact cliff rfl
  · refine cut ?_
    have listed := List.mem_map_of_mem (f := Candidate.path) (List.mem_filter.mpr ⟨taken, spine⟩)
    simp [retains, affordedPaths, listed]

theorem places_of_shared (distinct : (candidates.map Candidate.path).Nodup) (mem : candidate ∈ candidates)
    (shared : candidate.path ∈ (allocate candidates maxOutputChars maxFiles).allowances.map Prod.fst ↔
      candidate ∈ sharing candidates maxOutputChars maxFiles) :
    (allocate candidates maxOutputChars maxFiles).Places candidate.path := by
  obtain ⟨cliffed, slotLimited, sharing, kept⟩ :
    (candidate.path ∈ (allocate candidates maxOutputChars maxFiles).cliffed ↔ _) ∧ _ :=
      parts_iff positive distinct mem
  rw [Allocation.Places, shared, sharing, cliffed, slotLimited]
  tauto

end

end Parts

def weightless : Candidate := ⟨"src/lib.rs", 0, 1, false⟩

end Codegraph.Explore
