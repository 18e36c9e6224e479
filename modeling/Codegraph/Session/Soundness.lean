import Codegraph.Session.Ledger
import Mathlib.Data.Set.Function

namespace Codegraph.Session

open Library List Option

def LineRange.Holds (range : LineRange) (line : Nat) : Prop := range.start ≤ line ∧ line ≤ range.stop

/-- A span shows a text when it is part of the span's own line. -/
def Span.Shows (span : Span) (line : Nat) (text : List Char) : Prop :=
  ∃ range shown, verbatimRange span = some range ∧ range.Holds line ∧
    (splitLines span.source)[line - span.start]? = some shown ∧ text <:+: shown

/-- A payload shows a text at a line of a file. -/
def Payload.Shows (payload : Payload) (path : String) (line : Nat) (text : List Char) : Prop :=
  ∃ spans span, (path, spans) ∈ payload.spans ∧ span ∈ spans ∧ span.Shows line text

/-- The text of a line without its terminator. -/
def Host.fileLine (host : Host) (bytes : Bytes) (line : Nat) : Option (List Char) :=
  ((splitLines (host.decode bytes))[line - 1]?).map fun text => (Text.stripSuffix ['\r'] text).getD text

/-- A merged range holds no line that the ranges did not hold. -/
theorem mem_mergeRange {merged : List LineRange} {range : LineRange} {line : Nat}
    (held : ∃ other ∈ mergeRange merged range, other.Holds line) :
    range.Holds line ∨ ∃ other ∈ merged, other.Holds line := by
  obtain ⟨other, mem, inside⟩ := held
  unfold mergeRange at mem
  cases last : merged.getLast? with
  | none =>
    rw [last] at mem
    obtain old | new := mem_append.mp mem
    · exact .inr ⟨other, old, inside⟩
    · obtain rfl := mem_singleton.mp new
      exact .inl inside
  | some final =>
    rw [last] at mem
    dsimp only at mem
    have present := mem_of_getLast? last
    split at mem
    · rename_i touches
      obtain old | new := mem_append.mp mem
      · exact .inr ⟨other, mem_of_mem_dropLast old, inside⟩
      obtain rfl := mem_singleton.mp new
      obtain ⟨lower, upper⟩ := inside
      change line ≤ max final.stop range.stop at upper
      by_cases within : line ≤ final.stop
      · exact .inr ⟨final, present, lower, within⟩
      · exact .inl ⟨by omega, by omega⟩
    obtain old | new := mem_append.mp mem
    · exact .inr ⟨other, old, inside⟩
    · obtain rfl := mem_singleton.mp new
      exact .inl inside

theorem mem_foldl_mergeRange {ranges merged : List LineRange} {line : Nat}
    (held : ∃ other ∈ ranges.foldl mergeRange merged, other.Holds line) :
    (∃ range ∈ ranges, range.Holds line) ∨ ∃ other ∈ merged, other.Holds line := by
  induction ranges generalizing merged with
  | nil => exact .inr held
  | cons range ranges ih =>
    obtain ⟨other, mem, inside⟩ | earlier := ih held
    · exact .inl ⟨other, mem_cons_of_mem _ mem, inside⟩
    obtain here | before := mem_mergeRange earlier
    · exact .inl ⟨range, mem_cons_self, here⟩
    · exact .inr before

/-- Coalescing claims no further line. -/
theorem mem_coalesce {ranges : List LineRange} {merged : LineRange} {line : Nat}
    (mem : merged ∈ (coalesce ranges).1) (inside : merged.Holds line) :
    ∃ range ∈ ranges, range.Holds line := by
  have fromMerged : ∃ other ∈ ((ranges.filter fun range =>
      1 ≤ range.start && range.start ≤ range.stop).mergeSort fun first second =>
        first.start < second.start || first.start = second.start && first.stop ≤ second.stop).foldl
          mergeRange [], other.Holds line := by
    unfold coalesce at mem
    dsimp only at mem
    split at mem
    · exact ⟨merged, mem_mergeSort.mp (mem_of_mem_take (mem_mergeSort.mp mem)), inside⟩
    · exact ⟨merged, mem, inside⟩
  obtain ⟨range, listed, here⟩ | ⟨_, nothing, _⟩ := mem_foldl_mergeRange fromMerged
  · exact ⟨range, mem_of_mem_filter (mem_mergeSort.mp listed), here⟩
  · cases nothing

variable {host : Host} {disk : Disk} {root path : String} {payload : Payload}

/-- A recorded file has the fingerprint of the disk, and its ranges are those of the spans. -/
theorem mem_emissions {file : FileEmission} (mem : file ∈ host.emissions disk root payload) :
    file.fingerprint = host.fileFingerprint disk root file.path ∧
      ∃ spans, (file.path, spans) ∈ payload.spans ∧
        file.ranges = (coalesce (spans.filterMap verbatimRange)).1 := by
  have listed := mem_mergeSort.mp (mem_of_mem_take mem)
  obtain ⟨⟨path, spans⟩, carried, emitted⟩ := mem_filterMap.mp listed
  unfold Host.emission at emitted
  dsimp only at emitted
  split at emitted
  · cases emitted
  · obtain rfl := some.inj emitted
    exact ⟨rfl, spans, carried, rfl⟩

/-- The files of the calls of a ledger after a call are old ones or those of the payload. -/
theorem mem_record {ledger : List ProjectState} {project : ProjectState} {call : CallRecord}
    {file : FileEmission} (held : project ∈ host.record disk ledger root payload)
    (called : call ∈ project.calls) (mem : file ∈ call.files) :
    (∃ old ∈ ledger, ∃ call ∈ old.calls, file ∈ call.files) ∨ file ∈ host.emissions disk root payload := by
  unfold Host.record at held
  split at held
  · obtain old | new := mem_append.mp (mem_of_mem_drop held)
    · exact .inl ⟨project, mem_of_mem_eraseP old, call, called, mem⟩
    obtain rfl := mem_singleton.mp new
    obtain earlier | now := mem_append.mp (mem_of_mem_drop called)
    · cases found : ledger.find? (host.sameProject root) with
      | none =>
        rw [found] at earlier
        cases earlier
      | some old =>
        rw [found] at earlier
        exact .inl ⟨old, mem_of_find?_eq_some found, call, earlier, mem⟩
    · obtain rfl := mem_singleton.mp now
      exact .inr mem
  · exact .inl ⟨project, held, call, called, mem⟩

/-- The calls of a view are calls of the ledger. -/
theorem mem_viewFor {ledger : List ProjectState} {call : CallRecord}
    (called : call ∈ (host.viewFor ledger root).calls) :
    ∃ project ∈ ledger, call ∈ project.calls := by
  unfold Host.viewFor at called
  split at called
  · rename_i project found
    exact ⟨project, mem_of_find?_eq_some found, mem_of_mem_drop called⟩
  · cases called

/-- The files, the ledger of the session, and the payloads that were recorded and delivered. -/
structure World where
  disk : Disk
  ledger : List ProjectState := []
  recorded : List Payload := []
  delivered : List Payload := []

/-- Files change on disk while payloads are delivered and recorded. -/
inductive Event where
  | edit (disk : Disk)
  | deliver (payload : Payload)
  | record (root : String) (payload : Payload)

def World.step (host : Host) (world : World) : Event → World
  | .edit disk => { world with disk := disk }
  | .deliver payload => { world with delivered := world.delivered ++ [payload] }
  | .record root payload =>
    { world with
      ledger := host.record world.disk world.ledger root payload
      recorded := world.recorded ++ [payload] }

def World.run (host : Host) (world : World) (events : List Event) : World :=
  events.foldl (World.step host) world

/-- The lines that a payload claims of a file still read on disk as the payload shows them. -/
def ReadsAs (host : Host) (disk : Disk) (root : String) (payload : Payload) : Prop :=
  ∀ path spans, (path, spans) ∈ payload.spans → ∀ bytes, disk root path = some bytes →
    ∀ span ∈ spans, ∀ range, verbatimRange span = some range → ∀ line, range.Holds line →
      ∃ text, host.fileLine bytes line = some text ∧ span.Shows line text

/-- The contents are among the given ones, and each payload is recorded while the files still read as
it shows them. -/
def Steady (host : Host) (contents : Set Bytes) (world : World) : Event → Prop
  | .edit disk => ∀ root path bytes, disk root path = some bytes → bytes ∈ contents
  | .deliver _ => True
  | .record root payload => ReadsAs host world.disk root payload

/-- Every step of a run is steady. -/
def SteadyRun (host : Host) (contents : Set Bytes) : World → List Event → Prop
  | _, [] => True
  | world, event :: events =>
    Steady host contents world event ∧ SteadyRun host contents (world.step host event) events

/-- The lines of a recorded file are those of contents with its fingerprint, and a recorded payload
shows them. -/
def Backed (host : Host) (contents : Set Bytes) (recorded : List Payload) (file : FileEmission) : Prop :=
  ∀ fingerprint, file.fingerprint = some fingerprint →
    ∃ bytes ∈ contents, host.contentFingerprint bytes = fingerprint ∧
      ∀ range ∈ file.ranges, ∀ line, range.Holds line → ∃ text, host.fileLine bytes line = some text ∧
          ∃ payload ∈ recorded, payload.Shows file.path line text

/-- All files of a ledger are backed. -/
structure Sound (host : Host) (contents : Set Bytes) (world : World) : Prop where
  stored : ∀ root path bytes, world.disk root path = some bytes → bytes ∈ contents
  backed : ∀ project ∈ world.ledger, ∀ call ∈ project.calls, ∀ file ∈ call.files,
    Backed host contents world.recorded file

variable {contents : Set Bytes}

theorem Backed.mono {fewer more : List Payload} {file : FileEmission}
    (grows : ∀ payload ∈ fewer, payload ∈ more) (backed : Backed host contents fewer file) :
    Backed host contents more file := by
  intro fingerprint same
  obtain ⟨bytes, known, hashed, shown⟩ := backed fingerprint same
  refine ⟨bytes, known, hashed, fun range mem line inside => ?_⟩
  obtain ⟨text, reads, payload, recorded, shows⟩ := shown range mem line inside
  exact ⟨text, reads, payload, grows payload recorded, shows⟩

/-- The files of a payload that reads as on disk are backed by the payload. -/
theorem backed_emissions (stored : ∀ root path bytes, disk root path = some bytes → bytes ∈ contents)
    (reads : ReadsAs host disk root payload) {file : FileEmission}
    (mem : file ∈ host.emissions disk root payload) :
    Backed host contents [payload] file := by
  obtain ⟨hashed, spans, carried, ranges⟩ := mem_emissions mem
  intro fingerprint same
  rw [hashed] at same
  obtain ⟨bytes, read, fingerprinted⟩ := map_eq_some_iff.mp same
  refine ⟨bytes, stored root file.path bytes read, fingerprinted, ?_⟩
  intro merged listed line inside
  rw [ranges] at listed
  obtain ⟨range, accepted, here⟩ := mem_coalesce listed inside
  obtain ⟨span, spanned, verbatim⟩ := mem_filterMap.mp accepted
  obtain ⟨text, onDisk, shows⟩ :=
    reads file.path spans carried bytes read span spanned range verbatim line here
  exact ⟨text, onDisk, payload, mem_singleton_self _, spans, span, carried, spanned, shows⟩

/-- A steady step keeps the ledger sound. -/
theorem Sound.step {world : World} {event : Event}
    (sound : Sound host contents world) (steady : Steady host contents world event) :
    Sound host contents (world.step host event) := by
  cases event with
  | edit disk => exact ⟨steady, sound.backed⟩
  | deliver payload => exact ⟨sound.stored, sound.backed⟩
  | record root payload =>
    refine ⟨sound.stored, fun project held call called file mem => ?_⟩
    obtain ⟨old, kept, earlier, listed, inside⟩ | new := mem_record held called mem
    · exact (sound.backed old kept earlier listed file inside).mono
        fun _ => mem_append_left _
    · exact (backed_emissions sound.stored steady new).mono fun _ => mem_append_right _

theorem Sound.run {world : World} {events : List Event}
    (sound : Sound host contents world) (steady : SteadyRun host contents world events) :
    Sound host contents (world.run host events) := by
  induction events generalizing world with
  | nil => exact sound
  | cons event events ih => exact ih (sound.step steady.1) steady.2

theorem SteadyRun.before {world : World} {before after : List Event}
    (steady : SteadyRun host contents world (before ++ after)) :
    SteadyRun host contents world before := by
  induction before generalizing world with
  | nil => trivial
  | cons event before ih => exact ⟨steady.1, ih steady.2⟩

/-- The served ranges of a view hold lines that a recorded payload shows. -/
theorem servedRanges_shown {world : World}
    (sound : Sound host contents world) (free : Set.InjOn host.contentFingerprint contents)
    {bytes : Bytes} (known : bytes ∈ contents) {range : LineRange} {line : Nat}
    (served : range ∈ servedRanges (host.viewFor world.ledger root) path
      (host.contentFingerprint bytes)) (inside : range.Holds line) :
    ∃ text, host.fileLine bytes line = some text ∧
      ∃ payload ∈ world.recorded, payload.Shows path line text := by
  obtain ⟨sent, listed, here⟩ := mem_coalesce served inside
  obtain ⟨file, kept, mem⟩ := mem_flatMap.mp listed
  obtain ⟨called, same⟩ := mem_filter.mp kept
  obtain ⟨call, viewed, inCall⟩ := mem_flatMap.mp called
  obtain ⟨project, held, inProject⟩ := mem_viewFor viewed
  obtain ⟨samePath, sameFingerprint⟩ := Bool.and_eq_true_iff.mp same
  obtain ⟨recorded, known', hashed, shown⟩ := sound.backed project held call inProject file inCall
    _ (of_decide_eq_true sameFingerprint)
  obtain rfl := free known' known hashed
  rw [← of_decide_eq_true samePath]
  exact shown sent mem line here

/-- A host whose hash lists the bytes. -/
def plainHost : Host where
  projectKey := id
  sha256Hex := fun bytes => bytes.flatMap Text.hexByte
  decode := fun bytes => bytes.map fun byte => Char.ofNat byte.toNat
  jsonLen := fun _ => 0

def emptyLines : Disk := fun _ _ => some (replicate 7 10)

def emptyRecord : List Event := [.record "r" (.file (some "f") ⟨some 1, some 8, some (replicate 7 '\n')⟩)]

def oneLine (byte : UInt8) : World := { disk := fun _ _ => some [byte] }

def firstLine : Payload := .file (some "f") ⟨some 1, some 1, some ['a']⟩

theorem firstLine_verbatim {path : String} {spans : List Span} {span : Span}
    (carried : (path, spans) ∈ firstLine.spans) (listed : span ∈ spans) :
    span = ⟨1, 1, ['a']⟩ := by
  obtain ⟨_, rfl⟩ := Prod.mk.inj (mem_singleton.mp carried)
  exact mem_singleton.mp listed

end Codegraph.Session
