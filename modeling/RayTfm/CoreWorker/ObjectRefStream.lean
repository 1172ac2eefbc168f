import RayTfm.Lib.Histories
import RayTfm.Raylet.Check

/-! # The stream of a streaming generator

The owner of a streaming generator keeps an `ObjectRefStream` (`core_worker/task_manager.cc`) of the
objects that the generator has reported.  Reports arrive in any order and are repeated by retries,
the end is marked when the task finishes or fails, a reader takes the objects one by one, and a
reader that looks ahead makes the owner own an object temporarily.  `PopUnconsumedItems` gives the
references back that nobody has read.

`Admitted` says what the stream may answer after a history, in terms of the history alone: which ids
have been inserted, how many have been read, where the end has been marked.  `run_admitted` is the
refinement; the order of the reads, the end of the stream and what is given back at the end are read
off from it. -/

namespace RayTfm

open Raylet

/-- The part of the configuration that the stream reads. -/
structure RayConfig where
  maxNumGeneratorReturns : UInt32 := 100 * 1000 * 1000

/-- An object id: the task that makes the object, and the index of the object in it. -/
structure ObjectID where
  taskId : ℕ
  index : ℕ
deriving DecidableEq

/-- Indices of objects have 32 bits. -/
def kMaxObjectIndex : ℕ := 2 ^ 32 - 1

def ObjectID.fromIndex (taskId index : ℕ) : Except RayError ObjectID := do
  rayCheck (1 ≤ index && index ≤ kMaxObjectIndex) ("index=" ++ toString index)
  .ok ⟨taskId, index⟩

structure ObjectRefStream where
  generatorTaskId : ℕ
  temporarilyOwnedRefs : List ObjectID := []
  refsWrittenToStream : List ObjectID := []
  endOfStreamIndex : ℤ := -1
  nextIndex : ℤ := 0
  maxIndexSeen : ℤ := -1
  totalNumObjectWritten : ℤ := 0
  totalNumObjectConsumed : ℤ := 0
deriving DecidableEq

/-- The status and the object id of a read; the nil id is `none`. -/
inductive ReadResult where
  | ok (objectId : Option ObjectID)
  | endOfStream (objectId : ObjectID)
deriving DecidableEq

namespace ObjectRefStream

variable (config : RayConfig)

/-- Index 1 of the task is the generator itself. -/
def getObjectRefAtIndex (generatorTaskId : ℕ) (generatorIndex : ℤ) : Except RayError ObjectID := do
  rayCheck (generatorIndex < config.maxNumGeneratorReturns.toNat)
    (" " ++ toString generatorIndex ++ " vs " ++ toString config.maxNumGeneratorReturns.toNat)
  ObjectID.fromIndex generatorTaskId ((2 + generatorIndex) % 2 ^ 32).toNat

def isFinished (s : ObjectRefStream) : Bool :=
  s.endOfStreamIndex != -1 && s.endOfStreamIndex ≤ s.nextIndex

def tryReadNextItem (s : ObjectRefStream) : Except RayError (ObjectRefStream × ReadResult) := do
  let objectId ← getObjectRefAtIndex config s.generatorTaskId s.nextIndex
  if s.isFinished then do
    rayCheck (s.nextIndex = s.endOfStreamIndex) ""
    .ok (s, .endOfStream objectId)
  else if objectId ∈ s.refsWrittenToStream then
    .ok ({ s with totalNumObjectConsumed := s.totalNumObjectConsumed + 1, nextIndex := s.nextIndex + 1 },
      .ok (some objectId))
  else .ok (s, .ok none)

def temporarilyInsertToStreamIfNeeded (s : ObjectRefStream) (objectId : ObjectID) :
    ObjectRefStream × Bool :=
  if objectId ∈ s.refsWrittenToStream then (s, false)
  else ({ s with temporarilyOwnedRefs := s.temporarilyOwnedRefs.insert objectId }, true)

def insertToStream (s : ObjectRefStream) (objectId : ObjectID) (itemIndex : ℤ) :
    Except RayError (ObjectRefStream × Bool) := do
  let expected ← getObjectRefAtIndex config s.generatorTaskId itemIndex
  rayCheck (objectId = expected) ""
  if s.endOfStreamIndex ≠ -1 ∧ s.endOfStreamIndex ≤ itemIndex then do
    rayCheck (s.nextIndex ≤ s.endOfStreamIndex) ""
    -- the stream has ended before the report arrives
    .ok (s, false)
  else if itemIndex < s.nextIndex then .ok (s, false)
  else
    let s := { s with temporarilyOwnedRefs := s.temporarilyOwnedRefs.filter (· ≠ objectId) }
    if objectId ∈ s.refsWrittenToStream then .ok (s, false)
    else
      .ok ({ s with
        refsWrittenToStream := s.refsWrittenToStream.insert objectId
        maxIndexSeen := max s.maxIndexSeen itemIndex
        totalNumObjectWritten := s.totalNumObjectWritten + 1 }, true)

/-- The id at the end of the stream is put out when the call marks the end. -/
def markEndOfStream (s : ObjectRefStream) (itemIndex : ℤ) :
    Except RayError (ObjectRefStream × Option ObjectID) :=
  if s.endOfStreamIndex ≠ -1 then .ok (s, none)
  else do
    let s := { s with endOfStreamIndex := max s.nextIndex itemIndex }
    let endOfStreamId ← getObjectRefAtIndex config s.generatorTaskId s.endOfStreamIndex
    .ok (s, some endOfStreamId)

/-- A round of the loop of `popUnconsumedItems`. -/
def popItem (acc : ObjectRefStream × List ObjectID) (index : ℕ) :
    Except RayError (ObjectRefStream × List ObjectID) := do
  let objectId ← getObjectRefAtIndex config acc.1.generatorTaskId index
  if objectId ∈ acc.1.refsWrittenToStream ∧ acc.1.nextIndex ≤ index then
    .ok ({ acc.1 with refsWrittenToStream := acc.1.refsWrittenToStream.filter (· ≠ objectId) },
      acc.2 ++ [objectId])
  else .ok acc

/-- The id of the end of the stream, which no caller consumes. -/
def endOfStreamIds (s : ObjectRefStream) : Except RayError (List ObjectID) :=
  if s.endOfStreamIndex ≠ -1 then do
    let objectId ← getObjectRefAtIndex config s.generatorTaskId s.endOfStreamIndex
    .ok [objectId]
  else .ok []

def popUnconsumedItems (s : ObjectRefStream) : Except RayError (ObjectRefStream × List ObjectID) := do
  let popped ← (List.range (s.maxIndexSeen + 1).toNat).foldlM (popItem config) (s, [])
  let ends ← popped.1.endOfStreamIds config
  .ok ({ popped.1 with temporarilyOwnedRefs := [] }, popped.2 ++ ends ++ popped.1.temporarilyOwnedRefs)

end ObjectRefStream

open ObjectRefStream

/-! ### Operations and histories -/

/-- The calls of the task manager. -/
inductive StreamOp where
  | insertToStream (objectId : ObjectID) (itemIndex : ℤ)
  | temporarilyInsertToStreamIfNeeded (objectId : ObjectID)
  | markEndOfStream (itemIndex : ℤ)
  | tryReadNextItem

/-- A call and what it has put out. -/
inductive StreamEvent where
  | insertToStream (objectId : ObjectID) (itemIndex : ℤ) (written : Bool)
  | temporarilyInsertToStreamIfNeeded (objectId : ObjectID) (inserted : Bool)
  | markEndOfStream (itemIndex : ℤ) (endOfStreamId : Option ObjectID)
  | tryReadNextItem (result : ReadResult)
deriving DecidableEq

def ObjectRefStream.step (config : RayConfig) (s : ObjectRefStream) :
    StreamOp → Except RayError (ObjectRefStream × List StreamEvent)
  | .insertToStream objectId itemIndex => do
      let r ← s.insertToStream config objectId itemIndex
      .ok (r.1, [.insertToStream objectId itemIndex r.2])
  | .temporarilyInsertToStreamIfNeeded objectId =>
    let r := s.temporarilyInsertToStreamIfNeeded objectId
    .ok (r.1, [.temporarilyInsertToStreamIfNeeded objectId r.2])
  | .markEndOfStream itemIndex => do
      let r ← s.markEndOfStream config itemIndex
      .ok (r.1, [.markEndOfStream itemIndex r.2])
  | .tryReadNextItem => do
      let r ← s.tryReadNextItem config
      .ok (r.1, [.tryReadNextItem r.2])

/-- The ids that the reader has got. -/
def readIds (t : List StreamEvent) : List ObjectID :=
  t.filterMap (fun
    | .tryReadNextItem (.ok objectId) => objectId
    | _ => none)

/-- The ids that have been written to the stream. -/
def insertedIds (t : List StreamEvent) : List ObjectID :=
  t.filterMap (fun
    | .insertToStream objectId _ true => some objectId
    | _ => none)

/-- The ids that have been temporarily owned. -/
def temporaryIds (t : List StreamEvent) : List ObjectID :=
  t.filterMap (fun
    | .temporarilyInsertToStreamIfNeeded objectId true => some objectId
    | _ => none)

/-- The indices that have been reported as the end. -/
def markedIndices (t : List StreamEvent) : List ℤ :=
  t.filterMap (fun
    | .markEndOfStream itemIndex _ => some itemIndex
    | _ => none)

/-- The end of the stream: the index that is reported first as the end, but not less than what had
been read by then. -/
def EndsAt (t : List StreamEvent) (n : ℤ) : Prop :=
  ∃ (past : List StreamEvent) (itemIndex : ℤ) (endOfStreamId : Option ObjectID)
    (rest : List StreamEvent),
    t = past ++ .markEndOfStream itemIndex endOfStreamId :: rest ∧ markedIndices past = [] ∧
      n = max ((readIds past).length : ℤ) itemIndex

/-- The id of an item of the generator. -/
def itemId (taskId k : ℕ) : ObjectID := ⟨taskId, 2 + k⟩

/-- What the stream of a generator task may put out after a history. -/
def Admitted (taskId : ℕ) (past : List StreamEvent) : StreamEvent → Prop
  | .insertToStream objectId itemIndex written =>
    written = true ↔ (∀ n, EndsAt past n → itemIndex < n) ∧ (readIds past).length ≤ itemIndex ∧
      objectId ∉ insertedIds past
  | .temporarilyInsertToStreamIfNeeded objectId inserted => inserted = true ↔
      objectId ∉ insertedIds past
  | .markEndOfStream itemIndex endOfStreamId =>
    endOfStreamId =
      if markedIndices past =
        [] then some (itemId taskId (max ((readIds past).length : ℤ) itemIndex).toNat) else none
  | .tryReadNextItem (.ok (some objectId)) =>
    ¬ EndsAt past (readIds past).length ∧ objectId = itemId taskId (readIds past).length ∧
      objectId ∈ insertedIds past
  | .tryReadNextItem (.ok none) =>
    ¬ EndsAt past (readIds past).length ∧ itemId taskId (readIds past).length ∉ insertedIds past
  | .tryReadNextItem (.endOfStream objectId) =>
    EndsAt past (readIds past).length ∧ objectId = itemId taskId (readIds past).length

theorem itemId_injective (taskId : ℕ) : Function.Injective (itemId taskId) := by
  intro k k' h
  have hindex : 2 + k = 2 + k' := congrArg ObjectID.index h
  omega

/-! ### What a history determines -/

section histories
variable {t t' past rest : List StreamEvent} {e : StreamEvent} {taskId : ℕ} {n n' : ℤ}

@[simp] theorem readIds_append : readIds (t ++ t') = readIds t ++ readIds t' := List.filterMap_append

@[simp] theorem insertedIds_append : insertedIds (t ++ t') = insertedIds t ++ insertedIds t' :=
  List.filterMap_append

@[simp] theorem temporaryIds_append : temporaryIds (t ++ t') = temporaryIds t ++ temporaryIds t' :=
  List.filterMap_append

@[simp] theorem markedIndices_append : markedIndices (t ++ t') = markedIndices t ++ markedIndices t' :=
  List.filterMap_append

theorem EndsAt.append (h : EndsAt t n) (t' : List StreamEvent) : EndsAt (t ++ t') n := by
  obtain ⟨past, itemIndex, endOfStreamId, rest, rfl, hpast, hn⟩ := h
  exact ⟨past, itemIndex, endOfStreamId,
    rest ++ t', by rw [List.append_assoc, List.cons_append], hpast, hn⟩

theorem EndsAt.markedIndices_ne_nil (h : EndsAt t n) : markedIndices t ≠ [] := by
  obtain ⟨past, itemIndex, endOfStreamId, rest, rfl, -, -⟩ := h
  rw [markedIndices_append]
  exact List.append_ne_nil_of_right_ne_nil _ (List.cons_ne_nil _ _)

theorem endsAt_snoc : EndsAt (t ++ [e]) n ↔
    EndsAt t n ∨ markedIndices t = [] ∧ ∃ i id, e = .markEndOfStream i id ∧
    n = max ((readIds t).length : ℤ) i := by
  constructor
  · rintro ⟨past, itemIndex, endOfStreamId, rest, heq, hpast, hn⟩
    rcases List.eq_nil_or_concat rest with rfl | ⟨rest', e', rfl⟩
    · obtain ⟨rfl, hlast⟩ := List.append_inj' heq rfl
      cases hlast
      exact .inr ⟨hpast, itemIndex, endOfStreamId, rfl, hn⟩
    · rw [List.concat_eq_append, ← List.cons_append, ← List.append_assoc] at heq
      exact .inl ⟨past, itemIndex, endOfStreamId, rest', (List.append_inj' heq rfl).1, hpast, hn⟩
  · rintro (h | ⟨hmarked, itemIndex, endOfStreamId, rfl, hn⟩)
    · exact h.append [e]
    · exact ⟨t, itemIndex, endOfStreamId, [], rfl, hmarked, hn⟩

theorem endsAt_snoc_of_markedIndices (h : markedIndices [e] = []) :
    EndsAt (t ++ [e]) n ↔ EndsAt t n := by
  rw [endsAt_snoc]
  refine or_iff_left ?_
  rintro ⟨-, itemIndex, endOfStreamId, rfl, -⟩
  exact List.cons_ne_nil _ _ h

theorem readIds_eq (h : EachAfter (Admitted taskId) t) :
    readIds t = (List.range (readIds t).length).map (itemId taskId) := by
  refine EachAfter.induct (t := [])
    (Q := fun t => readIds t = (List.range (readIds t).length).map (itemId taskId)) h
    rfl ?_
  intro past e ih he
  rw [readIds_append]
  match e with
  | .insertToStream .. | .temporarilyInsertToStreamIfNeeded .. | .markEndOfStream ..
  | .tryReadNextItem (.ok none)
  | .tryReadNextItem (.endOfStream _) =>
    show readIds past ++ [] = (List.range (readIds past ++ []).length).map _
    rwa [List.append_nil]
  | .tryReadNextItem (.ok (some objectId)) =>
    obtain ⟨-, rfl, -⟩ := he
    show readIds past ++ [itemId taskId _] = (List.range (readIds past ++ [_]).length).map _
    rw [List.length_append, List.length_singleton, List.range_succ, List.map_append, ← ih,
      List.map_singleton]

variable {objectId : ObjectID}

theorem mem_readIds_iff (h : EachAfter (Admitted taskId) t) :
    objectId ∈ readIds t ↔ ∃ k < (readIds t).length, objectId = itemId taskId k := by
  rw [readIds_eq h, List.mem_map]
  simp only [List.mem_range, List.length_map, List.length_range, eq_comm]

theorem readIds_subset_insertedIds (h : EachAfter (Admitted taskId) t) : readIds t ⊆ insertedIds t := by
  refine EachAfter.induct (t := []) (Q := fun t => readIds t ⊆ insertedIds t) h (List.nil_subset _) ?_
  intro past e ih he
  rw [readIds_append, insertedIds_append]
  refine List.Subset.trans ?_ (List.subset_append_left _ _)
  match e with
  | .insertToStream .. | .temporarilyInsertToStreamIfNeeded .. | .markEndOfStream ..
  | .tryReadNextItem (.ok none)
  | .tryReadNextItem (.endOfStream _) =>
    show readIds past ++ [] ⊆ _
    rwa [List.append_nil]
  | .tryReadNextItem (.ok (some objectId)) =>
    obtain ⟨-, -, hmem⟩ := he
    exact List.append_subset.mpr ⟨ih, List.cons_subset.mpr ⟨hmem, List.nil_subset _⟩⟩

/-- A read answers with the end of the stream if and only if all items before the end have been
read. -/
theorem endOfStream_iff (h : EachAfter (Admitted taskId) t) {r : ReadResult}
    (ht : t = past ++ .tryReadNextItem r :: rest) :
    (∃ objectId, r = .endOfStream objectId) ↔ EndsAt past (readIds past).length := by
  have he := h past _ rest ht
  match r with
  | .ok (some objectId) => exact ⟨nofun, fun hend => absurd hend he.1⟩
  | .ok none => exact ⟨nofun, fun hend => absurd hend he.1⟩
  | .endOfStream objectId => exact ⟨fun _ => he.1, fun _ => ⟨objectId, rfl⟩⟩

theorem readIds_after_end (h : EachAfter (Admitted taskId) (t ++ t'))
    (hend : EndsAt t (readIds t).length) :
    readIds (t ++ t') = readIds t := by
  have hboth : readIds (t ++ t') = readIds t ∧ EndsAt (t ++ t') (readIds t).length := by
    refine EachAfter.induct (Q := fun s => readIds s = readIds t ∧ EndsAt s (readIds t).length) h
      ⟨rfl, hend⟩ ?_
    rintro past e ⟨hread, hpast⟩ he
    refine ⟨?_, hpast.append [e]⟩
    rw [readIds_append, hread]
    match e with
    | .insertToStream .. | .temporarilyInsertToStreamIfNeeded .. | .markEndOfStream ..
    | .tryReadNextItem (.ok none)
    | .tryReadNextItem (.endOfStream _) => exact List.append_nil _
    | .tryReadNextItem (.ok (some objectId)) =>
      obtain ⟨hnot, -, -⟩ := he
      rw [hread] at hnot
      exact absurd hpast hnot
  exact hboth.1

theorem endOfStream_forever (h : EachAfter (Admitted taskId) t) {r : ReadResult}
    (ht : t = past ++ .tryReadNextItem (.endOfStream objectId) :: rest)
    (hr : .tryReadNextItem r ∈ rest) :
    r = .endOfStream objectId := by
  obtain ⟨rest₁, rest₂, rfl⟩ := List.append_of_mem hr
  rw [← List.cons_append, ← List.append_assoc] at ht
  obtain ⟨hend, hid⟩ := h past _ _ (ht.trans (by rw [List.append_assoc, List.cons_append]))
  have hread := readIds_after_end (EachAfter.of_append (ht ▸ h)) hend
  have hend' := hend.append (.tryReadNextItem (.endOfStream objectId) :: rest₁)
  rw [← hread] at hend'
  obtain ⟨objectId', rfl⟩ := (endOfStream_iff h ht).mpr hend'
  have hid' := (h _ _ _ ht).2
  rw [hread] at hid'
  rw [hid, hid']

end histories

/-! ### The refinement -/

/-- The number of indices that have an id: an index is below the limit, and the index of its object
has 32 bits. -/
def idLimit (config : RayConfig) : ℕ := min config.maxNumGeneratorReturns.toNat (2 ^ 32 - 2)

/-- A report comes with the id that the generator task gives to the index. -/
def StreamOp.HasItsId (config : RayConfig) (taskId : ℕ) : StreamOp → Prop
  | .insertToStream objectId itemIndex => getObjectRefAtIndex config taskId itemIndex = .ok objectId
  | _ => True

/-- The calls that look for the id of an index beyond the limit: the first mark of an end that is
not below it, and a read when all indices below it have been read. -/
def BeyondLimit (config : RayConfig) (t : List StreamEvent) : StreamOp → Prop
  | .markEndOfStream itemIndex =>
    markedIndices t = [] ∧ (idLimit config : ℤ) ≤ max ((readIds t).length : ℤ) itemIndex
  | .tryReadNextItem => idLimit config ≤ (readIds t).length
  | _ => False

/-- The positions of the stream after a history: how far it has been read, and where it ends. -/
structure PositionInv (config : RayConfig) (s : ObjectRefStream) (t : List StreamEvent) : Prop where
  next : s.nextIndex = (readIds t).length
  marked : s.endOfStreamIndex = -1 ↔ markedIndices t = []
  ends : ∀ n, EndsAt t n ↔ s.endOfStreamIndex ≠ -1 ∧ n = s.endOfStreamIndex
  next_le : s.endOfStreamIndex ≠ -1 → s.nextIndex ≤ s.endOfStreamIndex
  end_lt : s.endOfStreamIndex < idLimit config

/-- The references of the stream after a history. -/
structure RefsInv (config : RayConfig) (taskId : ℕ) (s : ObjectRefStream) (t : List StreamEvent) :
    Prop where
  written : ∀ objectId, objectId ∈ s.refsWrittenToStream ↔ objectId ∈ insertedIds t
  item : ∀ objectId ∈ s.refsWrittenToStream, ∃ k : ℕ, objectId = itemId taskId k ∧
    (k : ℤ) ≤ s.maxIndexSeen
  max_lt : s.maxIndexSeen < idLimit config
  temporary : ∀ objectId, objectId ∈ s.temporarilyOwnedRefs ↔ objectId ∈ temporaryIds t ∧
    objectId ∉ insertedIds t

/-- The state of the stream after a history. -/
structure StreamInv (config : RayConfig) (taskId : ℕ) (s : ObjectRefStream) (t : List StreamEvent) :
    Prop where
  task : s.generatorTaskId = taskId
  position : PositionInv config s t
  refs : RefsInv config taskId s t

section refinement
variable {config : RayConfig} {taskId : ℕ} {s s' : ObjectRefStream} {t : List StreamEvent}
    {objectId : ObjectID}
  {i : ℤ} {e : StreamEvent}

theorem getObjectRefAtIndex_eq_ok (hi : 0 ≤ i) :
    getObjectRefAtIndex config taskId i = .ok objectId ↔ i < idLimit config ∧
    objectId = itemId taskId i.toNat := by
  have hlimit := config.maxNumGeneratorReturns.toNat_lt
  unfold getObjectRefAtIndex ObjectID.fromIndex idLimit itemId kMaxObjectIndex
  simp only [bind_eq_ok, rayCheck_eq_ok, decide_eq_true_eq, Bool.and_eq_true, Except.ok.injEq,
    exists_const]
  constructor
  · rintro ⟨hlt, ⟨hindex, -⟩, rfl⟩
    have hindex' : ((2 + i) % 2 ^ 32).toNat = 2 + i.toNat := by omega
    exact ⟨by omega, by rw [hindex']⟩
  · rintro ⟨hlt, rfl⟩
    have hindex' : ((2 + i) % 2 ^ 32).toNat = 2 + i.toNat := by omega
    exact ⟨by omega, by omega, by rw [hindex']⟩

theorem StreamInv.start : StreamInv config taskId { generatorTaskId := taskId } [] where
  task := rfl
  position := {
    next := rfl
    marked := ⟨fun _ => rfl, fun _ => rfl⟩
    ends := fun _ => ⟨fun h => absurd rfl h.markedIndices_ne_nil, fun h => absurd rfl h.1⟩
    next_le := fun h => absurd rfl h
    end_lt := neg_one_lt_zero.trans_le (Int.natCast_nonneg _) }
  refs := {
    written := fun _ => Iff.rfl
    item := fun _ hmem => absurd hmem List.not_mem_nil
    max_lt := neg_one_lt_zero.trans_le (Int.natCast_nonneg _)
    temporary := fun _ => iff_of_false List.not_mem_nil (fun h => absurd h.1 List.not_mem_nil) }

theorem PositionInv.endsAt_end (h : PositionInv config s t) (hend : s.endOfStreamIndex ≠ -1) :
    EndsAt t s.endOfStreamIndex := (h.ends _).mpr ⟨hend, rfl⟩

theorem PositionInv.frame (h : PositionInv config s t) (hnext : s'.nextIndex = s.nextIndex)
    (hend : s'.endOfStreamIndex = s.endOfStreamIndex) (hread : readIds [e] = [])
    (hmarked : markedIndices t = [] → markedIndices [e] = []) : PositionInv config s' (t ++ [e]) where
  next := by rw [readIds_append, hread, List.append_nil, hnext, h.next]
  marked := by
    rw [markedIndices_append, List.append_eq_nil_iff, hend, h.marked]
    exact ⟨fun hnil => ⟨hnil, hmarked hnil⟩, And.left⟩
  ends := by
    intro n
    rw [endsAt_snoc, h.ends, hend]
    refine or_iff_left ?_
    rintro ⟨hnil, i, id, rfl, -⟩
    exact List.cons_ne_nil _ _ (hmarked hnil)
  next_le := by
    rw [hend, hnext]
    exact h.next_le
  end_lt := hend ▸ h.end_lt

theorem RefsInv.frame (h : RefsInv config taskId s t)
    (hwritten : s'.refsWrittenToStream = s.refsWrittenToStream)
    (hmax : s'.maxIndexSeen = s.maxIndexSeen) (hrefs : s'.temporarilyOwnedRefs = s.temporarilyOwnedRefs)
    (hinserted : insertedIds [e] = []) (htemporary : temporaryIds [e] = []) :
    RefsInv config taskId s' (t ++ [e]) where
  written := by
    rw [insertedIds_append, hinserted, List.append_nil, hwritten]
    exact h.written
  item := by
    rw [hwritten, hmax]
    exact h.item
  max_lt := hmax ▸ h.max_lt
  temporary := by
    rw [insertedIds_append, temporaryIds_append, hinserted, htemporary, List.append_nil,
      List.append_nil, hrefs]
    exact h.temporary

theorem StreamInv.same (h : StreamInv config taskId s t) (hread : readIds [e] = [])
    (hinserted : insertedIds [e] = []) (htemporary : temporaryIds [e] = [])
    (hmarked : markedIndices t = [] → markedIndices [e] = []) :
    StreamInv config taskId s (t ++ [e]) where
  task := h.task
  position := h.position.frame rfl rfl hread hmarked
  refs := h.refs.frame rfl rfl rfl hinserted htemporary

theorem insertToStream_spec (h : StreamInv config taskId s t)
    (hid : getObjectRefAtIndex config taskId i = .ok objectId) :
    ∃ (s' : ObjectRefStream) (written : Bool), s.insertToStream config objectId i = .ok (s', written) ∧
      Admitted taskId t (.insertToStream objectId i written) ∧
      StreamInv config taskId s' (t ++ [.insertToStream objectId i written]) := by
  have hnext := h.position.next
  have hid' : getObjectRefAtIndex config s.generatorTaskId i = .ok objectId := h.task ▸ hid
  unfold insertToStream
  rw [hid', ok_bind, decide_eq_true rfl, rayCheck_true, ok_bind]
  by_cases hend : s.endOfStreamIndex ≠ -1 ∧ s.endOfStreamIndex ≤ i
  · rw [if_pos hend, decide_eq_true (h.position.next_le hend.1), rayCheck_true, ok_bind]
    refine ⟨s, false, rfl, iff_of_false Bool.false_ne_true ?_, h.same rfl rfl rfl (fun _ => rfl)⟩
    rintro ⟨hlt, -, -⟩
    exact absurd (hlt _ (h.position.endsAt_end hend.1)) (not_lt.mpr hend.2)
  rw [if_neg hend]
  by_cases hread : i < s.nextIndex
  · rw [if_pos hread]
    refine ⟨s, false, rfl, iff_of_false Bool.false_ne_true ?_, h.same rfl rfl rfl (fun _ => rfl)⟩
    rintro ⟨-, hle, -⟩
    omega
  rw [if_neg hread]
  obtain ⟨hlt, hitem⟩ := (getObjectRefAtIndex_eq_ok (by omega)).mp hid
  by_cases hwritten : objectId ∈ s.refsWrittenToStream
  · refine ⟨_, _, if_pos hwritten, iff_of_false Bool.false_ne_true ?_, h.task,
      h.position.frame rfl rfl rfl (fun _ => rfl), ?_⟩
    · rintro ⟨-, -, hnew⟩
      exact absurd ((h.refs.written _).mp hwritten) hnew
    · refine RefsInv.frame (s :=
        { s with temporarilyOwnedRefs := s.temporarilyOwnedRefs.filter (· ≠ objectId) })
        ⟨h.refs.written, h.refs.item, h.refs.max_lt, ?_⟩ rfl rfl rfl rfl rfl
      intro id
      rw [List.mem_filter, h.refs.temporary, decide_eq_true_eq]
      refine and_iff_left_of_imp (fun hid' heq => hid'.2 ?_)
      rwa [heq, ← h.refs.written]
  · refine ⟨_, _, if_neg hwritten, ⟨fun _ => ⟨?_, ?_, ?_⟩, fun _ => rfl⟩, h.task,
      h.position.frame rfl rfl rfl (fun _ => rfl), ?_⟩
    · intro n hn
      obtain ⟨hmarked, rfl⟩ := (h.position.ends n).mp hn
      exact not_le.mp (fun hle => hend ⟨hmarked, hle⟩)
    · omega
    · rwa [← h.refs.written]
    · constructor
      · intro id
        rw [insertedIds_append, List.mem_append, ← h.refs.written, List.mem_insert_iff, or_comm]
        exact or_congr_right List.mem_singleton.symm
      · intro id hmem
        rcases List.mem_insert_iff.mp hmem with rfl | hmem
        · exact ⟨i.toNat, hitem, by simp only; omega⟩
        · obtain ⟨k, hk, hle⟩ := h.refs.item id hmem
          exact ⟨k, hk, hle.trans (le_max_left _ _)⟩
      · exact max_lt h.refs.max_lt hlt
      · intro id
        rw [List.mem_filter, h.refs.temporary, decide_eq_true_eq, temporaryIds_append,
        insertedIds_append, and_assoc,
          List.mem_append, List.mem_append, not_or]
        refine and_congr (or_iff_left List.not_mem_nil).symm (and_congr_right fun _ => not_congr ?_)
        exact List.mem_singleton.symm

theorem temporarilyInsertToStreamIfNeeded_spec (h : StreamInv config taskId s t) (objectId : ObjectID) :
    ∃ (s' : ObjectRefStream) (inserted : Bool), s.temporarilyInsertToStreamIfNeeded objectId =
      (s', inserted) ∧
      Admitted taskId t (.temporarilyInsertToStreamIfNeeded objectId inserted) ∧
      StreamInv config taskId s' (t ++ [.temporarilyInsertToStreamIfNeeded objectId inserted]) := by
  unfold temporarilyInsertToStreamIfNeeded
  by_cases hwritten : objectId ∈ s.refsWrittenToStream
  · rw [if_pos hwritten]
    refine ⟨s, false, rfl, iff_of_false Bool.false_ne_true ?_, h.same rfl rfl rfl (fun _ => rfl)⟩
    intro hnew
    exact absurd ((h.refs.written _).mp hwritten) hnew
  · rw [if_neg hwritten]
    have hnew : objectId ∉ insertedIds t := by rwa [← h.refs.written]
    refine ⟨_, true, rfl, ⟨fun _ => hnew, fun _ => rfl⟩, h.task, h.position.frame rfl rfl rfl
      (fun _ => rfl), ?_⟩
    constructor
    · intro id
      rw [insertedIds_append, List.mem_append]
      exact (h.refs.written id).trans (or_iff_left List.not_mem_nil).symm
    · exact h.refs.item
    · exact h.refs.max_lt
    · intro id
      rw [List.mem_insert_iff, h.refs.temporary, temporaryIds_append, insertedIds_append,
        List.mem_append, List.mem_append]
      constructor
      · rintro (rfl | ⟨hmem, hnot⟩)
        · exact ⟨.inr (.head _), not_or.mpr ⟨hnew, List.not_mem_nil⟩⟩
        · exact ⟨.inl hmem, not_or.mpr ⟨hnot, List.not_mem_nil⟩⟩
      · rintro ⟨hmem | hmem, hnot⟩
        · exact .inr ⟨hmem, (not_or.mp hnot).1⟩
        · exact .inl (List.mem_singleton.mp hmem)

theorem markEndOfStream_spec (h : StreamInv config taskId s t)
    (hok : ¬ BeyondLimit config t (.markEndOfStream i)) :
    ∃ (s' : ObjectRefStream) (endOfStreamId : Option ObjectID), s.markEndOfStream config i =
      .ok (s', endOfStreamId) ∧
      Admitted taskId t (.markEndOfStream i endOfStreamId) ∧
      StreamInv config taskId s' (t ++ [.markEndOfStream i endOfStreamId]) := by
  have hnext := h.position.next
  unfold markEndOfStream
  by_cases hend : s.endOfStreamIndex ≠ -1
  · have hmarked : markedIndices t ≠ [] := fun hnil => hend (h.position.marked.mpr hnil)
    rw [if_pos hend]
    exact ⟨s, none, rfl, (if_neg hmarked).symm, h.same rfl rfl rfl (fun hnil => absurd hnil hmarked)⟩
  · have hmarked := h.position.marked.mp (not_not.mp hend)
    have hlt : max s.nextIndex i < idLimit config := by
      rw [hnext]
      exact not_le.mp (fun hle => hok ⟨hmarked, hle⟩)
    have hnonneg : 0 ≤ max s.nextIndex i := le_max_of_le_left (by omega)
    have hid : getObjectRefAtIndex config s.generatorTaskId (max s.nextIndex i) =
        .ok (itemId taskId (max s.nextIndex i).toNat) := by
      rw [h.task, getObjectRefAtIndex_eq_ok hnonneg]
      exact ⟨hlt, rfl⟩
    rw [if_neg hend]
    simp only
    rw [hid, ok_bind]
    refine ⟨_, _, rfl, ?_, h.task, ?_, h.refs.frame rfl rfl rfl rfl rfl⟩
    · show _ = if markedIndices t = [] then _ else none
      rw [if_pos hmarked, ← hnext]
    · constructor
      · rw [readIds_append]
        exact hnext.trans (by rw [List.length_append]; rfl)
      · rw [markedIndices_append]
        refine ⟨fun heq => ?_, fun hnil => absurd hnil
          (List.append_ne_nil_of_right_ne_nil _ (List.cons_ne_nil _ _))⟩
        simp only at heq
        omega
      · intro n
        rw [endsAt_snoc, h.position.ends]
        constructor
        · rintro (⟨hne, -⟩ | ⟨-, i', id, heq, rfl⟩)
          · exact absurd hne hend
          · cases heq
            rw [← hnext]
            exact ⟨by simp only; omega, rfl⟩
        · rintro ⟨-, rfl⟩
          exact .inr ⟨hmarked, i, _, rfl, by rw [← hnext]⟩
      · exact fun _ => le_max_left _ _
      · exact hlt

theorem tryReadNextItem_spec (h : StreamInv config taskId s t) (hok : ¬ BeyondLimit config t .tryReadNextItem) :
    ∃ (s' : ObjectRefStream) (r : ReadResult), s.tryReadNextItem config = .ok (s', r) ∧
      Admitted taskId t (.tryReadNextItem r) ∧ StreamInv config taskId s' (t ++ [.tryReadNextItem r]) := by
  have hnext := h.position.next
  have hid : getObjectRefAtIndex config s.generatorTaskId s.nextIndex =
      .ok (itemId taskId (readIds t).length) := by
    rw [h.task, getObjectRefAtIndex_eq_ok (by omega), hnext]
    exact ⟨by exact_mod_cast not_le.mp hok, rfl⟩
  unfold tryReadNextItem isFinished
  rw [hid, ok_bind]
  by_cases hend : s.endOfStreamIndex ≠ -1 ∧ s.endOfStreamIndex ≤ s.nextIndex
  · have heq : s.nextIndex = s.endOfStreamIndex := le_antisymm (h.position.next_le hend.1) hend.2
    have hends : EndsAt t (readIds t).length := by
      rw [← hnext, heq]
      exact h.position.endsAt_end hend.1
    rw [if_pos (by simpa using hend), decide_eq_true heq, rayCheck_true, ok_bind]
    exact ⟨s, _, rfl, ⟨hends, rfl⟩, h.same rfl rfl rfl (fun _ => rfl)⟩
  have hnot : ¬ EndsAt t (readIds t).length := by
    rw [← hnext, h.position.ends]
    rintro ⟨hmarked, heq⟩
    exact hend ⟨hmarked, heq.symm.le⟩
  rw [if_neg (by simpa using hend)]
  by_cases hwritten : itemId taskId (readIds t).length ∈ s.refsWrittenToStream
  · rw [if_pos hwritten]
    refine ⟨_, _, rfl, ⟨hnot, rfl, (h.refs.written _).mp hwritten⟩, h.task, ?_, h.refs.frame rfl rfl rfl rfl rfl⟩
    constructor
    · rw [readIds_append, List.length_append]
      exact congrArg (· + 1) hnext
    · rw [markedIndices_append]
      exact h.position.marked.trans (List.append_nil _ ▸ Iff.rfl)
    · intro n
      rw [endsAt_snoc_of_markedIndices rfl]
      exact h.position.ends n
    · intro hne
      exact not_le.mp (fun hle => hend ⟨hne, hle⟩)
    · exact h.position.end_lt
  · rw [if_neg hwritten]
    refine ⟨s, _, rfl, ⟨hnot, ?_⟩, h.same rfl rfl rfl (fun _ => rfl)⟩
    rwa [← h.refs.written]

/-! ### What is given back -/

/-- After some rounds of the loop: what has been inserted at their indices and not been read is
taken out. -/
structure Popped (taskId : ℕ) (s : ObjectRefStream) (done : List ℕ)
    (acc : ObjectRefStream × List ObjectID) : Prop where
  state : acc.1 = { s with refsWrittenToStream := acc.1.refsWrittenToStream }
  left : ∀ id, id ∈ acc.1.refsWrittenToStream ↔ id ∈ s.refsWrittenToStream ∧ id ∉ acc.2
  taken : ∀ id, id ∈ acc.2 ↔ id ∈ s.refsWrittenToStream ∧ ∃ k ∈ done, s.nextIndex ≤ k ∧
    id = itemId taskId k

theorem popItem_spec (h : StreamInv config taskId s t) {done : List ℕ} {b : ℕ}
    {acc : ObjectRefStream × List ObjectID} (hb : (b : ℤ) ≤ s.maxIndexSeen)
    (hp : Popped taskId s done acc) :
    ∃ acc', popItem config acc b = .ok acc' ∧ Popped taskId s (done ++ [b]) acc' := by
  have hmax := h.refs.max_lt
  have hid : getObjectRefAtIndex config acc.1.generatorTaskId b = .ok (itemId taskId b) := by
    rw [hp.state, h.task, getObjectRefAtIndex_eq_ok (Int.natCast_nonneg b)]
    exact ⟨by omega, rfl⟩
  have hnext : acc.1.nextIndex = s.nextIndex := by rw [hp.state]
  unfold popItem
  rw [hid, ok_bind]
  by_cases htake : itemId taskId b ∈ acc.1.refsWrittenToStream ∧ acc.1.nextIndex ≤ b
  · refine ⟨_, if_pos htake, ?_, ?_, ?_⟩
    · simp only
      rw [hp.state]
    · intro id
      rw [List.mem_filter, hp.left, decide_eq_true_eq, List.mem_append, List.mem_singleton, not_or,
        and_assoc]
    · intro id
      rw [List.mem_append, List.mem_singleton, hp.taken]
      constructor
      · rintro (⟨hmem, k, hk, hle⟩ | rfl)
        · exact ⟨hmem, k, List.mem_append_left _ hk, hle⟩
        · exact ⟨((hp.left _).mp htake.1).1, b, by simp, hnext ▸ htake.2, rfl⟩
      · rintro ⟨hmem, k, hk, hle, rfl⟩
        rcases List.mem_append.mp hk with hk | hk
        · exact .inl ⟨hmem, k, hk, hle, rfl⟩
        · exact .inr (congrArg _ (List.mem_singleton.mp hk))
  · refine ⟨_, if_neg htake, hp.state, hp.left, fun id => (hp.taken id).trans
      (and_congr_right fun hmem => ?_)⟩
    constructor
    · rintro ⟨k, hk, hle⟩
      exact ⟨k, List.mem_append_left _ hk, hle⟩
    · rintro ⟨k, hk, hle, rfl⟩
      rcases List.mem_append.mp hk with hk | hk
      · exact ⟨k, hk, hle, rfl⟩
      · -- an id that has been inserted and is not there any more has been taken out before
        cases List.mem_singleton.mp hk
        have hgone : itemId taskId b ∉ acc.1.refsWrittenToStream := fun hin => htake ⟨hin, hnext ▸ hle⟩
        rw [hp.left, not_and, not_not] at hgone
        exact ((hp.taken _).mp (hgone hmem)).2

theorem endOfStreamIds_spec (h : StreamInv config taskId s t) :
    ∃ ids, s.endOfStreamIds config = .ok ids ∧ ∀ id, id ∈ ids ↔ ∃ n : ℕ, EndsAt t n ∧
    id = itemId taskId n := by
  unfold endOfStreamIds
  by_cases hend : s.endOfStreamIndex ≠ -1
  · have hle := h.position.next_le hend
    have hnext := h.position.next
    have hid : getObjectRefAtIndex config s.generatorTaskId s.endOfStreamIndex =
        .ok (itemId taskId s.endOfStreamIndex.toNat) := by
      rw [h.task, getObjectRefAtIndex_eq_ok (by omega)]
      exact ⟨h.position.end_lt, rfl⟩
    refine ⟨[itemId taskId s.endOfStreamIndex.toNat], ?_, fun id => ?_⟩
    · rw [if_pos hend, hid, ok_bind]
    · rw [List.mem_singleton]
      constructor
      · rintro rfl
        exact ⟨_, (h.position.ends _).mpr ⟨hend, Int.toNat_of_nonneg (by omega)⟩, rfl⟩
      · rintro ⟨n, hn, rfl⟩
        rw [← ((h.position.ends _).mp hn).2, Int.toNat_natCast]
  · refine ⟨[], if_neg hend, fun id => iff_of_false List.not_mem_nil ?_⟩
    rintro ⟨n, hn, -⟩
    exact absurd ((h.position.ends _).mp hn).1 hend

/-- The ids that are given back: those that have been inserted at indices that are not read, the end
of the stream, and those that are still temporarily owned. -/
theorem popUnconsumedItems_spec (h : StreamInv config taskId s t) :
    ∃ s' ids, s.popUnconsumedItems config = .ok (s', ids) ∧ ∀ id, id ∈ ids ↔
      (id ∈ insertedIds t ∧ ∃ k ≥ (readIds t).length, id = itemId taskId k) ∨
        (∃ n : ℕ, EndsAt t n ∧ id = itemId taskId n) ∨ id ∈ temporaryIds t ∧ id ∉ insertedIds t := by
  obtain ⟨popped, hloop, hp⟩ : ∃ popped,
      (List.range (s.maxIndexSeen + 1).toNat).foldlM (popItem config) (s, []) = .ok popped ∧
        Popped taskId s (List.range (s.maxIndexSeen + 1).toNat) popped := by
    refine foldlM_ok ⟨rfl, fun _ => (and_iff_left List.not_mem_nil).symm,
      fun _ => iff_of_false List.not_mem_nil (by simp)⟩ ?_
    intro done b acc hb hp
    have hb' := List.mem_range.mp hb
    exact popItem_spec h (by omega) hp
  have htaken : ∀ id, id ∈ popped.2 ↔ id ∈ insertedIds t ∧ ∃ k ≥ (readIds t).length,
    id = itemId taskId k := by
    intro id
    rw [hp.taken, h.refs.written]
    refine and_congr_right fun hmem => ?_
    have hnext := h.position.next
    constructor
    · rintro ⟨k, -, hle, rfl⟩
      exact ⟨k, by omega, rfl⟩
    · rintro ⟨k, hle, rfl⟩
      obtain ⟨k', heq, hmax⟩ := h.refs.item _ ((h.refs.written _).mpr hmem)
      cases itemId_injective taskId heq
      exact ⟨k, List.mem_range.mpr (by omega), by omega, rfl⟩
  have hstate : popped.1.endOfStreamIds config = s.endOfStreamIds config := by
    rw [hp.state]
    rfl
  obtain ⟨ends, hrun, hends⟩ := endOfStreamIds_spec h
  refine ⟨{ popped.1 with temporarilyOwnedRefs := [] },
    popped.2 ++ ends ++ popped.1.temporarilyOwnedRefs, ?_,
    fun id => ?_⟩
  · unfold popUnconsumedItems
    rw [hloop, ok_bind, hstate, hrun, ok_bind]
  · rw [List.mem_append, List.mem_append, htaken, hends, hp.state, or_assoc]
    exact or_congr_right (or_congr_right (h.refs.temporary id))

/-! ### Runs -/

variable {op : StreamOp}

theorem step_spec (h : StreamInv config taskId s t) (hid : op.HasItsId config taskId)
    (hok : ¬ BeyondLimit config t op) :
    ∃ s' e, s.step config op = .ok (s', [e]) ∧ Admitted taskId t e ∧
    StreamInv config taskId s' (t ++ [e]) := by
  cases op with
  | insertToStream objectId itemIndex =>
    obtain ⟨s', written, hrun, hadmitted, h'⟩ := insertToStream_spec h hid
    exact ⟨s', _, by rw [step, hrun, ok_bind], hadmitted, h'⟩
  | temporarilyInsertToStreamIfNeeded objectId =>
    obtain ⟨s', inserted, hrun, hadmitted, h'⟩ := temporarilyInsertToStreamIfNeeded_spec h objectId
    exact ⟨s', _, by rw [step, hrun], hadmitted, h'⟩
  | markEndOfStream itemIndex =>
    obtain ⟨s', endOfStreamId, hrun, hadmitted, h'⟩ := markEndOfStream_spec h hok
    exact ⟨s', _, by rw [step, hrun, ok_bind], hadmitted, h'⟩
  | tryReadNextItem =>
    obtain ⟨s', r, hrun, hadmitted, h'⟩ := tryReadNextItem_spec h hok
    exact ⟨s', _, by rw [step, hrun, ok_bind], hadmitted, h'⟩

theorem step_ne_ok (h : StreamInv config taskId s t) (hbeyond : BeyondLimit config t op)
    (r : ObjectRefStream × List StreamEvent) : s.step config op ≠ .ok r := by
  have hnext := h.position.next
  intro hstep
  cases op with
  | insertToStream objectId itemIndex => exact hbeyond
  | temporarilyInsertToStreamIfNeeded objectId => exact hbeyond
  | markEndOfStream itemIndex =>
      obtain ⟨hmarked, hle⟩ := hbeyond
      obtain ⟨q, hmark, -⟩ := bind_eq_ok.mp hstep
      rw [markEndOfStream, if_neg (not_not.mpr (h.position.marked.mpr hmarked))] at hmark
      obtain ⟨id, hid, -⟩ := bind_eq_ok.mp hmark
      rw [getObjectRefAtIndex_eq_ok (le_max_of_le_left (by omega)), hnext] at hid
      exact absurd hid.1 (not_lt.mpr hle)
  | tryReadNextItem =>
      obtain ⟨q, hread, -⟩ := bind_eq_ok.mp hstep
      obtain ⟨id, hid, -⟩ := bind_eq_ok.mp hread
      rw [getObjectRefAtIndex_eq_ok (by omega), hnext] at hid
      have hlt : (readIds t).length < idLimit config := by exact_mod_cast hid.1
      exact absurd hlt (not_lt.mpr hbeyond)

theorem step_ok_iff (h : StreamInv config taskId s t) (hid : op.HasItsId config taskId) :
    (∃ r, s.step config op = .ok r) ↔ ¬ BeyondLimit config t op := by
  constructor
  · rintro ⟨r, hstep⟩ hbeyond
    exact step_ne_ok h hbeyond r hstep
  · intro hok
    obtain ⟨s', e, hstep, -⟩ := step_spec h hid hok
    exact ⟨_, hstep⟩

/-- The stream keeps to its specification in every run. -/
theorem run_admitted {ops : List StreamOp} (hids : ∀ op ∈ ops, op.HasItsId config taskId)
    (hrun : runSteps (ObjectRefStream.step config) { generatorTaskId := taskId } ops = .ok (s, t)) :
    EachAfter (Admitted taskId) t ∧ StreamInv config taskId s t := by
  refine runSteps_history (R := StreamInv config taskId) .start ?_ hids hrun
  intro s t op s' o hid h hstep
  have hok := (step_ok_iff h hid).mp ⟨_, hstep⟩
  obtain ⟨s'', e, hstep', hadmitted, h'⟩ := step_spec h hid hok
  cases hstep.symm.trans hstep'
  exact ⟨e, rfl, hadmitted, h'⟩

/-- The reader gets a prefix of the items without gaps, each after it has been inserted; the end of
the stream is returned from the end on; no check fails but for indices beyond the limit; what is
inserted or temporarily owned and not read is given back, and nothing that is read. -/
theorem objectRefStream_delivers {ops : List StreamOp} (hids : ∀ op ∈ ops, op.HasItsId config taskId)
    (hrun : runSteps (ObjectRefStream.step config) { generatorTaskId := taskId } ops = .ok (s, t)) :
    (readIds t = (List.range (readIds t).length).map (itemId taskId) ∧ (readIds t).Nodup) ∧
      (∀ (past : List StreamEvent) (id : ObjectID) (rest : List StreamEvent),
        t = past ++ .tryReadNextItem (.ok (some id)) :: rest → id ∈ insertedIds past) ∧
      (∀ (past : List StreamEvent) (r : ReadResult) (rest : List StreamEvent),
        t = past ++ .tryReadNextItem r :: rest →
        ((∃ id, r = .endOfStream id) ↔ EndsAt past (readIds past).length)) ∧
      (∀ (past : List StreamEvent) (id : ObjectID) (rest : List StreamEvent) (r : ReadResult),
        t = past ++ .tryReadNextItem (.endOfStream id) :: rest → .tryReadNextItem r ∈ rest →
        r = .endOfStream id) ∧
      (∀ n : ℤ, EndsAt t n → (readIds t).length ≤ n) ∧
      (∀ op : StreamOp, op.HasItsId config taskId →
        ((∃ r, s.step config op = .ok r) ↔ ¬ BeyondLimit config t op)) ∧
      ∃ (s' : ObjectRefStream) (ids : List ObjectID), s.popUnconsumedItems config = .ok (s', ids) ∧
        (∀ id : ObjectID, id ∈ insertedIds t ∨ id ∈ temporaryIds t → id ∉ readIds t → id ∈ ids) ∧
          ∀ id ∈ readIds t, id ∉ ids := by
  obtain ⟨hadmitted, h⟩ := run_admitted hids hrun
  have hreads := readIds_eq hadmitted
  have hmem : ∀ id, id ∈ readIds t ↔ ∃ k < (readIds t).length, id = itemId taskId k :=
    fun _ => mem_readIds_iff hadmitted
  have hle : ∀ n, EndsAt t n → (readIds t).length ≤ n := by
    intro n hn
    obtain ⟨hend, rfl⟩ := (h.position.ends n).mp hn
    exact h.position.next ▸ h.position.next_le hend
  refine ⟨⟨hreads, ?_⟩, ?_, fun _ _ _ => endOfStream_iff hadmitted,
    fun _ _ _ _ => endOfStream_forever hadmitted, hle,
    fun _ => step_ok_iff h, ?_⟩
  · rw [hreads]
    exact List.nodup_range.map (itemId_injective taskId)
  · intro past id rest ht
    exact (hadmitted past _ rest ht).2.2
  · obtain ⟨s', ids, hpop, hids⟩ := popUnconsumedItems_spec h
    refine ⟨s', ids, hpop, ?_, ?_⟩
    · intro id hgiven hnot
      rw [hids]
      by_cases hinserted : id ∈ insertedIds t
      · obtain ⟨k, rfl, -⟩ := h.refs.item id ((h.refs.written id).mpr hinserted)
        refine .inl ⟨hinserted, k, ?_, rfl⟩
        exact not_lt.mp (fun hlt => hnot ((hmem _).mpr ⟨k, hlt, rfl⟩))
      · exact .inr (.inr ⟨hgiven.resolve_left hinserted, hinserted⟩)
    · intro id hread hback
      obtain ⟨k, hlt, rfl⟩ := (hmem id).mp hread
      rcases (hids _).mp hback with ⟨-, k', hge, heq⟩ | ⟨n, hn, heq⟩ | ⟨-, hnew⟩
      · cases itemId_injective taskId heq
        exact absurd hlt (not_lt.mpr hge)
      · cases itemId_injective taskId heq
        have hge := hle _ hn
        omega
      · exact hnew (readIds_subset_insertedIds hadmitted hread)

/-- A report out of order, a reader that looks ahead, an end below what has been reported, a late
report. -/
theorem objectRefStream_delivers_retry :
    ∃ (s : ObjectRefStream) (t : List StreamEvent),
      runSteps (ObjectRefStream.step { maxNumGeneratorReturns := 8 }) { generatorTaskId := 7 }
        [.insertToStream ⟨7, 3⟩ 1, .tryReadNextItem, .temporarilyInsertToStreamIfNeeded ⟨7, 2⟩,
          .insertToStream ⟨7, 2⟩ 0, .tryReadNextItem, .markEndOfStream 0, .insertToStream ⟨7, 4⟩ 2,
          .tryReadNextItem] = .ok (s, t) ∧
      readIds t = [⟨7, 2⟩] ∧
      ∃ (s' : ObjectRefStream) (ids : List ObjectID),
        s.popUnconsumedItems { maxNumGeneratorReturns := 8 } = .ok (s', ids) ∧ ⟨7, 3⟩ ∈ ids ∧ ⟨7, 2⟩ ∉ ids := by
  have hrun : runSteps (ObjectRefStream.step { maxNumGeneratorReturns := 8 }) { generatorTaskId := 7 }
      [.insertToStream ⟨7, 3⟩ 1, .tryReadNextItem, .temporarilyInsertToStreamIfNeeded ⟨7, 2⟩,
        .insertToStream ⟨7, 2⟩ 0, .tryReadNextItem, .markEndOfStream 0, .insertToStream ⟨7, 4⟩ 2,
        .tryReadNextItem] =
      .ok (⟨7, [], [⟨7, 2⟩, ⟨7, 3⟩], 1, 1, 1, 2, 1⟩,
        [.insertToStream ⟨7, 3⟩ 1 true, .tryReadNextItem (.ok none), .temporarilyInsertToStreamIfNeeded ⟨7, 2⟩ true,
          .insertToStream ⟨7, 2⟩ 0 true, .tryReadNextItem (.ok (some ⟨7, 2⟩)), .markEndOfStream 0 (some ⟨7, 3⟩),
          .insertToStream ⟨7, 4⟩ 2 false, .tryReadNextItem (.endOfStream ⟨7, 3⟩)]) := rfl
  refine ⟨_, _, hrun, rfl, ?_⟩
  obtain ⟨-, -, -, -, -, -, s', ids, hpop, hback, hnot⟩ := @objectRefStream_delivers _ 7 _ _ _ (by
    simp only [List.forall_mem_cons]
    exact ⟨rfl, trivial, trivial, rfl, trivial, trivial, rfl, trivial, nofun⟩) hrun
  exact ⟨s', ids, hpop, hback _ (.inl (by decide)) (by decide), hnot _ (by decide)⟩

/-- The id of an index that is not below the limit: the end is marked there, or all items below it
have been read. -/
theorem objectRefStream_check_fails :
    runSteps (ObjectRefStream.step {}) { generatorTaskId := 7 } [.markEndOfStream 100000000] =
        .error (.checkFailed " 100000000 vs 100000000") ∧
      runSteps (ObjectRefStream.step { maxNumGeneratorReturns := 1 }) { generatorTaskId := 7 }
          [.insertToStream ⟨7, 2⟩ 0, .tryReadNextItem, .tryReadNextItem] = .error (.checkFailed " 1 vs 1") := by
  constructor
  · rfl
  · rfl

end refinement

end RayTfm
