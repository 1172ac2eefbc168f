import RayTfm.Data.HashLink

/-! # Splitting a stream over several outputs

The model of `execution/operators/output_splitter.py`.  Bundles wait in a buffer; each one goes to
the output with the fewest rows so far.  With `equal` a bundle goes out only if the buffer can still
level all outputs afterwards, and what is left at the end is split so that all outputs get the same
number of rows.

`locations` is the location lookup; its answers may change from call to call, so it is given the
number of the call.  Times and the metrics of the operator are left out. -/

namespace RayTfm.Data

variable {α : Type}

/-- A reference to a block in the object store; objects do not change. -/
structure ObjectRef (α : Type) where
  id : ℕ
  block : Block α
deriving DecidableEq

def ObjectRef.rows (r : ObjectRef α) : List α := r.block.rows

structure OutputSplitter (α : Type) where
  equal : Bool
  buffer : HashLinkedQueue (ObjectRef α)
  outputQueue : FIFOBundleQueue (ObjectRef α)
  /-- The rows that went to each output so far. -/
  numOutput : List ℕ
  localityHints : Option (List String)
  maxBufferSize : ℚ
  localityHits : ℕ
  localityMisses : ℕ
  /-- The calls of the location lookup so far. -/
  lookups : ℕ
  /-- The id of the next object that is put into the store. -/
  nextId : ℕ

namespace OutputSplitter

/-! ### Splitting a bundle -/

def splitSingleBlock (b : Block α) (leftSize : ℕ) : Except PyError (Block α × Block α) := do
  let left ← b.slice 0 (some (leftSize : ℤ))
  let right ← b.slice leftSize (some (b.rows.length : ℤ))
  pyAssert (left.rows.length = leftSize)
  pyAssert ((right.rows.length : ℤ) = b.rows.length - leftSize)
  .ok (left, right)

def splitMeta (m : BlockMetadata) (leftSize : ℕ) : Except PyError (BlockMetadata × BlockMetadata) :=
  match m.numRows, m.sizeBytes with
  | some n, some bytes =>
    if n = 0 then .error .zeroDivisionError
    else
      let leftBytes : ℤ := ⌊(bytes : ℚ) * (leftSize / n)⌋
      .ok (⟨some leftSize, some leftBytes.toNat, m.inputFiles⟩,
        ⟨some (n - leftSize), some (bytes - leftBytes).toNat, m.inputFiles⟩)
  | _, _ => .error .typeError

/-- What `_split` has gathered so far. -/
structure SplitState (α : Type) where
  left : List (SlicedEntry (ObjectRef α))
  right : List (SlicedEntry (ObjectRef α))
  acc : ℕ
  nextId : ℕ

/-- A block that lies across the border. -/
def splitBlock (leftSize : ℕ) (st : SplitState α) (entry : BlockEntry (ObjectRef α)) :
    Except PyError (SplitState α) := do
  let metas ← splitMeta entry.metadata (leftSize - st.acc)
  let blocks ← splitSingleBlock entry.ref.block (leftSize - st.acc)
  let acc := st.acc + metas.1.numRows.getD 0
  pyAssert (acc = leftSize)
  .ok {
    left := st.left ++ [(⟨⟨st.nextId, blocks.1⟩, metas.1⟩, none)]
    right := st.right ++ [(⟨⟨st.nextId + 1, blocks.2⟩, metas.2⟩, none)]
    acc
    nextId := st.nextId + 2 }

/-- The body of the loop of `_split`; it does not look at the slices. -/
def splitEntry (leftSize : ℕ) (st : SplitState α) (entry : BlockEntry (ObjectRef α)) :
    Except PyError (SplitState α) :=
  if leftSize ≤ st.acc then .ok { st with right := st.right ++ [(entry, none)] }
  else
    match entry.metadata.numRows with
    | none => .error .typeError
    | some n =>
      if st.acc + n ≤ leftSize then
        .ok { st with left := st.left ++ [(entry, none)], acc := st.acc + n }
      else splitBlock leftSize st entry

/-- The asserts at the end of `_split`. -/
def checkSplit (bundle left right : RefBundle (ObjectRef α)) (leftSize : ℕ) : Except PyError Unit :=
  match left.numRows, right.numRows with
  | some l, some r => do
      pyAssert (l = leftSize)
      pyAssert (some (l + r) = bundle.numRows)
  | _, _ => .error .typeError

/-- `_split`: the first rows of a bundle and the rest, and the next object id. -/
def split (bundle : RefBundle (ObjectRef α)) (leftSize nextId : ℕ) :
    Except PyError ((RefBundle (ObjectRef α) × RefBundle (ObjectRef α)) × ℕ) := do
  let st ← bundle.blocks.foldlM (fun st e => splitEntry leftSize st e.1) ⟨[], [], 0, nextId⟩
  let left ← RefBundle.make st.left bundle.schema bundle.ownsBlocks
  let right ← RefBundle.make st.right bundle.schema bundle.ownsBlocks
  checkSplit bundle left right leftSize
  .ok ((left, right), st.nextId)

/-- Known row counts and no slices: what one operator hands to the next. -/
def Full (bundle : RefBundle (ObjectRef α)) : Prop :=
  bundle.Counted ObjectRef.rows ∧ ∀ e ∈ bundle.blocks, e.2 = none

theorem splitSingleBlock_spec {b : Block α} {k : ℕ} (hk : k ≤ b.rows.length) :
    splitSingleBlock b k =
      .ok ({ b with rows := b.rows.take k }, { b with rows := b.rows.drop k }) := by
  have hleft := slice_eq b (Nat.zero_le k) hk
  rw [Nat.cast_zero] at hleft
  have htake : (b.rows.take k).length = k := List.length_take_of_le hk
  have hdrop : ((b.rows.drop k).length : ℤ) = b.rows.length - k := by
    rw [List.length_drop]
    omega
  rw [splitSingleBlock, hleft, ok_bind, slice_eq b hk le_rfl, ok_bind, segment_zero, segment,
    List.take_length, decide_eq_true htake, pyAssert_true, ok_bind, decide_eq_true hdrop,
    pyAssert_true, ok_bind]

/-- A full block with known rows and size. -/
def Plain (e : SlicedEntry (ObjectRef α)) : Prop :=
  RefBundle.EntryCounted ObjectRef.rows e ∧ e.2 = none ∧ e.1.metadata.sizeBytes.isSome = true

/-- The loop of `_split` after some entries: they are on the left and on the right, in order, and
only once the left is full something goes to the right. -/
structure SplitInv (leftSize : ℕ) (done : List (SlicedEntry (ObjectRef α))) (st : SplitState α) :
    Prop where
  content : RefBundle.content ObjectRef.rows (st.left ++ st.right) =
    RefBundle.content ObjectRef.rows done
  acc : st.acc = (RefBundle.content ObjectRef.rows st.left).length
  le : st.acc ≤ leftSize
  right : st.acc < leftSize → st.right = []
  entries : ∀ e ∈ st.left ++ st.right, Plain e

theorem content_singleton (entry : BlockEntry (ObjectRef α)) :
    RefBundle.content ObjectRef.rows [(entry, none)] = entry.ref.block.rows := List.append_nil _

variable {done : List (SlicedEntry (ObjectRef α))} {entry : BlockEntry (ObjectRef α)}

theorem SplitInv.splitBlock {leftSize n : ℕ} {st : SplitState α} (h : SplitInv leftSize done st)
    (hentry : Plain (entry, none)) (hn : entry.metadata.numRows = some n) (hlt : st.acc < leftSize)
    (hcut : leftSize < st.acc + n) :
    ∃ st', splitBlock leftSize st entry = .ok st' ∧
    SplitInv leftSize (done ++ [(entry, none)]) st' := by
  obtain ⟨hcounted, -, hsize⟩ := hentry
  obtain ⟨bytes, hbytes⟩ := Option.isSome_iff_exists.mp hsize
  have hlen : n = entry.ref.block.rows.length := hcounted.count n hn
  have hle : leftSize - st.acc ≤ entry.ref.block.rows.length := by omega
  set leftBytes : ℤ := ⌊(bytes : ℚ) * ((leftSize - st.acc : ℕ) / n)⌋ with hleft
  have hmeta : splitMeta entry.metadata (leftSize - st.acc) =
      .ok (⟨some (leftSize - st.acc), some leftBytes.toNat, entry.metadata.inputFiles⟩,
        ⟨some (n - (leftSize - st.acc)), some (bytes - leftBytes).toNat,
          entry.metadata.inputFiles⟩) := by
    have hbytes' : entry.metadata.sizeBytes = some bytes := hbytes
    unfold splitMeta
    rw [hn, hbytes']
    simp only
    rw [if_neg (by omega)]
  have hacc : st.acc + (leftSize - st.acc) = leftSize := by omega
  rw [OutputSplitter.splitBlock, hmeta, ok_bind, splitSingleBlock_spec hle, ok_bind]
  simp only [Option.getD_some, hacc, decide_true, pyAssert_true, ok_bind]
  refine ⟨_, rfl, ?_, ?_, le_rfl, fun h => absurd h (lt_irrefl _), ?_⟩
  · have hright := h.right hlt
    have hcontent := h.content
    rw [hright, List.append_nil] at hcontent
    rw [hright, List.nil_append, RefBundle.content_append, RefBundle.content_append, hcontent,
      RefBundle.content_append, content_singleton, content_singleton, content_singleton,
      List.append_assoc]
    congr 1
    exact List.take_append_drop _ _
  · rw [RefBundle.content_append, List.length_append, ← h.acc, content_singleton]
    show leftSize = st.acc + (entry.ref.block.rows.take (leftSize - st.acc)).length
    rw [List.length_take_of_le hle, hacc]
  · have hnew : ∀ (id : ℕ) (m : BlockMetadata) (rows : List α), m.numRows = some rows.length →
        m.sizeBytes.isSome = true →
        Plain (⟨⟨id, { entry.ref.block with rows }⟩, m⟩, none) := by
      intro id m rows hm hs
      refine ⟨⟨fun _ => by rw [hm]; rfl, fun k hk => ?_, nofun⟩, rfl, hs⟩
      have hk' : m.numRows = some k := hk
      rw [hm] at hk'
      cases hk'
      rfl
    intro e he
    simp only [List.mem_append, List.mem_singleton] at he
    obtain (he | rfl) | (he | rfl) := he
    · exact h.entries e (List.mem_append_left _ he)
    · exact hnew _ _ _ (by rw [List.length_take_of_le hle]) rfl
    · exact h.entries e (List.mem_append_right _ he)
    · exact hnew _ _ _ (by rw [List.length_drop, hlen]) rfl

theorem SplitInv.step {leftSize : ℕ} {st : SplitState α}
    (h : SplitInv leftSize done st) (hentry : Plain (entry, none)) :
    ∃ st', splitEntry leftSize st entry = .ok st' ∧
    SplitInv leftSize (done ++ [(entry, none)]) st' := by
  obtain ⟨n, hn⟩ := Option.isSome_iff_exists.mp (hentry.1.known rfl)
  have hlen : n = entry.ref.block.rows.length := hentry.1.count n hn
  have hentries : ∀ e ∈ st.left ++ st.right ++ [(entry, none)], Plain e := by
    intro e he
    obtain he | he := List.mem_append.mp he
    · exact h.entries e he
    · rw [List.mem_singleton.mp he]
      exact hentry
  have hn' : entry.metadata.numRows = some n := hn
  rw [splitEntry]
  split_ifs with hfull
  · refine ⟨_, rfl, ?_, h.acc, h.le, fun hlt => absurd hfull (not_le.mpr hlt), ?_⟩
    · rw [← List.append_assoc, RefBundle.content_append, h.content, RefBundle.content_append]
    · rwa [← List.append_assoc]
  · have hright := h.right (by omega)
    rw [hn']
    simp only
    split_ifs with hfit
    · rw [hright, List.append_nil] at hentries
      refine ⟨_, rfl, ?_, ?_, hfit, fun _ => hright, ?_⟩
      · have hcontent := h.content
        rw [hright, List.append_nil] at hcontent
        rw [hright, List.append_nil, RefBundle.content_append, hcontent, RefBundle.content_append]
      · rw [RefBundle.content_append, List.length_append, ← h.acc, content_singleton, hlen]
      · rwa [hright, List.append_nil]
    · exact h.splitBlock hentry hn' (by omega) (by omega)

/-- `_split` cuts a bundle of full blocks at any row inside it, and none of its asserts fails. -/
theorem split_spec {bundle : RefBundle (ObjectRef α)} (hb : Full bundle) {k : ℕ}
    (hlt : k < (bundle.rows ObjectRef.rows).length) (nextId : ℕ) :
    ∃ left right nextId', split bundle k nextId = .ok ((left, right), nextId') ∧ Full left ∧
    Full right ∧
      left.rows ObjectRef.rows ++ right.rows ObjectRef.rows = bundle.rows ObjectRef.rows ∧
      (left.rows ObjectRef.rows).length = k := by
  obtain ⟨st, hfold, hst⟩ := foldlM_ok (f := fun st e => splitEntry k st e.1) (P := SplitInv k)
    (l := bundle.blocks) (s := ⟨[], [], 0, nextId⟩) ⟨rfl, rfl, Nat.zero_le k, fun _ => rfl, by simp⟩ (by
      intro done e st he hst
      have hnone := hb.2 e he
      have hplain : Plain (e.1, none) := by
        rw [← hnone]
        exact ⟨hb.1 e he, hnone, bundle.sizes_known e he⟩
      obtain ⟨st', hstep, hst'⟩ := hst.step hplain
      rw [← hnone] at hst'
      exact ⟨st', hstep, hst'⟩)
  have hacc : st.acc = k := by
    have hle := hst.le
    by_contra hne
    have hright := hst.right (by omega)
    have hcontent := congrArg List.length hst.content
    rw [hright, List.append_nil, ← hst.acc] at hcontent
    have hrows : (bundle.rows ObjectRef.rows).length = st.acc := hcontent.symm
    omega
  have hmake : ∀ l : List (SlicedEntry (ObjectRef α)), (∀ e ∈ l, Plain e) →
    ∃ b : RefBundle (ObjectRef α),
      RefBundle.make l bundle.schema bundle.ownsBlocks = .ok b ∧ b.blocks = l ∧ Full b := by
    intro l hl
    obtain ⟨b, hmake, hblocks⟩ := RefBundle.make_eq_ok (fun e he => (hl e he).1.sliceValid)
      (fun e he => (hl e he).2.2) bundle.schema bundle.ownsBlocks
    refine ⟨b, hmake, hblocks, fun e he => ?_, fun e he => ?_⟩
    · exact (hl e (hblocks ▸ he)).1
    · exact (hl e (hblocks ▸ he)).2.1
  obtain ⟨left, hleft, hlb, hlf⟩ :=
    hmake st.left (fun e he => hst.entries e (List.mem_append_left _ he))
  obtain ⟨right, hright, hrb, hrf⟩ :=
    hmake st.right (fun e he => hst.entries e (List.mem_append_right _ he))
  have hrows : left.rows ObjectRef.rows ++ right.rows ObjectRef.rows = bundle.rows ObjectRef.rows := by
    rw [RefBundle.rows, RefBundle.rows, hlb, hrb, ← RefBundle.content_append, hst.content]
    rfl
  have hlen : (left.rows ObjectRef.rows).length = k := by rw [RefBundle.rows, hlb, ← hst.acc, hacc]
  have hsum := congrArg List.length hrows
  rw [List.length_append, hlen] at hsum
  refine ⟨left, right, st.nextId, ?_, hlf, hrf, hrows, hlen⟩
  have hcheck : checkSplit bundle left right k = .ok () := by
    rw [checkSplit, hlf.1.numRows_eq, hrf.1.numRows_eq, hb.1.numRows_eq]
    simp only [hlen, hsum, decide_true, pyAssert_true, ok_bind]
  rw [split, hfold, ok_bind, hleft, ok_bind, hright, ok_bind, hcheck, ok_bind]

variable [DecidableEq α]

/-! ### The operator -/

def init (n : ℕ) (equal : Bool) (localityHints : Option (List String)) (maxBufferingFactor : ℚ)
    (nextId : ℕ) : Except PyError (OutputSplitter α) :=
  match localityHints with
  | none => .ok ⟨equal, .init, .init, List.replicate n 0, none, 0, 0, 0, 0, nextId⟩
  | some hints =>
    if n ≠ hints.length then .error (.valueError "Locality hints list must have length `n`")
    else
      .ok ⟨equal, .init, .init, List.replicate n 0, some hints,
        if hints.length = 0 then 0 else maxBufferingFactor * n, 0, 0, 0, nextId⟩

/-- `start`: to keep the order, the hints are ignored. -/
def start (s : OutputSplitter α) (preserveOrder : Bool) : OutputSplitter α :=
  if preserveOrder then { s with localityHints := none, maxBufferSize := 0 } else s

def hasNext (s : OutputSplitter α) : Bool := s.outputQueue.hasNext

def getNext (s : OutputSplitter α) : Except PyError (RefBundle (ObjectRef α) × OutputSplitter α) := do
  let r ← s.outputQueue.getNext
  .ok (r.1, { s with outputQueue := r.2 })

/-- The truth value of `_locality_hints`. -/
def hasHints (s : OutputSplitter α) : Bool :=
  match s.localityHints with
  | none => false
  | some hints => hints.length ≠ 0

/-- The first output among those with the fewest rows. -/
def selectNextOutputIndex (s : OutputSplitter α) : Except PyError ℕ :=
  match s.numOutput.zipIdx.argmin Prod.fst with
  | some t => .ok t.2
  | none => .error (.valueError "min() arg is an empty sequence")

def calculateBufferRequirement (outputDistribution : List ℕ) : Except PyError ℤ :=
  match outputDistribution.max? with
  | some maxN => .ok ((outputDistribution.map (fun n : ℕ => (maxN : ℤ) - n)).sum)
  | none => .error (.valueError "max() arg is an empty sequence")

def canSafelyDispatch (s : OutputSplitter α) (targetIndex targetNumRows : ℕ) : Except PyError Bool :=
  if s.equal then do
    let requirement ← calculateBufferRequirement (s.numOutput.modify targetIndex (· + targetNumRows))
    .ok (requirement ≤ s.buffer.metrics.numRows - targetNumRows)
  else .ok true

section dispatch
variable (locations : ℕ → RefBundle (ObjectRef α) → List String)

/-- The loop of `_find_preferred_bundle`, and the calls of the lookup after it. -/
def findAt (preferredLoc : String) :
    ℕ → List (RefBundle (ObjectRef α)) → Option (RefBundle (ObjectRef α)) × ℕ
  | lookups, [] => (none, lookups)
  | lookups, bundle :: buffer =>
    if preferredLoc ∈ locations lookups bundle then (some bundle, lookups + 1)
    else findAt preferredLoc (lookups + 1) buffer

def findPreferredBundle (s : OutputSplitter α) (targetOutputIndex : ℕ) :
    Except PyError (Option (RefBundle (ObjectRef α)) × OutputSplitter α) :=
  if s.hasHints then
    match (s.localityHints.getD [])[targetOutputIndex]?, s.buffer.iter with
    | some preferredLoc, some buffer =>
      let r := findAt locations preferredLoc s.lookups buffer
      .ok (r.1, { s with lookups := r.2 })
    | _, _ => .error .indexError
  else .ok (none, s)

/-- The preferred bundle, or the one that waits longest; a bundle without blocks is false.  `none`
is the first `break` of the loop. -/
def targetBundle (s : OutputSplitter α) (force : Bool) (preferred : Option (RefBundle (ObjectRef α))) :
    Except PyError (Option (RefBundle (ObjectRef α))) :=
  match preferred with
  | some bundle => .ok (some bundle)
  | none =>
    if s.maxBufferSize ≤ s.buffer.len ∨ force = true then
      match s.buffer.peekNext with
      | some bundle => .ok (some bundle)
      | none => .error .assertionError
    else .ok none

/-- The end of the loop body: the bundle goes to its output. -/
def dispatch (s : OutputSplitter α) (targetOutputIndex : ℕ) (bundle : RefBundle (ObjectRef α))
    (rows : ℕ) (preferred : Bool) : Except PyError (OutputSplitter α) := do
  let r ← s.buffer.remove bundle
  .ok { s with
    buffer := r.2
    numOutput := s.numOutput.modify targetOutputIndex (· + rows)
    outputQueue := s.outputQueue.add { bundle with outputSplitIdx := some targetOutputIndex }
    localityHits := s.localityHits + if s.hasHints && preferred then 1 else 0
    localityMisses := s.localityMisses + if s.hasHints && !preferred then 1 else 0 }

/-- The loop body of `_try_dispatch_bundles` once a bundle is chosen; `false` is the second
`break`. -/
def dispatchIfSafe (s : OutputSplitter α) (targetOutputIndex : ℕ) (preferred : Bool)
    (bundle : RefBundle (ObjectRef α)) : Except PyError (Bool × OutputSplitter α) :=
  match bundle.numRows with
  | none => .error .typeError
  | some rows => do
      let safe ← s.canSafelyDispatch targetOutputIndex rows
      if safe then do
        let s ← s.dispatch targetOutputIndex bundle rows preferred
        .ok (true, s)
      else .ok (false, s)

/-- The loop body of `_try_dispatch_bundles`; `false` if the loop ends. -/
def dispatchOne (force : Bool) (s : OutputSplitter α) : Except PyError (Bool × OutputSplitter α) := do
  let target ← s.selectNextOutputIndex
  let r ← s.findPreferredBundle locations target
  let preferred := r.1.filter (fun bundle => bundle.blocks.length ≠ 0)
  let chosen ← r.2.targetBundle force preferred
  match chosen with
  | none => .ok (false, r.2)
  | some bundle => r.2.dispatchIfSafe target preferred.isSome bundle

def dispatchLoop (force : Bool) : ℕ → OutputSplitter α → Except PyError (OutputSplitter α)
  | 0, s => .ok s
  | k + 1, s => do
      let r ← dispatchOne locations force s
      if r.1 then dispatchLoop force k r.2 else .ok r.2

def tryDispatchBundles (force : Bool) (s : OutputSplitter α) : Except PyError (OutputSplitter α) :=
  dispatchLoop locations force s.buffer.len.toNat s

/-- `_add_input_inner`. -/
def addInput (s : OutputSplitter α) (bundle : RefBundle (ObjectRef α)) :
    Except PyError (OutputSplitter α) :=
  match bundle.numRows with
  | none => .error (.valueError "OutputSplitter requires bundles with known row count")
  | some _ => do
      let buffer ← s.buffer.add bundle
      tryDispatchBundles locations false { s with buffer }

end dispatch

/-- The loop of `_split_from_buffer`.  Every round takes a bundle out of the buffer, and only the
last puts one back, so after as many rounds as there were bundles `get_next` fails. -/
def splitLoop (nrow : ℕ) : ℕ → OutputSplitter α → List (RefBundle (ObjectRef α)) → ℕ →
    Except PyError (List (RefBundle (ObjectRef α)) × OutputSplitter α)
  | 0, s, output, acc => if acc < nrow then .error .indexError else .ok (output, s)
  | rounds + 1, s, output, acc =>
    if acc < nrow then do
      let r ← s.buffer.getNext
      match r.1.numRows with
      | none => .error .typeError
      | some rows =>
        if acc + rows ≤ nrow then
          splitLoop nrow rounds { s with buffer := r.2 } (output ++ [r.1]) (acc + rows)
        else do
          let parts ← split r.1 (nrow - acc) s.nextId
          let buffer ← r.2.add parts.1.2
          pyAssert (acc + parts.1.1.rowsOrZero = nrow)
          splitLoop nrow rounds { s with buffer, nextId := parts.2 } (output ++ [parts.1.1])
            (acc + parts.1.1.rowsOrZero)
    else .ok (output, s)

def splitFromBuffer (s : OutputSplitter α) (nrow : ℕ) :
    Except PyError (List (RefBundle (ObjectRef α)) × OutputSplitter α) := do
  let r ← splitLoop nrow s.buffer.len.toNat s [] 0
  pyAssert ((r.1.map RefBundle.rowsOrZero).sum = nrow)
  .ok r

/-- The part of one output in the last split. -/
def splitTo (s : OutputSplitter α) (t : ℕ × ℕ) : Except PyError (OutputSplitter α) := do
  let r ← s.splitFromBuffer t.1
  .ok { r.2 with
    outputQueue := r.1.foldl (fun q b => q.add { b with outputSplitIdx := some t.2 }) r.2.outputQueue }

/-- The end of `all_inputs_done`: level the outputs, and share what remains. -/
def finalizeDistribution (s : OutputSplitter α) : Except PyError (OutputSplitter α) :=
  if s.buffer.len = 0 then .ok s
  else
    match s.numOutput.max? with
    | none => .error (.valueError "max() arg is an empty sequence")
    | some maxN => do
        let allocation := s.numOutput.map (maxN - ·)
        let remainder : ℤ := s.buffer.metrics.numRows - allocation.sum
        pyAssert (0 ≤ remainder)
        let x := remainder.toNat / allocation.length
        let s ← (allocation.map (· + x)).zipIdx.foldlM splitTo s
        .ok { s with buffer := s.buffer.clear }

/-- The first half of `all_inputs_done`, with hints. -/
def dispatchAtEnd (locations : ℕ → RefBundle (ObjectRef α) → List String) (s : OutputSplitter α) :
    Except PyError (OutputSplitter α) := do
  let s ← tryDispatchBundles locations (!s.equal) s
  if s.equal then s.finalizeDistribution
  else do
    pyAssert (s.buffer.len = 0)
    .ok s

def allInputsDone (locations : ℕ → RefBundle (ObjectRef α) → List String) (s : OutputSplitter α) :
    Except PyError (OutputSplitter α) :=
  if s.hasHints then s.dispatchAtEnd locations else s.finalizeDistribution

/-! ### The last split -/

/-- A state that differs in the buffer and the next object only. -/
def SameButBuffer (s s' : OutputSplitter α) : Prop :=
  ∃ buffer nextId, s' = { s with buffer, nextId }

theorem splitLoop_done (nrow rounds : ℕ) (s : OutputSplitter α)
    (output : List (RefBundle (ObjectRef α))) :
    splitLoop nrow rounds s output nrow = .ok (output, s) := by
  cases rounds with
  | zero => rw [splitLoop, if_neg (lt_irrefl _)]
  | succ rounds => rw [splitLoop, if_neg (lt_irrefl _)]

/-- `_split_from_buffer` takes exactly the given number of rows out of the buffer. -/
theorem splitLoop_spec {nrow : ℕ} : ∀ {rounds : ℕ} {s : OutputSplitter α}
    {buffer : List (RefBundle (ObjectRef α))} (output : List (RefBundle (ObjectRef α))) {acc : ℕ},
    s.buffer.Holds buffer →
    (∀ b ∈ buffer, Full b) → buffer.length ≤ rounds → acc ≤ nrow →
    nrow ≤ acc + (rowsOf ObjectRef.rows buffer).length →
    ∃ o s' buffer', splitLoop nrow rounds s output acc = .ok (output ++ o, s') ∧
      SameButBuffer s s' ∧ s'.buffer.Holds buffer' ∧ (∀ b ∈ o ++ buffer', Full b) ∧
      acc + (rowsOf ObjectRef.rows o).length = nrow ∧
      (rowsOf ObjectRef.rows (o ++ buffer')).Perm (rowsOf ObjectRef.rows buffer) := by
  intro rounds
  induction rounds with
  | zero =>
    intro s buffer output acc hq hfull hrounds hacc hrows
    have hnil : buffer = [] := List.length_eq_zero_iff.mp (Nat.le_zero.mp hrounds)
    subst hnil
    simp only [rowsOf_nil, List.length_nil] at hrows
    refine ⟨[], s, [], ?_, ⟨s.buffer, s.nextId, rfl⟩, hq, by simp, ?_, List.Perm.refl _⟩
    · rw [splitLoop, if_neg (by omega), List.append_nil]
    · rw [rowsOf_nil, List.length_nil]
      omega
  | succ rounds ih =>
    intro s buffer output acc hq hfull hrounds hacc hrows
    rw [splitLoop]
    by_cases hlt : acc < nrow
    swap
    · refine ⟨[], s, buffer, ?_, ⟨s.buffer, s.nextId, rfl⟩, hq, hfull, ?_, List.Perm.refl _⟩
      · rw [if_neg hlt, List.append_nil]
      · rw [rowsOf_nil, List.length_nil]
        omega
    rw [if_pos hlt]
    cases buffer with
    | nil =>
      simp only [rowsOf_nil, List.length_nil] at hrows
      omega
    | cons b buffer =>
      obtain ⟨q, hget, hq'⟩ := hq.getNext
      have hb := hfull b (.head _)
      have hrest : ∀ b' ∈ buffer, Full b' := fun b' hb' => hfull b' (.tail _ hb')
      rw [rowsOf_cons, List.length_append] at hrows
      rw [List.length_cons] at hrounds
      rw [hget, ok_bind]
      simp only [hb.1.numRows_eq]
      split_ifs with hfit
      · obtain ⟨o, s', buffer', hrun, ⟨bf, id, hs'⟩, hq'', hfull', hlen, hperm⟩ :=
          ih (s := { s with buffer := q }) (output ++ [b]) hq' hrest (by omega) hfit (by omega)
        refine ⟨b :: o, s', buffer', ?_, ⟨bf, id, hs'⟩, hq'', ?_, ?_, ?_⟩
        · rw [hrun, List.append_assoc, List.singleton_append]
        · intro b' hb'
          obtain rfl | hb' := List.mem_cons.mp hb'
          · exact hb
          · exact hfull' b' hb'
        · rw [rowsOf_cons, List.length_append]
          omega
        · rw [List.cons_append, rowsOf_cons, rowsOf_cons]
          exact hperm.append_left _
      · obtain ⟨left, right, nextId, hsplit, hleft, hright, hparts, hlen⟩ :=
          split_spec hb (k := nrow - acc) (by omega) s.nextId
        obtain ⟨q₂, hadd, hq₂⟩ := hq'.add right
        have hacc' : acc + left.rowsOrZero = nrow := by
          rw [hleft.1.rowsOrZero_eq, hlen]
          omega
        simp only [hsplit, ok_bind, hadd, hacc', decide_true, pyAssert_true, splitLoop_done]
        refine ⟨[left], _, buffer ++ [right], rfl, ⟨q₂, nextId, rfl⟩, hq₂, ?_, ?_, ?_⟩
        · intro b' hb'
          simp only [List.mem_append, List.mem_singleton] at hb'
          obtain rfl | hb' | rfl := hb'
          · exact hleft
          · exact hrest b' hb'
          · exact hright
        · rw [rowsOf_singleton, hlen]
          omega
        · simp only [rowsOf_append, rowsOf_singleton]
          rw [rowsOf_cons, ← hparts, List.append_assoc]
          exact (List.perm_append_comm).append_left _

/-- The rows of the bundles that go to one output. -/
def splitRows (i : ℕ) (bundles : List (RefBundle (ObjectRef α))) : List α :=
  rowsOf ObjectRef.rows (bundles.filter (fun b => b.outputSplitIdx = some i))

omit [DecidableEq α] in
@[simp] theorem splitRows_append (i : ℕ) (l l' : List (RefBundle (ObjectRef α))) :
    splitRows i (l ++ l') = splitRows i l ++ splitRows i l' := by
  rw [splitRows, List.filter_append, rowsOf_append]
  rfl

variable {i : ℕ}
variable {l : List (RefBundle (ObjectRef α))}

omit [DecidableEq α] in
theorem splitRows_of_eq
    (h : ∀ b ∈ l, b.outputSplitIdx = some i) : splitRows i l = rowsOf ObjectRef.rows l := by
  rw [splitRows, List.filter_eq_self.mpr (fun b hb => decide_eq_true (h b hb))]

omit [DecidableEq α] in
theorem splitRows_of_ne (h : ∀ b ∈ l, b.outputSplitIdx ≠ some i) : splitRows i l = [] := by
  rw [splitRows, List.filter_eq_nil_iff.mpr (fun b hb => by simpa using h b hb), rowsOf_nil]

omit [DecidableEq α] in
theorem rowsOf_withIdx (i : ℕ) (l : List (RefBundle (ObjectRef α))) :
    rowsOf ObjectRef.rows (l.map (fun b => { b with outputSplitIdx := some i })) =
      rowsOf ObjectRef.rows l := by
  rw [rowsOf, List.flatMap_map]
  rfl

omit [DecidableEq α] in
theorem foldl_add (i : ℕ) (l : List (RefBundle (ObjectRef α))) :
    ∀ {q : FIFOBundleQueue (ObjectRef α)}, q.Valid →
      (l.foldl (fun q b => q.add { b with outputSplitIdx := some i }) q).Valid ∧
      (l.foldl (fun q b => q.add { b with outputSplitIdx := some i }) q).inner =
        q.inner ++ l.map (fun b => { b with outputSplitIdx := some i }) := by
  induction l with
  | nil => exact fun hq => ⟨hq, by simp⟩
  | cons b l ih =>
    intro q hq
    obtain ⟨hvalid, hinner⟩ := ih (hq.add { b with outputSplitIdx := some i })
    refine ⟨hvalid, ?_⟩
    rw [List.foldl_cons, hinner]
    simp [FIFOBundleQueue.add]

theorem splitTo_spec {s : OutputSplitter α} {buffer : List (RefBundle (ObjectRef α))}
    (hq : s.buffer.Holds buffer) (hfull : ∀ b ∈ buffer, Full b) (hvalid : s.outputQueue.Valid) (i : ℕ)
    {count : ℕ} (hcount : count ≤ (rowsOf ObjectRef.rows buffer).length) :
    ∃ s' o buffer', s.splitTo (count, i) = .ok s' ∧ s'.buffer.Holds buffer' ∧ (∀ b ∈ buffer', Full b) ∧
      s'.outputQueue.Valid ∧ s'.outputQueue.inner = s.outputQueue.inner ++ o ∧
      (∀ b ∈ o, b.outputSplitIdx = some i) ∧ (rowsOf ObjectRef.rows o).length = count ∧
      (rowsOf ObjectRef.rows (o ++ buffer')).Perm (rowsOf ObjectRef.rows buffer) := by
  have hlen : buffer.length ≤ s.buffer.len.toNat := by rw [hq.len]; exact le_rfl
  obtain ⟨o, s', buffer', hloop, ⟨bf, id, rfl⟩, hq', hfull', hrows, hperm⟩ :=
    splitLoop_spec [] hq hfull hlen (Nat.zero_le count) (by omega)
  rw [List.nil_append] at hloop
  rw [Nat.zero_add] at hrows
  have hsum : (o.map RefBundle.rowsOrZero).sum = count := by
    rw [sum_rowsOrZero (fun b hb => (hfull' b (List.mem_append_left _ hb)).1), hrows]
  obtain ⟨hvalid', hinner⟩ := foldl_add i o hvalid
  refine ⟨{ s with
      buffer := bf, nextId := id
      outputQueue := o.foldl (fun q b => q.add { b with outputSplitIdx := some i }) s.outputQueue },
    o.map (fun b => { b with outputSplitIdx := some i }), buffer', ?_, hq',
    fun b hb => hfull' b (List.mem_append_right _ hb), hvalid', hinner, ?_, ?_, ?_⟩
  · rw [splitTo, splitFromBuffer, hloop, ok_bind, decide_eq_true hsum, pyAssert_true, ok_bind, ok_bind]
  · intro b hb
    obtain ⟨b', -, rfl⟩ := List.mem_map.mp hb
    rfl
  · rw [rowsOf_withIdx, hrows]
  · rw [rowsOf_append, rowsOf_withIdx, ← rowsOf_append]
    exact hperm

/-- The loop over the outputs: each gets the rows allotted to it. -/
theorem splits_spec {allocation : List ℕ} : ∀ {k : ℕ} {s : OutputSplitter α}
    {buffer : List (RefBundle (ObjectRef α))}, s.buffer.Holds buffer → (∀ b ∈ buffer, Full b) →
    s.outputQueue.Valid → allocation.sum ≤ (rowsOf ObjectRef.rows buffer).length →
    ∃ s' o buffer', (allocation.zipIdx k).foldlM splitTo s = .ok s' ∧ s'.buffer.Holds buffer' ∧
      s'.outputQueue.Valid ∧ s'.outputQueue.inner = s.outputQueue.inner ++ o ∧
      (∀ b ∈ o, ∃ i, k ≤ i ∧ i < k + allocation.length ∧ b.outputSplitIdx = some i) ∧
      (∀ i, (splitRows (k + i) o).length = allocation.getD i 0) ∧
      (rowsOf ObjectRef.rows o).length = allocation.sum ∧
      (rowsOf ObjectRef.rows (o ++ buffer')).Perm (rowsOf ObjectRef.rows buffer) := by
  induction allocation with
  | nil =>
    intro k s buffer hq _ hvalid _
    exact ⟨s, [], buffer, rfl, hq, hvalid, by simp, by simp, fun _ => rfl, rfl, List.Perm.refl _⟩
  | cons count allocation ih =>
    intro k s buffer hq hfull hvalid hsum
    rw [List.sum_cons] at hsum
    obtain ⟨s₁, o₁, buffer₁, hs₁, hq₁, hfull₁, hvalid₁, hinner₁, hidx₁, hlen₁, hperm₁⟩ :=
      splitTo_spec hq hfull hvalid k (show count ≤ _ by omega)
    have hrest : allocation.sum ≤ (rowsOf ObjectRef.rows buffer₁).length := by
      have hlen := hperm₁.length_eq
      rw [rowsOf_append, List.length_append] at hlen
      omega
    obtain ⟨s', o₂, buffer', hs', hq', hvalid', hinner, hidx₂, hlen₂, htotal₂, hperm₂⟩ :=
      ih (k := k + 1) hq₁ hfull₁ hvalid₁ hrest
    refine ⟨s', o₁ ++ o₂, buffer', ?_, hq', hvalid', ?_, ?_, ?_, ?_, ?_⟩
    · rw [List.zipIdx_cons, List.foldlM_cons, hs₁, ok_bind, hs']
    · rw [hinner, hinner₁, List.append_assoc]
    · intro b hb
      obtain hb | hb := List.mem_append.mp hb
      · exact ⟨k, le_rfl, by simp, hidx₁ b hb⟩
      · obtain ⟨i, hki, hik, hi⟩ := hidx₂ b hb
        refine ⟨i, by omega, ?_, hi⟩
        rw [List.length_cons]
        omega
    · intro i
      rw [splitRows_append]
      cases i with
      | zero =>
        have hnone : splitRows (k + 0) o₂ = [] := by
          apply splitRows_of_ne
          intro b hb heq
          obtain ⟨j, hkj, -, hj⟩ := hidx₂ b hb
          rw [hj] at heq
          cases heq
          omega
        rw [hnone, List.append_nil, Nat.add_zero, splitRows_of_eq hidx₁, hlen₁]
        rfl
      | succ i =>
        have hnone : splitRows (k + (i + 1)) o₁ = [] := by
          apply splitRows_of_ne
          intro b hb heq
          rw [hidx₁ b hb] at heq
          have := Option.some.inj heq
          omega
        have hshift : k + (i + 1) = k + 1 + i := by omega
        rw [hnone, List.nil_append, hshift, hlen₂]
        rfl
    · rw [rowsOf_append, List.length_append, hlen₁, htotal₂, List.sum_cons]
    · rw [List.append_assoc, rowsOf_append]
      rw [rowsOf_append] at hperm₁
      exact (hperm₂.append_left _).trans hperm₁

/-! ### Dispatching -/

variable {l : List ℕ}

/-- What it takes to level some outputs: the highest level everywhere, less what is there. -/
theorem calculateBufferRequirement_eq {m : ℕ} (h : l.max? = some m) :
    calculateBufferRequirement l = .ok ((l.length : ℤ) * m - l.sum) := by
  have hsum : ∀ l : List ℕ, (l.map (fun n : ℕ => (m : ℤ) - n)).sum = (l.length : ℤ) * m - l.sum := by
    intro l
    induction l with
    | nil => simp
    | cons a l ih =>
      rw [List.map_cons, List.sum_cons, ih, List.length_cons, List.sum_cons]
      push_cast
      ring
  rw [calculateBufferRequirement, h]
  simp only [hsum]

theorem sum_modify (hi : i < l.length) (k : ℕ) :
    (l.modify i (· + k)).sum = l.sum + k := by
  induction l generalizing i with
  | nil => cases hi
  | cons a l ih =>
    cases i with
    | zero =>
      rw [List.modify_zero_cons, List.sum_cons, List.sum_cons]
      omega
    | succ i =>
      rw [List.modify_succ_cons, List.sum_cons, List.sum_cons, ih (Nat.lt_of_succ_lt_succ hi)]
      omega

theorem exists_max (h : 0 < l.length) : ∃ m, l.max? = some m := by
  cases hm : l.max? with
  | none =>
    rw [List.max?_eq_none_iff.mp hm, List.length_nil] at h
    omega
  | some m => exact ⟨m, rfl⟩

/-- The dispatched bundles and the buffer make up the input, every output has the rows that are
counted for it, and with `equal` the buffer can level the outputs. -/
structure Inv (n : ℕ) (equal : Bool) (added : List (RefBundle (ObjectRef α))) (s : OutputSplitter α)
    (out buffer : List (RefBundle (ObjectRef α))) : Prop where
  equal_eq : s.equal = equal
  holds : s.buffer.Holds buffer
  valid : s.outputQueue.Valid
  length : s.numOutput.length = n
  hints : ∀ hints ∈ s.localityHints, hints.length = n
  cap : s.hasHints = false → s.maxBufferSize = 0
  counted : ∀ b ∈ buffer, b.Counted ObjectRef.rows
  full : equal = true → ∀ b ∈ buffer, Full b
  rows : (rowsOf ObjectRef.rows (out ++ s.outputQueue.inner ++ buffer)).Perm
    (rowsOf ObjectRef.rows added)
  index : ∀ b ∈ out ++ s.outputQueue.inner, ∃ i < n, b.outputSplitIdx = some i
  total : s.numOutput.sum = (rowsOf ObjectRef.rows (out ++ s.outputQueue.inner)).length
  output : ∀ i < n, s.numOutput[i]? = some (splitRows i (out ++ s.outputQueue.inner)).length
  level : equal = true → ∃ r, calculateBufferRequirement s.numOutput = .ok r ∧
    r ≤ (rowsOf ObjectRef.rows buffer).length

variable {n : ℕ} {equal : Bool} {added out buffer : List (RefBundle (ObjectRef α))}
  {s : OutputSplitter α}

theorem Inv.withLookups (h : Inv n equal added s out buffer) (lookups : ℕ) :
    Inv n equal added { s with lookups } out buffer :=
  ⟨h.equal_eq, h.holds, h.valid, h.length, h.hints, h.cap, h.counted, h.full, h.rows, h.index, h.total,
    h.output, h.level⟩

theorem Inv.selectNextOutputIndex (h : Inv n equal added s out buffer) (hn : 1 ≤ n) :
    ∃ i < n, s.selectNextOutputIndex = .ok i := by
  cases hmin : s.numOutput.zipIdx.argmin Prod.fst with
  | none =>
    have hnil := List.argmin_eq_none.mp hmin
    have hlen := h.length
    rw [List.zipIdx_eq_nil_iff] at hnil
    rw [hnil, List.length_nil] at hlen
    omega
  | some t =>
    have hmem := List.argmin_mem (Option.mem_def.mpr hmin)
    obtain ⟨-, hlt, -⟩ := List.mem_zipIdx (x := t.1) (i := t.2) hmem
    rw [Nat.zero_add, h.length] at hlt
    refine ⟨t.2, hlt, ?_⟩
    rw [OutputSplitter.selectNextOutputIndex, hmin]

omit [DecidableEq α] in
theorem findAt_mem (locations : ℕ → RefBundle (ObjectRef α) → List String) (preferredLoc : String) :
    ∀ (lookups : ℕ) (buffer : List (RefBundle (ObjectRef α))),
      ∀ b ∈ (findAt locations preferredLoc lookups buffer).1, b ∈ buffer
  | _, [], b, hb => by cases hb
  | lookups, bundle :: buffer, b, hb => by
    rw [findAt] at hb
    split_ifs at hb
    · cases hb
      exact .head _
    · exact .tail _ (findAt_mem locations preferredLoc _ _ b hb)

/-- Whatever the lookup answers, the preferred bundle is one of the buffer. -/
theorem Inv.findPreferredBundle (h : Inv n equal added s out buffer)
    (locations : ℕ → RefBundle (ObjectRef α) → List String) (hi : i < n) :
    ∃ preferred lookups, s.findPreferredBundle locations i = .ok (preferred, { s with lookups }) ∧
      ∀ b ∈ preferred, b ∈ buffer := by
  rw [OutputSplitter.findPreferredBundle]
  split_ifs with hhints
  · have hget : ∃ loc, (s.localityHints.getD [])[i]? = some loc := by
      cases hl : s.localityHints with
      | none => simp [hasHints, hl] at hhints
      | some hints =>
        have hlen := h.hints hints hl
        exact ⟨_, List.getElem?_eq_getElem (by rw [Option.getD_some, hlen]; exact hi)⟩
    obtain ⟨loc, hloc⟩ := hget
    rw [hloc, h.holds.iter]
    exact ⟨_, _, rfl, findAt_mem locations loc s.lookups buffer⟩
  · exact ⟨none, s.lookups, rfl, nofun⟩

/-- The hints and the size of the buffer do not change. -/
def SameConfig (s s' : OutputSplitter α) : Prop :=
  s'.localityHints = s.localityHints ∧ s'.maxBufferSize = s.maxBufferSize

variable {b : RefBundle (ObjectRef α)}

theorem Inv.dispatch (h : Inv n equal added s out buffer) (hb : b ∈ buffer)
    {rows : ℕ} (hi : i < n) (hrows : (b.rows ObjectRef.rows).length = rows) (preferred : Bool)
    (hsafe : equal = true → ∃ r, calculateBufferRequirement (s.numOutput.modify i (· + rows)) = .ok r ∧
      r ≤ (rowsOf ObjectRef.rows buffer).length - rows) :
    ∃ s', s.dispatch i b rows preferred = .ok s' ∧ Inv n equal added s' out (buffer.erase b) ∧
      SameConfig s s' := by
  obtain ⟨q, hremove, hq⟩ := h.holds.remove hb
  have hperm := List.perm_cons_erase hb
  set b' : RefBundle (ObjectRef α) := { b with outputSplitIdx := some i } with hb'
  have hbrows : b'.rows ObjectRef.rows = b.rows ObjectRef.rows := rfl
  have hsub : ∀ x ∈ buffer.erase b, x ∈ buffer := fun x hx => List.mem_of_mem_erase hx
  refine ⟨{ s with
      buffer := q
      numOutput := s.numOutput.modify i (· + rows)
      outputQueue := s.outputQueue.add b'
      localityHits := s.localityHits + if s.hasHints && preferred then 1 else 0
      localityMisses := s.localityMisses + if s.hasHints && !preferred then 1 else 0 }, ?_,
    { equal_eq := h.equal_eq
      holds := hq
      valid := h.valid.add b'
      length := by rw [List.length_modify, h.length]
      hints := h.hints
      cap := h.cap
      counted := fun x hx => h.counted x (hsub x hx)
      full := fun he x hx => h.full he x (hsub x hx)
      rows := ?_
      index := ?_
      total := ?_
      output := ?_
      level := ?_ }, rfl, rfl⟩
  · rw [OutputSplitter.dispatch, hremove, ok_bind]
  · show (rowsOf ObjectRef.rows (out ++ (s.outputQueue.inner ++ [b']) ++ buffer.erase b)).Perm _
    have hmove : (rowsOf ObjectRef.rows (b' :: buffer.erase b)).Perm
      (rowsOf ObjectRef.rows buffer) := by
      rw [rowsOf_cons, hbrows, ← rowsOf_cons]
      exact (hperm.flatMap_right _).symm
    rw [← List.append_assoc, List.append_assoc _ [b'], List.singleton_append, rowsOf_append]
    refine (hmove.append_left _).trans ?_
    rw [← rowsOf_append]
    exact h.rows
  · show ∀ x ∈ out ++ (s.outputQueue.inner ++ [b']), _
    intro x hx
    rw [← List.append_assoc, List.mem_append, List.mem_singleton] at hx
    obtain hx | rfl := hx
    · exact h.index x hx
    · exact ⟨i, hi, rfl⟩
  · show (s.numOutput.modify i (· + rows)).sum =
      (rowsOf ObjectRef.rows (out ++ (s.outputQueue.inner ++ [b']))).length
    rw [sum_modify (by rw [h.length]; exact hi), h.total, ← List.append_assoc, rowsOf_append _ [b'],
      List.length_append, rowsOf_singleton, hbrows, hrows]
  · intro j hj
    show (s.numOutput.modify i (· + rows))[j]? =
      some (splitRows j (out ++ (s.outputQueue.inner ++ [b']))).length
    have hsnoc := splitRows_append j (out ++ s.outputQueue.inner) [b']
    rw [List.getElem?_modify, h.output j hj, ← List.append_assoc, hsnoc, List.length_append]
    by_cases hij : i = j
    · subst hij
      rw [splitRows_of_eq (l := [b']) (by simp [hb']), rowsOf_singleton, hbrows, hrows]
      simp
    · rw [splitRows_of_ne (l := [b']) (by simp [hb', hij])]
      simp [hij]
  · intro he
    obtain ⟨r, hr, hle⟩ := hsafe he
    have hlen := (hperm.flatMap_right (RefBundle.rows ObjectRef.rows)).length_eq
    have hlen' : (rowsOf ObjectRef.rows buffer).length =
        rows + (rowsOf ObjectRef.rows (buffer.erase b)).length := by
      rw [← hrows, ← List.length_append, ← rowsOf_cons]
      exact hlen
    exact ⟨r, hr, by omega⟩

theorem Inv.canSafelyDispatch (h : Inv n equal added s out buffer) (hn : 1 ≤ n) (i rows : ℕ) :
    ∃ safe, s.canSafelyDispatch i rows = .ok safe ∧ (equal = false → safe = true) ∧
      (safe = true → equal = true →
        ∃ r, calculateBufferRequirement (s.numOutput.modify i (· + rows)) = .ok r ∧
          r ≤ (rowsOf ObjectRef.rows buffer).length - rows) := by
  rw [OutputSplitter.canSafelyDispatch, h.equal_eq]
  cases equal with
  | false => exact ⟨true, rfl, fun _ => rfl, nofun⟩
  | true =>
    have hpos : 0 < (s.numOutput.modify i (· + rows)).length := by
      rw [List.length_modify, h.length]
      omega
    obtain ⟨m, hm⟩ := exists_max hpos
    have hreq := calculateBufferRequirement_eq hm
    rw [if_pos rfl, hreq, ok_bind, h.holds.metrics, QueueMetrics.totals_numRows h.counted]
    exact ⟨_, rfl, nofun, fun hsafe _ => ⟨_, rfl, of_decide_eq_true hsafe⟩⟩

/-- One round: either the loop ends, or one bundle less is in the buffer. -/
theorem Inv.dispatchOne (h : Inv n equal added s out buffer) (hn : 1 ≤ n)
    (locations : ℕ → RefBundle (ObjectRef α) → List String) (force : Bool) (hne : buffer ≠ []) :
    ∃ goOn s' buffer', dispatchOne locations force s = .ok (goOn, s') ∧
      Inv n equal added s' out buffer' ∧ SameConfig s s' ∧
      (goOn = true → buffer'.length + 1 = buffer.length) ∧
      (equal = false → s.maxBufferSize ≤ 0 ∨ force = true → goOn = true) := by
  obtain ⟨i, hi, hselect⟩ := h.selectNextOutputIndex hn
  obtain ⟨preferred, lookups, hfind, hmem⟩ := h.findPreferredBundle locations hi
  have h' := h.withLookups lookups
  set s₁ : OutputSplitter α := { s with lookups } with hs₁
  set chosen := preferred.filter (fun bundle => decide (bundle.blocks.length ≠ 0)) with hchosen
  have htarget : ∃ target, s₁.targetBundle force chosen = .ok target ∧ (∀ b ∈ target, b ∈ buffer) ∧
      (s.maxBufferSize ≤ 0 ∨ force = true → target ≠ none) := by
    cases hc : chosen with
    | some b =>
      refine ⟨some b, rfl, fun x hx => ?_, fun _ => by simp⟩
      cases hx
      apply hmem
      exact (Option.mem_filter_iff.mp (hchosen ▸ hc : b ∈ _)).1
    | none =>
      simp only [targetBundle]
      split_ifs with hcap
      · obtain ⟨b, l, hbl⟩ := List.exists_cons_of_ne_nil hne
        rw [h'.holds.peekNext, hbl]
        refine ⟨some b, rfl, fun x hx => ?_, fun _ => by simp⟩
        cases hx
        exact .head _
      · refine ⟨none, rfl, nofun, fun hdrain => absurd ?_ hcap⟩
        obtain hzero | hforce := hdrain
        · left
          have hlen : (0 : ℚ) ≤ (s₁.buffer.len : ℚ) := by
            rw [h'.holds.len]
            exact_mod_cast Nat.zero_le _
          exact le_trans hzero hlen
        · exact .inr hforce
  obtain ⟨target, htarget, hin, hsome⟩ := htarget
  rw [OutputSplitter.dispatchOne, hselect, ok_bind, hfind, ok_bind]
  simp only [← hchosen, htarget, ok_bind]
  cases target with
  | none =>
    refine ⟨false, s₁, buffer, rfl, h', ⟨rfl, rfl⟩, nofun, fun _ hdrain => ?_⟩
    exact absurd rfl (hsome hdrain)
  | some b =>
    have hb := hin b rfl
    have hcounted := h.counted b hb
    obtain ⟨safe, hsafe, hfree, hlevel⟩ :=
      h'.canSafelyDispatch hn i (b.rows ObjectRef.rows).length
    simp only [dispatchIfSafe, hcounted.numRows_eq, hsafe, ok_bind]
    cases safe with
    | false =>
      refine ⟨false, s₁, buffer, rfl, h', ⟨rfl, rfl⟩, nofun, fun he _ => ?_⟩
      exact hfree he
    | true =>
      obtain ⟨s', hdispatch, hinv, hconfig⟩ := h'.dispatch hb hi rfl chosen.isSome (hlevel rfl)
      simp only [if_true, hdispatch, ok_bind]
      refine ⟨true, s', _, rfl, hinv, hconfig, fun _ => ?_, fun _ _ => rfl⟩
      rw [List.length_erase_of_mem hb]
      have := List.length_pos_of_mem hb
      omega

/-- The loop over the buffer: every bundle goes out if nothing holds it back. -/
theorem Inv.dispatchLoop (hn : 1 ≤ n) (locations : ℕ → RefBundle (ObjectRef α) → List String)
    (force : Bool) {k : ℕ} : ∀ {s : OutputSplitter α} {buffer : List (RefBundle (ObjectRef α))},
    Inv n equal added s out buffer → k ≤ buffer.length →
    ∃ s' buffer', dispatchLoop locations force k s = .ok s' ∧ Inv n equal added s' out buffer' ∧
      SameConfig s s' ∧
      (equal = false → s.maxBufferSize ≤ 0 ∨ force = true → buffer.length = k → buffer' = []) := by
  induction k with
  | zero =>
    intro s buffer h _
    exact ⟨s, buffer, rfl, h, ⟨rfl, rfl⟩, fun _ _ hlen => List.length_eq_zero_iff.mp hlen⟩
  | succ k ih =>
    intro s buffer h hk
    have hne : buffer ≠ [] := List.ne_nil_of_length_pos (by omega)
    obtain ⟨goOn, s₁, buffer₁, hone, h₁, hconfig, hless, hgo⟩ := h.dispatchOne hn locations force hne
    rw [OutputSplitter.dispatchLoop, hone, ok_bind]
    cases goOn with
    | false =>
      refine ⟨s₁, buffer₁, rfl, h₁, hconfig, fun he hdrain _ => ?_⟩
      exact absurd (hgo he hdrain) (by simp)
    | true =>
      have hlen := hless rfl
      obtain ⟨s', buffer', hloop, h', hconfig', hdrained⟩ := ih h₁ (by omega)
      refine ⟨s', buffer', hloop, h', ⟨hconfig'.1.trans hconfig.1, hconfig'.2.trans hconfig.2⟩,
        fun he hdrain hall => hdrained he ?_ (by omega)⟩
      rwa [hconfig.2]

theorem Inv.tryDispatchBundles (h : Inv n equal added s out buffer) (hn : 1 ≤ n)
    (locations : ℕ → RefBundle (ObjectRef α) → List String) (force : Bool) :
    ∃ s' buffer', tryDispatchBundles locations force s = .ok s' ∧ Inv n equal added s' out buffer' ∧
      SameConfig s s' ∧ (equal = false → s.hasHints = false ∨ force = true → buffer' = []) := by
  have hlen : s.buffer.len.toNat = buffer.length := by
    rw [h.holds.len]
    rfl
  obtain ⟨s', buffer', hloop, h', hconfig, hdrained⟩ := Inv.dispatchLoop hn locations force h hlen.le
  refine ⟨s', buffer', hloop, h', hconfig, fun he hdrain => hdrained he ?_ hlen.symm⟩
  obtain hhints | hforce := hdrain
  · exact .inl (h.cap hhints).le
  · exact .inr hforce

theorem Inv.withBundle (h : Inv n equal added s out buffer)
    (hb : b.Counted ObjectRef.rows) (hfull : equal = true → Full b) {q : HashLinkedQueue (ObjectRef α)}
    (hq : q.Holds (buffer ++ [b])) :
    Inv n equal (added ++ [b]) { s with buffer := q } out (buffer ++ [b]) where
  equal_eq := h.equal_eq
  holds := hq
  valid := h.valid
  length := h.length
  hints := h.hints
  cap := h.cap
  counted := by
    intro x hx
    obtain hx | hx := List.mem_append.mp hx
    · exact h.counted x hx
    · rw [List.mem_singleton.mp hx]
      exact hb
  full := by
    intro he x hx
    obtain hx | hx := List.mem_append.mp hx
    · exact h.full he x hx
    · rw [List.mem_singleton.mp hx]
      exact hfull he
  rows := by
    rw [← List.append_assoc, rowsOf_append, rowsOf_append added]
    exact h.rows.append_right _
  index := h.index
  total := h.total
  output := h.output
  level := by
    intro he
    obtain ⟨r, hr, hle⟩ := h.level he
    refine ⟨r, hr, ?_⟩
    rw [rowsOf_append, List.length_append]
    omega

theorem Inv.addInput (h : Inv n equal added s out buffer) (hn : 1 ≤ n)
    (locations : ℕ → RefBundle (ObjectRef α) → List String)
    (hb : b.Counted ObjectRef.rows) (hfull : equal = true → Full b) :
    ∃ s' buffer', s.addInput locations b = .ok s' ∧ Inv n equal (added ++ [b]) s' out buffer' ∧
      (equal = false → s'.hasHints = false → buffer' = []) := by
  obtain ⟨q, hadd, hq⟩ := h.holds.add b
  obtain ⟨s', buffer', htry, h', hconfig, hdrained⟩ :=
    (h.withBundle hb hfull hq).tryDispatchBundles hn locations false
  refine ⟨s', buffer', ?_, h', fun he hhints => hdrained he (.inl ?_)⟩
  · unfold OutputSplitter.addInput
    rw [hb.numRows_eq]
    simp only [hadd, ok_bind, htry]
  · unfold hasHints at hhints ⊢
    rwa [hconfig.1] at hhints

/-! ### The end of the input -/

theorem sum_map_sub {m : ℕ} (h : ∀ x ∈ l, x ≤ m) :
    (l.map (m - ·)).sum + l.sum = l.length * m := by
  induction l with
  | nil => simp
  | cons a l ih =>
    have ha := h a (.head _)
    have hl := ih (fun x hx => h x (.tail _ hx))
    rw [List.map_cons, List.sum_cons, List.sum_cons, List.length_cons, Nat.add_mul, Nat.one_mul]
    omega

theorem sum_map_add (l : List ℕ) (x : ℕ) : (l.map (· + x)).sum = l.sum + l.length * x := by
  rw [List.sum_map_add, List.map_id', List.map_const', List.sum_replicate, smul_eq_mul]

/-- What all outputs together get, and what is dropped. -/
structure Equalized (n : ℕ) (added outputs : List (RefBundle (ObjectRef α))) : Prop where
  length : ∀ i < n, (splitRows i outputs).length = (rowsOf ObjectRef.rows added).length / n
  rows : ∃ dropped, (rowsOf ObjectRef.rows outputs ++ dropped).Perm (rowsOf ObjectRef.rows added) ∧
    dropped.length ≤ n - 1

theorem Inv.levels (h : Inv n true added s out buffer) {m : ℕ} (hm : s.numOutput.max? = some m) :
    (∀ x ∈ s.numOutput, x ≤ m) ∧
      (s.numOutput.map (m - ·)).sum ≤ (rowsOf ObjectRef.rows buffer).length ∧
      (rowsOf ObjectRef.rows added).length = n * m +
        ((rowsOf ObjectRef.rows buffer).length - (s.numOutput.map (m - ·)).sum) := by
  have hle := (List.max?_eq_some_iff.mp hm).2
  have hsum := sum_map_sub hle
  obtain ⟨r, hr, hrle⟩ := h.level rfl
  rw [calculateBufferRequirement_eq hm, h.length] at hr
  cases hr
  have htotal := h.rows.length_eq
  rw [rowsOf_append, List.length_append, ← h.total] at htotal
  rw [h.length] at hsum
  exact ⟨hle, by omega, by omega⟩

theorem Inv.equalized_of_nil (h : Inv n true added s out []) (hn : 1 ≤ n) :
    Equalized n added (out ++ s.outputQueue.inner) := by
  obtain ⟨m, hm⟩ := exists_max (l := s.numOutput) (by rw [h.length]; omega)
  obtain ⟨hle, hsum, htotal⟩ := h.levels hm
  rw [rowsOf_nil, List.length_nil, Nat.le_zero, List.sum_eq_zero_iff] at hsum
  refine ⟨fun i hi => ?_, [], ?_, Nat.zero_le _⟩
  · have hget := h.output i hi
    have hmem := List.mem_of_getElem? hget
    have hzero := hsum _ (List.mem_map_of_mem hmem)
    have hm' := hle _ hmem
    have hdiv : (rowsOf ObjectRef.rows added).length / n = m := by
      rw [htotal, rowsOf_nil, List.length_nil, Nat.zero_sub, Nat.add_zero, Nat.mul_div_cancel_left m hn]
    omega
  · have hrows := h.rows
    rw [List.append_nil] at hrows
    rwa [List.append_nil]

/-- `all_inputs_done` with `equal`: all outputs get the same number of rows. -/
theorem Inv.finalizeDistribution (h : Inv n true added s out buffer) (hn : 1 ≤ n) :
    ∃ s', s.finalizeDistribution = .ok s' ∧ Equalized n added (out ++ s'.outputQueue.inner) ∧
      ∀ b ∈ out ++ s'.outputQueue.inner, ∃ i < n, b.outputSplitIdx = some i := by
  rw [OutputSplitter.finalizeDistribution]
  split_ifs with hempty
  · have hnil : buffer = [] := by
      rw [h.holds.len] at hempty
      exact List.length_eq_zero_iff.mp (by omega)
    subst hnil
    exact ⟨s, rfl, h.equalized_of_nil hn, h.index⟩
  · obtain ⟨m, hm⟩ := exists_max (l := s.numOutput) (by rw [h.length]; omega)
    obtain ⟨hle, hsum, htotal⟩ := h.levels hm
    set a := (s.numOutput.map (m - ·)).sum with ha
    set B := (rowsOf ObjectRef.rows buffer).length with hB
    set x := (B - a) / n with hx
    have hmul : n * x ≤ B - a := Nat.mul_div_le (B - a) n
    have hrem : (s.buffer.metrics.numRows - (a : ℤ)) = ((B - a : ℕ) : ℤ) := by
      rw [h.holds.metrics, QueueMetrics.totals_numRows h.counted]
      omega
    have hallot : ((s.numOutput.map (m - ·)).map (· + x)).sum ≤ B := by
      rw [sum_map_add, List.length_map, h.length, ← ha]
      omega
    obtain ⟨s', o, buffer', hsplits, -, -, hinner, hidx, hlen, hout, hperm⟩ :=
      splits_spec (k := 0) h.holds (h.full rfl) h.valid hallot
    refine ⟨{ s' with buffer := s'.buffer.clear }, ?_,
      ⟨fun i hi => ?_, rowsOf ObjectRef.rows buffer', ?_, ?_⟩, ?_⟩
    · rw [hm]
      simp only [← ha, hrem, List.length_map, h.length, Int.toNat_natCast, ← hx]
      rw [decide_eq_true (Int.natCast_nonneg _), pyAssert_true, ok_bind, hsplits, ok_bind]
    · show (splitRows i (out ++ s'.outputQueue.inner)).length = _
      have hget := h.output i hi
      have hm' := hle _ (List.mem_of_getElem? hget)
      have hallocated : ((s.numOutput.map (m - ·)).map (· + x)).getD i 0 =
          m - (splitRows i (out ++ s.outputQueue.inner)).length + x := by
        rw [List.getD_eq_getElem?_getD, List.getElem?_map, List.getElem?_map, hget]
        rfl
      have hi' := hlen i
      rw [Nat.zero_add, hallocated] at hi'
      rw [hinner, ← List.append_assoc, splitRows_append _ _ o, List.length_append, hi', htotal,
        Nat.mul_add_div hn]
      omega
    · show (rowsOf ObjectRef.rows (out ++ s'.outputQueue.inner) ++ _).Perm _
      rw [hinner, ← List.append_assoc, rowsOf_append _ o, List.append_assoc, ← rowsOf_append]
      refine (hperm.append_left _).trans ?_
      rw [← rowsOf_append]
      exact h.rows
    · have hcount := hperm.length_eq
      rw [rowsOf_append, List.length_append, hout, sum_map_add, List.length_map, h.length, ← ha,
        ← hB] at hcount
      have hmod := Nat.div_add_mod (B - a) n
      have hlt := Nat.mod_lt (B - a) hn
      rw [← hx] at hmod
      omega
    · show ∀ b ∈ out ++ s'.outputQueue.inner, _
      intro b hb
      rw [hinner, ← List.append_assoc, List.mem_append] at hb
      obtain hb | hb := hb
      · exact h.index b hb
      · obtain ⟨i, -, hi, hbi⟩ := hidx b hb
        rw [Nat.zero_add, List.length_map, List.length_map, h.length] at hi
        exact ⟨i, hi, hbi⟩

theorem Inv.allInputsDone (h : Inv n equal added s out buffer) (hn : 1 ≤ n)
    (locations : ℕ → RefBundle (ObjectRef α) → List String)
    (hdrained : equal = false → s.hasHints = false → buffer = []) :
    ∃ s', s.allInputsDone locations = .ok s' ∧
      (∀ b ∈ out ++ s'.outputQueue.inner, ∃ i < n, b.outputSplitIdx = some i) ∧
      (equal = true → Equalized n added (out ++ s'.outputQueue.inner)) ∧
      (equal = false → (rowsOf ObjectRef.rows (out ++ s'.outputQueue.inner)).Perm
        (rowsOf ObjectRef.rows added)) := by
  -- without `equal` nothing is left in the buffer at the end
  have hall : ∀ {s : OutputSplitter α}, Inv n false added s out [] →
      s.buffer.len = 0 ∧ (rowsOf ObjectRef.rows (out ++ s.outputQueue.inner)).Perm
        (rowsOf ObjectRef.rows added) := by
    intro s h
    refine ⟨h.holds.len, ?_⟩
    have hrows := h.rows
    rwa [List.append_nil] at hrows
  rw [OutputSplitter.allInputsDone]
  split_ifs with hhints
  · obtain ⟨s₁, buffer₁, htry, h₁, -, hforced⟩ := h.tryDispatchBundles hn locations (!s.equal)
    rw [dispatchAtEnd, htry, ok_bind, h₁.equal_eq]
    cases equal with
    | true =>
      obtain ⟨s', hfin, hequal, hidx⟩ := h₁.finalizeDistribution hn
      exact ⟨s', hfin, hidx, fun _ => hequal, nofun⟩
    | false =>
      have hnil := hforced rfl (.inr (by rw [h.equal_eq]; rfl))
      subst hnil
      obtain ⟨hlen, hrows⟩ := hall h₁
      refine ⟨s₁, ?_, h₁.index, nofun, fun _ => hrows⟩
      simp [hlen]
  · cases equal with
    | true =>
      obtain ⟨s', hfin, hequal, hidx⟩ := h.finalizeDistribution hn
      exact ⟨s', hfin, hidx, fun _ => hequal, nofun⟩
    | false =>
      have hnil := hdrained rfl (Bool.eq_false_iff.mpr hhints)
      subst hnil
      obtain ⟨hlen, hrows⟩ := hall h
      refine ⟨s, ?_, h.index, nofun, fun _ => hrows⟩
      rw [OutputSplitter.finalizeDistribution, if_pos hlen]

/-! ### Runs -/

def step (locations : ℕ → RefBundle (ObjectRef α) → List String) (s : OutputSplitter α) :
    BundleOp (ObjectRef α) → Except PyError (OutputSplitter α × List (RefBundle (ObjectRef α)))
  | .add bundle => do
      let s ← s.addInput locations bundle
      .ok (s, [])
  | .getNext =>
    if s.hasNext then do
      let r ← s.getNext
      .ok (r.2, [r.1])
    else .ok (s, [])

theorem exists_start (hn : 1 ≤ n) (equal : Bool) {localityHints : Option (List String)}
    (hhints : ∀ hints ∈ localityHints, hints.length = n) (maxBufferingFactor : ℚ) (nextId : ℕ)
    (preserveOrder : Bool) :
    ∃ s : OutputSplitter α, init n equal localityHints maxBufferingFactor nextId = .ok s ∧
      Inv n equal [] (s.start preserveOrder) [] [] := by
  have hmax : (List.replicate n 0).max? = some 0 := by
    rw [List.max?_eq_some_iff]
    refine ⟨List.mem_replicate.mpr ⟨by omega, rfl⟩, fun b hb => ?_⟩
    rw [List.eq_of_mem_replicate hb]
  have hinv : ∀ (hints : Option (List String)) (size : ℚ), (∀ l ∈ hints, l.length = n) →
      (hints = none → size = 0) → Inv n equal ([] : List (RefBundle (ObjectRef α)))
        ⟨equal, .init, .init, List.replicate n 0, hints, size, 0, 0, 0, nextId⟩ [] [] := by
    intro hints size hlen hsize
    exact {
      equal_eq := rfl
      holds := HashLinkedQueue.holds_init
      valid := FIFOBundleQueue.valid_init
      length := List.length_replicate
      hints := hlen
      cap := by
        intro hnone
        cases hints with
        | none => exact hsize rfl
        | some hints =>
          have := hlen hints rfl
          simp [hasHints] at hnone
          rw [hnone, List.length_nil] at this
          omega
      counted := by simp
      full := by simp
      rows := List.Perm.refl _
      index := by simp [FIFOBundleQueue.init]
      total := by simp [FIFOBundleQueue.init]
      output := by
        intro i hi
        rw [List.getElem?_replicate, if_pos hi]
        rfl
      level := fun _ => ⟨_, calculateBufferRequirement_eq hmax, by simp⟩ }
  cases localityHints with
  | none =>
    refine ⟨_, rfl, ?_⟩
    cases preserveOrder with
    | true => exact hinv none 0 nofun (fun _ => rfl)
    | false => exact hinv none 0 nofun (fun _ => rfl)
  | some hints =>
    have hlen := hhints hints rfl
    refine ⟨_, if_neg (by simpa using hlen.symm), ?_⟩
    cases preserveOrder with
    | true => exact hinv none 0 nofun (fun _ => rfl)
    | false => exact hinv (some hints) _ hhints nofun

theorem Inv.getNext (h : Inv n equal added s out buffer) (hnext : s.hasNext = true) :
    ∃ b s', s.getNext = .ok (b, s') ∧ Inv n equal added s' (out ++ [b]) buffer ∧
      s'.hasHints = s.hasHints := by
  obtain ⟨b, inner, hinner⟩ := List.exists_cons_of_ne_nil (h.valid.hasNext.mp hnext)
  obtain ⟨q, hget, hq, hvalid⟩ := h.valid.getNext hinner
  have hsame : out ++ [b] ++ q.inner = out ++ s.outputQueue.inner := by
    rw [List.append_assoc, List.singleton_append, hq, hinner]
  refine ⟨b, { s with outputQueue := q }, ?_, ?_, rfl⟩
  · rw [OutputSplitter.getNext, hget, ok_bind]
  · refine ⟨h.equal_eq, h.holds, hvalid, h.length, h.hints, h.cap, h.counted, h.full, ?_, ?_, ?_,
      ?_, h.level⟩
    · rw [hsame]
      exact h.rows
    · rw [hsame]
      exact h.index
    · rw [hsame]
      exact h.total
    · rw [hsame]
      exact h.output

/-- No run fails. -/
theorem run_inv (hn : 1 ≤ n) {s₀ : OutputSplitter α} (h₀ : Inv n equal [] s₀ [] [])
    (locations : ℕ → RefBundle (ObjectRef α) → List String) {ops : List (BundleOp (ObjectRef α))}
    (hcounted : ∀ b ∈ addedBundles ops, b.Counted ObjectRef.rows)
    (hfull : equal = true → ∀ b ∈ addedBundles ops, ∀ e ∈ b.blocks, e.2 = none) :
    ∃ s out, runSteps (step locations) s₀ ops = .ok (s, out) ∧
      ∃ buffer, Inv n equal (addedBundles ops) s out buffer ∧
        (equal = false → s.hasHints = false → buffer = []) := by
  apply runSteps_ok (P := fun done s out => ∃ buffer, Inv n equal (addedBundles done) s out buffer ∧
    (equal = false → s.hasHints = false → buffer = []))
  · exact ⟨[], h₀, fun _ _ => rfl⟩
  · rintro done op rest s out rfl ⟨buffer, h, hdrained⟩
    cases op with
    | add bundle =>
      have hmem := mem_addedBundles done rest bundle
      obtain ⟨s', buffer', hadd, h', hdrained'⟩ := h.addInput hn locations (hcounted bundle hmem)
        (fun he => ⟨hcounted bundle hmem, hfull he bundle hmem⟩)
      refine ⟨s', [], by rw [step, hadd]; rfl, buffer', ?_, hdrained'⟩
      rwa [addedBundles_snoc_add, List.append_nil]
    | getNext =>
      rw [addedBundles_snoc_getNext]
      by_cases hnext : s.hasNext = true
      · obtain ⟨b, s', hget, h', hhints⟩ := h.getNext hnext
        refine ⟨s', [b], ?_, buffer, h', ?_⟩
        · rw [step, if_pos hnext, hget]
          rfl
        · rwa [hhints]
      · refine ⟨s, [], ?_, buffer, ?_, hdrained⟩
        · rw [step, if_neg hnext]
        · rwa [List.append_nil]

end OutputSplitter

/-- Every run of `OutputSplitter`, whatever the hints and the answers of the location lookup:
nothing fails; with `equal` the buffer always suffices to level the outputs, and at the end every
output got the same number of rows and less than `n` are dropped; without `equal` every row goes to
one output.  Bundles that come from another operator hold full blocks: only `RebundleQueue` makes
slices, for its own tasks. -/
theorem outputSplitter_run [DecidableEq α] {n : ℕ} (hn : 1 ≤ n) (equal : Bool)
    (localityHints : Option (List String)) (hhints : ∀ hints ∈ localityHints, hints.length = n)
    (maxBufferingFactor : ℚ) (nextId : ℕ) (preserveOrder : Bool)
    (locations : ℕ → RefBundle (ObjectRef α) → List String) (ops : List (BundleOp (ObjectRef α)))
    (hcounted : ∀ b ∈ addedBundles ops, b.Counted ObjectRef.rows)
    (hfull : equal = true → ∀ b ∈ addedBundles ops, ∀ e ∈ b.blocks, e.2 = none) :
    ∃ s₀ s out, OutputSplitter.init n equal localityHints maxBufferingFactor nextId = .ok s₀ ∧
      runSteps (OutputSplitter.step locations) (s₀.start preserveOrder) ops = .ok (s, out) ∧
      (∃ buffer, s.buffer.iter = some buffer ∧ (equal = true →
        ∃ r, OutputSplitter.calculateBufferRequirement s.numOutput = .ok r ∧
          r ≤ (rowsOf ObjectRef.rows buffer).length)) ∧
      (∀ i < n, s.numOutput[i]? =
        some (OutputSplitter.splitRows i (out ++ s.outputQueue.inner)).length) ∧
      ∃ s', s.allInputsDone locations = .ok s' ∧
        (∀ b ∈ out ++ s'.outputQueue.inner, ∃ i < n, b.outputSplitIdx = some i) ∧
        (equal = true →
          (∀ i < n, (OutputSplitter.splitRows i (out ++ s'.outputQueue.inner)).length =
            (rowsOf ObjectRef.rows (addedBundles ops)).length / n) ∧
          ∃ dropped, (rowsOf ObjectRef.rows (out ++ s'.outputQueue.inner) ++ dropped).Perm
            (rowsOf ObjectRef.rows (addedBundles ops)) ∧ dropped.length ≤ n - 1) ∧
        (equal = false → (rowsOf ObjectRef.rows (out ++ s'.outputQueue.inner)).Perm
          (rowsOf ObjectRef.rows (addedBundles ops))) := by
  obtain ⟨s₀, hinit, h₀⟩ :=
    OutputSplitter.exists_start (α := α) hn equal hhints maxBufferingFactor nextId
    preserveOrder
  obtain ⟨s, out, hrun, buffer, h, hdrained⟩ := OutputSplitter.run_inv hn h₀ locations hcounted hfull
  obtain ⟨s', hdone, hidx, hequal, hall⟩ := h.allInputsDone hn locations hdrained
  refine ⟨s₀, s, out, hinit, hrun, ⟨buffer, h.holds.iter, h.level⟩, h.output, s', hdone, hidx,
    fun he => ?_, hall⟩
  obtain ⟨hlength, hrows⟩ := hequal he
  exact ⟨hlength, hrows⟩

/-- A bundle of one full block. -/
def ObjectRef.bundle (r : ObjectRef α) : RefBundle (ObjectRef α) where
  blocks := [(⟨r, ⟨some r.block.rows.length, some 0, []⟩⟩, none)]
  schema := none
  ownsBlocks := true
  outputSplitIdx := none
  slices_valid := by
    intro e he
    rw [List.mem_singleton.mp he]
    exact nofun
  sizes_known := by
    intro e he
    rw [List.mem_singleton.mp he]
    rfl

theorem ObjectRef.full_bundle (r : ObjectRef α) : OutputSplitter.Full r.bundle := by
  refine ⟨fun e he => ?_, fun e he => ?_⟩
  · rw [List.mem_singleton.mp he]
    refine ⟨fun _ => rfl, fun n hn => ?_, nofun⟩
    cases hn
    rfl
  · rw [List.mem_singleton.mp he]

/-- Two outputs on two nodes, three rows and two rows, all on the second node: one row is
dropped. -/
theorem outputSplitter_run_two :
    ∃ s₀ s out, OutputSplitter.init 2 true (some ["a", "b"]) 2 10 = .ok s₀ ∧
      runSteps (OutputSplitter.step (fun _ _ => ["b"])) (s₀.start false)
        [.add (ObjectRef.bundle ⟨1, ⟨.arrow, [1, 2, 3]⟩⟩), .getNext,
          .add (ObjectRef.bundle ⟨2, ⟨.arrow, [4, 5]⟩⟩)] = .ok (s, out) ∧
      ∃ s', s.allInputsDone (fun _ _ => ["b"]) = .ok s' ∧
        (∀ i < 2, (OutputSplitter.splitRows i (out ++ s'.outputQueue.inner)).length = 2) ∧
        ∃ dropped, (rowsOf ObjectRef.rows (out ++ s'.outputQueue.inner) ++ dropped).Perm
          [1, 2, 3, 4, 5] := by
  have hfull : ∀ b ∈ addedBundles [.add (ObjectRef.bundle ⟨1, ⟨.arrow, [1, 2, 3]⟩⟩), .getNext,
      .add (ObjectRef.bundle ⟨2, ⟨.arrow, [4, 5]⟩⟩)], OutputSplitter.Full (α := ℕ) b := by
    intro b hb
    simp only [addedBundles, List.filterMap_cons, List.filterMap_nil, List.mem_cons,
      List.not_mem_nil, or_false] at hb
    obtain rfl | rfl := hb <;> exact ObjectRef.full_bundle _
  obtain ⟨s₀, s, out, hinit, hrun, -, -, s', hdone, -, hequal, -⟩ :=
    outputSplitter_run (n := 2) (by decide)
    true (some ["a", "b"]) (by decide) 2 10 false (fun _ _ => ["b"]) _ (fun b hb => (hfull b hb).1)
    (fun _ b hb => (hfull b hb).2)
  obtain ⟨hlength, dropped, hperm, -⟩ := hequal rfl
  exact ⟨s₀, s, out, hinit, hrun, s', hdone, hlength, dropped, hperm⟩

end RayTfm.Data
