import RayTfm.Py
import RayTfm.Lib.Sorting
import RayTfm.Lib.Grouping

/-! # Training sequences

`build_sequences` of `ray_tokenize.py`: the transactions of one group are sorted by time, cut into
chunks, and every chunk becomes one row `<bos> txn <sep> txn … <eos> <pad> …` of a fixed length.

When a full chunk fits and no field id is a special id, the rows can be read back: the parsed rows
are the transactions sorted by time, ties in input order (`buildSequences_parse`). -/

namespace RayTfm.Tfm

/-! ### Constants of `ray_common.py` -/

def defaultHashSize : ℤ := 2000
def seqLength : ℕ := 4096
def seqChunkSize : ℕ := 315
def padTokenId : ℤ := 0
def bosTokenId : ℤ := 1
def eosTokenId : ℤ := 2
def sepTokenId : ℤ := 3
def unkTokenId : ℤ := 4

/-- One tokenized transaction: group key, time in seconds, field ids and label. -/
structure TokenizedRow where
  ucKey : ℤ
  ts : ℤ
  tokenIds : List ℤ
  label : ℤ
deriving DecidableEq, Repr

/-! ### Building -/

/-- The ids of one chunk, before truncation and padding. -/
def chunkIds (chunk : List (List ℤ)) : List ℤ :=
  chunk.zipIdx.foldl (fun seq p =>
    if p.2 < chunk.length - 1 then seq ++ p.1 ++ [sepTokenId] else seq ++ p.1) [bosTokenId] ++
    [eosTokenId]

/-- Cut to the length, then fill up with padding. -/
def padTo (n : ℕ) (seq : List ℤ) : List ℤ :=
  seq.take n ++ List.replicate (n - (seq.take n).length) padTokenId

/-- `build_sequences`; a zero step is rejected by `range`. -/
def buildSequences (group : List TokenizedRow) (seqLength chunkSize : ℕ) :
    Except PyError (List (List ℤ)) :=
  let order := argsort (group.map TokenizedRow.ts)
  let tok := gather (group.map TokenizedRow.tokenIds) order
  if chunkSize = 0 then .error (.valueError "range() arg 3 must not be zero")
  else .ok ((rangeStep tok.length chunkSize).map (fun start =>
    padTo seqLength (chunkIds ((tok.drop start).take chunkSize))))

theorem buildSequences_eq (group : List TokenizedRow) (L : ℕ) {c : ℕ} (hc : 0 < c) :
    buildSequences group L c =
      .ok ((chunks c ((sortBy TokenizedRow.ts group).map TokenizedRow.tokenIds)).map
        (fun chunk => padTo L (chunkIds chunk))) := by
  have htok : gather (group.map TokenizedRow.tokenIds) (argsort (group.map TokenizedRow.ts)) =
      (sortBy TokenizedRow.ts group).map TokenizedRow.tokenIds := by
    rw [gather_map, gather_argsort]
  simp only [buildSequences, htok]
  rw [if_neg (by omega), chunks, List.map_map]
  rfl

theorem chunkIds_eq (chunk : List (List ℤ)) :
    chunkIds chunk = bosTokenId :: ([sepTokenId].intercalate chunk ++ [eosTokenId]) := by
  have hloop : ∀ (l : List (List ℤ)) (seq : List ℤ) (n : ℕ), l.length + n = chunk.length →
      (l.zipIdx n).foldl (fun seq p =>
        if p.2 < chunk.length - 1 then seq ++ p.1 ++ [sepTokenId] else seq ++ p.1) seq =
      seq ++ [sepTokenId].intercalate l := by
    intro l
    induction l with
    | nil => simp
    | cons row l ih =>
      intro seq n hn
      rw [List.zipIdx_cons, List.foldl_cons]
      simp only [List.length_cons] at hn
      rw [ih _ (n + 1) (by omega)]
      cases l with
      | nil =>
        simp only [List.length_nil] at hn
        rw [if_neg (by omega)]
        simp
      | cons row' l =>
        simp only [List.length_cons] at hn
        rw [if_pos (by omega), List.intercalate_cons_cons]
        simp
  unfold chunkIds
  rw [hloop chunk [bosTokenId] 0 rfl, List.cons_append, List.cons_append, List.nil_append]

variable {chunk : List (List ℤ)}

theorem length_chunkIds {f : ℕ} (hne : chunk ≠ []) (hf : ∀ row ∈ chunk, row.length = f) :
    (chunkIds chunk).length = chunk.length * (f + 1) + 1 := by
  have hinter : ∀ l : List (List ℤ), l ≠ [] → (∀ row ∈ l, row.length = f) →
      ([sepTokenId].intercalate l).length + 1 = l.length * (f + 1) := by
    intro l
    induction l with
    | nil => exact fun h => absurd rfl h
    | cons row l ih =>
      intro _ hl
      have hrow := hl row (.head _)
      cases l with
      | nil => simp [hrow]
      | cons row' l =>
        have h := ih (by simp) (fun r hr => hl r (.tail _ hr))
        rw [List.intercalate_cons_cons]
        simp only [List.length_append, List.length_cons, List.length_nil, hrow] at h ⊢
        rw [Nat.add_mul (l.length + 1) 1]
        omega
  have h := hinter chunk hne hf
  rw [chunkIds_eq]
  simp only [List.length_cons, List.length_append, List.length_nil]
  omega

/-! ### Reading back -/

/-- Strip the begin id, cut at the first end id, split at the separators; what follows the end id
must be padding. -/
def parseSequence (row : List ℤ) : Option (List (List ℤ)) :=
  match row with
  | b :: rest =>
    match rest.dropWhile (· ≠ eosTokenId) with
    | _ :: pad =>
      if b = bosTokenId ∧ ∀ i ∈ pad, i = padTokenId then
        some ((rest.takeWhile (· ≠ eosTokenId)).splitOn sepTokenId)
      else none
    | [] => none
  | [] => none

theorem mem_intercalate {i sep : ℤ} {l : List (List ℤ)} (h : i ∈ [sep].intercalate l) :
    i = sep ∨ ∃ row ∈ l, i ∈ row := by
  induction l with
  | nil => simp at h
  | cons row l ih =>
    cases l with
    | nil => exact .inr ⟨row, List.mem_cons_self, by simpa using h⟩
    | cons row' l =>
      rw [List.intercalate_cons_cons, List.mem_append, List.mem_append, List.mem_singleton] at h
      obtain (h | h) | h := h
      · exact .inr ⟨row, .head _, h⟩
      · exact .inl h
      · exact (ih h).imp_right (fun ⟨r, hr, hi⟩ => ⟨r, .tail _ hr, hi⟩)

/-- A chunk that fits and has no special ids is read back. -/
theorem parseSequence_padTo {n : ℕ} (hne : chunk ≠ []) (hlen : (chunkIds chunk).length ≤ n)
    (hids : ∀ row ∈ chunk, ∀ i ∈ row, i ≠ eosTokenId ∧ i ≠ sepTokenId) :
    parseSequence (padTo n (chunkIds chunk)) = some chunk := by
  have hbody : ∀ i ∈ [sepTokenId].intercalate chunk, (decide (i ≠ eosTokenId)) = true := by
    intro i hi
    obtain rfl | ⟨row, hrow, hi⟩ := mem_intercalate hi
    · decide
    · exact decide_eq_true (hids row hrow i hi).1
  have hpad : padTo n (chunkIds chunk) = bosTokenId :: ([sepTokenId].intercalate chunk ++
      eosTokenId :: List.replicate (n - (chunkIds chunk).length) padTokenId) := by
    unfold padTo
    rw [List.take_of_length_le hlen, chunkIds_eq]
    simp
  have hsplit : ([sepTokenId].intercalate chunk).splitOn sepTokenId = chunk :=
    List.splitOn_intercalate _ (fun row hrow hmem => (hids row hrow _ hmem).2 rfl) hne
  rw [hpad, parseSequence, List.dropWhile_append_of_pos hbody, List.takeWhile_append_of_pos hbody]
  simp [hsplit]

/-- The parameters fit: whatever the timestamps are, there is one row of the given length for every
chunk, and parsing the rows in order gives the transactions sorted by time, ties in input order. -/
theorem buildSequences_parse (group : List TokenizedRow) {f c L : ℕ} (hc : 1 ≤ c)
    (hL : c * (f + 1) + 1 ≤ L) (hf : ∀ r ∈ group, r.tokenIds.length = f)
    (hids : ∀ r ∈ group, ∀ i ∈ r.tokenIds,
      i ≠ padTokenId ∧ i ≠ bosTokenId ∧ i ≠ eosTokenId ∧ i ≠ sepTokenId) :
    ∃ seqs parsed sorted, buildSequences group L c = .ok seqs ∧
      seqs.length = group.length ⌈/⌉ c ∧ (∀ s ∈ seqs, s.length = L) ∧
      seqs.mapM parseSequence = some parsed ∧
      IsStableSort TokenizedRow.ts group sorted ∧
      parsed.flatten = sorted.map TokenizedRow.tokenIds := by
  have hsort := isStableSort_sortBy TokenizedRow.ts group
  let tok := (sortBy TokenizedRow.ts group).map TokenizedRow.tokenIds
  have hchunk : ∀ chunk ∈ chunks c tok, ∀ row ∈ chunk, ∃ r ∈ group, r.tokenIds = row := by
    intro chunk hmem row hrow
    obtain ⟨r, hr, rfl⟩ := List.mem_map.mp ((mem_chunks hc hmem).2.2 row hrow)
    exact ⟨r, hsort.perm.mem_iff.mp hr, rfl⟩
  have hfit : ∀ chunk ∈ chunks c tok, (chunkIds chunk).length ≤ L := by
    intro chunk hmem
    obtain ⟨hne, hle, -⟩ := mem_chunks hc hmem
    have hrows : ∀ row ∈ chunk, row.length = f := by
      intro row hrow
      obtain ⟨r, hr, rfl⟩ := hchunk chunk hmem row hrow
      exact hf r hr
    rw [length_chunkIds hne hrows]
    have := Nat.mul_le_mul_right (f + 1) hle
    omega
  refine ⟨_, chunks c tok, _, buildSequences_eq group L hc, ?_, ?_, ?_, hsort,
    flatten_chunks hc tok⟩
  · rw [List.length_map, length_chunks, List.length_map, hsort.perm.length_eq,
      Nat.ceilDiv_eq_add_pred_div]
  · intro s hs
    obtain ⟨chunk, hmem, rfl⟩ := List.mem_map.mp hs
    have := hfit chunk hmem
    simp only [padTo, List.length_append, List.length_take, List.length_replicate]
    omega
  · refine mapM_map_of_leftInverse (fun chunk hmem => ?_)
    refine parseSequence_padTo (mem_chunks hc hmem).1 (hfit chunk hmem) (fun row hrow i hi => ?_)
    obtain ⟨r, hr, rfl⟩ := hchunk chunk hmem row hrow
    exact (hids r hr i hi).2.2

/-- Two transactions of twelve fields, out of order, with the shipped constants. -/
theorem buildSequences_parse_default :
    ∃ seqs parsed sorted,
      buildSequences [⟨7, 20, List.replicate 12 5, 0⟩, ⟨7, 10, List.replicate 12 6, 0⟩] seqLength
        seqChunkSize = .ok seqs ∧
      seqs.length = 2 ⌈/⌉ seqChunkSize ∧ (∀ s ∈ seqs, s.length = seqLength) ∧
      seqs.mapM parseSequence = some parsed ∧
      IsStableSort TokenizedRow.ts
        [⟨7, 20, List.replicate 12 5, 0⟩, ⟨7, 10, List.replicate 12 6, 0⟩] sorted ∧
      parsed.flatten = sorted.map TokenizedRow.tokenIds :=
  buildSequences_parse _ (f := 12) (by decide) (by decide) (by decide) (by decide)

end RayTfm.Tfm
