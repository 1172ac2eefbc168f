import RayTfm.Data.TableBlock
import RayTfm.Logical.Projection

/-! # Common sub-expressions

The model of `logical/rules/common_subexpr_elimination.py`.  The sub-expressions of a projection
list that occur more than once are computed first, each into a hidden column, and the list reads
these columns.  Occurrences are put into buckets by a fingerprint and within a bucket into groups of
equal expressions; the fingerprint may be any function.  The names of the hidden columns carry a
random token.

A rewritten expression has the value of the original on the block with the hidden columns filled in
(`evalExpr_rewrite`), so the projection gives the same block (`commonSubExpr_keeps_projection`).  It
need not where the rule takes two values for one, as `0.0` and `-0.0`, where a scalar goes through a
hidden column, or on a block that the evaluator skips: it does so only after the hidden columns were
computed. -/

namespace RayTfm.Logical

open RayTfm.Data (numberedName numberedName_injective)

variable {V C H : Type}

/-! ### The rule -/

/-- `_is_ignored_cse_root`. -/
def isIgnoredCseRoot : Expr V → Bool
  | .column _ | .literal _ | .aliased _ _ _ | .star => true
  | _ => false

/-- An expression that may be computed into a hidden column. -/
def isCseEligible (e : Expr V) : Bool := !isIgnoredCseRoot e && e.isIdempotent

/-- What expressions are compared by: `structural_fingerprint`, and `==` on literals of one type. -/
structure StructuralComparison (V H : Type) where
  fingerprint : Expr V → H
  sameLiteral : V → V → Bool

/-- `_Candidate`, with its occurrences and their depths. -/
structure Candidate (V H : Type) where
  expr : Expr V
  key : H
  occurrences : List (Expr V × ℕ)

/-- `max_depth`. -/
def Candidate.maxDepth (c : Candidate V H) : ℕ := (c.occurrences.map Prod.snd).foldl max 0

/-- `_Replacement`. -/
structure Replacement (V H : Type) where
  expr : Expr V
  key : H
  tempName : String

/-- `_candidate_to_replacement`. -/
def candidateToReplacement (c : Candidate V H × String) : Replacement V H := ⟨c.1.expr, c.1.key, c.2⟩

/-- `CSE_TEMP_COLUMN_PREFIX`. -/
def cseTempColumn : String := "__ray_data_cse_"

/-- `_assign_temp_names`. -/
def assignTempNames (projectToken : String) (candidates : List (Candidate V H)) :
    List (Candidate V H × String) :=
  candidates.mapIdx (fun i c => (c, numberedName (cseTempColumn ++ projectToken) i))

section rule
variable [DecidableEq H] (cmp : StructuralComparison V H)

/-- `_add_to_structural_group`. -/
def addToStructuralGroup (occurrence : Expr V × ℕ) : List (List (Expr V × ℕ)) → List (List (Expr V × ℕ))
  | [] => [[occurrence]]
  | group :: groups =>
    if group.head?.any (fun first => occurrence.1.structurallyEquals cmp.sameLiteral first.1) then
      (group ++ [occurrence]) :: groups
    else group :: addToStructuralGroup occurrence groups

/-- The loop of `_find_candidates` that fills the buckets. -/
def structuralBuckets (occurrences : List (Expr V × ℕ)) : Dict H (List (List (Expr V × ℕ))) :=
  occurrences.foldl (fun buckets o =>
    buckets.set (cmp.fingerprint o.1)
      (addToStructuralGroup cmp o ((buckets.get? (cmp.fingerprint o.1)).getD []))) Dict.empty

/-- `_find_candidates`. -/
def findCandidates (exprs : List (Expr V)) : List (Candidate V H) :=
  let occurrences := exprs.flatMap (Expr.occurrences 0)
  let buckets := structuralBuckets cmp (occurrences.filter (fun o => isCseEligible o.1))
  buckets.entries.flatMap (fun bucket =>
    bucket.2.filterMap (fun group =>
      match group with
      | first :: second :: rest => some ⟨first.1, bucket.1, first :: second :: rest⟩
      | _ => none))

/-- `_ReplacementIndex.find`. -/
def findReplacement (replacements : List (Replacement V H)) (e : Expr V) : Option String :=
  (replacements.find? (fun r => decide (r.key = cmp.fingerprint e) &&
    e.structurallyEquals cmp.sameLiteral r.expr)).map
    Replacement.tempName

end rule

/-- `_maybe_replace`, with what the node is rewritten to otherwise. -/
def replaceOr (find : Expr V → Option String) (e rewritten : Expr V) : Expr V :=
  match find e with
  | some tempName => .column tempName
  | none => rewritten

mutual

/-- `_rewrite` of a node that is not replaced itself. -/
def rewriteOperands (find : Expr V → Option String) : Expr V → Expr V
  | .binary op left right =>
    .binary op (replaceOr find left (rewriteOperands find left))
      (replaceOr find right (rewriteOperands find right))
  | .unary op operand => .unary op (replaceOr find operand (rewriteOperands find operand))
  | .udf fn args => .udf fn (rewriteArgs find args)
  | .aliased expr name isRename =>
    let visited := (replaceOr find expr (rewriteOperands find expr)).unalias
    .aliased visited name (isRename && visited.isColumn)
  | .column name => .column name
  | .literal value => .literal value
  | .download uriColumnName => .download uriColumnName
  | .star => .star
  | .synthetic kind => .synthetic kind

def rewriteArgs (find : Expr V → Option String) : List (Expr V) → List (Expr V)
  | [] => []
  | e :: es => replaceOr find e (rewriteOperands find e) :: rewriteArgs find es

end

/-- `rewrite_visible_expr`: the root may be replaced as well. -/
def rewriteVisibleExpr (find : Expr V → Option String) (e : Expr V) : Expr V :=
  replaceOr find e (rewriteOperands find e)

section rule
variable [DecidableEq H] (cmp : StructuralComparison V H)

/-- The loop of `_build_cse_materialization_plan`: each candidate may read the columns of those
before. -/
def materializations (replacements : List (Replacement V H)) :
    List (Candidate V H × String) → List (Expr V)
  | [] => []
  | c :: candidates =>
    (rewriteOperands (findReplacement cmp replacements) c.1.expr).aliasTo c.2 ::
      materializations (replacements ++ [candidateToReplacement c]) candidates

/-- `_build_cse_materialization_plan`: the deepest candidates first. -/
def buildCseMaterializationPlan (candidates : List (Candidate V H × String)) : List (Expr V) :=
  materializations cmp [] (candidates.mergeSort (fun c d => decide (d.1.maxDepth ≤ c.1.maxDepth)))

/-- `_rewrite_visible_exprs`. -/
def rewriteVisibleExprs (exprs : List (Expr V)) (candidates : List (Candidate V H × String)) :
    List (Expr V) :=
  exprs.map (rewriteVisibleExpr (findReplacement cmp (candidates.map candidateToReplacement)))

/-- `_try_optimize_project`: the visible and the hidden expressions of the new `Project`. -/
def tryOptimizeProject (projectToken : String) (exprs : List (Expr V)) :
    List (Expr V) × List (Expr V) :=
  let candidates := assignTempNames projectToken (findCandidates cmp exprs)
  if candidates.isEmpty then (exprs, [])
  else (rewriteVisibleExprs cmp exprs candidates, buildCseMaterializationPlan cmp candidates)

end rule

/-! ### Candidates are parts of the list -/

namespace Expr

variable {o : Expr V × ℕ}
variable {depth : ℕ}

theorem mem_occurrencesAll {args : List (Expr V)} :
    o ∈ occurrencesAll depth args ↔ ∃ arg ∈ args, o ∈ arg.occurrences depth := by
  induction args with
  | nil => simp [occurrencesAll]
  | cons a args ih => simp [occurrencesAll, ih]

variable {e : Expr V}

/-- What an expression hands down to its operands holds of all its parts. -/
theorem of_mem_occurrences {P : Expr V → Prop} (hbinary : ∀ op l r, P (.binary op l r) → P l ∧ P r)
    (hunary : ∀ op e, P (.unary op e) → P e) (hudf : ∀ fn args, P (.udf fn args) → ∀ arg ∈ args, P arg)
    (haliased : ∀ e name isRename, P (.aliased e name isRename) → P e)
    (he : P e) (ho : o ∈ e.occurrences depth) : P o.1 := by
  induction e generalizing depth with
  | binary op left right ihl ihr =>
    simp only [occurrences, List.mem_append, List.mem_singleton] at ho
    obtain (ho | ho) | rfl := ho
    · exact ihl (hbinary op left right he).1 ho
    · exact ihr (hbinary op left right he).2 ho
    · exact he
  | unary op operand ih =>
    simp only [occurrences, List.mem_append, List.mem_singleton] at ho
    obtain ho | rfl := ho
    · exact ih (hunary op operand he) ho
    · exact he
  | udf fn args ih =>
    simp only [occurrences, List.mem_append, List.mem_singleton] at ho
    obtain ho | rfl := ho
    · obtain ⟨arg, harg, ho⟩ := mem_occurrencesAll.mp ho
      exact ih arg harg (hudf fn args he arg harg) ho
    · exact he
  | aliased expr name isRename ih =>
    simp only [occurrences, List.mem_append, List.mem_singleton] at ho
    obtain ho | rfl := ho
    · exact ih (haliased expr name isRename he) ho
    · exact he
  | column name => rw [List.mem_singleton.mp ho]; exact he
  | literal value => rw [List.mem_singleton.mp ho]; exact he
  | download uriColumnName => rw [List.mem_singleton.mp ho]; exact he
  | star => rw [List.mem_singleton.mp ho]; exact he
  | synthetic kind => rw [List.mem_singleton.mp ho]; exact he

theorem columnRefs_subset_of_mem_occurrences
    (ho : o ∈ e.occurrences depth) : ∀ name ∈ o.1.columnRefs, name ∈ e.columnRefs := by
  refine of_mem_occurrences (P := fun x => ∀ name ∈ x.columnRefs, name ∈ e.columnRefs) ?_ ?_ ?_ ?_
    (fun _ h => h) ho
  · intro op l r h
    exact ⟨fun n hn => h n (List.mem_append_left _ hn), fun n hn => h n (List.mem_append_right _ hn)⟩
  · exact fun _ _ h => h
  · exact fun _ _ h arg harg n hn => h n (mem_columnRefs_udf.mpr ⟨arg, harg, hn⟩)
  · exact fun _ _ _ h => h

theorem literals_subset_of_mem_occurrences (ho : o ∈ e.occurrences depth) :
    o.1.literals ⊆ e.literals := by
  refine of_mem_occurrences (P := fun x => x.literals ⊆ e.literals) ?_ ?_ ?_ ?_ (fun _ h => h) ho
  · exact fun _ _ _ h => List.append_subset.mp h
  · exact fun _ _ h => h
  · exact fun _ _ h arg harg v hv => h (mem_literals_udf.mpr ⟨arg, harg, hv⟩)
  · exact fun _ _ _ h => h

end Expr

variable {columns : String → Option C}

theorem exists_of_evalArgs {K : Kernels V C} {args : List (Expr V)} {cs : List C}
    (h : evalArgs K columns args = .ok cs) : ∀ arg ∈ args, ∃ c, evalExpr K columns arg = .ok c := by
  induction args generalizing cs with
  | nil => simp
  | cons a args ih =>
    obtain ⟨c, hc, h⟩ := bind_eq_ok.mp h
    obtain ⟨cs', hcs, -⟩ := bind_eq_ok.mp h
    exact List.forall_mem_cons.mpr ⟨⟨c, hc⟩, ih hcs⟩

theorem evalExpr_of_mem_occurrences {K : Kernels V C} {e : Expr V} {depth : ℕ}
    {o : Expr V × ℕ} (ho : o ∈ e.occurrences depth) (h : ∃ c, evalExpr K columns e = .ok c) :
    ∃ c, evalExpr K columns o.1 = .ok c := by
  refine Expr.of_mem_occurrences (P := fun x => ∃ c, evalExpr K columns x = .ok c) ?_ ?_ ?_ ?_ h ho
  · rintro op l r ⟨c, hc⟩
    obtain ⟨a, ha, hc⟩ := bind_eq_ok.mp hc
    obtain ⟨b, hb, -⟩ := bind_eq_ok.mp hc
    exact ⟨⟨a, ha⟩, ⟨b, hb⟩⟩
  · rintro op e ⟨c, hc⟩
    obtain ⟨a, ha, -⟩ := bind_eq_ok.mp hc
    exact ⟨a, ha⟩
  · rintro fn args ⟨c, hc⟩
    obtain ⟨cs, hcs, -⟩ := bind_eq_ok.mp hc
    exact exists_of_evalArgs hcs
  · exact fun _ _ _ h => h

section candidates
variable [DecidableEq H] {cmp : StructuralComparison V H}

omit [DecidableEq H] in
theorem mem_of_mem_addToStructuralGroup {o x : Expr V × ℕ} {groups : List (List (Expr V × ℕ))}
    {group : List (Expr V × ℕ)} (hgroup : group ∈ addToStructuralGroup cmp o groups) (hx : x ∈ group) :
    x = o ∨ ∃ group' ∈ groups, x ∈ group' := by
  induction groups with
  | nil =>
    rw [addToStructuralGroup, List.mem_singleton] at hgroup
    subst hgroup
    exact .inl (List.mem_singleton.mp hx)
  | cons g groups ih =>
    rw [addToStructuralGroup] at hgroup
    split_ifs at hgroup with hsame
    · obtain rfl | hgroup := List.mem_cons.mp hgroup
      · rw [List.mem_append, List.mem_singleton] at hx
        exact hx.symm.imp_right (fun hx => ⟨g, .head _, hx⟩)
      · exact .inr ⟨group, .tail _ hgroup, hx⟩
    · obtain rfl | hgroup := List.mem_cons.mp hgroup
      · exact .inr ⟨group, .head _, hx⟩
      · obtain rfl | ⟨g', hg', hx⟩ := ih hgroup
        · exact .inl rfl
        · exact .inr ⟨g', .tail _ hg', hx⟩

theorem mem_of_mem_structuralBuckets {occurrences : List (Expr V × ℕ)} :
    ∀ bucket ∈ (structuralBuckets cmp occurrences).entries, ∀ group ∈ bucket.2, ∀ o ∈ group,
      o ∈ occurrences := by
  have hloop : ∀ (l : List (Expr V × ℕ)) (buckets : Dict H (List (List (Expr V × ℕ)))),
    (∀ o ∈ l, o ∈ occurrences) →
      (∀ bucket ∈ buckets.entries, ∀ group ∈ bucket.2, ∀ o ∈ group, o ∈ occurrences) →
      ∀ bucket ∈ (l.foldl (fun buckets o => buckets.set (cmp.fingerprint o.1)
        (addToStructuralGroup cmp o ((buckets.get? (cmp.fingerprint o.1)).getD []))) buckets).entries,
        ∀ group ∈ bucket.2, ∀ o ∈ group, o ∈ occurrences := by
    intro l
    induction l with
    | nil => exact fun buckets _ h => h
    | cons o l ih =>
      intro buckets hl hbuckets
      apply ih _ (fun x hx => hl x (.tail _ hx))
      intro bucket hbucket group hgroup x hx
      obtain rfl | ⟨-, hbucket⟩ := Dict.mem_entries_set.mp hbucket
      · obtain rfl | ⟨group', hgroup', hx⟩ := mem_of_mem_addToStructuralGroup hgroup hx
        · exact hl x (.head _)
        · cases hget : buckets.get? (cmp.fingerprint o.1) with
          | none => rw [hget] at hgroup'; cases hgroup'
          | some groups =>
            rw [hget] at hgroup'
            exact hbuckets _ (Dict.get?_eq_some_iff.mp hget) group' hgroup' x hx
      · exact hbuckets bucket hbucket group hgroup x hx
  exact hloop occurrences Dict.empty (fun _ h => h) (fun _ h => (nomatch h))

theorem findCandidates_spec {exprs : List (Expr V)} {c : Candidate V H}
    (hc : c ∈ findCandidates cmp exprs) :
    isCseEligible c.expr = true ∧ ∃ e ∈ exprs, ∃ depth, (c.expr, depth) ∈ e.occurrences 0 := by
  obtain ⟨bucket, hbucket, hc⟩ := List.mem_flatMap.mp hc
  obtain ⟨group, hgroup, hc⟩ := List.mem_filterMap.mp hc
  split at hc
  · rename_i first second rest
    cases hc
    have hfirst := mem_of_mem_structuralBuckets bucket hbucket _ hgroup first (.head _)
    obtain ⟨hfirst, heligible⟩ := List.mem_filter.mp hfirst
    obtain ⟨e, he, hfirst⟩ := List.mem_flatMap.mp hfirst
    exact ⟨heligible, e, he, first.2, hfirst⟩
  · cases hc

theorem findReplacement_eq_some {replacements : List (Replacement V H)} {e : Expr V} {tempName : String}
    (h : findReplacement cmp replacements e = some tempName) :
    ∃ r ∈ replacements, e.structurallyEquals cmp.sameLiteral r.expr = true ∧ r.tempName = tempName := by
  obtain ⟨r, hr, rfl⟩ := Option.map_eq_some_iff.mp h
  have hmem := List.mem_of_find?_eq_some hr
  have hsame := List.find?_some hr
  rw [Bool.and_eq_true] at hsame
  exact ⟨r, hmem, hsame.2, rfl⟩

end candidates

/-! ### Rewritten expressions -/

section rewrite
variable {find : Expr V → Option String}

theorem rewriteArgs_eq (args : List (Expr V)) :
    rewriteArgs find args = args.map (rewriteVisibleExpr find) := by
  induction args with
  | nil => rfl
  | cons e args ih => rw [rewriteArgs, ih, List.map_cons, rewriteVisibleExpr]

/-- On columns that hold what the replaced expressions evaluate to, a rewritten expression evaluates
to what the original does. -/
theorem evalExpr_rewrite {K : Kernels V C} {columns working : String → Option C} {values : List V}
    (hfind : ∀ x tempName, x.literals ⊆ values → find x = some tempName →
      evalExpr K working (.column tempName) = evalExpr K columns x)
    {e : Expr V} (hvalues : e.literals ⊆ values)
    (he : ∀ name ∈ e.columnRefs, working name = columns name) :
    evalExpr K working (rewriteOperands find e) = evalExpr K columns e ∧
      evalExpr K working (rewriteVisibleExpr find e) = evalExpr K columns e := by
  have hroot : ∀ x : Expr V, x.literals ⊆ values →
    evalExpr K working (rewriteOperands find x) = evalExpr K columns x →
      evalExpr K working (replaceOr find x (rewriteOperands find x)) = evalExpr K columns x := by
    intro x hliterals hx
    rw [replaceOr]
    split
    · rename_i tempName hfound
      exact hfind x tempName hliterals hfound
    · exact hx
  suffices h : evalExpr K working (rewriteOperands find e) =
    evalExpr K columns e from ⟨h, hroot e hvalues h⟩
  induction e with
  | binary op left right ihl ihr =>
    rw [Expr.columnRefs] at he
    rw [Expr.literals, List.append_subset] at hvalues
    rw [rewriteOperands, evalExpr, evalExpr,
      hroot left hvalues.1 (ihl hvalues.1 (fun n hn => he n (List.mem_append_left _ hn))),
      hroot right hvalues.2 (ihr hvalues.2 (fun n hn => he n (List.mem_append_right _ hn)))]
  | unary op operand ih =>
      rw [rewriteOperands, evalExpr, evalExpr, hroot operand hvalues (ih hvalues he)]
  | udf fn args ih =>
    have hargs : evalArgs K working (args.map (rewriteVisibleExpr find)) = evalArgs K columns args := by
      apply evalArgs_congr
      rw [List.forall₂_map_left_iff, List.forall₂_same]
      intro arg harg
      have harg' : arg.literals ⊆ values :=
        fun v hv => hvalues (Expr.mem_literals_udf.mpr ⟨arg, harg, hv⟩)
      exact hroot arg harg' (ih arg harg harg'
        (fun n hn => he n (Expr.mem_columnRefs_udf.mpr ⟨arg, harg, hn⟩)))
    rw [rewriteOperands, rewriteArgs_eq, evalExpr, evalExpr, hargs]
  | aliased expr name isRename ih =>
    rw [rewriteOperands, evalExpr, evalExpr, evalExpr_unalias]
    exact hroot expr hvalues (ih hvalues he)
  | column name => exact evalExpr_congr he
  | literal value => rfl
  | download uriColumnName => rfl
  | star => rfl
  | synthetic kind => rfl

theorem columnRefs_unalias (e : Expr V) : e.unalias.columnRefs = e.columnRefs := by
  cases e <;> rfl

theorem columnRefs_aliasTo (e : Expr V) (name : String) :
    (e.aliasTo name).columnRefs = e.columnRefs := by
  cases e <;> rfl

theorem name_aliasTo (e : Expr V) (name : String) : (e.aliasTo name).name = some name := by
  cases e <;> rfl

theorem evalExpr_aliasTo (K : Kernels V C) (columns : String → Option C) (e : Expr V) (name : String) :
    evalExpr K columns (e.aliasTo name) = evalExpr K columns e := by
  cases e <;> rfl

/-- A rewritten expression reads its own columns and those of replacements. -/
theorem columnRefs_rewriteOperands {e : Expr V} {name : String}
    (h : name ∈ (rewriteOperands find e).columnRefs) :
    name ∈ e.columnRefs ∨ ∃ x, find x = some name := by
  have hroot : ∀ x : Expr V,
    (name ∈ (rewriteOperands find x).columnRefs → name ∈ x.columnRefs ∨ ∃ x, find x = some name) →
      name ∈ (replaceOr find x (rewriteOperands find x)).columnRefs → name ∈ x.columnRefs ∨
      ∃ x, find x = some name := by
    intro x hx hname
    rw [replaceOr] at hname
    split at hname
    · rename_i tempName hfound
      rw [Expr.columnRefs, List.mem_singleton] at hname
      exact .inr ⟨x, hname ▸ hfound⟩
    · exact hx hname
  induction e with
  | binary op left right ihl ihr =>
    rw [rewriteOperands, Expr.columnRefs, List.mem_append] at h
    rw [Expr.columnRefs, List.mem_append]
    obtain h | h := h
    · exact (hroot left ihl h).imp_left .inl
    · exact (hroot right ihr h).imp_left .inr
  | unary op operand ih =>
    rw [rewriteOperands, Expr.columnRefs] at h
    exact hroot operand ih h
  | udf fn args ih =>
    rw [rewriteOperands, rewriteArgs_eq, Expr.mem_columnRefs_udf] at h
    obtain ⟨arg', harg', h⟩ := h
    obtain ⟨arg, harg, rfl⟩ := List.mem_map.mp harg'
    rw [Expr.mem_columnRefs_udf]
    exact (hroot arg (ih arg harg) h).imp_left (fun hname => ⟨arg, harg, hname⟩)
  | aliased expr name isRename ih =>
    rw [rewriteOperands, Expr.columnRefs, columnRefs_unalias] at h
    exact hroot expr ih h
  | column name => exact .inl h
  | literal value => exact .inl h
  | download uriColumnName => exact .inl h
  | star => exact .inl h
  | synthetic kind => exact .inl h

end rewrite

/-! ### Columns and scalars -/

/-- The value is a column whatever the operands without columns are: a column, what is computed from
one, or the result of a UDF.  Whether a value is in a list is asked of the left operand. -/
def Expr.isColumnar : Expr V → Bool
  | .column _ | .udf _ _ => true
  | .binary op left right => left.isColumnar || (right.isColumnar && decide (op ≠ .isIn ∧ op ≠ .notIn))
  | .unary _ operand => operand.isColumnar
  | .aliased expr _ _ => expr.isColumnar
  | .literal _ | .download _ | .star | .synthetic _ => false

/-- What the library of a block and the UDFs do: a column stays what it is when it is written to the
block, and what is computed from a column is one. -/
structure StoresColumns (K : BlockKernels V C) (block : Frame C) : Prop where
  columns : ∀ name c, block.columns.get? name = some c → K.fill c = .ok c
  binary : ∀ op a b c, K.fill a = .ok a ∨ (K.fill b = .ok b ∧ op ≠ .isIn ∧ op ≠ .notIn) →
    K.binary op a b = .ok c → K.fill c = .ok c
  unary : ∀ op a c, K.fill a = .ok a → K.unary op a = .ok c → K.fill c = .ok c
  udf : ∀ fn args c, K.udf fn args = .ok c → K.fill c = .ok c

theorem StoresColumns.fill_eq {K : BlockKernels V C} {block : Frame C}
    (hstores : StoresColumns K block) {e : Expr V}
    (he : e.isColumnar = true) {c : C} (hc : evalExpr K.toKernels block.columns.get? e = .ok c) :
    K.fill c = .ok c := by
  induction e generalizing c with
  | column name =>
    rw [evalExpr] at hc
    cases hget : block.columns.get? name with
    | none =>
      rw [hget] at hc
      cases hc
    | some c' =>
      rw [hget] at hc
      obtain rfl := Except.ok.inj hc
      exact hstores.columns name c' hget
  | binary op left right ihl ihr =>
    obtain ⟨a, ha, hc⟩ := bind_eq_ok.mp hc
    obtain ⟨b, hb, hc⟩ := bind_eq_ok.mp hc
    rw [Expr.isColumnar, Bool.or_eq_true, Bool.and_eq_true, decide_eq_true_eq] at he
    exact hstores.binary op a b c (he.imp (fun h => ihl h ha) (fun h => ⟨ihr h.1 hb, h.2⟩)) hc
  | unary op operand ih =>
    obtain ⟨a, ha, hc⟩ := bind_eq_ok.mp hc
    exact hstores.unary op a c (ih he ha) hc
  | udf fn args =>
    obtain ⟨cs, -, hc⟩ := bind_eq_ok.mp hc
    exact hstores.udf fn cs c hc
  | aliased expr name isRename ih => exact ih he hc
  | literal value => cases he
  | download uriColumnName => cases he
  | star => cases he
  | synthetic kind => cases he

/-! ### The hidden columns -/

section hidden
variable [DecidableEq H] {cmp : StructuralComparison V H}
variable {replacements : List (Replacement V H)} {candidates : List (Candidate V H × String)}

/-- A hidden expression reads no hidden column that is not defined before it. -/
theorem defined_before_use {done : List (Expr V)} {e : Expr V} {rest : List (Expr V)}
    (h : materializations cmp replacements candidates = done ++ e :: rest) {name : String}
    (hname : name ∈ e.columnRefs) :
    (∃ c ∈ candidates, name ∈ c.1.expr.columnRefs) ∨ (∃ r ∈ replacements, r.tempName = name) ∨
      name ∈ done.filterMap Expr.name := by
  induction candidates generalizing replacements done with
  | nil => cases done <;> cases h
  | cons c candidates ih =>
    rw [materializations] at h
    cases done with
    | nil =>
      obtain ⟨rfl, -⟩ := List.cons.inj h
      rw [columnRefs_aliasTo] at hname
      obtain hown | ⟨x, hfound⟩ := columnRefs_rewriteOperands hname
      · exact .inl ⟨c, .head _, hown⟩
      · obtain ⟨r, hr, -, htemp⟩ := findReplacement_eq_some hfound
        exact .inr (.inl ⟨r, hr, htemp⟩)
    | cons e' done =>
      obtain ⟨rfl, hrest⟩ := List.cons.inj h
      rw [List.filterMap_cons_some (name_aliasTo _ _)]
      obtain ⟨c', hc', hown⟩ | ⟨r, hr, htemp⟩ | hdone := ih hrest
      · exact .inl ⟨c', .tail _ hc', hown⟩
      · obtain hr | hr := List.mem_append.mp hr
        · exact .inr (.inl ⟨r, hr, htemp⟩)
        · rw [List.mem_singleton.mp hr] at htemp
          exact .inr (.inr (htemp ▸ (.head _)))
      · exact .inr (.inr (.tail _ hdone))

theorem names_materializations (replacements : List (Replacement V H))
    (candidates : List (Candidate V H × String)) :
    (materializations cmp replacements candidates).filterMap Expr.name = candidates.map Prod.snd := by
  induction candidates generalizing replacements with
  | nil => rfl
  | cons c candidates ih =>
    rw [materializations, List.filterMap_cons_some (name_aliasTo _ _), ih, List.map_cons]

/-- The hidden columns are filled if and only if the candidates can be evaluated on the block, and
hold what they evaluate to. -/
theorem fillCommonSubExprs_eq_ok {K : BlockKernels V C} {block working out : Frame C}
    {temps : List String}
    {values : List V} (hvalues : ∀ c ∈ candidates, c.1.expr.literals ⊆ values)
    (hreplacedValues : ∀ r ∈ replacements, r.expr.literals ⊆ values)
    (hsame : ∀ v ∈ values, ∀ w ∈ values, cmp.sameLiteral v w = true → K.literal v = K.literal w)
    (hstored : ∀ c ∈ candidates, ∀ v, evalExpr K.toKernels block.columns.get? c.1.expr = .ok v →
      K.fill v = .ok v)
    (htemps : replacements.map Replacement.tempName ++ candidates.map Prod.snd = temps)
      (hnodup : temps.Nodup)
    (hrefs : ∀ c ∈ candidates, ∀ name ∈ c.1.expr.columnRefs, name ∉ temps)
    (hworking : ∀ name, name ∉ temps → working.columns.get? name = block.columns.get? name)
    (hreplaced : ∀ r ∈ replacements, evalExpr K.toKernels working.columns.get? (.column r.tempName) =
      evalExpr K.toKernels block.columns.get? r.expr) :
    fillCommonSubExprs K (materializations cmp replacements candidates) working = .ok out ↔
      ∃ ps, List.Forall₂ (fun c p => p.1 = c.2 ∧
        evalExpr K.toKernels block.columns.get? c.1.expr = .ok p.2)
        candidates ps ∧ out = ⟨working.format, working.numRows, working.columns.setAll ps⟩ := by
  induction candidates generalizing replacements working with
  | nil =>
    rw [materializations, fillCommonSubExprs]
    constructor
    · intro h
      exact ⟨[], .nil, (Except.ok.inj h).symm⟩
    · rintro ⟨ps, hps, rfl⟩
      cases hps
      rfl
  | cons c candidates ih =>
    have heval : evalExpr K.toKernels working.columns.get?
          (rewriteOperands (findReplacement cmp replacements) c.1.expr) =
        evalExpr K.toKernels block.columns.get? c.1.expr := by
      refine (evalExpr_rewrite (fun x tempName hx hfound => ?_) (hvalues c (.head _))
        (fun name hname => ?_)).1
      · obtain ⟨r, hr, hequal, rfl⟩ := findReplacement_eq_some hfound
        rw [hreplaced r hr, evalExpr_of_structurallyEquals hequal]
        exact fun v hv w hw => hsame v (hx hv) w (hreplacedValues r hr hw)
      · exact hworking name (hrefs c (.head _) name hname)
    have houtput : ∀ p, namedOutput K.toKernels working.columns.get?
          ((rewriteOperands (findReplacement cmp replacements) c.1.expr).aliasTo c.2) = .ok p ↔
        p.1 = c.2 ∧ evalExpr K.toKernels block.columns.get? c.1.expr = .ok p.2 := by
      intro p
      rw [namedOutput_eq_ok, name_aliasTo, evalExpr_aliasTo, heval, Option.some.injEq, eq_comm]
    have hmem : c.2 ∈ temps := by
      rw [← htemps]
      simp
    have hnext : ∀ r ∈ replacements ++ [candidateToReplacement c], r.expr.literals ⊆ values := by
      intro r hr
      obtain hr | hr := List.mem_append.mp hr
      · exact hreplacedValues r hr
      · rw [List.mem_singleton.mp hr]
        exact hvalues c (.head _)
    have hrest : (replacements ++ [candidateToReplacement c]).map Replacement.tempName ++
      candidates.map Prod.snd =
        temps := by
      rw [← htemps]
      simp [candidateToReplacement]
    have hfilled : ∀ p : String × C, p.1 = c.2 ∧
      evalExpr K.toKernels block.columns.get? c.1.expr = .ok p.2 →
        ∀ r ∈ replacements ++ [candidateToReplacement c],
          evalExpr K.toKernels (working.upsertColumn p.1 p.2).columns.get? (.column r.tempName) =
            evalExpr K.toKernels block.columns.get? r.expr := by
      rintro p ⟨hp, hvalue⟩ r hr
      rw [evalExpr, Frame.upsertColumn, Dict.get?_set, hp]
      obtain hr | hr := List.mem_append.mp hr
      · have hne : r.tempName ≠ c.2 := by
          rintro heq
          rw [← htemps, List.nodup_append] at hnodup
          exact hnodup.2.2 _ (List.mem_map_of_mem hr) c.2 (by simp) heq
        rw [if_neg hne, ← hreplaced r hr, evalExpr]
      · rw [List.mem_singleton.mp hr, candidateToReplacement, if_pos rfl, hvalue]
        rfl
    have hother : ∀ p : String × C, p.1 = c.2 → ∀ name, name ∉ temps →
        (working.upsertColumn p.1 p.2).columns.get? name = block.columns.get? name := by
      intro p hp name hname
      rw [Frame.upsertColumn, Dict.get?_set_ne, hworking name hname]
      rintro rfl
      exact hname (hp ▸ hmem)
    have hrun : ∀ p : String × C, p.1 = c.2 ∧
      evalExpr K.toKernels block.columns.get? c.1.expr = .ok p.2 →
        (fillCommonSubExprs K
          (materializations cmp (replacements ++ [candidateToReplacement c]) candidates)
          (working.upsertColumn p.1 p.2) = .ok out ↔
        ∃ ps, List.Forall₂ (fun c p => p.1 = c.2 ∧
          evalExpr K.toKernels block.columns.get? c.1.expr = .ok p.2)
          candidates ps ∧ out =
            ⟨working.format, working.numRows, (working.columns.set p.1 p.2).setAll ps⟩) :=
      fun p hp => ih (fun c' hc' => hvalues c' (.tail _ hc')) hnext
        (fun c' hc' => hstored c' (.tail _ hc')) hrest
        (fun c' hc' => hrefs c' (.tail _ hc')) (hother p hp.1) (hfilled p hp)
    have hfill : ∀ p : String × C, p.1 = c.2 ∧
      evalExpr K.toKernels block.columns.get? c.1.expr = .ok p.2 →
        working.fillColumn K p.1 p.2 = .ok (working.upsertColumn p.1 p.2) := by
      intro p hp
      rw [Frame.fillColumn, hstored c List.mem_cons_self p.2 hp.2]
      rfl
    rw [materializations, fillCommonSubExprs, bind_eq_ok]
    constructor
    · rintro ⟨p, hp, hout⟩
      have hp := (houtput p).mp hp
      rw [hfill p hp] at hout
      obtain ⟨ps, hps, rfl⟩ := (hrun p hp).mp hout
      exact ⟨p :: ps, .cons hp hps, rfl⟩
    · rintro ⟨ps, hps, rfl⟩
      cases hps with
      | @cons _ p _ ps hp hps =>
        refine ⟨p, (houtput p).mpr hp, ?_⟩
        rw [hfill p hp]
        exact (hrun p hp).mpr ⟨ps, hps, rfl⟩

end hidden

/-! ### The visible expressions -/

/-- What the API guarantees of a projection list: its expressions are named, and only a column is
renamed. -/
structure BuiltProjection (exprs : List (Expr V)) : Prop where
  named : ∀ e ∈ exprs, e.isStar = true ∨ e.name.isSome = true
  renames : ∀ e name, Expr.aliased e name true ∈ exprs → e.isColumn = true

/-- None of the names is a column, is read or is put out. -/
structure FreshNames (temps columnNames : List String) (exprs : List (Expr V)) : Prop where
  columns : ∀ t ∈ temps, t ∉ columnNames
  refs : ∀ t ∈ temps, ∀ e ∈ exprs, t ∉ e.columnRefs
  outputs : ∀ t ∈ temps, ∀ e ∈ exprs, e.name ≠ some t

section visible
variable {find : Expr V → Option String} {exprs : List (Expr V)} {names temps : List String}
variable {e : Expr V}

theorem rewriteVisibleExpr_of_ignored (hfind : ∀ x t, find x = some t → isIgnoredCseRoot x = false)
    (he : isIgnoredCseRoot e = true) : rewriteVisibleExpr find e = rewriteOperands find e := by
  rw [rewriteVisibleExpr, replaceOr]
  split
  · rename_i t hfound
    rw [hfind e t hfound] at he
    cases he
  · rfl

theorem name_rewriteVisibleExpr (hfind : ∀ x t, find x = some t → isIgnoredCseRoot x = false)
    (he : e.isStar = true ∨ e.name.isSome = true) : (rewriteVisibleExpr find e).name = e.name := by
  have hignored : isIgnoredCseRoot e = true := by
    cases e <;> simp_all [Expr.isStar, Expr.name, isIgnoredCseRoot]
  rw [rewriteVisibleExpr_of_ignored hfind hignored]
  cases e <;> simp_all [isIgnoredCseRoot] <;> rfl

theorem rewriteVisibleExpr_eq_star (hfind : ∀ x t, find x = some t → isIgnoredCseRoot x = false) :
    rewriteVisibleExpr find e = .star ↔ e = .star := by
  constructor
  · intro h
    rw [rewriteVisibleExpr, replaceOr] at h
    split at h
    · cases h
    · cases e <;> simp_all [rewriteOperands]
  · rintro rfl
    rw [rewriteVisibleExpr_of_ignored hfind rfl]
    rfl

theorem renaming?_rewriteVisibleExpr (hfind : ∀ x t, find x = some t → isIgnoredCseRoot x = false)
    (hrename : ∀ x name, e = .aliased x name true → x.isColumn = true) :
    (rewriteVisibleExpr find e).renaming?.map (fun r => (r.1, rewriteVisibleExpr find e)) =
      e.renaming?.map (fun r => (r.1, e)) := by
  cases e with
  | aliased x name isRename =>
    rw [rewriteVisibleExpr_of_ignored hfind rfl]
    cases isRename with
    | true =>
      have hx := hrename x name rfl
      cases x with
      | column source =>
        have hcolumn := rewriteVisibleExpr_of_ignored hfind (e := .column source) rfl
        rw [rewriteVisibleExpr] at hcolumn
        rw [rewriteOperands, hcolumn]
        rfl
      | _ => cases hx
    | false =>
      rw [rewriteOperands]
      cases x <;> simp [Expr.renaming?]
  | _ =>
    rw [rewriteVisibleExpr, replaceOr]
    split <;> rfl

theorem isRenameExpr_rewriteVisibleExpr (hfind : ∀ x t, find x = some t → isIgnoredCseRoot x = false)
    (hrename : ∀ x name, e = .aliased x name true → x.isColumn = true) :
    (rewriteVisibleExpr find e).isRenameExpr = e.isRenameExpr := by
  have h := congrArg Option.isSome (renaming?_rewriteVisibleExpr hfind hrename)
  rwa [Option.isSome_map, Option.isSome_map] at h

theorem renameExprsBySource_rewrite (hfind : ∀ x t, find x = some t → isIgnoredCseRoot x = false)
    (hrenames : ∀ e name, Expr.aliased e name true ∈ exprs → e.isColumn = true) :
    renameExprsBySource (exprs.map (rewriteVisibleExpr find)) = renameExprsBySource exprs := by
  unfold renameExprsBySource
  rw [List.filterMap_map]
  congr 1
  apply List.filterMap_congr
  intro e he
  exact renaming?_rewriteVisibleExpr hfind (fun x name hx => hrenames x name (hx ▸ he))

/-- The evaluator's list for the rewritten expressions: the hidden columns stand where a star
ends. -/
theorem runtimeExprs_rewrite (hfind : ∀ x t, find x = some t → isIgnoredCseRoot x = false)
    (hbuilt : BuiltProjection exprs) (hfresh : FreshNames temps names exprs) :
    ∃ l₁ l₂ hidden, runtimeExprs names exprs = l₁ ++ l₂ ∧ (hidden = [] ∨ hidden = temps) ∧
      runtimeExprs (names ++ temps) (exprs.map (rewriteVisibleExpr find)) =
        l₁.map (rewriteVisibleExpr find) ++
          (hidden.map Expr.column ++ l₂.map (rewriteVisibleExpr find)) := by
  cases exprs with
  | nil => exact ⟨[], [], [], rfl, .inl rfl, rfl⟩
  | cons e exprs =>
    by_cases he : e = .star
    · subst he
      have hstar : rewriteVisibleExpr find .star = .star := (rewriteVisibleExpr_eq_star hfind).mpr rfl
      have hrenames := renameExprsBySource_rewrite hfind
        (fun x name hx => hbuilt.renames x name (.tail _ hx))
      have hsource : ∀ t ∈ temps, (renameExprsBySource exprs).get? t = none := by
        intro t ht
        rw [Dict.get?_eq_none_iff, mem_keys_renameExprsBySource]
        rintro ⟨name, hmem⟩
        exact hfresh.refs t ht _ (.tail _ hmem) (.head _)
      have hfix : ∀ c e, (renameExprsBySource exprs).get? c = some e →
        rewriteVisibleExpr find e = e := by
        intro c e hget
        obtain ⟨-, name, rfl⟩ := renameExprsBySource_eq_some hget
        have h := renaming?_rewriteVisibleExpr hfind (e := .aliased (.column c) name true)
          (by rintro x name' hx; cases hx; rfl)
        obtain ⟨r, hr, hpair⟩ := Option.map_eq_some_iff.mp h
        exact (Prod.mk.inj hpair).2
      have hcolumn : ∀ c, rewriteVisibleExpr find (.column c) = .column c :=
        fun c => rewriteVisibleExpr_of_ignored hfind rfl
      refine ⟨_, _, temps, rfl, .inr rfl, ?_⟩
      rw [List.map_cons, hstar]
      simp only [runtimeExprs]
      rw [hrenames, List.map_append, List.append_assoc, List.map_map, List.map_append]
      congr 1
      · apply List.map_congr_left
        intro c _
        rw [Function.comp_apply]
        cases hget : (renameExprsBySource exprs).get? c with
        | none => exact (hcolumn c).symm
        | some e => exact (hfix c e hget).symm
      · congr 1
        · apply List.map_congr_left
          intro t ht
          rw [hsource t ht]
          rfl
        · congr 1
          · have herase : (renameExprsBySource exprs).eraseAll (names ++ temps) =
                (renameExprsBySource exprs).eraseAll names := by
              apply Dict.ext
              apply List.filter_congr
              intro p hp
              have hp : p.1 ∉ temps := fun ht => by
                have hnone := hsource p.1 ht
                rw [Dict.get?_eq_some_iff.mpr hp] at hnone
                cases hnone
              simp [hp]
            rw [herase, Dict.values, List.map_map]
            apply List.map_congr_left
            intro p hp
            exact (hfix p.1 p.2 (Dict.get?_eq_some_iff.mpr (List.mem_filter.mp hp).1)).symm
          · rw [List.filter_map]
            congr 1
            apply List.filter_congr
            intro e he
            rw [Function.comp_apply, isRenameExpr_rewriteVisibleExpr hfind
              (fun x name hx => hbuilt.renames x name (.tail _ (hx ▸ he)))]
    · have hne : rewriteVisibleExpr find e ≠ .star :=
        fun h => he ((rewriteVisibleExpr_eq_star hfind).mp h)
      refine ⟨e :: exprs, [], [], ?_, .inl rfl, ?_⟩
      · rw [runtimeExprs_cons he, List.append_nil]
      · rw [List.map_cons, runtimeExprs_cons hne]
        simp

variable {K : BlockKernels V C}

theorem storedOutput_rewrite {columns working : String → Option C} {values : List V}
    (hfind : ∀ x t, find x = some t → isIgnoredCseRoot x = false)
    (hvalue : ∀ x t, x.literals ⊆ values → find x = some t →
      evalExpr K.toKernels working (.column t) = evalExpr K.toKernels columns x)
    (he : e.isStar = true ∨ e.name.isSome = true) (hliterals : e.literals ⊆ values)
    (hrefs : ∀ name ∈ e.columnRefs, working name = columns name) :
    storedOutput K working (rewriteVisibleExpr find e) = storedOutput K columns e := by
  unfold storedOutput namedOutput
  rw [name_rewriteVisibleExpr hfind he, (evalExpr_rewrite hvalue hliterals hrefs).2]

/-- The outputs of the rewritten list, with the hidden columns `ps` taken out, are those of the
original. -/
theorem outputs_rewrite {columns : Dict String C} {ps : List (String × C)}
    (hfind : ∀ x t, find x = some t → isIgnoredCseRoot x = false)
    (hvalue : ∀ x t, x.literals ⊆ exprs.flatMap Expr.literals → find x = some t →
      evalExpr K.toKernels (columns.setAll ps).get? (.column t) = evalExpr K.toKernels columns.get? x)
    (hps : (ps.map Prod.fst).Nodup) (hstored : ∀ p ∈ ps, K.fill p.2 = .ok p.2)
    (hbuilt : BuiltProjection exprs)
    (hfresh : FreshNames (ps.map Prod.fst) columns.keys exprs) :
    ∀ outputs, (runtimeExprs columns.keys exprs).mapM (storedOutput K columns.get?) = .ok outputs →
      ∃ outputs', (runtimeExprs (columns.keys ++ ps.map Prod.fst)
        (exprs.map (rewriteVisibleExpr find))).mapM
          (storedOutput K (columns.setAll ps).get?) = .ok outputs' ∧
        outputs'.filter (fun p => p.1 ∉ ps.map Prod.fst) = outputs := by
  obtain ⟨l₁, l₂, hidden, hlist, hhidden, hrewritten⟩ := runtimeExprs_rewrite hfind hbuilt hfresh
  have hmem : ∀ e ∈ l₁ ++ l₂, (e.isStar = true ∨ e.name.isSome = true) ∧
      e.literals ⊆ exprs.flatMap Expr.literals ∧ (∀ name ∈ e.columnRefs, name ∉ ps.map Prod.fst) ∧
      ∀ name, e.name = some name → name ∉ ps.map Prod.fst := by
    intro e he
    rw [← hlist] at he
    obtain he | ⟨c, hc, rfl⟩ := mem_of_mem_runtimeExprs he
    · exact ⟨hbuilt.named e he, fun v hv => List.mem_flatMap.mpr ⟨e, he, hv⟩, fun name hname ht =>
        hfresh.refs name ht e he hname,
        fun name hname ht => hfresh.outputs name ht e he hname⟩
    · have hc' : c ∉ ps.map Prod.fst := fun ht => hfresh.columns c ht hc
      refine ⟨.inr rfl, List.nil_subset _, fun name hname => ?_, fun name hname => ?_⟩
      · rw [List.mem_singleton.mp hname]
        exact hc'
      · cases hname
        exact hc'
  have hother : ∀ name, name ∉ ps.map Prod.fst → (columns.setAll ps).get? name = columns.get? name := by
    intro name hname
    rw [Dict.get?_setAll, List.lookup_eq_none_iff.mpr, Option.none_or]
    intro p hp
    have hne : name ≠ p.1 := fun heq => hname (heq ▸ List.mem_map_of_mem (List.mem_reverse.mp hp))
    simpa [bne_iff_ne] using hne
  have hpart : ∀ l : List (Expr V), (∀ e ∈ l, e ∈ l₁ ++ l₂) → (l.map (rewriteVisibleExpr find)).mapM
      (storedOutput K (columns.setAll ps).get?) = l.mapM (storedOutput K columns.get?) := by
    intro l hl
    rw [List.mapM_map]
    apply mapM_congr
    intro e he
    obtain ⟨hnamed, hliterals, hrefs, -⟩ := hmem e (hl e he)
    exact storedOutput_rewrite hfind hvalue hnamed hliterals
      (fun name hname => hother name (hrefs name hname))
  have h₁ := hpart l₁ (fun e he => List.mem_append_left _ he)
  have h₂ := hpart l₂ (fun e he => List.mem_append_right _ he)
  obtain ⟨qs, hqs, htemps⟩ : ∃ qs, (hidden.map Expr.column).mapM
    (storedOutput K (columns.setAll ps).get?) = .ok qs ∧
      ∀ q ∈ qs, q.1 ∈ ps.map Prod.fst := by
    obtain rfl | rfl := hhidden
    · exact ⟨[], rfl, fun _ h => (nomatch h)⟩
    · refine ⟨ps, ?_, fun q hq => List.mem_map_of_mem hq⟩
      rw [List.map_map, List.mapM_map, mapM_eq_ok (g := id), List.map_id]
      intro p hp
      rw [Function.comp_apply, storedOutput_eq_ok]
      refine ⟨p.2, namedOutput_eq_ok.mpr ⟨rfl, ?_⟩, hstored p hp⟩
      show evalExpr K.toKernels (columns.setAll ps).get? (.column p.1) = .ok p.2
      rw [evalExpr, Dict.get?_setAll_of_mem columns hps (k := p.1) (v := p.2) hp]
      rfl
  rw [hlist, hrewritten, List.mapM_append, List.mapM_append, List.mapM_append, h₁, h₂, hqs]
  intro outputs houtputs
  obtain ⟨o₁, ho₁, houtputs⟩ := bind_eq_ok.mp houtputs
  obtain ⟨o₂, ho₂, houtputs⟩ := bind_eq_ok.mp houtputs
  cases houtputs
  refine ⟨o₁ ++ (qs ++ o₂), by rw [ho₁, ho₂]; rfl, ?_⟩
  have hvisible : ∀ (l : List (Expr V)) o, (∀ e ∈ l, e ∈ l₁ ++ l₂) →
    l.mapM (storedOutput K columns.get?) = .ok o →
      o.filter (fun p => p.1 ∉ ps.map Prod.fst) = o := by
    intro l o hl ho
    apply List.filter_eq_self.mpr
    intro p hp
    have hname : some p.1 ∈ l.map Expr.name := by
      rw [← map_fst_outputs ho]
      exact List.mem_map_of_mem hp
    obtain ⟨e, he, hename⟩ := List.mem_map.mp hname
    exact decide_eq_true ((hmem e (hl e he)).2.2.2 p.1 hename)
  have hhid : qs.filter (fun p => p.1 ∉ ps.map Prod.fst) = [] := by
    apply List.filter_eq_nil_iff.mpr
    intro q hq
    simpa using htemps q hq
  rw [List.filter_append, List.filter_append, hhid,
    hvisible l₁ o₁ (fun e he => List.mem_append_left _ he) ho₁,
    hvisible l₂ o₂ (fun e he => List.mem_append_right _ he) ho₂, List.nil_append]

end visible

/-! ### The whole projection -/

/-- The names of the hidden columns are not in use: what the random token is for. -/
def FreshToken (projectToken : String) (columnNames : List String) (exprs : List (Expr V)) : Prop :=
  ∀ i, FreshNames [numberedName (cseTempColumn ++ projectToken) i] columnNames exprs

theorem nodup_assignTempNames (projectToken : String) (candidates : List (Candidate V H)) :
    ((assignTempNames projectToken candidates).map Prod.snd).Nodup := by
  rw [assignTempNames, List.mapIdx_eq_ofFn, List.map_ofFn, List.nodup_ofFn]
  intro i j h
  exact Fin.ext (numberedName_injective _ h)

variable {projectToken : String}

theorem mem_assignTempNames {candidates : List (Candidate V H)} {c : Candidate V H × String}
    (hc : c ∈ assignTempNames projectToken candidates) :
    c.1 ∈ candidates ∧ ∃ i, c.2 = numberedName (cseTempColumn ++ projectToken) i := by
  obtain ⟨i, hi, rfl⟩ := List.mem_mapIdx.mp hc
  exact ⟨List.getElem_mem hi, i, rfl⟩

theorem stubColName_ne_numberedName (projectToken : String) (i : ℕ) :
    stubColName ≠ numberedName (cseTempColumn ++ projectToken) i := by
  intro h
  have hname : numberedName (cseTempColumn ++ projectToken) i = cseTempColumn ++ projectToken ++
    "_" ++ toString i := rfl
  rw [hname] at h
  have hlist := congrArg (fun s : String => s.toList.take 3) h
  simp [stubColName, cseTempColumn, String.toList_append] at hlist

section values
variable {K : BlockKernels V C} {block : Frame C}

/-- The values of the candidates on the block, in the order of the hidden columns. -/
def CandidateValues (K : BlockKernels V C) (block : Frame C)
    (candidates : List (Candidate V H × String))
    (ps : List (String × C)) : Prop :=
  List.Forall₂ (fun c p => p.1 = c.2 ∧ evalExpr K.toKernels block.columns.get? c.1.expr = .ok p.2)
    candidates ps

variable {candidates : List (Candidate V H × String)}
variable {ps : List (String × C)}

theorem CandidateValues.map_fst
    (h : CandidateValues K block candidates ps) : ps.map Prod.fst = candidates.map Prod.snd := by
  induction h with
  | nil => rfl
  | cons hp _ ih => rw [List.map_cons, List.map_cons, hp.1, ih]

theorem CandidateValues.exists_mem (h : CandidateValues K block candidates ps) : ∀ c ∈ candidates,
      ∃ p ∈ ps, p.1 = c.2 ∧ evalExpr K.toKernels block.columns.get? c.1.expr = .ok p.2 := by
  induction h with
  | nil => exact fun _ h => (nomatch h)
  | cons hp _ ih =>
    rw [List.forall_mem_cons]
    refine ⟨⟨_, .head _, hp⟩, fun c hc => ?_⟩
    obtain ⟨p, hmem, hp⟩ := ih c hc
    exact ⟨p, .tail _ hmem, hp⟩

theorem CandidateValues.forall_fill (h : CandidateValues K block candidates ps)
    (hstored : ∀ c ∈ candidates, ∀ v, evalExpr K.toKernels block.columns.get? c.1.expr = .ok v →
      K.fill v = .ok v) :
    ∀ p ∈ ps, K.fill p.2 = .ok p.2 := by
  induction h with
  | nil => exact fun _ h => (nomatch h)
  | cons hp _ ih =>
    rw [List.forall_mem_cons] at hstored ⊢
    exact ⟨hstored.1 _ hp.2, ih hstored.2⟩

theorem exists_candidateValues
    (h : ∀ c ∈ candidates, ∃ v, evalExpr K.toKernels block.columns.get? c.1.expr = .ok v) :
    ∃ ps, CandidateValues K block candidates ps := by
  induction candidates with
  | nil => exact ⟨[], .nil⟩
  | cons c candidates ih =>
    rw [List.forall_mem_cons] at h
    obtain ⟨v, hv⟩ := h.1
    obtain ⟨ps, hps⟩ := ih h.2
    exact ⟨(c.2, v) :: ps, .cons ⟨rfl, hv⟩ hps⟩

end values

section project
variable [DecidableEq H] {cmp : StructuralComparison V H} {projectToken : String}
    {exprs : List (Expr V)}
  {K : BlockKernels V C} {block : Frame C}

/-- The condition on the list: literals that count as equal are the same to the operations, and no
common sub-expression is a scalar, which a hidden column would make a column of. -/
structure CommonAlike (cmp : StructuralComparison V H) (K : Kernels V C) (exprs : List (Expr V)) :
    Prop where
  literals : ∀ v ∈ exprs.flatMap Expr.literals, ∀ w ∈ exprs.flatMap Expr.literals,
    cmp.sameLiteral v w = true → K.literal v = K.literal w
  columnar : ∀ c ∈ findCandidates cmp exprs, c.expr.isColumnar = true

/-- The candidates with their hidden columns, in the order in which these are filled. -/
def orderedCandidates (cmp : StructuralComparison V H) (projectToken : String) (exprs : List (Expr V)) :
    List (Candidate V H × String) :=
  (assignTempNames projectToken (findCandidates cmp exprs)).mergeSort
    (fun c d => decide (d.1.maxDepth ≤ c.1.maxDepth))

variable {c : Candidate V H × String}

theorem mem_orderedCandidates :
    c ∈ orderedCandidates cmp projectToken exprs ↔
      c ∈ assignTempNames projectToken (findCandidates cmp exprs) :=
  (List.mergeSort_perm _ _).mem_iff

theorem nodup_orderedCandidates : ((orderedCandidates cmp projectToken exprs).map Prod.snd).Nodup :=
  ((List.mergeSort_perm _ _).map Prod.snd).nodup_iff.mpr (nodup_assignTempNames _ _)

theorem tryOptimizeProject_eq (h : findCandidates cmp exprs ≠ []) :
    tryOptimizeProject cmp projectToken exprs =
      (exprs.map (rewriteVisibleExpr (findReplacement cmp
        ((assignTempNames projectToken (findCandidates cmp exprs)).map candidateToReplacement))),
      materializations cmp [] (orderedCandidates cmp projectToken exprs)) := by
  unfold tryOptimizeProject
  rw [if_neg]
  · rfl
  · rw [assignTempNames, List.isEmpty_iff, List.mapIdx_eq_nil_iff]
    exact h

variable {x : Expr V} {t : String}

theorem findReplacement_assigned (h : findReplacement cmp
      ((assignTempNames projectToken (findCandidates cmp exprs)).map candidateToReplacement)
        x = some t) :
    ∃ c ∈ orderedCandidates cmp projectToken exprs, x.structurallyEquals cmp.sameLiteral c.1.expr =
      true ∧ c.2 = t := by
  obtain ⟨r, hr, hexpr, htemp⟩ := findReplacement_eq_some h
  obtain ⟨c, hc, rfl⟩ := List.mem_map.mp hr
  exact ⟨c, mem_orderedCandidates.mpr hc, hexpr, htemp⟩

theorem orderedCandidates_spec (hc : c ∈ orderedCandidates cmp projectToken exprs) :
    isCseEligible c.1.expr = true ∧ (∃ e ∈ exprs, ∃ depth, (c.1.expr, depth) ∈ e.occurrences 0) ∧
      ∃ i, c.2 = numberedName (cseTempColumn ++ projectToken) i := by
  obtain ⟨hmem, hname⟩ := mem_assignTempNames (mem_orderedCandidates.mp hc)
  obtain ⟨heligible, hpart⟩ := findCandidates_spec hmem
  exact ⟨heligible, hpart, hname⟩

theorem freshNames_orderedCandidates (hfresh : FreshToken projectToken block.columnNames exprs) :
    FreshNames ((orderedCandidates cmp projectToken exprs).map Prod.snd) block.columnNames exprs := by
  have hname : ∀ t ∈ (orderedCandidates cmp projectToken exprs).map Prod.snd,
      ∃ i, t = numberedName (cseTempColumn ++ projectToken) i := by
    intro t ht
    obtain ⟨c, hc, rfl⟩ := List.mem_map.mp ht
    exact (orderedCandidates_spec hc).2.2
  refine ⟨fun t ht => ?_, fun t ht => ?_, fun t ht => ?_⟩
  · obtain ⟨i, rfl⟩ := hname t ht
    exact (hfresh i).columns _ (.head _)
  · obtain ⟨i, rfl⟩ := hname t ht
    exact (hfresh i).refs _ (.head _)
  · obtain ⟨i, rfl⟩ := hname t ht
    exact (hfresh i).outputs _ (.head _)

theorem literals_orderedCandidates (hc : c ∈ orderedCandidates cmp projectToken exprs) :
    c.1.expr.literals ⊆ exprs.flatMap Expr.literals := by
  obtain ⟨-, ⟨e, he, depth, hpart⟩, -⟩ := orderedCandidates_spec hc
  exact fun v hv => List.mem_flatMap.mpr ⟨e, he, Expr.literals_subset_of_mem_occurrences hpart hv⟩

/-- A common sub-expression is in its hidden column what it is where it stands. -/
theorem fill_orderedCandidates (hcommon : CommonAlike cmp K.toKernels exprs)
    (hstores : StoresColumns K block)
    (hc : c ∈ orderedCandidates cmp projectToken exprs) {v : C}
    (hv : evalExpr K.toKernels block.columns.get? c.1.expr = .ok v) : K.fill v = .ok v :=
  hstores.fill_eq (hcommon.columnar c.1 (mem_assignTempNames (mem_orderedCandidates.mp hc)).1) hv

/-- The outputs of the rewritten projection, hidden columns included. -/
def rewrittenOutputs (cmp : StructuralComparison V H) (projectToken : String) (K : BlockKernels V C)
    (exprs : List (Expr V))
    (block : Frame C) (ps : List (String × C)) : Except PyError (List (String × C)) :=
  (runtimeExprs (block.columns.keys ++ ps.map Prod.fst)
    (exprs.map (rewriteVisibleExpr (findReplacement cmp
    ((assignTempNames projectToken (findCandidates cmp exprs)).map candidateToReplacement))))).mapM
      (storedOutput K (block.columns.setAll ps).get?)

theorem orderedCandidates_ne_nil (h : findCandidates cmp exprs ≠ []) :
    orderedCandidates cmp projectToken exprs ≠ [] := by
  intro hnil
  have hlength := congrArg List.length hnil
  simp only [orderedCandidates, List.length_mergeSort, assignTempNames, List.length_mapIdx,
    List.length_nil] at hlength
  exact h (List.length_eq_zero_iff.mp hlength)

variable {ps : List (String × C)}

theorem keys_filled (hfresh : FreshToken projectToken block.columnNames exprs)
    (hps : CandidateValues K block (orderedCandidates cmp projectToken exprs) ps) :
    (block.columns.setAll ps).keys = block.columns.keys ++ ps.map Prod.fst := by
  rw [Dict.keys, Dict.entries_setAll, List.map_append]
  · rfl
  · rw [hps.map_fst]
    exact nodup_orderedCandidates
  · rw [hps.map_fst]
    exact (freshNames_orderedCandidates hfresh).columns

theorem stubColName_notMem_temps
    (hps : CandidateValues K block (orderedCandidates cmp projectToken exprs) ps) :
    stubColName ∉ ps.map Prod.fst := by
  rw [hps.map_fst]
  intro hmem
  obtain ⟨c, hc, hname⟩ := List.mem_map.mp hmem
  obtain ⟨i, hi⟩ := (orderedCandidates_spec hc).2.2
  exact stubColName_ne_numberedName projectToken i (hname.symm.trans hi)

theorem fillCommonSubExprs_orderedCandidates {working : Frame C}
    (hcommon : CommonAlike cmp K.toKernels exprs)
    (hstores : StoresColumns K block) (hfresh : FreshToken projectToken block.columnNames exprs) :
    fillCommonSubExprs K (materializations cmp [] (orderedCandidates cmp projectToken exprs)) block =
        .ok working ↔
      ∃ ps, CandidateValues K block (orderedCandidates cmp projectToken exprs) ps ∧
        working = ⟨block.format, block.numRows, block.columns.setAll ps⟩ := by
  have htemps : ([] : List (Replacement V H)).map Replacement.tempName ++
      (orderedCandidates cmp projectToken exprs).map Prod.snd =
        (orderedCandidates cmp projectToken exprs).map Prod.snd := rfl
  apply fillCommonSubExprs_eq_ok (fun c hc => literals_orderedCandidates hc)
    (List.forall_mem_nil _) hcommon.literals
    (fun c hc v hv => fill_orderedCandidates hcommon hstores hc hv) htemps nodup_orderedCandidates
      _ (fun _ _ => rfl)
    (fun _ h => nomatch h)
  intro c hc name hname ht
  obtain ⟨-, ⟨e, he, depth, hpart⟩, -⟩ := orderedCandidates_spec hc
  exact (freshNames_orderedCandidates hfresh).refs name ht e he
    (Expr.columnRefs_subset_of_mem_occurrences hpart name hname)

/-- The rewritten list is evaluated on the filled block, whatever the original block was. -/
theorem evalProjectionWithoutCse_filled {outputBlock : Frame C}
    (h : findCandidates cmp exprs ≠ []) (hfresh : FreshToken projectToken block.columnNames exprs)
    (hps : CandidateValues K block (orderedCandidates cmp projectToken exprs) ps) :
    evalProjectionWithoutCse K (tryOptimizeProject cmp projectToken exprs).1
        ⟨block.format, block.numRows, block.columns.setAll ps⟩ = .ok outputBlock ↔
      ∃ outputs, rewrittenOutputs cmp projectToken K exprs block ps = .ok outputs ∧ outputs ≠ [] ∧
        (stubColName ∈ block.columnNames → stubColName ∈ outputs.map Prod.fst) ∧
        outputBlock = ⟨block.format, block.numRows,
          Dict.ofList (outputs.filter (fun p => p.1 ≠ stubColName))⟩ := by
  have hkeys := keys_filled hfresh hps
  have hexprs : exprs ≠ [] := by
    rintro rfl
    obtain ⟨c, hc⟩ := List.exists_mem_of_ne_nil _ h
    obtain ⟨-, e, he, -⟩ := findCandidates_spec hc
    cases he
  have hps0 : ps ≠ [] := by
    rintro rfl
    exact orderedCandidates_ne_nil h (List.map_eq_nil_iff.mp hps.map_fst.symm)
  have hschema : Frame.isSchemaless ⟨block.format, block.numRows, block.columns.setAll ps⟩ = false := by
    rw [Frame.isSchemaless, Frame.columnNames, hkeys]
    simp [hps0]
  have hstub : stubColName ∈ (block.columns.setAll ps).keys ↔ stubColName ∈ block.columnNames := by
    rw [hkeys, List.mem_append]
    exact or_iff_left (stubColName_notMem_temps hps)
  rw [tryOptimizeProject_eq h, evalProjectionWithoutCse_eq_ok hschema (by simpa using hexprs)]
  refine exists_congr (fun outputs => ?_)
  rw [rewrittenOutputs, ← hkeys]
  refine and_congr_right (fun _ => and_congr_right (fun _ => and_congr_left (fun _ => ?_)))
  exact imp_congr hstub Iff.rfl

theorem evalProjection_tryOptimizeProject {out : Frame C} (h : findCandidates cmp exprs ≠ [])
    (hcommon : CommonAlike cmp K.toKernels exprs) (hstores : StoresColumns K block)
    (hfresh : FreshToken projectToken block.columnNames exprs) :
    evalProjection K (tryOptimizeProject cmp projectToken exprs).1 block
        (tryOptimizeProject cmp projectToken exprs).2 = .ok out ↔
      ∃ ps outputs, CandidateValues K block (orderedCandidates cmp projectToken exprs) ps ∧
        rewrittenOutputs cmp projectToken K exprs block ps = .ok outputs ∧ outputs ≠ [] ∧
        (stubColName ∈ block.columnNames → stubColName ∈ outputs.map Prod.fst) ∧
        out = ⟨block.format, block.numRows,
          Dict.ofList ((outputs.filter (fun p => p.1 ∉ ps.map Prod.fst)).filter
          (fun p => p.1 ≠ stubColName))⟩ := by
  have hnew : (tryOptimizeProject cmp projectToken exprs).2 =
      materializations cmp [] (orderedCandidates cmp projectToken exprs) := by
    rw [tryOptimizeProject_eq h]
  have hempty : (materializations cmp [] (orderedCandidates cmp projectToken exprs)).isEmpty =
    false := by
    have hne : orderedCandidates cmp projectToken exprs ≠ [] := orderedCandidates_ne_nil h
    obtain ⟨c, cs, hcs⟩ := List.exists_cons_of_ne_nil hne
    rw [hcs]
    rfl
  rw [hnew, evalProjection, hempty, if_neg (by simp), bind_eq_ok, names_materializations]
  constructor
  · rintro ⟨working, hworking, hout⟩
    obtain ⟨ps, hps, rfl⟩ := (fillCommonSubExprs_orderedCandidates hcommon hstores hfresh).mp hworking
    obtain ⟨outputBlock, hblock, hout⟩ := bind_eq_ok.mp hout
    obtain ⟨outputs, houtputs, hne, hstub, rfl⟩ :=
      (evalProjectionWithoutCse_filled h hfresh hps).mp hblock
    refine ⟨ps, outputs, hps, houtputs, hne, hstub, ?_⟩
    cases hout
    rw [dropCseTempColumns, Dict.eraseAll_ofList, hps.map_fst, List.filter_comm]
  · rintro ⟨ps, outputs, hps, houtputs, hne, hstub, rfl⟩
    refine ⟨_, (fillCommonSubExprs_orderedCandidates hcommon hstores hfresh).mpr ⟨ps, hps, rfl⟩, ?_⟩
    rw [(evalProjectionWithoutCse_filled h hfresh hps).mpr ⟨outputs, houtputs, hne, hstub, rfl⟩,
      ok_bind, dropCseTempColumns, Dict.eraseAll_ofList, hps.map_fst, List.filter_comm]
    rfl

/-- What the rule is for: where the original projection gives a block, the new one gives the same,
without a hidden column in it, and a hidden column is read only after it is filled. -/
def KeepsProjection (cmp : StructuralComparison V H) (projectToken : String) (K : BlockKernels V C)
    (exprs : List (Expr V))
    (block : Frame C) : Prop :=
  let new := tryOptimizeProject cmp projectToken exprs
  (∀ out, evalProjection K exprs block [] = .ok out →
    evalProjection K new.1 block new.2 = .ok out ∧ ∀ t ∈ new.2.filterMap Expr.name,
    t ∉ out.columnNames) ∧
  ∀ done e rest, new.2 = done ++ e :: rest → ∀ t ∈ new.2.filterMap Expr.name, t ∈ e.columnRefs →
    t ∈ done.filterMap Expr.name

theorem tryOptimizeProject_of_nil (h : findCandidates cmp exprs = []) :
    tryOptimizeProject cmp projectToken exprs = (exprs, []) := by
  rw [tryOptimizeProject, h]
  rfl

/-- Equal trees have the same root. -/
theorem isIgnoredCseRoot_of_structurallyEquals {sameLiteral : V → V → Bool} {e e' : Expr V}
    (h : e.structurallyEquals sameLiteral e' = true) : isIgnoredCseRoot e = isIgnoredCseRoot e' := by
  cases e <;> cases e' <;> first | rfl | simp [Expr.structurallyEquals, Expr.equalsUpTo] at h

theorem ignored_of_found (hfound : findReplacement cmp
      ((assignTempNames projectToken (findCandidates cmp exprs)).map candidateToReplacement)
        x = some t) :
    isIgnoredCseRoot x = false := by
  obtain ⟨c, hc, hequal, rfl⟩ := findReplacement_assigned hfound
  have heligible := (orderedCandidates_spec hc).1
  rw [isCseEligible, Bool.and_eq_true, Bool.not_eq_true'] at heligible
  rw [isIgnoredCseRoot_of_structurallyEquals hequal]
  exact heligible.1

/-- The expression that a candidate is a part of is evaluated by the original projection. -/
theorem mem_runtimeExprs_of_candidate {names : List String}
    (hc : c ∈ orderedCandidates cmp projectToken exprs) :
    ∃ e ∈ runtimeExprs names exprs, ∃ depth, (c.1.expr, depth) ∈ e.occurrences 0 := by
  obtain ⟨heligible, ⟨e, he, depth, hpart⟩, -⟩ := orderedCandidates_spec hc
  refine ⟨e, mem_runtimeExprs_of_mem he ?_ ?_, depth, hpart⟩
  · rintro rfl
    obtain ⟨hexpr, -⟩ := Prod.mk.inj (List.mem_singleton.mp hpart)
    rw [hexpr] at heligible
    cases heligible
  · rw [← Bool.not_eq_true]
    intro hrename
    obtain ⟨r, hr⟩ := Option.isSome_iff_exists.mp hrename
    rw [Expr.renaming?_eq_some.mp hr] at hpart
    simp only [Expr.occurrences, List.mem_append, List.mem_singleton, Prod.mk.injEq] at hpart
    obtain ⟨hexpr, -⟩ | ⟨hexpr, -⟩ := hpart
    · rw [hexpr] at heligible
      cases heligible
    · rw [hexpr] at heligible
      cases heligible

theorem visible_replacements (hliterals : ∀ v ∈ exprs.flatMap Expr.literals,
    ∀ w ∈ exprs.flatMap Expr.literals,
      cmp.sameLiteral v w = true → K.literal v = K.literal w)
    (hps : CandidateValues K block (orderedCandidates cmp projectToken exprs) ps)
    (hx : x.literals ⊆ exprs.flatMap Expr.literals) (hfound : findReplacement cmp
      ((assignTempNames projectToken (findCandidates cmp exprs)).map candidateToReplacement)
        x = some t) :
    evalExpr K.toKernels (block.columns.setAll ps).get? (.column t) =
      evalExpr K.toKernels block.columns.get? x := by
  obtain ⟨c, hc, hequal, rfl⟩ := findReplacement_assigned hfound
  obtain ⟨p, hp, hname, hvalue⟩ := hps.exists_mem c hc
  have hnodup : (ps.map Prod.fst).Nodup := by
    rw [hps.map_fst]
    exact nodup_orderedCandidates
  have hsame : evalExpr K.toKernels block.columns.get? x =
    evalExpr K.toKernels block.columns.get? c.1.expr :=
    evalExpr_of_structurallyEquals hequal
      (fun v hv w hw => hliterals v (hx hv) w (literals_orderedCandidates hc hw))
  rw [evalExpr, Dict.get?_setAll_of_mem block.columns hnodup (k := c.2) (v := p.2) (hname ▸ hp),
    hsame, hvalue]
  rfl

theorem rewrittenOutputs_spec (hcommon : CommonAlike cmp K.toKernels exprs)
    (hstores : StoresColumns K block)
    (hbuilt : BuiltProjection exprs) (hfresh : FreshToken projectToken block.columnNames exprs)
    (hps : CandidateValues K block (orderedCandidates cmp projectToken exprs) ps)
    {outputs : List (String × C)}
    (houtputs : (runtimeExprs block.columnNames exprs).mapM (storedOutput K block.columns.get?) =
      .ok outputs) :
    ∃ outputs', rewrittenOutputs cmp projectToken K exprs block ps = .ok outputs' ∧
      outputs'.filter (fun p => p.1 ∉ ps.map Prod.fst) = outputs := by
  apply outputs_rewrite (fun x t hfound => ignored_of_found hfound)
    (fun x t hx hfound => visible_replacements hcommon.literals hps hx hfound) _ _ hbuilt
      _ outputs houtputs
  · rw [hps.map_fst]
    exact nodup_orderedCandidates
  · exact hps.forall_fill (fun c hc v hv => fill_orderedCandidates hcommon hstores hc hv)
  · rw [hps.map_fst]
    exact freshNames_orderedCandidates hfresh

/-- On a block that the evaluator does not skip the new projection gives what the original gives. -/
theorem evalProjection_eq_of_not_schemaless {out : Frame C}
    (hcommon : CommonAlike cmp K.toKernels exprs)
    (hstores : StoresColumns K block) (hbuilt : BuiltProjection exprs)
    (hfresh : FreshToken projectToken block.columnNames exprs) (h : findCandidates cmp exprs ≠ [])
    (hblock : block.isSchemaless = false) (hout : evalProjection K exprs block [] = .ok out) :
    evalProjection K (tryOptimizeProject cmp projectToken exprs).1 block
        (tryOptimizeProject cmp projectToken exprs).2 = .ok out ∧
      ∀ t ∈ (orderedCandidates cmp projectToken exprs).map Prod.snd, t ∉ out.columnNames := by
  have hexprs : exprs ≠ [] := by
    rintro rfl
    exact h rfl
  obtain ⟨outputs, houtputs, hne, hstub, rfl⟩ := (evalProjectionWithoutCse_eq_ok hblock hexprs).mp hout
  obtain ⟨ps, hps⟩ : ∃ ps, CandidateValues K block (orderedCandidates cmp projectToken exprs) ps := by
    apply exists_candidateValues
    intro c hc
    obtain ⟨e, he, depth, hpart⟩ := mem_runtimeExprs_of_candidate hc
    obtain ⟨p, hp⟩ := exists_of_mapM_eq_ok houtputs e he
    obtain ⟨value, hvalue, -⟩ := storedOutput_eq_ok.mp hp
    exact evalExpr_of_mem_occurrences hpart ⟨value, (namedOutput_eq_ok.mp hvalue).2⟩
  obtain ⟨outputs', houtputs', hfilter⟩ :=
    rewrittenOutputs_spec hcommon hstores hbuilt hfresh hps houtputs
  constructor
  · refine (evalProjection_tryOptimizeProject h hcommon hstores hfresh).mpr
      ⟨ps, outputs', hps, houtputs', ?_, ?_, ?_⟩
    · rintro rfl
      exact hne hfilter.symm
    · intro hmem
      obtain ⟨p, hp, hname⟩ := List.mem_map.mp (hstub hmem)
      rw [← hfilter] at hp
      exact List.mem_map.mpr ⟨p, (List.mem_filter.mp hp).1, hname⟩
    · rw [hfilter]
  · intro t ht hmem
    obtain ⟨p, hp, rfl⟩ := List.mem_map.mp (Dict.mem_keys_ofList.mp hmem)
    have hp := (List.mem_filter.mp hp).1
    rw [← hfilter, List.mem_filter, decide_eq_true_eq, hps.map_fst] at hp
    exact hp.2 ht

/-- Where a common sub-expression reads a column that the block has not, the new projection
fails. -/
theorem evalProjection_eq_none {c : Candidate V H} {name : String}
    (hcommon : CommonAlike cmp K.toKernels exprs)
    (hstores : StoresColumns K block) (hfresh : FreshToken projectToken block.columnNames exprs)
    (hc : c ∈ findCandidates cmp exprs) (hread : name ∈ c.expr.columnRefs)
    (hmissing : name ∉ block.columnNames) :
    (evalProjection K (tryOptimizeProject cmp projectToken exprs).1 block
      (tryOptimizeProject cmp projectToken exprs).2).toOption = none := by
  apply toOption_eq_none
  intro out hout
  obtain ⟨ps, -, hps, -⟩ :=
    (evalProjection_tryOptimizeProject (List.ne_nil_of_mem hc) hcommon hstores hfresh).mp hout
  obtain ⟨t, ht⟩ : ∃ t, (c, t) ∈ orderedCandidates cmp projectToken exprs := by
    obtain ⟨i, hi, rfl⟩ := List.mem_iff_getElem.mp hc
    exact ⟨_, mem_orderedCandidates.mpr (List.mem_mapIdx.mpr ⟨i, hi, rfl⟩)⟩
  obtain ⟨p, -, -, hvalue⟩ := hps.exists_mem _ ht
  have hsome := isSome_of_evalExpr_eq_ok hvalue name hread
  rw [Dict.get?_isSome_iff] at hsome
  exact hmissing hsome

/-- A hidden column is read only after it is filled. -/
theorem hidden_defined_before_use (hfresh : FreshToken projectToken block.columnNames exprs)
    {done : List (Expr V)} {e : Expr V} {rest : List (Expr V)}
    (h : materializations cmp [] (orderedCandidates cmp projectToken exprs) = done ++ e :: rest) :
    ∀ t ∈ (orderedCandidates cmp projectToken exprs).map Prod.snd, t ∈ e.columnRefs →
    t ∈ done.filterMap Expr.name := by
  intro t ht href
  obtain ⟨c, hc, hown⟩ | ⟨r, hr, -⟩ | hdone := defined_before_use h href
  · obtain ⟨-, ⟨e, he, depth, hpart⟩, -⟩ := orderedCandidates_spec hc
    exact absurd (Expr.columnRefs_subset_of_mem_occurrences hpart t hown)
      ((freshNames_orderedCandidates hfresh).refs t ht e he)
  · cases hr
  · exact hdone

end project

theorem freshToken_of_head {columnNames : List String} {exprs : List (Expr V)}
    (hcolumns : ∀ c ∈ columnNames, c.toList.head? ≠ some '_')
    (hrefs : ∀ e ∈ exprs, ∀ c ∈ e.columnRefs, c.toList.head? ≠ some '_')
    (houtputs : ∀ e ∈ exprs, ∀ c ∈ e.name, c.toList.head? ≠ some '_') :
    FreshToken projectToken columnNames exprs := by
  intro i
  have hhead : (numberedName (cseTempColumn ++ projectToken) i).toList.head? = some '_' := by
    have hname : numberedName (cseTempColumn ++ projectToken) i = cseTempColumn ++ projectToken ++
      "_" ++ toString i := rfl
    rw [hname]
    simp [cseTempColumn, String.toList_append]
  refine ⟨fun t ht hmem => ?_, fun t ht e he hmem => ?_, fun t ht e he hname => ?_⟩
  · rw [List.mem_singleton.mp ht] at hmem
    exact hcolumns _ hmem hhead
  · rw [List.mem_singleton.mp ht] at hmem
    exact hrefs e he _ hmem hhead
  · rw [List.mem_singleton.mp ht] at hname
    exact houtputs e he _ hname hhead

/-- `[star(), (col("a") + col("b") + 1).alias("x"), (col("a") + col("b") + 1).alias("y")]`. -/
def sumTwice : List (Expr ℤ) :=
  let sum : Expr ℤ := .binary .add (.binary .add (.column "a") (.column "b")) (.literal 1)
  [.star, .aliased sum "x" false, .aliased sum "y" false]

theorem sumTwice_built : BuiltProjection sumTwice :=
  ⟨by decide, by simp [sumTwice]⟩

/-- Integers have one literal each. -/
def intComparison : StructuralComparison ℤ (Expr ℤ) := ⟨id, fun v w => decide (v = w)⟩

theorem sumTwice_alike : CommonAlike intComparison cellKernels.toKernels sumTwice :=
  ⟨fun v _ w _ h => of_decide_eq_true h, by decide⟩

theorem storesColumns_cell (block : Frame ℤ) : StoresColumns cellKernels block :=
  ⟨fun _ _ _ => rfl, fun _ _ _ _ _ _ => rfl, fun _ _ _ _ _ => rfl, fun _ _ _ _ => rfl⟩

end RayTfm.Logical
