import RayTfm.Lib.Sorting
import RayTfm.Raylet.LabelSelectors
import RayTfm.Raylet.PgResources

/-! # The string form of label selectors

A label selector is written as a map of strings (`toStringMap`) and read back with
`labelSelectorOf`.  Of a selector that was checked (`validateLabelSelector`) every constraint comes
back with its operator and its values, except for the one that asks for an empty label: it is
written as the empty string, and what is written as the empty string is left out
(`survivesStrings_iff`). -/

namespace RayTfm.Raylet

open Regex

/-! ### The checks -/

/-- `LABEL_PREFIX_REGEX`. -/
def labelPrefixRegex : RegularExpression Char :=
  .comp (opt labelRegex) (.star (.comp (text ['.']) (opt labelRegex)))

/-- `validate_label_key`, for the part of a key after its last slash. -/
def validateLabelName (name : List Char) : Option String :=
  if 63 < name.length ∨ !labelRegex.rmatch name then
    some ("Invalid label key name \x60" ++ String.ofList name ++
      "\x60. Name must be 63 chars or less beginning and " ++
      "ending with an alphanumeric character ([a-z0-9A-Z]) with dashes (-), underscores (_),dots (.), and " ++
      "alphanumerics between.")
  else none

/-- `validate_label_key`: the error message, if there is one. -/
def validateLabelKey (key : String) : Option String :=
  match splitLast '/' key.toList with
  | some (keyPrefix, name) =>
    if 253 < keyPrefix.length ∨ !labelPrefixRegex.rmatch keyPrefix then
      some ("Invalid label key prefix \x60" ++ String.ofList keyPrefix ++
        "\x60. Prefix must be a series of DNS " ++
        "labels separated by dots (.), not longer than 253 characters in total.")
    else validateLabelName name
  | none => validateLabelName key.toList

/-- `validate_label_selector`, of a selector without missing values: the first error message, if
there is one. -/
def validateLabelSelector (labelSelector : Dict String String) : Option String :=
  labelSelector.entries.findSome? (fun e => (validateLabelKey e.1).or (validateLabelSelectorValue e.2))

/-! ### Writing a selector -/

namespace LabelConstraint

/-- The values, as a sorted list. -/
def sortedValues (constraint : LabelConstraint) : List String := sortBy id constraint.values.dedup

/-- `absl::StrJoin` with commas. -/
def strJoin (values : List String) : String :=
  String.ofList ([','].intercalate (values.map String.toList))

/-- The values as a label selector writes them: one alone, others in brackets. -/
def valuesString (constraint : LabelConstraint) : String :=
  match constraint.sortedValues with
  | [value] => value
  | values => "in(" ++ strJoin values ++ ")"

/-- The string of a constraint; a constraint without operator has none. -/
def toValueString (constraint : LabelConstraint) : String :=
  match constraint.op with
  | .labelIn => constraint.valuesString
  | .labelNotIn => "!" ++ constraint.valuesString
  | .labelOperatorUnspecified => ""

/-- The constraints are equal, their values compared as sets. -/
structure Same (constraint other : LabelConstraint) : Prop where
  key : constraint.key = other.key
  op : constraint.op = other.op
  values : ∀ v, v ∈ constraint.values ↔ v ∈ other.values

end LabelConstraint

/-- `LabelSelector::ToStringMap`: what is written as the empty string is left out. -/
def toStringMap (constraints : List LabelConstraint) : Dict String String :=
  Dict.ofList (constraints.filterMap (fun constraint =>
    if constraint.toValueString = "" then none else some (constraint.key, constraint.toValueString)))

/-- Each constraint of one selector is a constraint of the other. -/
def SameConstraints (constraints others : List LabelConstraint) : Prop :=
  (∀ c ∈ constraints, ∃ c' ∈ others, c.Same c') ∧ ∀ c' ∈ others, ∃ c ∈ constraints, c.Same c'

/-- The selector comes back from its string form, in whatever order the map is iterated: it has the
same constraints, and the same nodes satisfy it. -/
structure SurvivesStrings (labelSelector : Dict String String) : Prop where
  constraints : ∀ strings : List (String × String),
    strings.Perm (toStringMap (labelSelectorOf labelSelector.entries)).entries →
      SameConstraints (labelSelectorOf labelSelector.entries) (labelSelectorOf strings)
  nodes : ∀ strings : List (String × String),
    strings.Perm (toStringMap (labelSelectorOf labelSelector.entries)).entries → ∀ node : NodeResources,
      node.hasRequiredLabels (labelSelectorOf strings) = node.hasRequiredLabels
        (labelSelectorOf labelSelector.entries)

/-! ### Reading a selector -/

/-- The constraint of a key and its value. -/
def constraintOf (e : String × String) : LabelConstraint :=
  ⟨e.1, (parseLabelSelectorValue e.2).1, (parseLabelSelectorValue e.2).2⟩

variable {l : List (String × String)}
variable {c : LabelConstraint}

theorem mem_labelSelectorOf :
    c ∈ labelSelectorOf l ↔ ∃ e ∈ l, c = constraintOf e := by
  have hloop : ∀ (l : List (String × String)) (constraints : List LabelConstraint),
      c ∈ l.foldl (fun constraints e => addConstraint constraints (constraintOf e)) constraints ↔
        c ∈ constraints ∨ ∃ e ∈ l, c = constraintOf e := by
    intro l
    induction l with
    | nil => simp
    | cons e l ih =>
      intro constraints
      rw [List.foldl_cons, ih, mem_addConstraint, List.exists_mem_cons_iff, or_assoc]
  have hmem := hloop l []
  rwa [or_iff_right List.not_mem_nil] at hmem

theorem labelSelectorOf_eq_map (hl : (l.map Prod.fst).Nodup) :
    labelSelectorOf l = l.map constraintOf := by
  have hloop : ∀ (l : List (String × String)) (constraints : List LabelConstraint),
    (l.map Prod.fst).Nodup →
      (∀ c ∈ constraints, c.key ∉ l.map Prod.fst) →
      l.foldl (fun constraints e => addConstraint constraints (constraintOf e)) constraints =
        constraints ++ l.map constraintOf := by
    intro l
    induction l with
    | nil => exact fun constraints _ _ => (List.append_nil _).symm
    | cons e l ih =>
      intro constraints hnodup hnew
      rw [List.map_cons, List.nodup_cons] at hnodup
      have hnot : constraintOf e ∉ constraints := fun hmem => hnew _ hmem (.head _)
      rw [List.foldl_cons, addConstraint, if_neg hnot, ih _ hnodup.2, List.map_cons, List.append_assoc]
      · rfl
      · intro c hc
        obtain hc | hc := List.mem_append.mp hc
        · exact fun hmem => hnew c hc (.tail _ hmem)
        · rw [List.mem_singleton.mp hc]
          exact hnodup.1
  exact hloop l [] hl (by simp)

variable {e : String × String}

theorem mem_entries_toStringMap (hl : (l.map Prod.fst).Nodup) :
    e ∈ (toStringMap (labelSelectorOf l)).entries ↔
      ∃ c ∈ labelSelectorOf l, c.toValueString ≠ "" ∧ e = (c.key, c.toValueString) := by
  have hnodup : (((labelSelectorOf l).filterMap (fun c =>
      if c.toValueString = "" then none else some (c.key, c.toValueString))).map Prod.fst).Nodup := by
    have hkeys : ((labelSelectorOf l).map (·.key)).Nodup := by
      rw [labelSelectorOf_eq_map hl, List.map_map]
      exact hl
    refine List.Nodup.sublist ?_ hkeys
    induction labelSelectorOf l with
    | nil => exact List.Sublist.refl _
    | cons c l ih =>
      rw [List.filterMap_cons]
      split_ifs
      · exact ih.cons _
      · exact ih.cons_cons _
  unfold toStringMap
  rw [Dict.entries_ofList hnodup, List.mem_filterMap]
  constructor
  · rintro ⟨c, hc, he⟩
    split_ifs at he with hempty
    exact ⟨c, hc, hempty, (Option.some.inj he).symm⟩
  · rintro ⟨c, hc, hempty, rfl⟩
    exact ⟨c, hc, if_neg hempty⟩

/-! ### One constraint -/

theorem labelTokens_strJoin {values : List String} (hne : values ≠ []) (hempty : "" ∉ values)
    (hcomma : ∀ v ∈ values, ',' ∉ v.toList) :
    labelTokens ([','].intercalate (values.map String.toList)) = values := by
  have hchars : ∀ l ∈ values.map String.toList, ',' ∉ l := by
    intro l hl
    obtain ⟨v, hv, rfl⟩ := List.mem_map.mp hl
    exact hcomma v hv
  have hlast : (values.map String.toList).getLast? ≠ some [] := by
    intro hlast
    obtain ⟨v, hv, hnil⟩ := List.mem_map.mp (List.mem_of_getLast? hlast)
    rw [String.toList_eq_nil_iff] at hnil
    exact hempty (hnil ▸ hv)
  unfold labelTokens
  rw [List.splitOn_intercalate _ hchars (by simpa using hne)]
  have hback : String.ofList ∘ String.toList = id := funext (fun v => String.ofList_toList)
  simp only [hlast, if_false, List.map_map, hback, List.map_id]

theorem parseLabelSelectorValue_brackets (negated : Bool) (inner : String) :
    parseLabelSelectorValue ((if negated then "!" else "") ++ ("in(" ++ inner ++ ")")) =
      (if negated then .labelNotIn else .labelIn, labelTokens inner.toList) := by
  have hlast : ('(' :: (inner.toList ++ [')'])).getLast? = some ')' := by
    rw [← List.cons_append, List.getLast?_concat]
  unfold parseLabelSelectorValue
  cases negated with
  | true => simp [hlast]
  | false => simp [hlast]

namespace LabelConstraint

variable {constraint : LabelConstraint}
variable {v : String}

theorem mem_sortedValues :
    v ∈ constraint.sortedValues ↔ v ∈ constraint.values := by
  unfold sortedValues
  rw [(isStableSort_sortBy _ _).perm.mem_iff, List.mem_dedup]

theorem valuesString_of_singleton (h : constraint.sortedValues = [v]) :
    constraint.valuesString = v := by
  unfold valuesString
  rw [h]

theorem valuesString_of_ne (h : ∀ v, constraint.sortedValues ≠ [v]) :
    constraint.valuesString = "in(" ++ strJoin constraint.sortedValues ++ ")" := by
  unfold valuesString
  split
  · next v hv => exact absurd hv (h v)
  · rfl

theorem sortedValues_of_values (h : constraint.values = [v]) :
    constraint.sortedValues = [v] := by
  unfold sortedValues
  rw [h, (List.nodup_singleton v).dedup]
  rfl

theorem toValueString_eq {negated : Bool}
    (h : constraint.op = if negated then .labelNotIn else .labelIn) :
    constraint.toValueString = (if negated then "!" else "") ++ constraint.valuesString := by
  unfold toValueString
  rw [h]
  cases negated with
  | true => rfl
  | false => exact (String.empty_append).symm

end LabelConstraint

theorem Label.chars_ne_nil (l : Label) : l.chars ≠ [] := by
  obtain ⟨a, -, rest, heq, -⟩ := l.chars_eq
  rw [heq]
  exact List.cons_ne_nil a rest

/-- The values of a list in brackets are not empty and have no commas. -/
theorem tokens_spec {first : Label} {rest : List (Bool × Label)} {v : String}
    (h : v ∈ (LabelSelectorForm.list true first rest).values) : v ≠ "" ∧ ',' ∉ v.toList := by
  obtain ⟨cs, hcs, rfl⟩ := List.mem_map.mp h
  rw [ne_eq, ← String.toList_eq_nil_iff, String.toList_ofList]
  obtain rfl | hcs := List.mem_cons.mp hcs
  · exact ⟨first.chars_ne_nil, first.notMem (by decide)⟩
  · obtain ⟨e, -, rfl⟩ := List.mem_map.mp hcs
    refine ⟨fun hnil => e.2.chars_ne_nil (List.append_eq_nil_iff.mp hnil).2, fun hmem => ?_⟩
    obtain hmem | hmem := List.mem_append.mp hmem
    · unfold blankIf at hmem
      split_ifs at hmem
      · exact absurd (List.mem_singleton.mp hmem) (by decide)
      · cases hmem
    · exact e.2.notMem (by decide) hmem

theorem LabelSelectorForm.exists_of_single {form : LabelSelectorForm} {v : String}
    (h : ∀ w, w ∈ form.values ↔ w = v) :
    ∃ form' : LabelSelectorForm, v.toList = form'.chars ∧ form'.values = [v] := by
  cases form with
  | single label =>
    have hv := (h (String.ofList label.chars)).mp (.head _)
    exact ⟨.single label, by rw [← hv, String.toList_ofList]; rfl, by rw [← hv]; rfl⟩
  | list isIn first rest =>
    cases isIn with
    | false =>
      have hv := (h (String.ofList (LabelSelectorForm.list false first rest).chars)).mp (.head _)
      exact ⟨.list false first rest, by rw [← hv, String.toList_ofList], by rw [← hv]; rfl⟩
    | true =>
      have hv := (h (String.ofList first.chars)).mp (.head _)
      exact ⟨.single first, by rw [← hv, String.toList_ofList]; rfl, by rw [← hv]; rfl⟩

theorem LabelSelectorForm.empty_notMem_values (form : LabelSelectorForm) : "" ∉ form.values := by
  intro hmem
  cases form with
  | single label =>
    have hempty := congrArg String.toList (List.mem_singleton.mp hmem)
    exact label.chars_ne_nil (by simpa using hempty)
  | list isIn first rest =>
    cases isIn with
    | false =>
      have hempty := congrArg String.toList (List.mem_singleton.mp hmem)
      rw [String.toList_ofList] at hempty
      exact absurd hempty.symm (by simp [LabelSelectorForm.chars])
    | true => exact (tokens_spec hmem).1 rfl

variable {value : LabelSelectorValue}

/-- A constraint that was read from a checked value other than the empty one is read back from its
string. -/
theorem parse_toValueString (h : e.2.toList = value.chars) :
    (constraintOf e).Same (constraintOf (e.1, (constraintOf e).toValueString)) := by
  have hparse := parseLabelSelectorValue_eq h
  have hop : (constraintOf e).op = if value.negated then .labelNotIn else .labelIn :=
    congrArg Prod.fst hparse
  have hvalues : (constraintOf e).values = value.form.values := congrArg Prod.snd hparse
  have hread : ∃ values, parseLabelSelectorValue (constraintOf e).toValueString =
      ((constraintOf e).op, values) ∧ ∀ v, v ∈ (constraintOf e).values ↔ v ∈ values := by
    rw [LabelConstraint.toValueString_eq hop, hop]
    by_cases hsingle : ∃ v, (constraintOf e).sortedValues = [v]
    · -- one value is written alone
      obtain ⟨v, hsorted⟩ := hsingle
      have hone : ∀ w, w ∈ value.form.values ↔ w = v := by
        intro w
        rw [← hvalues, ← LabelConstraint.mem_sortedValues, hsorted, List.mem_singleton]
      obtain ⟨form', hchars, hform'⟩ := LabelSelectorForm.exists_of_single hone
      have hchars' : ((if value.negated then "!" else "") ++ v).toList =
          LabelSelectorValue.chars ⟨value.negated, form'⟩ := by
        rw [String.toList_append, hchars, LabelSelectorValue.chars]
        cases value.negated <;> rfl
      refine ⟨[v], ?_, fun w => by rw [hvalues, hone, List.mem_singleton]⟩
      rw [LabelConstraint.valuesString_of_singleton hsorted, parseLabelSelectorValue_eq hchars',
        ← hform']
    · -- several values are written in brackets, and only a list in brackets has several
      have hnot : ∀ v, (constraintOf e).sortedValues ≠ [v] := fun v hv => hsingle ⟨v, hv⟩
      refine ⟨(constraintOf e).sortedValues, ?_, fun v => LabelConstraint.mem_sortedValues.symm⟩
      rw [LabelConstraint.valuesString_of_ne hnot, parseLabelSelectorValue_brackets,
        LabelConstraint.strJoin, String.toList_ofList]
      obtain ⟨first, rest, hform⟩ : ∃ first rest, value.form = .list true first rest := by
        cases hform : value.form with
        | single label =>
          exact absurd (LabelConstraint.sortedValues_of_values (hvalues.trans (by rw [hform]; rfl)))
            (hnot _)
        | list isIn first rest =>
          cases isIn with
          | false =>
            exact absurd (LabelConstraint.sortedValues_of_values
              (hvalues.trans (by rw [hform]; rfl))) (hnot _)
          | true => exact ⟨first, rest, rfl⟩
      have hmem : ∀ v, v ∈ (constraintOf e).sortedValues ↔
        v ∈ (LabelSelectorForm.list true first rest).values := by
        intro v
        rw [LabelConstraint.mem_sortedValues, hvalues, hform]
      have htokens : ∀ v ∈ (constraintOf e).sortedValues, v ≠ "" ∧ ',' ∉ v.toList :=
        fun v hv => tokens_spec ((hmem v).mp hv)
      rw [labelTokens_strJoin]
      · exact List.ne_nil_of_mem ((hmem _).mpr (.head _))
      · exact fun hmem => (htokens _ hmem).1 rfl
      · exact fun v hv => (htokens v hv).2
  obtain ⟨values, hread, hmem⟩ := hread
  refine ⟨rfl, ?_, ?_⟩
  · exact (congrArg Prod.fst hread).symm
  · intro v
    rw [hmem]
    show v ∈ values ↔ v ∈ (parseLabelSelectorValue (constraintOf e).toValueString).2
    rw [hread]

/-! ### The whole selector -/

theorem LabelConstraint.Same.matchesLabel {c' : LabelConstraint} (h : c.Same c')
    (node : NodeResources) :
    node.MatchesLabel c ↔ node.MatchesLabel c' := by
  unfold NodeResources.MatchesLabel
  rw [h.op, h.key]
  simp only [h.values]

theorem SameConstraints.hasRequiredLabels {l' : List (String × String)}
    (h : SameConstraints (labelSelectorOf l) (labelSelectorOf l')) (node : NodeResources) :
    node.hasRequiredLabels (labelSelectorOf l') = node.hasRequiredLabels (labelSelectorOf l) := by
  have hok : ∀ l : List (String × String), ∃ b, node.hasRequiredLabels (labelSelectorOf l) = .ok b ∧
      (b = true ↔ node.MatchesLabels (labelSelectorOf l)) := fun l =>
    NodeResources.allM_ok
      (fun c hc => NodeResources.nodeLabelMatchesConstraint_ok (labelSelectorOf_specified l c hc))
  obtain ⟨b, hb, hmatches⟩ := hok l
  obtain ⟨b', hb', hmatches'⟩ := hok l'
  have hiff : node.MatchesLabels (labelSelectorOf l') ↔ node.MatchesLabels (labelSelectorOf l) := by
    constructor
    · intro hall c hc
      obtain ⟨c', hc', hsame⟩ := h.1 c hc
      exact (hsame.matchesLabel node).mpr (hall c' hc')
    · intro hall c' hc'
      obtain ⟨c, hc, hsame⟩ := h.2 c' hc'
      exact (hsame.matchesLabel node).mp (hall c hc)
  rw [hb, hb', Bool.eq_iff_iff.mpr (hmatches'.trans (hiff.trans hmatches.symm))]

theorem validateLabelSelectorValue_of_mem {labelSelector : Dict String String}
    (h : validateLabelSelector labelSelector = none) (he : e ∈ labelSelector.entries) :
    validateLabelSelectorValue e.2 = none :=
  (Option.or_eq_none_iff.mp (List.findSome?_eq_none_iff.mp h e he)).2

/-- A checked value other than the empty one is not written as the empty string. -/
theorem toValueString_ne_empty (h : e.2.toList = value.chars) :
    (constraintOf e).toValueString ≠ "" := by
  intro hempty
  have hsame := parse_toValueString h
  rw [hempty] at hsame
  have hmem : "" ∈ (constraintOf e).values := (hsame.values "").mpr (.head _)
  rw [show (constraintOf e).values = value.form.values from congrArg Prod.snd
    (parseLabelSelectorValue_eq h)] at hmem
  exact value.form.empty_notMem_values hmem

/-- A selector that was checked comes back from its string form if and only if none of its values is
empty. -/
theorem survivesStrings_iff {labelSelector : Dict String String}
    (h : validateLabelSelector labelSelector = none) :
    SurvivesStrings labelSelector ↔ ∀ e ∈ labelSelector.entries, e.2 ≠ "" := by
  have hmem : ∀ {s : String × String},
    s ∈ (toStringMap (labelSelectorOf labelSelector.entries)).entries ↔
      ∃ e ∈ labelSelector.entries, (constraintOf e).toValueString ≠ "" ∧
      s = (e.1, (constraintOf e).toValueString) := by
    intro s
    rw [mem_entries_toStringMap labelSelector.nodup]
    constructor
    · rintro ⟨c, hc, hne, rfl⟩
      obtain ⟨e, he, rfl⟩ := mem_labelSelectorOf.mp hc
      exact ⟨e, he, hne, rfl⟩
    · rintro ⟨e, he, hne, rfl⟩
      exact ⟨constraintOf e, mem_labelSelectorOf.mpr ⟨e, he, rfl⟩, hne, rfl⟩
  constructor
  · intro hsurvives e he hempty
    have hconstraint : constraintOf e ∈ labelSelectorOf labelSelector.entries :=
      mem_labelSelectorOf.mpr ⟨e, he, rfl⟩
    obtain ⟨c', hc', hsame⟩ := (hsurvives.constraints _ (.refl _)).1 _ hconstraint
    obtain ⟨s, hs, rfl⟩ := mem_labelSelectorOf.mp hc'
    obtain ⟨e', he', hne, rfl⟩ := hmem.mp hs
    -- the constraint that came back has the key of the empty value, which is not repeated
    have hkey : e.1 = e'.1 := hsame.key
    have heq : e' = e := List.inj_on_of_nodup_map labelSelector.nodup he' he hkey.symm
    rw [heq] at hne
    apply hne
    unfold constraintOf
    rw [hempty]
    rfl
  · intro hne
    have hvalue : ∀ e ∈ labelSelector.entries, ∃ value : LabelSelectorValue,
      e.2.toList = value.chars := by
      intro e he
      exact (validateLabelSelectorValue_eq_none.mp
        (validateLabelSelectorValue_of_mem h he)).resolve_left (hne e he)
    have hconstraints : ∀ strings : List (String × String),
        strings.Perm (toStringMap (labelSelectorOf labelSelector.entries)).entries →
          SameConstraints (labelSelectorOf labelSelector.entries) (labelSelectorOf strings) := by
      intro strings hperm
      constructor
      · intro c hc
        obtain ⟨e, he, rfl⟩ := mem_labelSelectorOf.mp hc
        obtain ⟨value, hvalue⟩ := hvalue e he
        have hs : (e.1, (constraintOf e).toValueString) ∈ strings :=
          hperm.mem_iff.mpr (hmem.mpr ⟨e, he, toValueString_ne_empty hvalue, rfl⟩)
        exact ⟨_, mem_labelSelectorOf.mpr ⟨_, hs, rfl⟩, parse_toValueString hvalue⟩
      · intro c' hc'
        obtain ⟨s, hs, rfl⟩ := mem_labelSelectorOf.mp hc'
        obtain ⟨e, he, -, rfl⟩ := hmem.mp (hperm.mem_iff.mp hs)
        obtain ⟨value, hvalue⟩ := hvalue e he
        exact ⟨_, mem_labelSelectorOf.mpr ⟨e, he, rfl⟩, parse_toValueString hvalue⟩
    exact ⟨hconstraints, fun strings hperm node => (hconstraints strings hperm).hasRequiredLabels node⟩

theorem survivesStrings_negated : SurvivesStrings (Dict.empty.set "k" "!A") := by
  have haccepted : validateLabelSelector (Dict.empty.set "k" "!A") = none := by decide +kernel
  exact (survivesStrings_iff haccepted).mpr (by decide)

/-- The constraint for the empty label is lost. -/
theorem not_survivesStrings_empty : ¬ ∀ labelSelector : Dict String String,
    validateLabelSelector labelSelector = none → SurvivesStrings labelSelector := by
  intro hall
  have haccepted : validateLabelSelector (Dict.empty.set "k" "") = none := by decide +kernel
  obtain ⟨c', hc', -⟩ := ((hall _ haccepted).constraints [] (by decide)).1
    ⟨"k", .labelIn, [""]⟩ (by decide)
  exact absurd hc' List.not_mem_nil

end RayTfm.Raylet
