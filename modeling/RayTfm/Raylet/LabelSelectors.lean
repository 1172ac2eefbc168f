import RayTfm.Lib.Regex
import RayTfm.Raylet.ClusterResources

/-! # Values of label selectors

A value of a label selector is checked with a pattern when a task or actor is submitted
(`validateLabelSelectorValue`) and taken apart by the scheduler (`parseLabelSelectorValue`).
`LabelSelectorValue` is what the pattern reads: an optional `!`, and a label or a list of labels in
brackets.  The two agree on a value exactly when it is a label or a list written as `in(...)`
without blanks (`agrees_iff`): the scheduler keeps a blank after a comma in the label that follows,
takes a list without `in` for one label, and the empty value for an empty label. -/

namespace RayTfm.Raylet

open Regex

/-! ### The patterns -/

/-- `[a-zA-Z0-9]`. -/
def alphanumeric : List Char := "abcdefghijklmnopqrstuvwxyzABCDEFGHIJKLMNOPQRSTUVWXYZ0123456789".toList

/-- `[a-zA-Z0-9_.-]`. -/
def labelChars : List Char := alphanumeric ++ ['_', '.', '-']

/-- `LABEL_REGEX`. -/
def labelRegex : RegularExpression Char :=
  .comp (oneOf alphanumeric) (opt (.comp (upTo 61 (oneOf labelChars)) (oneOf alphanumeric)))

/-- `LABEL_SELECTOR_REGEX`. -/
def labelSelectorRegex : RegularExpression Char :=
  .plus
    (.comp (opt (text ['!'])) (.comp (opt (text ['i', 'n'])) (.comp (text ['(']) (.comp labelRegex
      (.comp (.star (.comp (text [',']) (.comp (opt (text [' '])) labelRegex))) (text [')']))))))
    (.comp (opt (text ['!'])) labelRegex)

/-- `validate_label_selector_value`: the error message, if there is one. -/
def validateLabelSelectorValue (selector : String) : Option String :=
  if selector = "" then none
  else if !labelSelectorRegex.rmatch selector.toList then
    some ("Invalid label selector value \x60" ++ selector ++
      "\x60. The label selector value should contain optional " ++
      "operators and a label value. Supported operators are: ! and \x7b'in'\x7d. " ++
      "Value must be 63 chars or less beginning and ending with an alphanumeric character ([a-z0-9A-Z]) with " ++
      "dashes (-), underscores (_),dots (.), and alphanumerics between.")
  else none

/-! ### What the patterns read -/

/-- A label: a word that `LABEL_REGEX` matches. -/
structure Label where
  chars : List Char
  matched : chars ∈ labelRegex.matches'

theorem Label.chars_eq (l : Label) :
    ∃ a ∈ alphanumeric, ∃ rest, l.chars = a :: rest ∧ ∀ c ∈ rest, c ∈ labelChars := by
  obtain ⟨u, hu, v, hv, heq⟩ := l.matched
  obtain ⟨a, ha, rfl⟩ := mem_oneOf.mp hu
  refine ⟨a, ha, v, heq.symm, ?_⟩
  rcases mem_opt.mp hv with hv | rfl
  · obtain ⟨middle, hmiddle, last, hlast, rfl⟩ := hv
    obtain ⟨b, hb, rfl⟩ := mem_oneOf.mp hlast
    intro c hc
    rcases List.mem_append.mp hc with hc | hc
    · exact (mem_upTo_oneOf.mp hmiddle).2 c hc
    · rw [List.mem_singleton.mp hc]
      exact List.mem_append_left _ hb
  · exact nofun

theorem Label.mem_labelChars (l : Label) {c : Char} (hc : c ∈ l.chars) : c ∈ labelChars := by
  obtain ⟨a, ha, rest, heq, hrest⟩ := l.chars_eq
  rw [heq] at hc
  obtain rfl | hc := List.mem_cons.mp hc
  · exact List.mem_append_left _ ha
  · exact hrest c hc

theorem notMem_labelChars : ∀ c ∈ ['!', '(', ')', ',', ' '], c ∉ labelChars := by
  have hall : labelChars.all (fun c => !(['!', '(', ')', ',', ' '].contains c)) = true := by decide
  intro c hc hmem
  have hnot := List.all_eq_true.mp hall c hmem
  rw [List.contains_iff_mem.mpr hc] at hnot
  cases hnot

theorem Label.notMem (l : Label) {c : Char} (hc : c ∈ ['!', '(', ')', ',', ' ']) : c ∉ l.chars :=
  fun hmem => notMem_labelChars c hc (l.mem_labelChars hmem)

/-- A blank after a comma, or none. -/
def blankIf (blank : Bool) : List Char := if blank then [' '] else []

/-- What stands after the optional `!`: a label, or a list with or without `in`, in which a blank
may precede each label after the first. -/
inductive LabelSelectorForm where
  | single (label : Label)
  | list (isIn : Bool) (first : Label) (rest : List (Bool × Label))

/-- A label selector value, as the pattern reads it. -/
structure LabelSelectorValue where
  negated : Bool
  form : LabelSelectorForm

namespace LabelSelectorForm

/-- The labels written in it. -/
def labels : LabelSelectorForm → List Label
  | .single label => [label]
  | .list _ first rest => first :: rest.map Prod.snd

/-- Its letters. -/
def chars : LabelSelectorForm → List Char
  | .single label => label.chars
  | .list isIn first rest =>
    (if isIn then ['i', 'n'] else []) ++ '(' :: first.chars ++
      (rest.map (fun e => ',' :: blankIf e.1 ++ e.2.chars)).flatten ++ [')']

end LabelSelectorForm

/-- Its letters. -/
def LabelSelectorValue.chars (value : LabelSelectorValue) : List Char :=
  (if value.negated then ['!'] else []) ++ value.form.chars

theorem mem_opt_text {word w : List Char} :
    w ∈ (opt (text word)).matches' ↔ ∃ b : Bool, w = if b then word else [] := by
  rw [mem_opt, mem_text]
  constructor
  · rintro (rfl | rfl)
    · exact ⟨true, rfl⟩
    · exact ⟨false, rfl⟩
  · rintro ⟨_ | _, rfl⟩
    · exact .inr rfl
    · exact .inl rfl

theorem exists_rest_of_parts {parts : List (List Char)}
    (h : ∀ p ∈ parts, p ∈
      (RegularExpression.comp (text [',']) (.comp (opt (text [' '])) labelRegex)).matches') :
    ∃ rest : List (Bool × Label), parts = rest.map (fun e => ',' :: blankIf e.1 ++ e.2.chars) := by
  induction parts with
  | nil => exact ⟨[], rfl⟩
  | cons p parts ih =>
    obtain ⟨rest, rfl⟩ := ih (fun p hp => h p (.tail _ hp))
    obtain ⟨comma, hcomma, tail, ⟨blank, hblank, label, hlabel, rfl⟩, rfl⟩ := h p (.head _)
    obtain ⟨b, rfl⟩ := mem_opt_text.mp hblank
    rw [mem_text.mp hcomma]
    exact ⟨(b, ⟨label, hlabel⟩) :: rest, rfl⟩

theorem mem_labelSelectorRegex {w : List Char} :
    w ∈ labelSelectorRegex.matches' ↔ ∃ value : LabelSelectorValue, w = value.chars := by
  constructor
  · rintro (⟨u, hu, _,
      ⟨inOp, hin, _, ⟨bracket, hbracket, _, ⟨first, hfirst, _, ⟨list, hlist, close, hclose, rfl⟩,
      rfl⟩, rfl⟩, rfl⟩, rfl⟩ | ⟨u, hu, label, hlabel, rfl⟩)
    · obtain ⟨negated, rfl⟩ := mem_opt_text.mp hu
      obtain ⟨isIn, rfl⟩ := mem_opt_text.mp hin
      obtain ⟨parts, rfl, hparts⟩ := mem_star.mp hlist
      obtain ⟨rest, rfl⟩ := exists_rest_of_parts hparts
      refine ⟨⟨negated, .list isIn ⟨first, hfirst⟩ rest⟩, ?_⟩
      rw [mem_text.mp hbracket, mem_text.mp hclose]
      simp [LabelSelectorValue.chars, LabelSelectorForm.chars]
    · obtain ⟨negated, rfl⟩ := mem_opt_text.mp hu
      exact ⟨⟨negated, .single ⟨label, hlabel⟩⟩, rfl⟩
  · rintro ⟨⟨negated, form⟩, rfl⟩
    cases form with
    | single label => exact .inr ⟨_, mem_opt_text.mpr ⟨negated, rfl⟩, _, label.matched, rfl⟩
    | list isIn first rest =>
      have hrest : (rest.map (fun e => ',' :: blankIf e.1 ++ e.2.chars)).flatten ∈
          (RegularExpression.star
            (.comp (text [',']) (.comp (opt (text [' '])) labelRegex))).matches' := by
        refine mem_star.mpr ⟨_, rfl, fun p hp => ?_⟩
        obtain ⟨e, _, rfl⟩ := List.mem_map.mp hp
        exact ⟨[','], mem_text.mpr rfl, _, ⟨_, mem_opt_text.mpr ⟨e.1, rfl⟩, _, e.2.matched, rfl⟩, rfl⟩
      refine .inl ⟨_, mem_opt_text.mpr ⟨negated, rfl⟩, _, ⟨_, mem_opt_text.mpr ⟨isIn, rfl⟩, _,
        ⟨['('], mem_text.mpr rfl, _,
          ⟨_, first.matched, _, ⟨_, hrest, _, mem_text.mpr rfl, rfl⟩, rfl⟩, rfl⟩, rfl⟩, ?_⟩
      simp [LabelSelectorValue.chars, LabelSelectorForm.chars]

variable {selector : String}

theorem validateLabelSelectorValue_eq_none :
    validateLabelSelectorValue selector = none ↔
      selector = "" ∨ ∃ value : LabelSelectorValue, selector.toList = value.chars := by
  unfold validateLabelSelectorValue
  rw [← mem_labelSelectorRegex, ← RegularExpression.rmatch_iff_matches']
  split_ifs with hempty hmatch
  · exact ⟨fun _ => .inl hempty, fun _ => rfl⟩
  · simp only [Bool.not_eq_true'] at hmatch
    rw [hmatch]
    simp [hempty]
  · simp only [Bool.not_eq_true', Bool.not_eq_false] at hmatch
    exact ⟨fun _ => .inr hmatch, fun _ => rfl⟩

/-! ### What the scheduler reads -/

/-- The values that the scheduler takes from what stands after the optional `!`. -/
def LabelSelectorForm.values : LabelSelectorForm → List String
  | .single label => [String.ofList label.chars]
  | .list true first rest => (first.chars :: rest.map (fun e => blankIf e.1 ++ e.2.chars)).map
      String.ofList
  | .list false first rest => [String.ofList (LabelSelectorForm.list false first rest).chars]

theorem splitOn_comma {first : List Char} (hfirst : ',' ∉ first) (rest : List (Bool × Label)) :
    (first ++ (rest.map (fun e => ',' :: blankIf e.1 ++ e.2.chars)).flatten).splitOn ',' =
      first :: rest.map (fun e => blankIf e.1 ++ e.2.chars) := by
  induction rest generalizing first with
  | nil =>
    rw [List.map_nil, List.flatten_nil, List.append_nil]
    exact List.splitOn_eq_singleton hfirst
  | cons e rest ih =>
    have hcomma : ',' ∉ blankIf e.1 ++ e.2.chars := by
      intro hmem
      rcases List.mem_append.mp hmem with hmem | hmem
      · unfold blankIf at hmem
        split at hmem
        · exact absurd (List.mem_singleton.mp hmem) (by decide)
        · exact List.not_mem_nil hmem
      · exact e.2.notMem (by decide) hmem
    rw [List.map_cons, List.flatten_cons, List.cons_append, List.cons_append,
      List.splitOn_append_cons_self_of_not_mem hfirst, ih hcomma, List.map_cons]

theorem labelTokens_list (first : Label) (rest : List (Bool × Label)) :
    labelTokens (first.chars ++ (rest.map (fun e => ',' :: blankIf e.1 ++ e.2.chars)).flatten) =
      (first.chars :: rest.map (fun e => blankIf e.1 ++ e.2.chars)).map String.ofList := by
  have hne : ∀ l : Label, l.chars ≠ [] := by
    intro l
    obtain ⟨a, _, rest, heq, _⟩ := l.chars_eq
    rw [heq]
    exact List.cons_ne_nil a rest
  unfold labelTokens
  rw [splitOn_comma (first.notMem (by decide))]
  have hlast : (first.chars :: rest.map (fun e => blankIf e.1 ++ e.2.chars)).getLast? ≠ some [] := by
    intro hnil
    rcases List.mem_cons.mp (List.mem_of_getLast? hnil) with h | h
    · exact hne first h.symm
    · obtain ⟨e, _, he⟩ := List.mem_map.mp h
      exact hne e.2 (List.append_eq_nil_iff.mp he).2
  simp only [hlast, if_false]

/-- The list that the scheduler looks for. -/
def isInList (val : List Char) : Prop := "in(".toList.isPrefixOf val ∧ val.getLast? = some ')'

theorem not_isInList_of_notMem {val : List Char} (h : '(' ∉ val) : ¬ isInList val := by
  rintro ⟨hfront, _⟩
  exact h ((List.isPrefixOf_iff_prefix.mp hfront).subset (by decide))

/-- What follows the optional `!` is never taken for another one. -/
theorem LabelSelectorForm.head?_chars (form : LabelSelectorForm) : form.chars.head? ≠ some '!' := by
  cases form with
  | single label =>
    intro h
    exact label.notMem (by decide) (List.mem_of_head? h)
  | list isIn first rest => cases isIn <;> simp [LabelSelectorForm.chars]

variable {value : LabelSelectorValue}

theorem parseLabelSelectorValue_eq (h : selector.toList = value.chars) :
    parseLabelSelectorValue selector =
      (if value.negated then .labelNotIn else .labelIn, value.form.values) := by
  obtain ⟨negated, form⟩ := value
  have hform : (if "in(".toList.isPrefixOf form.chars ∧ form.chars.getLast? = some ')'
      then labelTokens (form.chars.drop 3).dropLast else [String.ofList form.chars]) = form.values := by
    cases form with
    | single label => exact if_neg (not_isInList_of_notMem (label.notMem (by decide)))
    | list isIn first rest =>
      cases isIn with
      | false => exact if_neg (fun hin => by simp [LabelSelectorForm.chars] at hin)
      | true =>
        have hchars : (LabelSelectorForm.list true first rest).chars =
            'i' :: 'n' :: '(' ::
              (first.chars ++ (rest.map (fun e => ',' :: blankIf e.1 ++ e.2.chars)).flatten ++
              [')']) := by
          simp [LabelSelectorForm.chars]
        rw [hchars, if_pos]
        · rw [List.drop_succ_cons, List.drop_succ_cons, List.drop_succ_cons, List.drop_zero,
            List.dropLast_concat]
          exact labelTokens_list first rest
        · refine ⟨rfl, ?_⟩
          rw [← List.cons_append, ← List.cons_append, ← List.cons_append, List.getLast?_concat]
  unfold parseLabelSelectorValue
  rw [h]
  cases negated with
  | true =>
    simp only [LabelSelectorValue.chars, if_true, List.cons_append, List.nil_append,
      List.head?_cons, List.tail_cons]
    rw [hform]
  | false =>
    simp only [LabelSelectorValue.chars, Bool.false_eq_true, if_false, List.nil_append,
      form.head?_chars]
    rw [hform]

/-! ### Agreement -/

/-- The value is one of the labels written in the selector. -/
def WrittenIn (selector : String) (v : String) : Prop :=
  ∃ value : LabelSelectorValue, selector.toList = value.chars ∧ ∃ l ∈ value.form.labels,
  v = String.ofList l.chars

/-- The scheduler reads the selector as it is written: the operator is negated for a leading `!`,
the values are the labels written in it, and a node with one of these labels matches, or does not
match a negated selector. -/
structure Agrees (selector : String) : Prop where
  operator : (parseLabelSelectorValue selector).1 = .labelNotIn ↔ selector.toList.head? = some '!'
  values : ∀ v, v ∈ (parseLabelSelectorValue selector).2 ↔ WrittenIn selector v
  matched : ∀ (node : NodeResources) (key v : String), node.labels.get? key = some v →
    WrittenIn selector v →
    node.nodeLabelMatchesConstraint
        ⟨key, (parseLabelSelectorValue selector).1, (parseLabelSelectorValue selector).2⟩ =
      .ok (decide (selector.toList.head? ≠ some '!'))

/-- Not empty, without blanks, and without a list that lacks its operator. -/
def PlainSelector (selector : String) : Prop :=
  selector ≠ "" ∧ ' ' ∉ selector.toList ∧
    (if selector.toList.head? = some '!' then selector.toList.tail
      else selector.toList).head? ≠ some '('

theorem LabelSelectorValue.head?_chars (value : LabelSelectorValue) :
    value.chars.head? = some '!' ↔ value.negated = true := by
  obtain ⟨negated, form⟩ := value
  cases negated with
  | true => exact ⟨fun _ => rfl, fun _ => rfl⟩
  | false => exact ⟨fun h => (form.head?_chars h).elim, nofun⟩

/-- A list whose labels follow their commas at once. -/
def LabelSelectorForm.Plain : LabelSelectorForm → Prop
  | .single _ => True
  | .list isIn _ rest => isIn = true ∧ ∀ e ∈ rest, e.1 = false

theorem LabelSelectorValue.chars_ne_nil (value : LabelSelectorValue) : value.chars ≠ [] := by
  obtain ⟨negated, form⟩ := value
  cases form with
  | single label =>
    obtain ⟨a, _, rest, heq, _⟩ := label.chars_eq
    simp [LabelSelectorValue.chars, LabelSelectorForm.chars, heq]
  | list isIn first rest => simp [LabelSelectorValue.chars, LabelSelectorForm.chars]

theorem plainSelector_iff (h : selector.toList = value.chars) :
    PlainSelector selector ↔ value.form.Plain := by
  have hne : selector ≠ "" := by
    rintro rfl
    exact value.chars_ne_nil h.symm
  have hrest : (if selector.toList.head? = some '!' then selector.toList.tail
    else selector.toList) = value.form.chars := by
    rw [h]
    simp only [value.head?_chars]
    unfold LabelSelectorValue.chars
    cases value.negated <;> rfl
  have hblank : ' ' ∈ selector.toList ↔ ' ' ∈ value.form.chars := by
    rw [h, LabelSelectorValue.chars]
    cases value.negated <;> simp
  unfold PlainSelector
  rw [hrest, hblank]
  cases hform : value.form with
  | single label =>
    refine ⟨fun _ => trivial, fun _ => ⟨hne, label.notMem (by decide), fun hhead => ?_⟩⟩
    exact label.notMem (by decide) (List.mem_of_head? hhead)
  | list isIn first rest =>
    have hblanks : ' ' ∉ (LabelSelectorForm.list isIn first rest).chars ↔ ∀ e ∈ rest, e.1 = false := by
      constructor
      · intro hnot e he
        by_contra hblank
        rw [Bool.not_eq_false] at hblank
        apply hnot
        have hmem : ' ' ∈ (rest.map (fun e => ',' :: blankIf e.1 ++ e.2.chars)).flatten :=
          List.mem_flatten.mpr ⟨_, List.mem_map_of_mem he, by simp [blankIf, hblank]⟩
        exact List.mem_append_left _ (List.mem_append_right _ hmem)
      · intro hall hmem
        rcases List.mem_append.mp hmem with hmem | hmem
        · rcases List.mem_append.mp hmem with hmem | hmem
          · rcases List.mem_append.mp hmem with hmem | hmem
            · cases isIn <;> simp at hmem
            · rcases List.mem_cons.mp hmem with hmem | hmem
              · cases hmem
              · exact first.notMem (by decide) hmem
          · obtain ⟨p, hp, hmem⟩ := List.mem_flatten.mp hmem
            obtain ⟨e, he, rfl⟩ := List.mem_map.mp hp
            rw [hall e he] at hmem
            rcases List.mem_cons.mp hmem with hmem | hmem
            · cases hmem
            · exact e.2.notMem (by decide) hmem
        · exact absurd (List.mem_singleton.mp hmem) (by decide)
    have hhead : (LabelSelectorForm.list isIn first rest).chars.head? ≠ some '(' ↔ isIn = true := by
      cases isIn <;> simp [LabelSelectorForm.chars]
    rw [hblanks, hhead]
    exact ⟨fun ⟨_, hall, hin⟩ => ⟨hin, hall⟩, fun ⟨hin, hall⟩ => ⟨hne, hall, hin⟩⟩

variable {form : LabelSelectorForm}

theorem LabelSelectorForm.Plain.values (h : form.Plain) :
    form.values = form.labels.map (fun l => String.ofList l.chars) := by
  cases form with
  | single label => rfl
  | list isIn first rest =>
    obtain ⟨rfl, hall⟩ := h
    have hrest : rest.map (fun e => blankIf e.1 ++ e.2.chars) = rest.map (fun e => e.2.chars) :=
      List.map_congr_left (fun e he => by rw [hall e he]; rfl)
    rw [LabelSelectorForm.values, LabelSelectorForm.labels, hrest, List.map_cons, List.map_cons,
      List.map_map, List.map_map]
    rfl

theorem LabelSelectorForm.exists_of_not_plain (h : ¬ form.Plain) :
    ∃ cs, String.ofList cs ∈ form.values ∧ ∃ c ∈ ['!', '(', ')', ',', ' '], c ∈ cs := by
  cases form with
  | single label => exact (h trivial).elim
  | list isIn first rest =>
    cases isIn with
    | false =>
      refine ⟨_, List.mem_singleton_self _, '(', by decide, ?_⟩
      simp [LabelSelectorForm.chars]
    | true =>
      have hblank : ∃ e ∈ rest, e.1 = true := by
        by_contra hnone
        refine h ⟨rfl, fun e he => ?_⟩
        rw [← Bool.not_eq_true]
        exact fun he' => hnone ⟨e, he, he'⟩
      obtain ⟨e, he, hb⟩ := hblank
      refine ⟨blankIf e.1 ++ e.2.chars, ?_, ' ', by decide, ?_⟩
      · exact List.mem_map_of_mem (List.mem_cons_of_mem _ (List.mem_map_of_mem he))
      · rw [hb]
        exact List.mem_cons_self

theorem Agrees.of_plain (hvalue : selector.toList = value.chars)
    (hplain : PlainSelector selector) : Agrees selector := by
  have hhead : selector.toList.head? = some '!' ↔
    value.negated = true := by rw [hvalue, value.head?_chars]
  have hvalues : ∀ v, v ∈ (parseLabelSelectorValue selector).2 ↔ WrittenIn selector v := by
    intro v
    constructor
    · intro hv
      rw [parseLabelSelectorValue_eq hvalue, ((plainSelector_iff hvalue).mp hplain).values] at hv
      obtain ⟨l, hl, rfl⟩ := List.mem_map.mp hv
      exact ⟨value, hvalue, l, hl, rfl⟩
    · rintro ⟨value', hvalue', l, hl, rfl⟩
      rw [parseLabelSelectorValue_eq hvalue', ((plainSelector_iff hvalue').mp hplain).values]
      exact List.mem_map_of_mem hl
  refine ⟨?_, hvalues, fun node key v hkey hv => ?_⟩
  · rw [hhead, parseLabelSelectorValue_eq hvalue]
    cases value.negated <;> simp
  · have hmem := (hvalues v).mpr hv
    rw [parseLabelSelectorValue_eq hvalue] at hmem ⊢
    simp only [ne_eq, hhead, NodeResources.nodeLabelMatchesConstraint, hkey, Option.any_some]
    cases value.negated <;> simp [hmem]

/-- A value that is checked is read as it is written exactly when it is a plain one. -/
theorem agrees_iff {selector : String} (h : validateLabelSelectorValue selector = none) :
    Agrees selector ↔ PlainSelector selector := by
  rcases validateLabelSelectorValue_eq_none.mp h with rfl | ⟨value, hvalue⟩
  · refine ⟨fun hagrees => ?_, fun hplain => (hplain.1 rfl).elim⟩
    obtain ⟨value, hvalue, _⟩ := (hagrees.values "").mp (by decide)
    exact (value.chars_ne_nil hvalue.symm).elim
  · refine ⟨fun hagrees => ?_, Agrees.of_plain hvalue⟩
    rw [plainSelector_iff hvalue]
    by_contra hnot
    obtain ⟨cs, hcs, c, hc, hmem⟩ := LabelSelectorForm.exists_of_not_plain hnot
    have hread : String.ofList cs ∈ (parseLabelSelectorValue selector).2 := by
      rw [parseLabelSelectorValue_eq hvalue]
      exact hcs
    obtain ⟨_, _, l, _, hl⟩ := (hagrees.values _).mp hread
    rw [String.ofList_injective hl] at hmem
    exact l.notMem hc hmem

/-- The label of one letter. -/
def letterLabel (a : Char) (ha : a ∈ alphanumeric) : Label :=
  ⟨[a], [a], mem_oneOf.mpr ⟨a, ha, rfl⟩, [], mem_opt.mpr (.inr rfl), rfl⟩

theorem agrees_in_list : Agrees "in(A,B)" :=
  have haccepted : validateLabelSelectorValue "in(A,B)" = none :=
    validateLabelSelectorValue_eq_none.mpr (.inr ⟨⟨false, .list true (letterLabel 'A' (by decide))
      [(false, letterLabel 'B' (by decide))]⟩, by decide⟩)
  (agrees_iff haccepted).mpr ⟨by decide, by decide, by decide⟩

/-- After a comma and a blank the scheduler reads a label that begins with the blank. -/
theorem not_agrees_blank :
    ¬ ∀ selector : String, validateLabelSelectorValue selector = none → Agrees selector := by
  intro hall
  have haccepted : validateLabelSelectorValue "in(A, B)" = none :=
    validateLabelSelectorValue_eq_none.mpr (.inr ⟨⟨false, .list true (letterLabel 'A' (by decide))
      [(true, letterLabel 'B' (by decide))]⟩, by decide⟩)
  obtain ⟨_, _, l, _, hl⟩ := ((hall _ haccepted).values " B").mp (by decide)
  have hchars : [' ', 'B'] = l.chars := String.ofList_injective hl
  exact l.notMem (by decide : ' ' ∈ ['!', '(', ')', ',', ' ']) (hchars ▸ List.mem_cons_self)

end RayTfm.Raylet
