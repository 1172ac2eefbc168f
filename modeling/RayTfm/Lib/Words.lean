import Mathlib

/-! # Words of a text

Splitting a text at runs of white space, and joining strings with a separator.  A space between
two texts separates their words (`words_append_space`), so the words of strings joined with a
space are the words of the strings in order (`words_intercalate`), and a text without white
space is one word (`words_eq_singleton`). -/

namespace RayTfm

/-- The white-space characters. -/
def isSpace (c : Char) : Bool :=
  let n := c.toNat
  (9 ≤ n ∧ n ≤ 13) ∨ (28 ≤ n ∧ n ≤ 32) ∨ n = 133 ∨ n = 160 ∨ n = 5760 ∨ (8192 ≤ n ∧ n ≤ 8202) ∨
    n = 8232 ∨ n = 8233 ∨ n = 8239 ∨ n = 8287 ∨ n = 12288

/-- The maximal runs without white space. -/
def words (s : String) : List String :=
  ((s.toList.splitOnP isSpace).filter (· ≠ [])).map String.ofList

theorem words_append_space (s t : String) : words (s ++ " " ++ t) = words s ++ words t := by
  have hsplit : (s ++ " " ++ t).toList.splitOnP isSpace =
      s.toList.splitOnP isSpace ++ t.toList.splitOnP isSpace := by
    rw [String.toList_append, String.toList_append, List.append_assoc]
    exact List.splitOnP_append_cons _ _ (by decide)
  unfold words
  rw [hsplit, List.filter_append, List.map_append]

theorem words_empty : words "" = [] := by decide

theorem words_intercalate (l : List String) :
    words (String.intercalate " " l) = l.flatMap words := by
  match l with
  | [] => rw [String.intercalate_nil, words_empty]; rfl
  | [s] => rw [String.intercalate_singleton, List.flatMap_cons, List.flatMap_nil, List.append_nil]
  | s :: t :: l =>
    rw [String.intercalate_cons_cons, words_append_space, words_intercalate (t :: l)]
    rfl

/-- The words of texts joined with a word between spaces. -/
theorem words_intercalate_sep {w : String} (hw : words w = [w]) (l : List String) :
    words (String.intercalate (" " ++ w ++ " ") l) = [w].intercalate (l.map words) := by
  match l with
  | [] => rw [String.intercalate_nil, words_empty]; rfl
  | [s] => rw [String.intercalate_singleton]; simp
  | s :: t :: l =>
    have hassoc : s ++ (" " ++ w ++ " ") ++ String.intercalate (" " ++ w ++ " ") (t :: l) =
        s ++ " " ++ (w ++ " " ++ String.intercalate (" " ++ w ++ " ") (t :: l)) := by
      simp only [String.append_assoc]
    rw [String.intercalate_cons_cons, hassoc, words_append_space, words_append_space, hw,
      words_intercalate_sep hw (t :: l)]
    simp only [List.map_cons, List.intercalate_cons_cons, List.append_assoc]

theorem map_intercalate {α β : Type} (f : α → β) (a : α) (l : List (List α)) :
    ([a].intercalate l).map f = [f a].intercalate (l.map (List.map f)) := by
  match l with
  | [] => rfl
  | [x] => simp
  | x :: y :: l =>
    rw [List.intercalate_cons_cons, List.map_append, List.map_append, map_intercalate f a (y :: l)]
    simp only [List.map_cons, List.map_nil, List.intercalate_cons_cons]

/-- A text without white space. -/
def NoSpace (s : String) : Prop := s.toList.all (fun c => !isSpace c) = true

instance : DecidablePred NoSpace := fun _ => inferInstanceAs (Decidable (_ = true))

variable {s : String}

theorem noSpace_iff : NoSpace s ↔ ∀ c ∈ s.toList, isSpace c = false := by
  simp [NoSpace]

theorem NoSpace.append {t : String} (hs : NoSpace s) (ht : NoSpace t) : NoSpace (s ++ t) := by
  rw [noSpace_iff] at *
  intro c hc
  rw [String.toList_append, List.mem_append] at hc
  exact hc.elim (hs c) (ht c)

theorem isSpace_of_isDigit {c : Char} (h : c.isDigit) : isSpace c = false := by
  have hbounds : 48 ≤ c.toNat ∧ c.toNat ≤ 57 := Char.isDigit_iff_toNat.mp h
  simp only [isSpace, decide_eq_false_iff_not]
  omega

theorem noSpace_of_digits {l : List Char} (h : ∀ c ∈ l, c.isDigit) :
    NoSpace (String.ofList l) := by
  rw [noSpace_iff]
  intro c hc
  rw [String.toList_ofList] at hc
  exact isSpace_of_isDigit (h c hc)

/-- A text that is one word. -/
def IsWord (s : String) : Prop := s ≠ "" ∧ NoSpace s

theorem words_eq_singleton (h : IsWord s) : words s = [s] := by
  have hne : s.toList ≠ [] := by simpa using h.1
  unfold words
  rw [List.splitOnP_eq_singleton (noSpace_iff.mp h.2)]
  simp [hne]

theorem words_intercalate_of_isWord {l : List String} (h : ∀ s ∈ l, IsWord s) :
    words (String.intercalate " " l) = l := by
  rw [words_intercalate]
  induction l with
  | nil => rfl
  | cons s l ih =>
    rw [List.flatMap_cons, words_eq_singleton (h s (by simp)), ih (fun t ht => h t (.tail _ ht))]
    rfl

end RayTfm
