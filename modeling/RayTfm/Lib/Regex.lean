import Mathlib

/-! # Patterns over characters

The constructs of a pattern language that `RegularExpression` does not have: character classes,
options, fixed texts and repetitions of bounded length.  Each is built from the constructors, so
that `rmatch` decides it, and has one lemma that says which words it matches. -/

namespace RayTfm.Regex

open RegularExpression

variable {A : Type}

/-- One of the letters. -/
def oneOf (letters : List A) : RegularExpression A := letters.foldr (fun a r => .plus (.char a) r) .zero

/-- The expression or nothing. -/
def opt (r : RegularExpression A) : RegularExpression A := .plus r .epsilon

/-- The word. -/
def text (word : List A) : RegularExpression A := word.foldr (fun a r => .comp (.char a) r) .epsilon

/-- The expression at most `n` times. -/
def upTo (n : ℕ) (r : RegularExpression A) : RegularExpression A :=
  match n with
  | 0 => .epsilon
  | n + 1 => opt (.comp r (upTo n r))

/-! ### The words that are matched -/

variable {r : RegularExpression A} {w : List A}
variable {s : RegularExpression A}

theorem mem_plus :
    w ∈ (RegularExpression.plus r s).matches' ↔ w ∈ r.matches' ∨ w ∈ s.matches' := Iff.rfl

theorem mem_comp :
    w ∈ (RegularExpression.comp r s).matches' ↔ ∃ u ∈ r.matches', ∃ v ∈ s.matches',
    u ++ v = w := Iff.rfl

theorem mem_char {a : A} : w ∈ (RegularExpression.char a).matches' ↔ w = [a] := Iff.rfl

theorem mem_epsilon : w ∈ (RegularExpression.epsilon : RegularExpression A).matches' ↔ w = [] := Iff.rfl

theorem mem_star :
    w ∈ (RegularExpression.star r).matches' ↔ ∃ parts : List (List A), w = parts.flatten ∧
    ∀ p ∈ parts, p ∈ r.matches' :=
  Language.mem_kstar

theorem mem_oneOf {letters : List A} : w ∈ (oneOf letters).matches' ↔ ∃ a ∈ letters, w = [a] := by
  induction letters with
  | nil =>
    constructor
    · exact fun h => h.elim
    · exact fun ⟨a, ha, _⟩ => (List.not_mem_nil ha).elim
  | cons a letters ih =>
    rw [oneOf, List.foldr_cons, mem_plus, mem_char]
    change w = [a] ∨ w ∈ (oneOf letters).matches' ↔ _
    rw [ih]
    simp

theorem mem_opt : w ∈ (opt r).matches' ↔ w ∈ r.matches' ∨ w = [] := Iff.rfl

theorem mem_text {word : List A} : w ∈ (text word).matches' ↔ w = word := by
  induction word generalizing w with
  | nil => exact Iff.rfl
  | cons a word ih =>
    rw [text, List.foldr_cons, mem_comp]
    constructor
    · rintro ⟨u, hu, v, hv, rfl⟩
      rw [mem_char.mp hu, ih.mp hv]
      rfl
    · rintro rfl
      exact ⟨[a], mem_char.mpr rfl, word, ih.mpr rfl, rfl⟩

theorem mem_upTo_oneOf {letters : List A} {n : ℕ} :
    w ∈ (upTo n (oneOf letters)).matches' ↔ w.length ≤ n ∧ ∀ a ∈ w, a ∈ letters := by
  induction n generalizing w with
  | zero =>
    rw [upTo, mem_epsilon, Nat.le_zero, List.length_eq_zero_iff]
    constructor
    · rintro rfl
      exact ⟨rfl, nofun⟩
    · exact And.left
  | succ n ih =>
    rw [upTo, mem_opt, mem_comp]
    constructor
    · rintro (⟨u, hu, v, hv, rfl⟩ | rfl)
      · obtain ⟨a, ha, rfl⟩ := mem_oneOf.mp hu
        obtain ⟨hlength, hletters⟩ := ih.mp hv
        refine ⟨Nat.succ_le_succ hlength, fun b hb => ?_⟩
        obtain rfl | hb := List.mem_cons.mp hb
        · exact ha
        · exact hletters b hb
      · exact ⟨Nat.zero_le _, nofun⟩
    · rintro ⟨hlength, hletters⟩
      cases w with
      | nil => exact .inr rfl
      | cons a w =>
        refine .inl ⟨[a], mem_oneOf.mpr ⟨a, hletters a (.head _), rfl⟩, w, ih.mpr ⟨?_, ?_⟩, rfl⟩
        · exact Nat.le_of_succ_le_succ hlength
        · exact fun b hb => hletters b (List.mem_cons_of_mem a hb)

end RayTfm.Regex
