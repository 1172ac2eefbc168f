import Mathlib

/-! # Exceptions

The modelled Python code signals failure by raising; a function that can raise returns in
`Except PyError`.  A constructor carries the message where the source gives one. -/

namespace RayTfm

/-- The exceptions raised by the modelled code. -/
inductive PyError where
  | assertionError
  | attributeError
  | fileExistsError (msg : String)
  | fileNotFoundError (msg : String)
  | indexError
  | isADirectoryError (msg : String)
  | keyError
  | notImplementedError
  | runtimeError (msg : String)
  | stopIteration
  | typeError
  | valueError (msg : String)
  | zeroDivisionError
deriving DecidableEq, Repr

/-- A Python `assert`. -/
def pyAssert (b : Bool) : Except PyError Unit := if b then .ok () else .error .assertionError

@[simp] theorem pyAssert_true : pyAssert true = .ok () := rfl

theorem pyAssert_eq_ok {b : Bool} {u : Unit} : pyAssert b = .ok u ↔ b = true := by
  cases b
  · exact ⟨nofun, nofun⟩
  · exact ⟨fun _ => rfl, fun _ => rfl⟩

/-- A loop whose body can raise: the state at the first exception, or at the end. -/
def runAll {ε σ β : Type} (body : σ → β → Except ε σ) : List β → σ → σ × Option ε
  | [], st => (st, none)
  | b :: l, st =>
    match body st b with
    | .ok st' => runAll body l st'
    | .error e => (st, some e)

variable {ε β : Type}

/-- What a loop keeps: the tasks done so far, and where it stopped. -/
theorem runAll_spec {σ : Type} {body : σ → β → Except ε σ} {P : List β → σ → Prop}
    (hstep : ∀ done st b st', P done st → body st b = .ok st' → P (done ++ [b]) st') {l : List β}
    {st : σ} (h0 : P [] st) :
    ((runAll body l st).2 = none ∧ P l (runAll body l st).1) ∨
      ∃ done b rest e, l = done ++ b :: rest ∧ (runAll body l st).2 = some e ∧
        P done (runAll body l st).1 ∧ body (runAll body l st).1 b = .error e := by
  have hloop : ∀ (l done : List β) (st : σ), P done st →
      ((runAll body l st).2 = none ∧ P (done ++ l) (runAll body l st).1) ∨
        ∃ done' b rest e, done ++ l = done' ++ b :: rest ∧ (runAll body l st).2 = some e ∧
          P done' (runAll body l st).1 ∧ body (runAll body l st).1 b = .error e := by
    intro l
    induction l with
    | nil =>
      intro done st hst
      rw [List.append_nil]
      exact .inl ⟨rfl, hst⟩
    | cons b l ih =>
      intro done st hst
      cases hb : body st b with
      | ok st' =>
        have h := ih (done ++ [b]) st' (hstep done st b st' hst hb)
        rw [List.append_assoc, List.singleton_append] at h
        rwa [runAll, hb]
      | error e =>
        rw [runAll, hb]
        exact .inr ⟨done, b, l, e, rfl, rfl, hst, hb⟩
  exact hloop l [] st h0

variable {α : Type} {x : Except ε α} {f : α → Except ε β}

theorem bind_eq_ok {b : β} :
    x >>= f = .ok b ↔ ∃ a, x = .ok a ∧ f a = .ok b := by
  cases x with
  | error e => exact ⟨nofun, nofun⟩
  | ok a =>
    refine ⟨fun h => ⟨a, rfl, h⟩, ?_⟩
    rintro ⟨_, h, hf⟩
    cases h
    exact hf

theorem bind_eq_error {e : ε} :
    x >>= f = .error e ↔ x = .error e ∨ ∃ a, x = .ok a ∧ f a = .error e := by
  cases x with
  | error e' =>
    constructor
    · intro h
      cases h
      exact .inl rfl
    · rintro (h | ⟨_, h, -⟩)
      · cases h
        rfl
      · cases h
  | ok a =>
    refine ⟨fun h => .inr ⟨a, rfl, h⟩, ?_⟩
    rintro (h | ⟨_, h, hf⟩)
    · cases h
    · cases h
      exact hf

theorem toOption_congr {y : Except ε α} (h : ∀ a, x = .ok a ↔ y = .ok a) :
    x.toOption = y.toOption := by
  cases x with
  | ok a => rw [(h a).mp rfl]
  | error e =>
    cases y with
    | ok a => cases (h a).mpr rfl
    | error e' => rfl

theorem toOption_eq_none (h : ∀ a, x ≠ .ok a) : x.toOption = none := by
  cases x with
  | ok a => exact absurd rfl (h a)
  | error e => rfl

@[simp] theorem ok_bind (a : α) (f : α → Except ε β) :
    (Except.ok a >>= f) = f a := rfl

/-- A loop with a state: from an invariant no round fails and every round keeps it. -/
theorem foldlM_ok {σ : Type} {f : σ → β → Except ε σ} {P : List β → σ → Prop} {l : List β} {s : σ}
    (h0 : P [] s) (hstep : ∀ done b s, b ∈ l → P done s → ∃ s', f s b = .ok s' ∧ P (done ++ [b]) s') :
    ∃ s', l.foldlM f s = .ok s' ∧ P l s' := by
  have hloop : ∀ (rest done : List β) (s : σ), (∀ b ∈ rest, b ∈ l) → P done s →
      ∃ s', rest.foldlM f s = .ok s' ∧ P (done ++ rest) s' := by
    intro rest
    induction rest with
    | nil =>
      intro done s _ hP
      exact ⟨s, rfl, by rwa [List.append_nil]⟩
    | cons b rest ih =>
      intro done s hmem hP
      obtain ⟨s', hs, hP'⟩ := hstep done b s (hmem b (.head _)) hP
      obtain ⟨s'', hrun, hP''⟩ := ih (done ++ [b]) s' (fun x hx => hmem x (.tail _ hx)) hP'
      rw [List.append_assoc, List.singleton_append] at hP''
      refine ⟨s'', ?_, hP''⟩
      rw [List.foldlM_cons, hs, ok_bind, hrun]
  exact hloop l [] s (fun _ h => h) h0

variable {l : List α}

theorem mapM_eq_ok {g : α → β} (h : ∀ a ∈ l, f a = .ok (g a)) : l.mapM f = .ok (l.map g) := by
  induction l with
  | nil => rfl
  | cons a l ih =>
    rw [List.mapM_cons, h a (by simp), ok_bind, ih (fun b hb => h b (.tail _ hb))]
    rfl

variable {l' : List β}

theorem eq_map_of_mapM_eq_ok {g : α → β}
    (hf : ∀ a b, f a = .ok b → g a = b) (h : l.mapM f = .ok l') : l' = l.map g := by
  induction l generalizing l' with
  | nil =>
    cases h
    rfl
  | cons a l ih =>
    rw [List.mapM_cons, bind_eq_ok] at h
    obtain ⟨b, hb, h⟩ := h
    obtain ⟨l'', hl, h⟩ := bind_eq_ok.mp h
    cases h
    rw [List.map_cons, hf a b hb, ih hl]

/-- A loop over a list succeeds if and only if each round does, with the results in order. -/
theorem mapM_eq_ok_iff :
    l.mapM f = .ok l' ↔ List.Forall₂ (fun a b => f a = .ok b) l l' := by
  induction l generalizing l' with
  | nil =>
    rw [List.mapM_nil, List.forall₂_nil_left_iff]
    exact ⟨fun h => (Except.ok.inj h).symm, fun h => h ▸ rfl⟩
  | cons a l ih =>
    rw [List.mapM_cons, bind_eq_ok, List.forall₂_cons_left_iff]
    constructor
    · rintro ⟨b, hb, h⟩
      obtain ⟨bs, hbs, h⟩ := bind_eq_ok.mp h
      exact ⟨b, bs, hb, ih.mp hbs, (Except.ok.inj h).symm⟩
    · rintro ⟨b, bs, hb, hbs, rfl⟩
      exact ⟨b, hb, bind_eq_ok.mpr ⟨bs, ih.mpr hbs, rfl⟩⟩

theorem exists_of_mem_mapM (h : l.mapM f = .ok l') :
    ∀ b ∈ l', ∃ a ∈ l, f a = .ok b := by
  rw [mapM_eq_ok_iff] at h
  induction h with
  | nil => exact nofun
  | cons hab _ ih =>
    intro b hb
    obtain rfl | hb := List.mem_cons.mp hb
    · exact ⟨_, .head _, hab⟩
    · obtain ⟨a, ha, hab⟩ := ih b hb
      exact ⟨a, .tail _ ha, hab⟩

theorem mapM_map_of_leftInverse {f : α → β} {g : β → Option α}
    (h : ∀ a ∈ l, g (f a) = some a) : (l.map f).mapM g = some l := by
  induction l with
  | nil => rfl
  | cons a l ih =>
    rw [List.map_cons, List.mapM_cons, h a List.mem_cons_self, ih (fun b hb => h b (.tail _ hb))]
    rfl

theorem mapM_congr {g : α → Except ε β} (h : ∀ a ∈ l, f a = g a) :
    l.mapM f = l.mapM g := by
  induction l with
  | nil => rfl
  | cons a l ih =>
    rw [List.mapM_cons, List.mapM_cons, h a List.mem_cons_self, ih (fun b hb => h b (.tail _ hb))]

theorem exists_mapM_eq_ok (h : ∀ a ∈ l, ∃ b, f a = .ok b) :
    ∃ l', l.mapM f = .ok l' := by
  induction l with
  | nil => exact ⟨[], rfl⟩
  | cons a l ih =>
    rw [List.forall_mem_cons] at h
    obtain ⟨b, hb⟩ := h.1
    obtain ⟨l', hl⟩ := ih h.2
    exact ⟨b :: l', by rw [List.mapM_cons, hb, ok_bind, hl]; rfl⟩

theorem exists_of_mapM_eq_ok (h : l.mapM f = .ok l') : ∀ a ∈ l, ∃ b, f a = .ok b := by
  induction l generalizing l' with
  | nil => simp
  | cons a l ih =>
    rw [List.mapM_cons, bind_eq_ok] at h
    obtain ⟨b, hb, h⟩ := h
    obtain ⟨l'', hl, -⟩ := bind_eq_ok.mp h
    intro x hx
    obtain rfl | hx := List.mem_cons.mp hx
    · exact ⟨b, hb⟩
    · exact ih hl x hx

/-- The answer of a test that can raise. -/
def accepts {ε α : Type} (f : α → Except ε Bool) (a : α) : Bool := (f a).toOption.getD false

variable {f : α → Except ε Bool}

theorem accepts_of_eq_ok {a : α} {b : Bool} (h : f a = .ok b) :
    accepts f a = b := by
  rw [accepts, h]
  rfl

theorem mask_eq_ok_iff {out : List α} :
    (do let mask ← l.mapM f; return ((l.zip mask).filter Prod.snd).map Prod.fst) =
      (.ok out : Except ε (List α)) ↔
      (∀ a ∈ l, ∃ b, f a = .ok b) ∧ out = l.filter (accepts f) := by
  have hzip : ((l.zip (l.map (accepts f))).filter Prod.snd).map Prod.fst = l.filter (accepts f) := by
    induction l with
    | nil => rfl
    | cons a l ih =>
      rw [List.map_cons, List.zip_cons_cons, List.filter_cons, List.filter_cons]
      cases accepts f a with
      | false => exact ih
      | true =>
        show a :: _ = a :: _
        rw [ih]
  rw [bind_eq_ok]
  constructor
  · rintro ⟨mask, hmask, hout⟩
    obtain rfl := eq_map_of_mapM_eq_ok (g := accepts f) (fun a b hb => accepts_of_eq_ok hb) hmask
    exact ⟨exists_of_mapM_eq_ok hmask, hzip ▸ (Except.ok.inj hout).symm⟩
  · rintro ⟨hall, rfl⟩
    refine ⟨l.map (accepts f), mapM_eq_ok (fun a ha => ?_), by rw [hzip]; rfl⟩
    obtain ⟨b, hb⟩ := hall a ha
    rw [hb, accepts_of_eq_ok hb]

end RayTfm
