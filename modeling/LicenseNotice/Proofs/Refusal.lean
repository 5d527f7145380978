import Mathlib.Data.List.Forall2

/-! # Success and refusal of list passes

A pass over a list either succeeds at every item or stops at the first item that is refused. These
are the laws of `mapM` and `foldlM` over `Except` that the traversals of a graph are built from.
-/

namespace LicenseNotice.Refusal

set_option autoImplicit false

variable {ε α β σ : Type}

theorem bind_eq_ok {x : Except ε α} {f : α → Except ε β} {b : β} :
    (x >>= f) = .ok b ↔ ∃ a, x = .ok a ∧ f a = .ok b := by
  cases x with
  | error e =>
    constructor
    · intro h
      cases h
    · rintro ⟨_, h, _⟩
      cases h
  | ok a =>
    constructor
    · exact fun h => ⟨a, rfl, h⟩
    · rintro ⟨_, ha, h⟩
      cases ha
      exact h

theorem bind_eq_error {x : Except ε α} {f : α → Except ε β} {e : ε} :
    (x >>= f) = .error e ↔ x = .error e ∨ ∃ a, x = .ok a ∧ f a = .error e := by
  cases x with
  | error e' =>
    constructor
    · intro h
      cases h
      exact .inl rfl
    · rintro (h | ⟨_, h, _⟩)
      · cases h
        rfl
      · cases h
  | ok a =>
    constructor
    · exact fun h => .inr ⟨a, rfl, h⟩
    · rintro (h | ⟨_, ha, h⟩)
      · cases h
      · cases ha
        exact h

theorem bind_pure_eq_ok {x : Except ε α} {f : α → β} {b : β} :
    (x >>= fun a => pure (f a)) = .ok b ↔ ∃ a, x = .ok a ∧ f a = b := by
  rw [bind_eq_ok]
  exact exists_congr fun a => and_congr_right fun _ => ⟨Except.ok.inj, congrArg Except.ok⟩

theorem bind_pure_eq_error {x : Except ε α} {f : α → β} {e : ε} :
    (x >>= fun a => pure (f a)) = .error e ↔ x = .error e := by
  rw [bind_eq_error]
  refine ⟨fun h => h.resolve_right ?_, .inl⟩
  rintro ⟨_, _, h⟩
  cases h

theorem guarded_eq_ok {c : Prop} [Decidable c] {e : ε} {f : α → Except ε β} {x : Except ε β} {b : β} :
    (if c then (throw e >>= f) else x) = .ok b ↔ ¬ c ∧ x = .ok b := by
  by_cases h : c
  · rw [if_pos h]
    exact ⟨nofun, fun hc => absurd h hc.1⟩
  · rw [if_neg h]
    exact (and_iff_right h).symm

theorem map_eq_ok {x : Except ε α} {f : α → β} {b : β} :
    x.map f = .ok b ↔ ∃ a, x = .ok a ∧ f a = b := by
  cases x <;> simp [Except.map]

theorem map_eq_error {x : Except ε α} {f : α → β} {e : ε} : x.map f = .error e ↔ x = .error e := by
  cases x <;> simp [Except.map]

theorem map_congr_ok {x : Except ε α} {f f' : α → β} (h : ∀ a, x = .ok a → f a = f' a) :
    x.map f = x.map f' := by
  cases x with
  | error e => rfl
  | ok a => exact congrArg Except.ok (h a rfl)

/-- Only what the first stage can give matters to the second. -/
theorem bind_congr_ok {x : Except ε α} {f f' : α → Except ε β} (h : ∀ a, x = .ok a → f a = f' a) :
    (x >>= f) = (x >>= f') := by
  cases x with
  | error e => rfl
  | ok a => exact h a rfl

theorem exists_ok_of_ne_error {x : Except ε α} (h : ∀ e, x ≠ .error e) : ∃ a, x = .ok a := by
  cases x with
  | error e => exact absurd rfl (h e)
  | ok a => exact ⟨a, rfl⟩

section mapM

variable {f g : α → Except ε β}

theorem mapM_eq_ok {items : List α} {out : List β} :
    items.mapM f = .ok out ↔ List.Forall₂ (fun a b => f a = .ok b) items out := by
  induction items generalizing out with
  | nil =>
    rw [List.mapM_nil, List.forall₂_nil_left_iff]
    exact ⟨fun h => (Except.ok.inj h).symm, fun h => congrArg Except.ok h.symm⟩
  | cons item rest ih =>
    rw [List.mapM_cons, bind_eq_ok]
    constructor
    · rintro ⟨b, hb, h⟩
      obtain ⟨bs, hbs, h⟩ := bind_eq_ok.mp h
      cases h
      exact .cons hb (ih.mp hbs)
    · rintro (_ | ⟨hb, hbs⟩)
      exact ⟨_, hb, bind_eq_ok.mpr ⟨_, ih.mpr hbs, rfl⟩⟩

theorem mem_of_mapM_eq_ok {items : List α} {out : List β} (h : items.mapM f = .ok out) (b : β) :
    b ∈ out ↔ ∃ a ∈ items, f a = .ok b := by
  induction mapM_eq_ok.mp h with
  | nil => simp
  | @cons a b' as bs hb _ ih =>
    have ih := ih (mapM_eq_ok.mpr ‹_›)
    simp only [List.mem_cons, exists_eq_or_imp, ih, hb, Except.ok.injEq]
    exact or_congr_left eq_comm

/-- The refusal of a pass is that of its first refused item. -/
theorem mapM_eq_error {items : List α} {e : ε} :
    items.mapM f = .error e ↔ ∃ before item after, items = before ++ item :: after ∧
      (∀ a ∈ before, ∃ b, f a = .ok b) ∧ f item = .error e := by
  induction items with
  | nil =>
    constructor
    · intro h
      cases h
    · rintro ⟨before, item, after, h, -⟩
      simp at h
  | cons first rest ih =>
    rw [List.mapM_cons, bind_eq_error]
    constructor
    · rintro (h | ⟨b, hb, h⟩)
      · exact ⟨[], first, rest, rfl, by simp, h⟩
      · rcases bind_eq_error.mp h with h | ⟨_, _, h⟩
        · obtain ⟨before, item, after, rfl, hbefore, hitem⟩ := ih.mp h
          exact ⟨first :: before, item, after, rfl, by simpa [hb] using hbefore, hitem⟩
        · cases h
    · rintro ⟨before, item, after, h, hbefore, hitem⟩
      cases before with
      | nil =>
        cases h
        exact .inl hitem
      | cons _ before =>
        cases h
        obtain ⟨b, hb⟩ := hbefore first List.mem_cons_self
        have hrest := ih.mpr ⟨before, item, after, rfl,
          fun a ha => hbefore a (List.mem_cons_of_mem _ ha), hitem⟩
        exact .inr ⟨b, hb, bind_eq_error.mpr (.inl hrest)⟩

theorem exists_mapM_eq_ok {items : List α} :
    (∃ out, items.mapM f = .ok out) ↔ ∀ a ∈ items, ∃ b, f a = .ok b := by
  constructor
  · rintro ⟨out, h⟩
    induction mapM_eq_ok.mp h with
    | nil => simp
    | cons hb hbs ih => exact List.forall_mem_cons.mpr ⟨⟨_, hb⟩, ih (mapM_eq_ok.mpr hbs)⟩
  · intro h
    apply exists_ok_of_ne_error
    intro e he
    obtain ⟨before, item, after, rfl, -, hitem⟩ := mapM_eq_error.mp he
    obtain ⟨b, hb⟩ := h item (by simp)
    rw [hitem] at hb
    cases hb

/-- What the results of a pass hold together, said item by item. -/
theorem mem_flatten_of_mapM_eq_ok {γ : Type} {f : α → Except ε (List γ)} {items : List α}
    {out : List (List γ)} {Q : α → γ → Prop} (h : items.mapM f = .ok out)
    (hQ : ∀ a ∈ items, ∀ found, f a = .ok found → ∀ c, c ∈ found ↔ Q a c) (c : γ) :
    c ∈ out.flatten ↔ ∃ a ∈ items, Q a c := by
  rw [List.mem_flatten]
  constructor
  · rintro ⟨found, hfound, hc⟩
    obtain ⟨a, ha, hstep⟩ := (mem_of_mapM_eq_ok h found).mp hfound
    exact ⟨a, ha, (hQ a ha found hstep c).mp hc⟩
  · rintro ⟨a, ha, hc⟩
    obtain ⟨found, hstep⟩ := exists_mapM_eq_ok.mp ⟨out, h⟩ a ha
    exact ⟨found, (mem_of_mapM_eq_ok h found).mpr ⟨a, ha, hstep⟩, (hQ a ha found hstep c).mpr hc⟩

theorem mapM_congr {items : List α} (h : ∀ a ∈ items, f a = g a) : items.mapM f = items.mapM g := by
  induction items with
  | nil => rfl
  | cons item rest ih =>
    obtain ⟨hitem, hrest⟩ := List.forall_mem_cons.mp h
    rw [List.mapM_cons, List.mapM_cons, hitem, ih hrest]

/-- A pass whose items give changed results gives the changed list, or stops where it stopped. -/
theorem mapM_map_result {γ : Type} {f' : α → Except ε γ} {change : β → γ} {items : List α}
    (h : ∀ a ∈ items, f' a = change <$> f a) : items.mapM f' = List.map change <$> items.mapM f := by
  induction items with
  | nil => rfl
  | cons item rest ih =>
    obtain ⟨hitem, hrest⟩ := List.forall_mem_cons.mp h
    simp only [List.mapM_cons, hitem, ih hrest, bind_map_left, map_bind, map_pure, List.map_cons]

end mapM

section foldlM

variable {f g : σ → α → Except ε σ}

/-- What each step establishes for its item and keeps for the items before it, holds for all items
at the end. `R` says how a step may change the state. -/
theorem foldlM_ok {R : σ → σ → Prop} {D : α → σ → Prop} (refl : ∀ s, R s s)
    (trans : ∀ {a b c}, R a b → R b c → R a c) (keep : ∀ {item a b}, R a b → D item a → D item b)
    {items : List α} (step : ∀ item ∈ items, ∀ a b, f a item = .ok b → R a b ∧ D item b)
    {first last : σ} (h : items.foldlM f first = .ok last) :
    R first last ∧ ∀ item ∈ items, D item last := by
  induction items generalizing first with
  | nil =>
    cases h
    exact ⟨refl _, by simp⟩
  | cons item rest ih =>
    obtain ⟨middle, hitem, hrest⟩ := bind_eq_ok.mp h
    obtain ⟨hstep, hdone⟩ := step item List.mem_cons_self first middle hitem
    obtain ⟨hlater, hall⟩ := ih (fun a ha => step a (List.mem_cons_of_mem _ ha)) hrest
    exact ⟨trans hstep hlater, List.forall_mem_cons.mpr ⟨keep hlater hdone, hall⟩⟩

theorem foldlM_error {items : List α} {first : σ} {e : ε} (h : items.foldlM f first = .error e) :
    ∃ before item after middle, items = before ++ item :: after ∧
      before.foldlM f first = .ok middle ∧ f middle item = .error e := by
  induction items generalizing first with
  | nil => cases h
  | cons item rest ih =>
    rcases bind_eq_error.mp h with h | ⟨next, hnext, h⟩
    · exact ⟨[], item, rest, first, rfl, rfl, h⟩
    · obtain ⟨before, last, after, middle, rfl, hbefore, hlast⟩ := ih h
      exact ⟨item :: before, last, after, middle, rfl, bind_eq_ok.mpr ⟨next, hnext, hbefore⟩, hlast⟩

/-- Two passes agree if their steps agree in the states that the first of them comes to. -/
theorem foldlM_congr_of_inv {I : σ → Prop} {items : List α}
    (keep : ∀ item ∈ items, ∀ s next, I s → f s item = .ok next → I next)
    (h : ∀ item ∈ items, ∀ s, I s → f s item = g s item) {first : σ} (hfirst : I first) :
    items.foldlM f first = items.foldlM g first := by
  induction items generalizing first with
  | nil => rfl
  | cons item rest ih =>
    obtain ⟨hitem, hrest⟩ := List.forall_mem_cons.mp h
    obtain ⟨hkeep, hkeeps⟩ := List.forall_mem_cons.mp keep
    rw [List.foldlM_cons, List.foldlM_cons, ← hitem first hfirst]
    exact bind_congr_ok fun next hnext => ih hkeeps hrest (hkeep first next hfirst hnext)

theorem foldlM_congr {items : List α} (h : ∀ item ∈ items, ∀ s, f s item = g s item) (first : σ) :
    items.foldlM f first = items.foldlM g first :=
  foldlM_congr_of_inv (I := fun _ => True) (fun _ _ _ _ _ _ => trivial)
    (fun item hitem s _ => h item hitem s) trivial

/-- A pass from a changed state ends in the changed state if each of its steps does. -/
theorem foldlM_map_state {τ : Type} {f' : τ → α → Except ε τ} {change : σ → τ} {items : List α}
    (h : ∀ item ∈ items, ∀ s, f' (change s) item = change <$> f s item) (first : σ) :
    items.foldlM f' (change first) = change <$> items.foldlM f first := by
  induction items generalizing first with
  | nil => rfl
  | cons item rest ih =>
    obtain ⟨hitem, hrest⟩ := List.forall_mem_cons.mp h
    simp only [List.foldlM_cons, hitem, bind_map_left, map_bind, ih hrest]

end foldlM

end LicenseNotice.Refusal
