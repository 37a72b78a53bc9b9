import Mathlib.Data.List.Forall2

/-!
# Fallible computations

Inversion rules for `Except`: a successful sequence is a successful first step
followed by a successful rest. Loops over lists are `List.mapM` and
`List.foldlM`; their rules turn a step fact into a fact about the whole loop.
-/
namespace UnionId.Lib

open List

universe u v
variable {ε : Type u} {α β σ : Type v} {x : Except ε α} {f : α → Except ε β} {b : β}

/-- A sequence succeeds exactly when both of its steps do. -/
@[simp] theorem bind_eq_ok : (x >>= f) = .ok b ↔ ∃ a, x = .ok a ∧ f a = .ok b := by
  cases x <;> simp [bind, Except.bind]

/-- What a successful sequence has done. -/
theorem of_bind (h : (x >>= f) = .ok b) : ∃ a, x = .ok a ∧ f a = .ok b := bind_eq_ok.mp h

theorem of_bind₂ {γ : Type v} {g : α → β → Except ε γ} {c : γ}
    (h : (x >>= fun a => f a >>= g a) = .ok c) :
    ∃ a, x = .ok a ∧ ∃ b, f a = .ok b ∧ g a b = .ok c := by
  obtain ⟨a, ha, h⟩ := of_bind h
  exact ⟨a, ha, of_bind h⟩

theorem of_bind_pure {k : α → β} (h : (x >>= fun a => pure (k a)) = .ok b) :
    ∃ a, x = .ok a ∧ k a = b := by
  obtain ⟨a, ha, h⟩ := of_bind h
  exact ⟨a, ha, Except.ok.inj h⟩

@[simp] theorem ok_bind (a : α) (f : α → Except ε β) :
    ((Except.ok a : Except ε α) >>= f) = f a := rfl

@[simp] theorem error_bind (e : ε) (f : α → Except ε β) :
    ((Except.error e : Except ε α) >>= f) = .error e := rfl

@[simp] theorem pure_eq_ok (a : α) : (pure a : Except ε α) = .ok a := rfl

@[simp] theorem map_eq_ok {f : α → β} : (f <$> x) = .ok b ↔ ∃ a, x = .ok a ∧ f a = b := by
  cases x <;> simp [Functor.map, Except.map]

@[simp] theorem throw_eq_error (e : ε) : (throw e : Except ε α) = .error e := rfl

/-- A run that is seen to succeed has a result. -/
theorem exists_of_toBool (h : x.toBool = true) : ∃ a, x = .ok a := by
  cases x with
  | ok a => exact ⟨a, rfl⟩
  | error e => cases h

section Guards
variable {p : Prop} [Decidable p] {e : ε} {b : α}

/-- Past a check that refuses. -/
theorem of_refused (h : (if p then .error e else x) = .ok b) : ¬ p ∧ x = .ok b := by
  split at h
  · cases h
  · exact ⟨‹_›, h⟩

/-- Past a check that is required. -/
theorem of_required (h : (if p then x else .error e) = .ok b) : p ∧ x = .ok b := by
  split at h
  · exact ⟨‹_›, h⟩
  · cases h

end Guards

variable {l : List α}

/-- A successful left fold preserves what its steps preserve. -/
theorem foldlM_induction {f : σ → α → Except ε σ} {P : σ → Prop}
    (step : ∀ s a s', a ∈ l → P s → f s a = .ok s' → P s')
    {s s' : σ} (h : l.foldlM f s = .ok s') (h0 : P s) : P s' := by
  induction l generalizing s with
  | nil =>
    obtain rfl : s = s' := by simpa using h
    exact h0
  | cons a l ih =>
    obtain ⟨t, ht, hl⟩ := bind_eq_ok.mp (by simpa [foldlM_cons] using h)
    exact ih (fun s a s' ha => step s a s' (mem_cons_of_mem _ ha)) hl
      (step s a t (mem_cons_self ..) h0 ht)

/-- The same, with what has been read so far. -/
theorem foldlM_seen {f : σ → α → Except ε σ} {P : List α → σ → Prop}
    (step : ∀ seen s a s', P seen s → f s a = .ok s' → P (seen ++ [a]) s')
    {s s' : σ} {seen : List α} (h : l.foldlM f s = .ok s') (h0 : P seen s) : P (seen ++ l) s' := by
  induction l generalizing s seen with
  | nil =>
    obtain rfl : s = s' := by simpa using h
    simpa using h0
  | cons a l ih =>
    obtain ⟨t, ht, hl⟩ := bind_eq_ok.mp (by simpa [foldlM_cons] using h)
    simpa using ih hl (step seen s a t h0 ht)

/-- A successful `mapM` relates its input and output element by element. -/
theorem mapM_eq_ok_iff {r : List β} :
    l.mapM f = .ok r ↔ Forall₂ (fun a b => f a = .ok b) l r := by
  induction l generalizing r with
  | nil => simp [forall₂_nil_left_iff, eq_comm]
  | cons a l ih =>
    simp only [mapM_cons, bind_eq_ok, pure_eq_ok, Except.ok.injEq, ih]
    constructor
    · rintro ⟨b, hb, bs, hbs, rfl⟩
      exact .cons hb hbs
    · intro h
      cases h with
      | cons hb hbs => exact ⟨_, hb, _, hbs, rfl⟩

theorem exists_right_of_forall₂ {R : α → β → Prop} {r : List β} (h : Forall₂ R l r) {a : α}
    (ha : a ∈ l) : ∃ b ∈ r, R a b := by
  induction h with
  | nil => cases ha
  | cons hab _ ih =>
    obtain rfl | ha := mem_cons.mp ha
    · exact ⟨_, mem_cons_self, hab⟩
    · obtain ⟨b, hb, h⟩ := ih ha
      exact ⟨b, mem_cons_of_mem _ hb, h⟩

theorem forM_eq_ok_iff {f : α → Except ε PUnit.{v + 1}} :
    l.forM f = .ok ⟨⟩ ↔ ∀ a ∈ l, f a = .ok ⟨⟩ := by
  induction l with
  | nil => simp
  | cons a l ih =>
    rw [forall_mem_cons, ← ih]
    change (f a >>= fun _ => l.forM f) = _ ↔ _
    rw [bind_eq_ok]
    exact ⟨fun ⟨⟨⟩, ha, hl⟩ => ⟨ha, hl⟩, fun ⟨ha, hl⟩ => ⟨⟨⟩, ha, hl⟩⟩

theorem mapM_eq_some_iff {α β : Type} {f : α → Option β} {l : List α} {out : List β} :
    l.mapM f = some out ↔ Forall₂ (fun a b => f a = some b) l out := by
  induction l generalizing out with
  | nil => simp [eq_comm]
  | cons a l ih =>
    simp only [mapM_cons, Option.pure_def, Option.bind_eq_bind, Option.bind_eq_some_iff,
      Option.some.injEq, forall₂_cons_left_iff, ih]
    constructor
    · rintro ⟨b, hb, rest, hrest, rfl⟩
      exact ⟨b, rest, hb, hrest, rfl⟩
    · rintro ⟨b, rest, hb, hrest, rfl⟩
      exact ⟨b, hb, rest, hrest, rfl⟩

end UnionId.Lib
