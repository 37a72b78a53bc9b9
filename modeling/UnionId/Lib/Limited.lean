import UnionId.Lib.Fallible

/-!
# Computations under limits

A computation under limits returns what it returns without them, unless a limit
stops it. `Returns limit x P` is the postcondition of such a computation: it
returns a value with `P`, or it fails with an error of the class `limit`. The
rules follow the computation, so a proof never mentions the point where a limit
could strike.

A metered computation draws units from a budget. What it returns does not depend
on the budget: it only has to be large enough.

## Main definitions

* `Returns limit x P` — `x` returns a value with `P` unless a limit stops it.
* `Answers limit m b P` — the same under a budget.
* `Curtails limit x y` — `x` does what `y` does unless a limit stops it.
* `Metered e m` — `m` has a fixed outcome and a fixed cost, and fails with `e` when
  the cost exceeds the budget.
* `outcome m` — what `m` returns under a sufficient budget.
* `Within limit N m P` — with `N` units of fuel and budget, no limit stops `m`.
-/
namespace UnionId.Lib

variable {ε α β : Type}

/-- A value with `P` is returned, or a limit stops the computation. -/
def Returns (limit : ε → Prop) (x : Except ε α) (P : α → Prop) : Prop :=
  (∃ a, x = .ok a ∧ P a) ∨ ∃ e, x = .error e ∧ limit e

namespace Returns

variable {limit : ε → Prop} {x : Except ε α} {f : α → Except ε β} {P Q : α → Prop} {R : β → Prop}

theorem ok {a : α} (h : P a) : Returns limit (.ok a) P := .inl ⟨a, rfl, h⟩

theorem error {e : ε} (h : limit e) : Returns limit (.error e : Except ε α) P := .inr ⟨e, rfl, h⟩

theorem mono (h : Returns limit x P) (hPQ : ∀ a, P a → Q a) : Returns limit x Q :=
  h.imp (fun ⟨a, ha, hP⟩ => ⟨a, ha, hPQ a hP⟩) id

theorem outcome (h : Returns limit x P) : Returns limit x fun a => x = .ok a ∧ P a :=
  h.imp (fun ⟨a, ha, hP⟩ => ⟨a, ha, ha, hP⟩) id

theorem relax {limit' : ε → Prop} (h : Returns limit x P) (hlimit : ∀ e, limit e → limit' e) :
    Returns limit' x P :=
  h.imp id fun ⟨e, he, hstop⟩ => ⟨e, he, hlimit e hstop⟩

/-- The rule of sequencing. -/
theorem bind (h : Returns limit x P) (hf : ∀ a, P a → Returns limit (f a) R) :
    Returns limit (x >>= f) R := by
  obtain ⟨a, rfl, ha⟩ | ⟨e, rfl, he⟩ := h
  · exact hf a ha
  · exact error he

/-- A check that fails only for a limit. -/
theorem guard {p : Prop} [Decidable p] {e : ε} (he : limit e) (h : ¬p → Returns limit x P) :
    Returns limit (if p then .error e else x) P := by
  split
  · exact error he
  · exact h ‹_›

theorem eq_of_ok {a b : α} (h : Returns limit x (· = a)) (hb : x = .ok b) : b = a := by
  obtain ⟨_, hx, rfl⟩ | ⟨e, hx, -⟩ := h
  · exact Except.ok.inj (hb.symm.trans hx)
  · cases hb.symm.trans hx

/-- Without limits there is a result. -/
theorem exists_ok (h : Returns (fun _ : ε => False) x P) : ∃ a, x = .ok a ∧ P a :=
  h.resolve_right fun ⟨_, _, hfalse⟩ => hfalse

theorem of_ok {a : α} (h : x = .ok a) (ha : P a) : Returns limit x P := .inl ⟨a, h, ha⟩

end Returns

/-- One computation has the outcome of another, unless a limit stops it. -/
def Curtails (limit : ε → Prop) (x y : Except ε α) : Prop :=
  x = y ∨ ∃ e, x = .error e ∧ limit e

namespace Curtails

variable {limit : ε → Prop} {x y : Except ε α} {f g : α → Except ε β}

theorem refl (x : Except ε α) : Curtails limit x x := .inl rfl

theorem error {e : ε} (h : limit e) : Curtails limit (.error e) y := .inr ⟨e, rfl, h⟩

theorem bind (h : Curtails limit x y) (hf : ∀ a, Curtails limit (f a) (g a)) :
    Curtails limit (x >>= f) (y >>= g) := by
  obtain rfl | ⟨e, rfl, he⟩ := h
  · cases x with
    | error e => exact refl _
    | ok a => exact hf a
  · exact error he

theorem returns {P : α → Prop} {a : α} (h : Curtails limit x y) (hy : y = .ok a) (ha : P a) :
    Returns limit x P := by
  obtain rfl | h := h
  · exact .of_ok hy ha
  · exact .inr h

end Curtails

/-! ## Budgets -/

/-- Fixed outcome, fixed cost. -/
def Metered (e : ε) (m : StateT ℕ (Except ε) α) : Prop :=
  ∃ (cost : ℕ) (outcome : Except ε α), ∀ budget,
    m budget = if cost ≤ budget then outcome.map fun a => (a, budget - cost) else .error e

/-- Draw one unit; `e` reports an exhausted budget. -/
def drawUnit (e : ε) : StateT ℕ (Except ε) Unit := fun budget =>
  if budget = 0 then .error e else .ok ((), budget - 1)

namespace Metered

variable {e : ε} {m : StateT ℕ (Except ε) α} {f : α → StateT ℕ (Except ε) β}

theorem pure (e : ε) (a : α) : Metered e (Pure.pure a) :=
  ⟨0, .ok a, fun _ => by simp [Except.map]; rfl⟩

/-- A computation that draws nothing. -/
theorem lift (e : ε) (x : Except ε α) : Metered e (monadLift x : StateT ℕ (Except ε) α) := by
  refine ⟨0, x, fun budget => ?_⟩
  cases x <;> rfl

theorem throw (e err : ε) : Metered e (MonadExcept.throw err : StateT ℕ (Except ε) α) :=
  ⟨0, .error err, fun _ => rfl⟩

theorem drawUnit (e : ε) : Metered e (drawUnit e) := by
  refine ⟨1, .ok (), fun budget => ?_⟩
  unfold Lib.drawUnit
  by_cases h : budget = 0
  · simp [h]
  · rw [if_neg h, if_pos (by omega)]
    rfl

/-- Costs add up. -/
theorem bind (hm : Metered e m) (hf : ∀ a, Metered e (f a)) : Metered e (m >>= f) := by
  obtain ⟨cost, outcome, hm⟩ := hm
  have hrun : ∀ budget, (m >>= f) budget = (m budget >>= fun r => f r.1 r.2) := fun _ => rfl
  cases outcome with
  | error err =>
    refine ⟨cost, .error err, fun budget => ?_⟩
    rw [hrun, hm]
    split <;> rfl
  | ok a =>
    obtain ⟨cost', outcome', hf⟩ := hf a
    refine ⟨cost + cost', outcome', fun budget => ?_⟩
    rw [hrun, hm]
    by_cases h : cost ≤ budget
    · rw [if_pos h]
      simp only [Except.map, ok_bind, hf]
      by_cases h' : cost' ≤ budget - cost
      · rw [if_pos h', if_pos (by omega), Nat.sub_add_eq]
      · rw [if_neg h', if_neg (by omega)]
    · rw [if_neg h, if_neg (by omega)]
      rfl

theorem ite {p : Prop} [Decidable p] {m' : StateT ℕ (Except ε) α} (hm : Metered e m)
    (hm' : Metered e m') : Metered e (if p then m else m') := by
  split
  · exact hm
  · exact hm'

/-- **One budget shows the outcome under every budget.** -/
theorem returns {limit : ε → Prop} (hm : Metered e m) (he : limit e) {a : α} {b b' : ℕ}
    (h : m b = .ok (a, b')) (budget : ℕ) : Returns limit (m budget) fun r => r.1 = a := by
  obtain ⟨cost, outcome, hm⟩ := hm
  rw [hm] at h
  split at h
  · cases outcome with
    | error err => cases h
    | ok a' =>
      cases h
      rw [hm]
      split
      · exact .ok rfl
      · exact .error he
  · cases h

theorem unique (hm : Metered e m) {a a' : α} {b b' c c' : ℕ} (h : m b = .ok (a, b'))
    (h' : m c = .ok (a', c')) : a = a' := by
  obtain ⟨cost, outcome, hm⟩ := hm
  rw [hm] at h h'
  split at h <;> split at h' <;> cases outcome <;> cases h <;> cases h'
  rfl

end Metered

section
variable {m : StateT ℕ (Except ε) α} {f : α → StateT ℕ (Except ε) β} {limit : ε → Prop}
  {b c : ℕ}

theorem run_pure (a : α) : (pure a : StateT ℕ (Except ε) α) b = .ok (a, b) := rfl

theorem run_bind : (m >>= f) b = (m b >>= fun r => f r.1 r.2) := rfl

variable {x : Except ε α}

theorem run_lift_bind : ((liftM x : StateT ℕ (Except ε) α) >>= f) b = (x >>= fun a => f a b) := by
  cases x <;> rfl

theorem run_bind_eq_ok {r : β} :
    (m >>= f) b = .ok (r, c) ↔ ∃ a d, m b = .ok (a, d) ∧ f a d = .ok (r, c) := by
  have hrun : (m >>= f) b = (m b >>= fun p => f p.1 p.2) := rfl
  rw [hrun, bind_eq_ok]
  simp

theorem run_pure_eq_ok {a r : α} :
    (Pure.pure a : StateT ℕ (Except ε) α) b = .ok (r, c) ↔ a = r ∧ b = c := by
  have hrun : (Pure.pure a : StateT ℕ (Except ε) α) b = .ok (a, b) := rfl
  rw [hrun]
  simp

theorem run_lift_eq_ok {r : α} :
    (monadLift x : StateT ℕ (Except ε) α) b = .ok (r, c) ↔ x = .ok r ∧ b = c := by
  cases x with
  | error e =>
    have hrun : (monadLift (.error e : Except ε α) : StateT ℕ (Except ε) α) b = .error e := rfl
    rw [hrun]
    simp
  | ok a =>
    have hrun : (monadLift (.ok a : Except ε α) : StateT ℕ (Except ε) α) b = .ok (a, b) := rfl
    rw [hrun]
    simp

theorem run_map {g : α → β} {a : α} (h : m b = .ok (a, c)) : (g <$> m) b = .ok (g a, c) := by
  have hrun : (g <$> m) b = (m b >>= fun r => .ok (g r.1, r.2)) := rfl
  rw [hrun, h, ok_bind]

/-- `Returns`, for what is returned beside the budget. -/
def Answers (limit : ε → Prop) (m : StateT ℕ (Except ε) α) (b : ℕ) (P : α → Prop) : Prop :=
  Returns limit (m b) fun r => P r.1

namespace Answers

variable {P : α → Prop} {R : β → Prop}

theorem pure {a : α} (h : P a) : Answers limit (Pure.pure a) b P := Returns.ok h

/-- The rule of sequencing under a budget. -/
theorem bind (hm : Answers limit m b P) (hf : ∀ a d, P a → Answers limit (f a) d R) :
    Answers limit (m >>= f) b R :=
  Returns.bind hm fun r hr => hf r.1 r.2 hr

theorem lift (h : Returns limit x P) : Answers limit (liftM x : StateT ℕ (Except ε) α) b P := by
  obtain ⟨a, rfl, ha⟩ | ⟨e, rfl, he⟩ := h
  · exact Returns.ok ha
  · exact Returns.error he

theorem of_map {g : α → β} (h : Answers limit (g <$> m) b R) :
    Answers limit m b fun a => R (g a) := by
  have hrun : (g <$> m) b = (m b >>= fun r => .ok (g r.1, r.2)) := rfl
  unfold Answers at h ⊢
  rw [hrun] at h
  cases hm : m b with
  | ok r =>
    rw [hm] at h
    obtain ⟨_, hr, hR⟩ | ⟨_, hr, -⟩ := h <;> cases hr
    exact .ok hR
  | error e =>
    rw [hm] at h
    obtain ⟨_, hr, -⟩ | ⟨_, hr, he⟩ := h <;> cases hr
    exact .error he

end Answers

end

/-! ## Enough fuel and budget -/

/-- With fuel and budget of at least `N`, the computation draws at most `N` units and returns
a value with `P`, or it fails otherwise than for a limit. -/
def Within (limit : ε → Prop) (N : ℕ) (m : ℕ → StateT ℕ (Except ε) α) (P : α → Prop) : Prop :=
  ∀ n b, N ≤ n → N ≤ b →
    (∃ a b', m n b = .ok (a, b') ∧ b ≤ b' + N ∧ P a) ∨ ∃ e, m n b = .error e ∧ ¬limit e

namespace Within

variable {limit : ε → Prop} {N M : ℕ} {m : ℕ → StateT ℕ (Except ε) α}
  {f : ℕ → α → StateT ℕ (Except ε) β} {P : α → Prop} {R : β → Prop}

theorem mono (h : Within limit N m P) (hNM : N ≤ M) : Within limit M m P := by
  intro n b hn hb
  obtain ⟨a, b', hrun, hle, ha⟩ | herr := h n b (by omega) (by omega)
  · exact .inl ⟨a, b', hrun, by omega, ha⟩
  · exact .inr herr

theorem pure {a : α} (h : P a) :
    Within limit 0 (fun _ => (Pure.pure a : StateT ℕ (Except ε) α)) P :=
  fun _ b _ _ => .inl ⟨a, b, rfl, Nat.le_refl b, h⟩

theorem throw {e : ε} (h : ¬limit e) :
    Within limit N (fun _ => (MonadExcept.throw e : StateT ℕ (Except ε) α)) P :=
  fun _ _ _ _ => .inr ⟨e, rfl, h⟩

/-- Bounds add up. -/
theorem bind (hm : Within limit N m P) (hf : ∀ a, P a → Within limit M (fun n => f n a) R) :
    Within limit (N + M) (fun n => m n >>= f n) R := by
  intro n b hn hb
  beta_reduce
  rw [run_bind]
  obtain ⟨a, b', hfirst, hle, ha⟩ | ⟨e, hfirst, he⟩ := hm n b (by omega) (by omega)
  · rw [hfirst, ok_bind]
    obtain ⟨r, b'', hsecond, hle', hr⟩ | herr := hf a ha n b' (by omega) (by omega)
    · exact .inl ⟨r, b'', hsecond, by omega, hr⟩
    · exact .inr herr
  · rw [hfirst, error_bind]
    exact .inr ⟨e, rfl, he⟩

/-- A computation that draws nothing. -/
theorem lift_bind {x : Except ε α} {a : α} (hx : x = .ok a)
    (hf : Within limit M (fun n => f n a) R) :
    Within limit M (fun n => (liftM x : StateT ℕ (Except ε) α) >>= f n) R := by
  intro n b hn hb
  beta_reduce
  rw [run_lift_bind, hx]
  exact hf n b hn hb

theorem lift_error {x : Except ε α} {e : ε} (hx : x = .error e) (he : ¬limit e) :
    Within limit N (fun n => (liftM x : StateT ℕ (Except ε) α) >>= f n) R := by
  intro n b _ _
  beta_reduce
  rw [run_lift_bind, hx]
  exact .inr ⟨e, rfl, he⟩

/-- What is returned does not matter for the cost. -/
theorem of_map {g : α → β} {k : ℕ → StateT ℕ (Except ε) β} (h : Within limit N k R)
    (hk : ∀ n, k n = g <$> m n) : Within limit N m fun a => R (g a) := by
  intro n b hn hb
  have hrun : k n b = (m n b >>= fun r => .ok (g r.1, r.2)) := by rw [hk]; rfl
  specialize h n b hn hb
  rw [hrun] at h
  cases hm : m n b with
  | ok r =>
    rw [hm] at h
    obtain ⟨_, _, hr, hle, hR⟩ | ⟨_, hr, -⟩ := h <;> cases hr
    exact .inl ⟨r.1, r.2, rfl, hle, hR⟩
  | error e =>
    rw [hm] at h
    obtain ⟨_, _, hr, -⟩ | ⟨_, hr, he⟩ := h <;> cases hr
    exact .inr ⟨e, rfl, he⟩

/-- One unit is drawn, and one unit of fuel is used. -/
theorem draw {e : ε} {body : ℕ → StateT ℕ (Except ε) α}
    (hm : ∀ n, m (n + 1) = (drawUnit e >>= fun _ => body n)) (h : Within limit N body P) :
    Within limit (N + 1) m P := by
  intro n b hn hb
  obtain ⟨n, rfl⟩ : ∃ k, n = k + 1 := ⟨n - 1, by omega⟩
  have hdraw : drawUnit e b = .ok ((), b - 1) := if_neg (by omega)
  rw [hm, run_bind, hdraw, ok_bind]
  obtain ⟨a, b', hrun, hle, ha⟩ | herr := h n (b - 1) (by omega) (by omega)
  · exact .inl ⟨a, b', hrun, by omega, ha⟩
  · exact .inr herr

/-- What the computation returns is known already. -/
theorem returning {Q : α → Prop} (h : Within limit N m P)
    (hm : ∀ n b, Answers limit (m n) b Q) : Within limit N m Q := by
  intro n b hn hb
  obtain ⟨a, b', hrun, hle, -⟩ | herr := h n b hn hb
  · obtain ⟨r, hr, hQ⟩ | ⟨e, he, -⟩ := hm n b
    · cases hrun.symm.trans hr
      exact .inl ⟨a, b', hrun, hle, hQ⟩
    · cases hrun.symm.trans he
  · exact .inr herr

end Within

open Classical in
/-- What a computation returns under some budget. -/
noncomputable def outcome (m : StateT ℕ (Except ε) α) : Option α :=
  if h : ∃ a b b', m b = .ok (a, b') then some h.choose else none

theorem exists_of_outcome {m : StateT ℕ (Except ε) α} {a : α} (h : outcome m = some a) :
    ∃ b b', m b = .ok (a, b') := by
  unfold outcome at h
  split at h
  · next hex =>
    cases h
    exact hex.choose_spec
  · cases h

namespace Metered

variable {e : ε} {m : StateT ℕ (Except ε) α}

theorem outcome_eq_some (hm : Metered e m) {a : α} {b b' : ℕ} (h : m b = .ok (a, b')) :
    outcome m = some a := by
  have hex : ∃ a b b', m b = .ok (a, b') := ⟨a, b, b', h⟩
  unfold outcome
  rw [dif_pos hex]
  obtain ⟨c, c', hc⟩ := hex.choose_spec
  exact congrArg some (hm.unique hc h)

theorem returns_outcome (hm : Metered e m) {limit : ε → Prop} (he : limit e) {a : α}
    (h : outcome m = some a) (budget : ℕ) : Answers limit m budget (· = a) := by
  obtain ⟨b, b', h⟩ := exists_of_outcome h
  exact hm.returns he h budget

end Metered
end UnionId.Lib
