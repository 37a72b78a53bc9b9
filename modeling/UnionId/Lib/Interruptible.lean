import Mathlib.Data.List.Basic

/-!
# Interruptible computations

A computation over a durable state that may be cut off between any two of its
writes. Its run is the list of the states it makes durable, in order, together with
the way it ends; a crash leaves any one of them, so a property survives every crash
if it holds of every state of the run. `Upholds I x s Q` says this of `x` started in
`s`, with the postcondition `Q` of the runs that are not cut off, and has one rule
for each way to build a computation.

## Main definitions

* `Interruptible σ ε α` — durable states visited, and an outcome.
* `Upholds I x s Q` — every visited state has `I`, a returned value has `Q`.
-/
namespace UnionId.Lib

/-- The states that a run makes durable, in order, and the way it ends. -/
structure Trace (σ ε α : Type) where
  visited : List σ
  outcome : Except ε α

/-- The durable state after the writes of a run from `s`. -/
def settle {σ : Type} (visited : List σ) (s : σ) : σ := visited.getLast?.getD s

theorem settle_append {σ : Type} (l r : List σ) (s : σ) :
    settle (l ++ r) s = settle r (settle l s) := by
  cases hr : r.getLast? <;> simp [settle, List.getLast?_append, hr]

/-- The durable state at the end of a run from `s`. -/
def Trace.final {σ ε α : Type} (t : Trace σ ε α) (s : σ) : σ := settle t.visited s

def Interruptible (σ ε α : Type) := σ → Trace σ ε α

namespace Interruptible

variable {σ ε α β : Type}

protected def pure (a : α) : Interruptible σ ε α := fun _ => ⟨[], .ok a⟩

protected def bind (x : Interruptible σ ε α) (f : α → Interruptible σ ε β) :
    Interruptible σ ε β := fun s =>
  match (x s).outcome with
  | .error e => ⟨(x s).visited, .error e⟩
  | .ok a =>
    let rest := f a ((x s).final s)
    ⟨(x s).visited ++ rest.visited, rest.outcome⟩

instance : Monad (Interruptible σ ε) where
  pure := Interruptible.pure
  bind := Interruptible.bind

/-- Read the durable state. -/
def read : Interruptible σ ε σ := fun s => ⟨[], .ok s⟩

/-- Make a state durable, in one step. -/
def write (t : σ) : Interruptible σ ε Unit := fun _ => ⟨[t], .ok ()⟩

/-- A computation that touches no durable state. -/
def lift (x : Except ε α) : Interruptible σ ε α := fun _ => ⟨[], x⟩

/-- A check that ends the computation with `e`. -/
def ensure (p : Prop) [Decidable p] (e : ε) : Interruptible σ ε Unit :=
  lift (if p then .ok () else .error e)

end Interruptible

open Interruptible

/-- Every state that `x` makes durable from `s` has `I`, and if `x` returns, the value
and the state have `Q`. -/
def Upholds {σ ε α : Type} (I : σ → Prop) (x : Interruptible σ ε α) (s : σ)
    (Q : α → σ → Prop) : Prop :=
  (∀ t ∈ (x s).visited, I t) ∧ ∀ a, (x s).outcome = .ok a → Q a ((x s).final s)

namespace Upholds

variable {σ ε α β : Type} {I : σ → Prop} {x : Interruptible σ ε α}
  {f : α → Interruptible σ ε β} {s t : σ} {Q R : α → σ → Prop} {P : β → σ → Prop}

theorem pure {a : α} (h : Q a s) : Upholds I (pure a : Interruptible σ ε α) s Q := by
  refine ⟨fun t ht => absurd ht List.not_mem_nil, fun b hb => ?_⟩
  cases hb
  exact h

theorem read {Q : σ → σ → Prop} (h : Q s s) : Upholds I (read : Interruptible σ ε σ) s Q := by
  refine ⟨fun t ht => absurd ht List.not_mem_nil, fun b hb => ?_⟩
  cases hb
  exact h

theorem write {Q : Unit → σ → Prop} (hI : I t) (h : Q () t) :
    Upholds I (write t : Interruptible σ ε Unit) s Q := by
  refine ⟨fun u hu => ?_, fun b hb => ?_⟩
  · obtain rfl := List.mem_singleton.mp hu
    exact hI
  · exact h

theorem lift {r : Except ε α} (h : ∀ a, r = .ok a → Q a s) :
    Upholds I (lift r : Interruptible σ ε α) s Q :=
  ⟨fun _ ht => absurd ht List.not_mem_nil, fun a ha => h a ha⟩

/-- The rule of sequencing. -/
theorem bind (h : Upholds I x s R) (hf : ∀ a t, R a t → Upholds I (f a) t P) :
    Upholds I (x >>= f) s P := by
  have hbind : (x >>= f) s = Interruptible.bind x f s := rfl
  rw [Upholds, hbind, Interruptible.bind]
  cases hx : (x s).outcome with
  | error e => exact ⟨h.1, fun a ha => by cases ha⟩
  | ok a =>
    obtain ⟨hvisited, hreturned⟩ := hf a _ (h.2 a hx)
    refine ⟨fun t ht => ?_, fun b hb => ?_⟩
    · rcases List.mem_append.mp ht with ht | ht
      · exact h.1 t ht
      · exact hvisited t ht
    · have hfinal := hreturned b hb
      rw [Trace.final, Trace.final, ← settle_append] at hfinal
      exact hfinal

theorem ensure {Q : Unit → σ → Prop} {p : Prop} [Decidable p] {e : ε} (h : p → Q () s) :
    Upholds I (ensure p e : Interruptible σ ε Unit) s Q := by
  refine lift fun a ha => ?_
  by_cases hp : p
  · exact h hp
  · rw [if_neg hp] at ha
    cases ha

/-! Sequencing after one step. -/

theorem read_bind {f : σ → Interruptible σ ε β} (h : Upholds I (f s) s P) :
    Upholds I (Interruptible.read >>= f) s P := by
  refine (read (Q := fun a t => a = s ∧ t = s) ⟨rfl, rfl⟩).bind ?_
  rintro _ _ ⟨rfl, rfl⟩
  exact h

theorem lift_bind {r : Except ε α} (h : ∀ a, r = .ok a → Upholds I (f a) s P) :
    Upholds I (Interruptible.lift r >>= f) s P := by
  refine (lift (Q := fun a t => r = .ok a ∧ t = s) fun a ha => ⟨ha, rfl⟩).bind ?_
  rintro a _ ⟨ha, rfl⟩
  exact h a ha

theorem ensure_bind {f : Unit → Interruptible σ ε β} {p : Prop} [Decidable p] {e : ε}
    (h : p → Upholds I (f ()) s P) : Upholds I (Interruptible.ensure p e >>= f) s P := by
  refine (ensure (Q := fun _ t => p ∧ t = s) fun hp => ⟨hp, rfl⟩).bind ?_
  rintro _ _ ⟨hp, rfl⟩
  exact h hp

end Upholds

end UnionId.Lib
