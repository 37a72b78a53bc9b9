import Mathlib.Data.List.Basic
import Mathlib.Order.Compare

/-!
# Lexicographic order of self-delimiting codes

An order-preserving codec writes several code words one after the other and
compares the concatenations byte by byte. That only works when the first
difference falls inside the words themselves. `codeCompare` makes the condition
part of the result: it is the lexicographic comparison of two words, and `none`
when one of them is a proper prefix of the other. A decided comparison survives
any suffix, so decisions compose along concatenation, and complementing every
symbol reverses them.
-/
namespace UnionId.Lib

open List

variable {α : Type*} [Ord α]

/-- Lexicographic decision between two code words; `none` when one word is a
proper prefix of the other, so that the answer depends on what follows. -/
def codeCompare : List α → List α → Option Ordering
  | [], [] => some .eq
  | [], _ :: _ => none
  | _ :: _, [] => none
  | x :: a, y :: b =>
    match compare x y with
    | .eq => codeCompare a b
    | o => some o

@[simp] theorem codeCompare_nil_nil : codeCompare ([] : List α) [] = some .eq := rfl

variable {x y : α} {a b : List α} {o : Ordering}

theorem codeCompare_cons_of_eq (h : compare x y = .eq) (a b : List α) :
    codeCompare (x :: a) (y :: b) = codeCompare a b := by
  simp [codeCompare, h]

theorem codeCompare_cons_of_ne (h : compare x y ≠ .eq) (a b : List α) :
    codeCompare (x :: a) (y :: b) = some (compare x y) := by
  cases hc : compare x y <;> simp_all [codeCompare]

@[simp] theorem codeCompare_cons_self [Std.ReflOrd α] (x : α) (a b : List α) :
    codeCompare (x :: a) (x :: b) = codeCompare a b :=
  codeCompare_cons_of_eq Std.ReflOrd.compare_self a b

/-- A decided comparison of the heads followed by a comparison of the tails. -/
theorem codeCompare_cons (h : compare x y = .eq → codeCompare a b = some o) :
    codeCompare (x :: a) (y :: b) = some ((compare x y).then o) := by
  cases hc : compare x y with
  | eq => rw [codeCompare_cons_of_eq hc, h hc]; rfl
  | lt => rw [codeCompare_cons_of_ne (by simp [hc]), hc]; rfl
  | gt => rw [codeCompare_cons_of_ne (by simp [hc]), hc]; rfl

/-- Decisions compose along concatenation; the second words matter only when the
first ones agree. -/
theorem codeCompare_append {c d : List α} {p : Ordering}
    (hab : codeCompare a b = some o) (hcd : o = .eq → codeCompare c d = some p) :
    codeCompare (a ++ c) (b ++ d) = some (o.then p) := by
  induction a generalizing b with
  | nil =>
    cases b with
    | nil =>
      obtain rfl : Ordering.eq = o := by simpa using hab
      simpa using hcd rfl
    | cons y b => simp [codeCompare] at hab
  | cons x a ih =>
    cases b with
    | nil => simp [codeCompare] at hab
    | cons y b =>
      by_cases hxy : compare x y = .eq
      · rw [codeCompare_cons_of_eq hxy] at hab
        simpa [codeCompare_cons_of_eq hxy] using ih hab
      · rw [codeCompare_cons_of_ne hxy] at hab
        obtain rfl : compare x y = o := by simpa using hab
        rw [cons_append, cons_append, codeCompare_cons_of_ne hxy]
        cases hc : compare x y <;> simp_all

/-- What a decided pair of words contributes to the comparison of any two
strings that start with them. -/
theorem compare_append_of_codeCompare (h : codeCompare a b = some o) (s t : List α) :
    compare (a ++ s) (b ++ t) = o.then (compare s t) := by
  induction a generalizing b with
  | nil =>
    cases b with
    | nil =>
      obtain rfl : Ordering.eq = o := by simpa using h
      simp
    | cons y b => simp [codeCompare] at h
  | cons x a ih =>
    cases b with
    | nil => simp [codeCompare] at h
    | cons y b =>
      rw [cons_append, cons_append, List.compare_cons_cons]
      by_cases hxy : compare x y = .eq
      · rw [codeCompare_cons_of_eq hxy] at h
        simpa [hxy] using ih h
      · rw [codeCompare_cons_of_ne hxy] at h
        obtain rfl : compare x y = o := by simpa using h
        cases hc : compare x y <;> simp_all

/-- On a decided pair the decision is the lexicographic order itself. -/
theorem compare_of_codeCompare (h : codeCompare a b = some o) : compare a b = o := by
  have := compare_append_of_codeCompare h [] []
  simpa using this

/-- Words of equal length always differ inside, if at all. -/
theorem codeCompare_of_length_eq (h : a.length = b.length) :
    codeCompare a b = some (compare a b) := by
  induction a generalizing b with
  | nil =>
    cases b with
    | nil => rfl
    | cons y b => simp at h
  | cons x a ih =>
    cases b with
    | nil => simp at h
    | cons y b =>
      rw [List.compare_cons_cons]
      exact codeCompare_cons fun _ => ih (by simpa using h)

theorem codeCompare_self [Std.ReflOrd α] (a : List α) : codeCompare a a = some .eq := by
  induction a with
  | nil => rfl
  | cons x a ih => simpa using ih

theorem codeCompare_append_left [Std.ReflOrd α] (c a b : List α) :
    codeCompare (c ++ a) (c ++ b) = codeCompare a b := by
  induction c with
  | nil => rfl
  | cons x c ih => simpa using ih

/-- A decided word is never a proper prefix of the other. -/
theorem eq_of_isPrefix_of_codeCompare [Std.ReflOrd α]
    (h : codeCompare a b = some o) (hp : a <+: b ∨ b <+: a) : a = b := by
  rcases hp with ⟨r, rfl⟩ | ⟨r, rfl⟩
  · have hr := codeCompare_append_left a [] r
    rw [append_nil, h] at hr
    cases r with
    | nil => rw [append_nil]
    | cons y r => cases hr
  · have hr := codeCompare_append_left b r []
    rw [append_nil, h] at hr
    cases r with
    | nil => rw [append_nil]
    | cons y r => cases hr

/-- Reversing every symbol comparison reverses the decision, also inside a
concatenation. -/
theorem codeCompare_map_antitone (f : α → α) (hf : ∀ x y, compare (f x) (f y) = (compare x y).swap)
    (a b : List α) : codeCompare (a.map f) (b.map f) = (codeCompare a b).map Ordering.swap := by
  induction a generalizing b with
  | nil => cases b <;> simp [codeCompare]
  | cons x a ih =>
    cases b with
    | nil => simp [codeCompare]
    | cons y b =>
      rw [map_cons, map_cons]
      by_cases hxy : compare x y = .eq
      · rw [codeCompare_cons_of_eq hxy, codeCompare_cons_of_eq (by simp [hf, hxy]), ih]
      · rw [codeCompare_cons_of_ne hxy, codeCompare_cons_of_ne (by simpa [hf] using hxy), hf]
        rfl

end UnionId.Lib
