import UnionId.Lib.BigEndian
import UnionId.Lib.Fallible

/-!
# Byte writers and readers

A writer appends to a bounded buffer, a reader takes bytes off the front of what
is left. A code is described from both sides: what a writer appends, and what a
reader makes of it. Each description has one rule for every way to build a writer
or a reader, so a proof about a codec follows its text.

## Main definitions

* `Writes limit w code` — `w` appends `code` as long as it fits.
* `Emits limit w P` — whatever `w` appends satisfies `P`, and it fits.
* `Reads r code a` — `r` reads `a` off the front `code`.
* `Parses r P` — whatever `r` takes off satisfies `P`, together with its result.
-/
namespace UnionId.Lib

open List

variable {ε α β : Type}

/-- A computation that appends to the bytes written so far. -/
abbrev ByteWriter (ε α : Type) := StateT (List UInt8) (Except ε) α

/-- A computation on the bytes that are left to read. -/
abbrev ByteReader (ε α : Type) := StateT (List UInt8) (Except ε) α

/-- Append some bytes; `e` reports a full buffer. -/
def put (limit : ℕ) (e : ε) (bytes : List UInt8) : ByteWriter ε Unit := fun written =>
  if written.length + bytes.length > limit then .error e else .ok ((), written ++ bytes)

/-- Take the next bytes; `e` reports that too few are left. -/
def takeBytes (e : ε) (n : ℕ) : ByteReader ε (List UInt8) := fun bytes =>
  if n ≤ bytes.length then .ok (bytes.take n, bytes.drop n) else .error e

/-- Check that so many bytes are left. -/
def requireBytes (e : ε) (n : ℕ) : ByteReader ε Unit := fun bytes =>
  if n > bytes.length then .error e else .ok ((), bytes)

variable {σ : Type}

theorem stateT_bind (m : StateT σ (Except ε) α) (f : α → StateT σ (Except ε) β) (s : σ) :
    (m >>= f) s = (m s >>= fun p => f p.1 p.2) := rfl

theorem stateT_bind_eq_ok {m : StateT σ (Except ε) α} {f : α → StateT σ (Except ε) β}
    {s : σ} {r : β × σ} : (m >>= f) s = .ok r ↔ ∃ a t, m s = .ok (a, t) ∧ f a t = .ok r := by
  rw [stateT_bind, bind_eq_ok]
  simp

theorem stateT_lift_eq_ok {x : Except ε α} {s t : σ} {a : α} :
    (liftM x : StateT σ (Except ε) α) s = .ok (a, t) ↔ x = .ok a ∧ s = t := by
  cases x with
  | error e =>
    refine ⟨fun h => ?_, fun h => ?_⟩
    · cases h
    · cases h.1
  | ok b =>
    refine ⟨fun h => ?_, ?_⟩
    · cases h
      exact ⟨rfl, rfl⟩
    · rintro ⟨⟨⟩, rfl⟩
      rfl

/-! ## Writing -/

/-- `w` appends `code` as long as it fits. -/
def Writes (limit : ℕ) (w : ByteWriter ε Unit) (code : List UInt8) : Prop :=
  ∀ written, written.length + code.length ≤ limit → w written = .ok ((), written ++ code)

/-- Whatever `w` appends fits and satisfies `P`. -/
def Emits (limit : ℕ) (w : ByteWriter ε Unit) (P : List UInt8 → Prop) : Prop :=
  ∀ written out, written.length ≤ limit → w written = .ok ((), out) →
    out.length ≤ limit ∧ ∃ code, out = written ++ code ∧ P code

namespace Writes

variable {limit : ℕ} {w w' : ByteWriter ε Unit} {code code' : List UInt8}

theorem put (limit : ℕ) (e : ε) (bytes : List UInt8) :
    Writes limit (put limit e bytes) bytes := fun written h => by
  rw [Lib.put, if_neg (not_lt.mpr h)]

theorem pure (limit : ℕ) : Writes limit (Pure.pure () : ByteWriter ε Unit) [] := fun written _ => by
  rw [append_nil]
  rfl

theorem bind (hw : Writes limit w code) (hw' : Writes limit w' code') :
    Writes limit (w >>= fun _ => w') (code ++ code') := by
  intro written h
  rw [length_append] at h
  rw [stateT_bind, hw written (by omega), ok_bind, hw' _ (by rw [length_append]; omega),
    append_assoc]

end Writes

namespace Emits

variable {limit : ℕ} {w w' : ByteWriter ε Unit} {P Q R : List UInt8 → Prop}

theorem put {e : ε} {bytes : List UInt8} (h : P bytes) : Emits limit (put limit e bytes) P := by
  intro written out _ hout
  unfold Lib.put at hout
  obtain ⟨hfit, hout⟩ := of_refused hout
  cases hout
  rw [length_append]
  exact ⟨not_lt.mp hfit, bytes, rfl, h⟩

theorem pure (h : P []) : Emits limit (Pure.pure () : ByteWriter ε Unit) P := by
  rintro written out hlen ⟨⟩
  exact ⟨hlen, [], (append_nil _).symm, h⟩

theorem throw (e : ε) : Emits limit (MonadExcept.throw e : ByteWriter ε Unit) P := by
  rintro written out _ ⟨⟩

theorem bind (hw : Emits limit w P) (hw' : Emits limit w' Q)
    (h : ∀ code code', P code → Q code' → R (code ++ code')) :
    Emits limit (w >>= fun _ => w') R := by
  intro written out hlen hrun
  obtain ⟨u, mid, hmid, hout⟩ := stateT_bind_eq_ok.mp hrun
  obtain ⟨hlen, code, rfl, hP⟩ := hw written mid hlen hmid
  obtain ⟨hlen, code', rfl, hQ⟩ := hw' _ out hlen hout
  exact ⟨hlen, code ++ code', append_assoc .., h code code' hP hQ⟩

/-- The code of a sequence falls into two parts. -/
theorem seq (hw : Emits limit w P) (hw' : Emits limit w' Q) :
    Emits limit (w >>= fun _ => w') fun code =>
      ∃ front back, code = front ++ back ∧ P front ∧ Q back :=
  bind hw hw' fun front back hP hQ => ⟨front, back, rfl, hP, hQ⟩

theorem guard {p : Prop} [Decidable p] {e : ε} (h : ¬p → Emits limit w P) :
    Emits limit (if p then MonadExcept.throw e else w) P := by
  split
  · exact throw e
  · exact h ‹_›

end Emits

/-! ## Reading -/

/-- `r` reads `a` off the front `code`, whatever follows. -/
def Reads (r : ByteReader ε α) (code : List UInt8) (a : α) : Prop :=
  ∀ rest, r (code ++ rest) = .ok (a, rest)

/-- Whatever `r` takes off the front satisfies `P`, together with its result. -/
def Parses (r : ByteReader ε α) (P : α → List UInt8 → Prop) : Prop :=
  ∀ bytes a rest, r bytes = .ok (a, rest) → ∃ code, bytes = code ++ rest ∧ P a code

namespace Reads

variable {r : ByteReader ε α} {f : α → ByteReader ε β} {code code' : List UInt8} {a : α} {b : β}

theorem pure (a : α) : Reads (Pure.pure a : ByteReader ε α) [] a := fun _ => rfl

theorem takeBytes (e : ε) {n : ℕ} {bytes : List UInt8} (h : bytes.length = n) :
    Reads (takeBytes e n) bytes bytes := fun rest => by
  subst h
  rw [Lib.takeBytes, if_pos (by rw [length_append]; omega), take_left, drop_left]

theorem bind (hr : Reads r code a) (hf : Reads (f a) code' b) :
    Reads (r >>= f) (code ++ code') b := fun rest => by
  rw [stateT_bind, append_assoc, hr, ok_bind, hf]

/-- The last step of a reader takes nothing. -/
theorem map (hr : Reads r code a) (g : α → β) : Reads (r >>= fun a => Pure.pure (g a)) code (g a) :=
  fun rest => by rw [stateT_bind, hr]; rfl

theorem requireBytes {e : ε} {n : ℕ} (hn : n ≤ code.length) (hr : Reads r code a) :
    Reads (requireBytes e n >>= fun _ => r) code a := fun rest => by
  rw [stateT_bind, Lib.requireBytes, if_neg (by rw [length_append]; omega), ok_bind, hr]

end Reads

namespace Parses

variable {r : ByteReader ε α} {f : α → ByteReader ε β} {P : α → List UInt8 → Prop}
  {Q : β → List UInt8 → Prop}

theorem mono {Q : α → List UInt8 → Prop} (hr : Parses r P) (h : ∀ a code, P a code → Q a code) :
    Parses r Q := fun bytes a rest hrun =>
  (hr bytes a rest hrun).imp fun code hcode => ⟨hcode.1, h a code hcode.2⟩

theorem pure {a : α} (h : P a []) : Parses (Pure.pure a : ByteReader ε α) P := by
  rintro bytes b rest ⟨⟩
  exact ⟨[], rfl, h⟩

theorem throw (e : ε) : Parses (MonadExcept.throw e : ByteReader ε α) P := by
  rintro bytes a rest ⟨⟩

variable {e : ε}

theorem takeBytes {n : ℕ} : Parses (takeBytes e n) fun a code => code = a ∧ a.length = n := by
  intro bytes a rest h
  unfold Lib.takeBytes at h
  split at h
  · cases h
    exact ⟨_, (take_append_drop n bytes).symm, rfl, by rw [length_take]; omega⟩
  · cases h

theorem bind (hr : Parses r P)
    (hf : ∀ a code, P a code → Parses (f a) fun b code' => Q b (code ++ code')) :
    Parses (r >>= f) Q := by
  intro bytes b rest hrun
  obtain ⟨a, mid, hmid, hout⟩ := stateT_bind_eq_ok.mp hrun
  obtain ⟨code, rfl, hP⟩ := hr _ _ _ hmid
  obtain ⟨code', rfl, hQ⟩ := hf a code hP _ _ _ hout
  exact ⟨code ++ code', (append_assoc ..).symm, hQ⟩

theorem map {g : α → β} (hr : Parses r P) (h : ∀ a code, P a code → Q (g a) code) :
    Parses (r >>= fun a => Pure.pure (g a)) Q := by
  intro bytes b rest hrun
  obtain ⟨a, mid, hmid, hout⟩ := stateT_bind_eq_ok.mp hrun
  cases hout
  obtain ⟨code, rfl, hP⟩ := hr _ _ _ hmid
  exact ⟨code, rfl, h a code hP⟩

theorem requireBytes {n : ℕ} (hr : Parses r P) : Parses (requireBytes e n >>= fun _ => r) P := by
  intro bytes a rest hrun
  obtain ⟨u, mid, hmid, hout⟩ := stateT_bind_eq_ok.mp hrun
  unfold Lib.requireBytes at hmid
  obtain ⟨-, hmid⟩ := of_refused hmid
  cases hmid
  exact hr _ _ _ hout

theorem guard {p : Prop} [Decidable p] (h : ¬p → Parses r P) :
    Parses (if p then MonadExcept.throw e else r) P := by
  split
  · exact throw e
  · exact h ‹_›

end Parses
end UnionId.Lib
