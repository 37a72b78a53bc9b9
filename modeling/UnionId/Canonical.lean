import UnionId.Codec.RoundTrip
import UnionId.Lib.Limited
import UnionId.Model.Typed
import UnionId.OrderedKey.Typed

/-!
# Canonical values

A value that is its own coercion is canonical: on the canonical values of one type the
typed comparison is a total order whose ties are equality, as are structural equality
and the equality key, and rows hash alike. Coercion returns canonical values, and these
encode, compare and index without a type error.

## Main results

* `Catalog.cmpTyped_total_order` — order, equality, keys and hashes agree.
* `Catalog.coerce_projection` — coercion is a projection onto canonical values.
-/
namespace UnionId

open Lib OrderedKey List

/-! ## Hashing -/

/-- What is fed to a hasher. -/
inductive HashItem where
  | u8 (value : UInt8)
  | i64 (value : Int64)
  | u64 (value : UInt64)
  | usize (value : ℕ)
  | bool (value : Bool)
  | str (value : String)

/-- A hasher with its state, and the text that a scalar prints as. Nothing is assumed
about either. -/
class RowHasher (σ : Type) where
  write : HashItem → σ → σ
  display : Value → String

section Hash
variable {σ : Type} [RowHasher σ]

open RowHasher

/-- A tag, then the text of a scalar. -/
def hashDisplayed (tag : UInt8) (value : Value) (state : σ) : σ :=
  write (.str (display σ value)) (write (.u8 tag) state)

namespace Value

mutual
/-- Feed a value to a hasher. -/
def hashTypedValue : Value → σ → σ
  | .int v, state => write (.i64 v) (write (.u8 0) state)
  | .float bits, state => write (.u64 (Float64.normalizeZero bits)) (write (.u8 1) state)
  | .bool v, state => write (.bool v) (write (.u8 2) state)
  | .text v, state => write (.str v) (write (.u8 3) state)
  | .uuid v, state => hashDisplayed 4 (.uuid v) state
  | .date v, state => hashDisplayed 5 (.date v) state
  | .timestamp v, state => hashDisplayed 6 (.timestamp v) state
  | .duration v, state => hashDisplayed 7 (.duration v) state
  | .decimal v, state => hashDisplayed 8 (.decimal v) state
  | .bytes v, state => hashDisplayed 9 (.bytes v) state
  | .null, state => write (.u8 10) state
  | .enum variant args id, state =>
    let state := write (.u64 id) (write (.u8 11) state)
    hashItems args (if id = 0 then write (.str variant) state else state)
  | .record fields, state => hashEntries fields
      (write (.usize fields.length) (write (.u8 12) state))
  | .tuple items, state => hashItems items (write (.usize items.length) (write (.u8 13) state))
  | .list items, state => hashItems items (write (.usize items.length) (write (.u8 14) state))
  | .map entries, state => hashEntries entries
      (write (.usize entries.length) (write (.u8 17) state))
  | .option none, state => write (.bool false) (write (.u8 15) state)
  | .option (some v), state => v.hashTypedValue (write (.bool true) (write (.u8 15) state))
  | .named typeId v, state => v.hashTypedValue (write (.u64 typeId) (write (.u8 16) state))

def hashItems : List Value → σ → σ
  | [], state => state
  | v :: vs, state => hashItems vs (v.hashTypedValue state)

def hashEntries : List (String × Value) → σ → σ
  | [], state => state
  | (k, v) :: rest, state => hashEntries rest (v.hashTypedValue (write (.str k) state))
end

end Value

end Hash

/-! ## Order -/

namespace Catalog

variable {catalog : Catalog} {ty : ScalarType}

/-- Canonical values compare as their codes do. -/
theorem exists_code (hc : catalog.WellFormed) (hty : ty.WellFormed) :
    ∃ code : Value → List UInt8, ∀ a b, catalog.HasType MAX_DEPTH ty a →
      catalog.HasType MAX_DEPTH ty b → catalog.cmpTyped ty a b =
        .ok (compare (code a) (code b)) := by
  have htotal : ∀ a, ∃ code, catalog.HasType MAX_DEPTH ty a →
      encodeValue catalog MAP_INDEX_KEY_CODEC_VERSION MAX_DEPTH ty a = .ok code := by
    intro a
    by_cases ha : catalog.HasType MAX_DEPTH ty a
    · obtain ⟨code, hcode⟩ := ha.encodeValue_total hc hty
      exact ⟨code, fun _ => hcode⟩
    · exact ⟨[], fun h => absurd h ha⟩
  choose code hcode using htotal
  exact ⟨code, fun a b ha hb => HasType.cmpTypedInner_eq_compare (hcode a ha) (hcode b hb)⟩

/-- **On canonical values the typed comparison is a total order**, whose ties are those of
structural equality and of the equality key, and equal values hash alike. Floats among
them are finite, and zero has one sign. -/
theorem cmpTyped_total_order (hc : catalog.WellFormed) (hty : ty.WellFormed) :
    (∀ a b, catalog.WellTyped ty a → catalog.WellTyped ty b →
      ∃ o, catalog.cmpTyped ty a b = .ok o ∧ catalog.cmpTyped ty b a = .ok o.swap) ∧
    (∀ a, catalog.WellTyped ty a → catalog.cmpTyped ty a a = .ok .eq) ∧
    (∀ a b c o o', catalog.WellTyped ty a → catalog.WellTyped ty b → catalog.WellTyped ty c →
      catalog.cmpTyped ty a b = .ok o → catalog.cmpTyped ty b c = .ok o' → o.isLE → o'.isLE →
        ∃ o'', catalog.cmpTyped ty a c = .ok o'' ∧ o''.isLE) ∧
    (∀ a b, catalog.WellTyped ty a → catalog.WellTyped ty b →
      (catalog.cmpTyped ty a b = .ok .eq ↔ a.cmpEq b = true) ∧
      (a.cmpEq b = true ↔ a.indexKey = b.indexKey) ∧
      (a.cmpEq b = true → ∀ (σ : Type) [RowHasher σ] (state : σ),
        a.hashTypedValue state = b.hashTypedValue state)) ∧
    ∀ bits, catalog.WellTyped .float (.float bits) →
      Float64.isFinite bits = true ∧ Float64.normalizeZero bits = bits := by
  obtain ⟨code, hcode⟩ := exists_code hc hty
  replace hcode := fun a b (ha : catalog.WellTyped ty a) (hb : catalog.WellTyped ty b) =>
    hcode a b (ha.hasType hc hty) (hb.hasType hc hty)
  refine ⟨fun a b ha hb => ?_, fun a ha => ?_, fun a b c o o' ha hb hc' hab hbc hle hle' => ?_,
    fun a b ha hb => ?_, fun bits hbits => ?_⟩
  · exact ⟨_, hcode a b ha hb, (hcode b a hb ha).trans (by rw [← Std.OrientedOrd.eq_swap])⟩
  · rw [hcode a a ha ha, Std.ReflOrd.compare_self]
  · cases (hcode a b ha hb).symm.trans hab
    cases (hcode b c hb hc').symm.trans hbc
    exact ⟨_, hcode a c ha hc', Std.TransCmp.isLE_trans hle hle'⟩
  · have ha' := ha.hasType hc hty
    have hb' := hb.hasType hc hty
    have heq := ha'.cmpEq_iff hc hty hb'
    refine ⟨(ha'.cmpTypedInner_eq_iff hc hty hb').trans heq.symm,
      heq.trans (ha'.indexKey_inj hc hty hb').symm, fun h σ _ state => ?_⟩
    rw [heq.mp h]
  · obtain ⟨bits', hfloat, hfinite, hzero⟩ := hbits.hasType hc .float
    cases hfloat
    exact ⟨hfinite, hzero⟩

theorem cmpTyped_total_order_option_float :
    Catalog.empty.WellFormed ∧ (ScalarType.option .float).WellFormed ∧
      ∃ o, Catalog.empty.cmpTyped (.option .float) (.option none)
        (.option (some (.float 0))) = .ok o ∧
        Catalog.empty.cmpTyped (.option .float) (.option (some (.float 0))) (.option none) =
          .ok o.swap := by
  have hc : Catalog.empty.WellFormed := by
    intro id d hd
    obtain ⟨name, hname⟩ := (definition_mem hd).2
    simp [Catalog.empty] at hname
  exact ⟨hc, .option .float, (cmpTyped_total_order hc (.option .float)).1 _ _ rfl rfl⟩

/-- A type with one field name twice has a value that cannot be compared with itself. -/
theorem cmpTyped_doubledField : ∃ v e, Catalog.empty.WellTyped Codec.doubledField v ∧
    Catalog.empty.cmpTyped Codec.doubledField v v = .error e ∧ e.code = .E_TYPE := by
  refine ⟨.record [("a", .decimal ⟨1230, 3, by decide⟩)], _, ?_, rfl, rfl⟩
  rfl

end Catalog

/-! ## Encoding canonical values -/

namespace Codec

open Catalog

/-- What may stop the encoder at a canonical value: its size, or a codec that is too old. -/
inductive CapacityError : Error → Prop
  | limit {e : Error} (h : e.code = .E_LIMIT) : CapacityError e
  | size : CapacityError sizeError
  | items (path : Message) : CapacityError (itemsError path)
  | length (path : Message) :
      CapacityError (codecError (path ++ ": item or byte length exceeds u32"))
  | production : CapacityError (codecError "production scalars require value codec 2")
  | maps : CapacityError (codecError "maps require value codec 3")

/-- The writer succeeds unless it runs out of room. -/
def Completes (w : Encoder Unit) : Prop :=
  ∀ written, Returns CapacityError (w written) fun _ => True

section Completes
variable {w w' : Encoder Unit}

theorem completes_pure : Completes (pure ()) := fun _ => .ok trivial

theorem completes_throw {e : Error} (h : CapacityError e) : Completes (throw e) :=
  fun _ => .error h

theorem Completes.bind (h : Completes w) (h' : Completes w') : Completes (w >>= fun _ => w') :=
  fun written => (h written).bind fun result _ => h' result.2

theorem completes_putBytes (bytes : List UInt8) : Completes (putBytes bytes) :=
  fun _ => .guard .size fun _ => .ok trivial

theorem completes_putLen (len : ℕ) (path : Message) : Completes (putLen len path) := by
  unfold putLen
  split
  · exact completes_throw (.length path)
  · exact completes_putBytes _

theorem completes_lift {α : Type} {x : Result α} {a : α} (hx : x = .ok a) {f : α → Encoder Unit}
    (h : Completes (f a)) : Completes (liftM x >>= f) := by
  subst hx
  exact h

end Completes

section Parts
variable {encode : ScalarType → Value → Message → Encoder Unit}

theorem completes_encodeItems {types : List ScalarType} {values : List Value}
    {label : ℕ → Message} (i : ℕ)
    (h : Forall₂ (fun ty v => ∀ path, Completes (encode ty v path)) types values) :
    Completes (encodeItems encode label i types values) := by
  induction h generalizing i with
  | nil => exact completes_pure
  | cons hv _ ih => exact (hv _).bind (ih (i + 1))

theorem completes_encodeColumns {columns : List Column} {fields : Fields} {path : Message}
    (h : ∀ c ∈ columns, ∃ v, fields.lookup c.name = some v ∧
      ∀ path, Completes (encode c.ty v path)) :
    Completes (encodeColumns encode path fields columns) := by
  induction columns with
  | nil => exact completes_pure
  | cons c columns ih =>
    obtain ⟨⟨v, hv, hcomplete⟩, hrest⟩ := forall_mem_cons.mp h
    have hfield : Completes (encodeField encode path fields c) := by
      simp only [encodeField, hv]
      exact hcomplete _
    exact (completes_putBytes _).bind (hfield.bind (ih hrest))

theorem completes_encodeEntries {entries : Fields} {inner : ScalarType} {path : Message}
    (h : ∀ e ∈ entries, (utf8 e.1).length ≤ MAX_MAP_KEY_BYTES ∧
      ∀ path, Completes (encode inner e.2 path)) :
    Completes (encodeEntries encode path inner entries) := by
  induction entries with
  | nil => exact completes_pure
  | cons e entries ih =>
    obtain ⟨⟨hkey, hvalue⟩, hrest⟩ := forall_mem_cons.mp h
    rw [encodeEntries, if_neg (not_lt.mpr hkey)]
    exact (completes_putLen _ _).bind ((completes_putBytes _).bind ((hvalue _).bind (ih hrest)))

end Parts

variable {catalog : Catalog} {ty : ScalarType}

/-- **A typed value is written** unless it runs out of room. -/
theorem completes_encodeInner (hc : catalog.WellFormed) (version : UInt16) {n : ℕ}
    (hty : ty.WellFormed) {v : Value} (h : catalog.HasType n ty v) (path : Message) :
    Completes (encodeInner catalog version n ty v path) := by
  induction n generalizing ty v path with
  | zero => cases h
  | succ n ih =>
    cases hty with
    | int | bool | uuid | date | timestamp | duration =>
      obtain ⟨_, rfl⟩ := h
      exact completes_putBytes _
    | float =>
      obtain ⟨bits, rfl, hfinite, -⟩ := h
      simp only [encodeInner, hfinite, if_true]
      exact completes_putBytes _
    | decimal precision scale =>
      obtain ⟨d, rfl, -⟩ := h
      exact completes_putBytes _
    | bytes | text =>
      obtain ⟨_, rfl⟩ := h
      exact (completes_putLen _ _).bind (completes_putBytes _)
    | ref id =>
      obtain ⟨inner, definition, rfl, hdef, hinner⟩ := h
      simp only [encodeInner, ne_eq, not_true_eq_false, if_false]
      exact (completes_putBytes _).bind (completes_lift hdef
        (ih (hc id definition hdef) hinner path))
    | @enum variants ids nonzero args =>
      obtain ⟨variant, hmem, ws, rfl, hws⟩ := h
      have hfind : (variants.find? fun d => d.id = variant.id) = some variant :=
        (find?_key_eq_some ids).mpr ⟨hmem, rfl⟩
      simp only [encodeInner, encodeEnum, hfind, hws.length_eq, ne_eq, not_true_eq_false, if_false]
      exact (completes_putBytes _).bind ((completes_putLen _ _).bind (completes_encodeItems 0
        (forall₂_imp_mem hws fun ty hty w hw => ih (args variant hmem ty hty) hw)))
    | record names types =>
      obtain ⟨fields, rfl, -, -, hcols⟩ := h
      refine (completes_putLen _ _).bind (completes_encodeColumns fun c hmem => ?_)
      have hmem' := mem_columnsById.mp hmem
      obtain ⟨w, hw, hwty⟩ := hcols c hmem'
      exact ⟨w, hw, ih (types c hmem') hwty⟩
    | tuple all =>
      obtain ⟨items, rfl, hitems⟩ := h
      simp only [encodeInner, hitems.length_eq, ne_eq, not_true_eq_false, if_false]
      exact (completes_putLen _ _).bind (completes_encodeItems 0
        (forall₂_imp_mem hitems fun ty hty w hw => ih (all ty hty) hw))
    | option inner =>
      obtain rfl | ⟨x, rfl, hx⟩ := h
      · exact completes_putBytes _
      · exact (completes_putBytes _).bind (ih inner hx path)
    | list inner =>
      obtain ⟨items, rfl, hitems⟩ := h
      simp only [encodeInner]
      split
      · exact completes_throw (.items path)
      · exact (completes_putLen _ _).bind (completes_encodeItems 0
          (forall₂_replicate fun w hw => ih inner (hitems w hw)))
    | map inner =>
      obtain ⟨entries, rfl, -, hlen, hmem⟩ := h
      simp only [encodeInner]
      split
      · exact completes_throw .maps
      · rw [if_neg (not_lt.mpr hlen)]
        exact (completes_putLen _ _).bind (completes_encodeEntries fun e he =>
          ⟨(hmem e he).1, ih inner (hmem e he).2⟩)

theorem returns_visitTypes {visit : ScalarType → StateT (List UInt64) Result Bool}
    {types : List ScalarType}
    (h : ∀ ty ∈ types, ∀ seen, Returns CapacityError (visit ty seen) fun _ => True)
    (seen : List UInt64) : Returns CapacityError (visitTypes visit types seen) fun _ => True := by
  induction types generalizing seen with
  | nil => exact .ok trivial
  | cons ty types ih =>
    obtain ⟨hty, hrest⟩ := forall_mem_cons.mp h
    exact (hty seen).bind fun head _ => (ih hrest head.2).bind fun _ _ => .ok trivial

/-- The codec that a declared type needs is found. -/
theorem returns_visitProtocol (hc : catalog.Declared) {n : ℕ}
    (hty : ty.Everywhere catalog.IsDeclared) (seen : List UInt64) :
    Returns CapacityError (visitProtocol catalog n ty seen) fun _ => True := by
  induction n generalizing ty seen with
  | zero => exact .error (.limit rfl)
  | succ n ih =>
    cases ty with
    | decimal precision scale =>
      have hvalid : validateDecimalType precision scale = .ok () := hty.here
      simp only [visitProtocol, hvalid]
      exact .ok trivial
    | ref id =>
      obtain ⟨d, hd⟩ := hty.here
      have hrun : visitProtocol catalog (n + 1) (.ref id) seen =
          if id ∈ seen then .ok (false, seen)
          else catalog.definition id >>= fun d => visitProtocol catalog n d.ty (id :: seen) := by
        change (if id ∈ seen then pure false else set (id :: seen) >>= fun _ =>
          liftM (catalog.definition id) >>= fun d => visitProtocol catalog n d.ty :
            StateT (List UInt64) Result Bool) seen = _
        split
        · rfl
        · cases hget : catalog.definition id <;> rfl
      rw [hrun]
      split
      · exact .ok trivial
      · rw [hd, ok_bind]
        exact ih (hc id d hd) _
    | record columns =>
      refine returns_visitTypes (fun ty hmem seen => ?_) seen
      obtain ⟨c, hc', rfl⟩ := mem_map.mp hmem
      exact ih (hty.field hc') seen
    | enum variants =>
      refine returns_visitTypes (fun ty hmem seen => ?_) seen
      obtain ⟨v, hv, hmem⟩ := mem_flatMap.mp hmem
      exact ih (hty.arg hv hmem) seen
    | tuple types => exact returns_visitTypes (fun ty hmem seen => ih (hty.item hmem) seen) seen
    | option inner => exact ih hty.option seen
    | list inner => exact ih hty.list seen
    | named name => exact hty.here.elim
    | _ => exact .ok trivial

/-- **A canonical value encodes** unless it runs out of room. -/
theorem returns_encodeValueVersion (hc : catalog.WellFormed) (hdeclared : catalog.Declared)
    (hty : ty.WellFormed) (hdecl : ty.Everywhere catalog.IsDeclared) {v : Value}
    (h : catalog.WellTyped ty v) (version : UInt16) :
    Returns CapacityError (encodeValueVersion catalog ty v version) fun _ => True := by
  have hcoerce : catalog.coerce v ty "value" = .ok v := h
  have hwrite : Completes (do
      putBytes MAGIC
      putU16 version
      encodeInner catalog version MAX_DEPTH ty v "value") :=
    (completes_putBytes _).bind ((completes_putBytes _).bind
      (completes_encodeInner hc version hty (h.hasType hc hty) _))
  have hrequired : Returns CapacityError (requiresProtocolV2 catalog ty) fun _ => True :=
    (returns_visitProtocol hdeclared hdecl []).bind fun _ _ => .ok trivial
  refine hrequired.bind fun required _ => ?_
  dsimp only
  split
  · exact .error .production
  · rw [hcoerce]
    exact (hwrite []).bind fun _ _ => .ok trivial

end Codec

/-! ## Index keys of canonical values -/

namespace OrderedKey

/-- The refusal of maps by an older vocabulary. -/
def Outdated (e : Error) : Prop := e.code = .E_STORAGE_UPGRADE_REQUIRED

section Parts
variable {encode encode' : ScalarType → Value → Result (List UInt8)} {mismatch : Error}

theorem curtails_encodeProduct (h : ∀ ty v, Curtails Outdated (encode ty v) (encode' ty v))
    (types : List ScalarType) (values : List Value) :
    Curtails Outdated (encodeProduct encode types values) (encodeProduct encode' types values) := by
  induction types generalizing values with
  | nil => exact .refl _
  | cons ty types ih =>
    cases values with
    | nil => exact .refl _
    | cons v values => exact (h ty v).bind fun head => (ih values).bind fun tail => .refl _

theorem curtails_encodeColumns (h : ∀ ty v, Curtails Outdated (encode ty v) (encode' ty v))
    (fields : List (String × Value)) (columns : List Column) :
    Curtails Outdated (encodeColumns encode mismatch fields columns)
      (encodeColumns encode' mismatch fields columns) := by
  induction columns with
  | nil => exact .refl _
  | cons c columns ih =>
    cases hlook : fields.lookup c.name with
    | none => exact .inl (by simp only [encodeColumns, hlook])
    | some v =>
      simp only [encodeColumns, hlook]
      exact (h c.ty v).bind fun head => ih.bind fun tail => .refl _

theorem curtails_encodeSequence {α : Type} {f g : α → Result (List UInt8)}
    (h : ∀ a, Curtails Outdated (f a) (g a)) (items : List α) :
    Curtails Outdated (encodeSequence f items) (encodeSequence g items) := by
  induction items with
  | nil => exact .refl _
  | cons a items ih => exact (h a).bind fun head => ih.bind fun tail => .refl _

theorem curtails_encodeEnum (h : ∀ ty v, Curtails Outdated (encode ty v) (encode' ty v))
    (variants : List EnumVariantDef) (id : UInt64) (args : List Value) :
    Curtails Outdated (encodeEnum encode mismatch variants id args)
      (encodeEnum encode' mismatch variants id args) := by
  unfold encodeEnum
  cases Catalog.findVariant variants id with
  | none => exact .refl _
  | some variant =>
    dsimp only
    split
    · exact .refl _
    · exact (curtails_encodeProduct h _ _).bind fun payload => .refl _

end Parts

/-- An older vocabulary differs only by refusing maps. -/
theorem curtails_encodeValue (catalog : Catalog) (version n : ℕ) (ty : ScalarType) (v : Value) :
    Curtails Outdated (encodeValue catalog version n ty v)
      (encodeValue catalog MAP_INDEX_KEY_CODEC_VERSION n ty v) := by
  induction n generalizing ty v with
  | zero => exact .refl _
  | succ n ih =>
    cases ty with
    | ref id =>
      cases v with
      | named typeId v =>
        simp only [encodeValue]
        split
        · cases catalog.definition id with
          | error e => exact .refl _
          | ok d => exact ih d.ty v
        · exact .refl _
      | _ => exact .refl _
    | enum variants =>
      cases v with
      | enum _ args id => exact curtails_encodeEnum ih variants id args
      | _ => exact .refl _
    | record columns =>
      cases v with
      | record fields =>
        simp only [encodeValue]
        split
        · exact curtails_encodeColumns ih fields _
        · exact .refl _
      | _ => exact .refl _
    | tuple types =>
      cases v with
      | tuple items =>
        simp only [encodeValue]
        split
        · exact curtails_encodeProduct ih types items
        · exact .refl _
      | _ => exact .refl _
    | option inner =>
      cases v with
      | option v =>
        cases v with
        | none => exact .refl _
        | some v => exact (ih inner v).bind fun payload => .refl _
      | _ => exact .refl _
    | list inner =>
      cases v with
      | list items => exact curtails_encodeSequence (ih inner) items
      | _ => exact .refl _
    | map inner =>
      simp only [encodeValue]
      split
      · exact .error rfl
      · rw [if_neg (lt_irrefl _)]
        cases v with
        | map entries =>
          refine curtails_encodeSequence (fun entry => ?_) entries
          exact (ih inner entry.2).bind fun payload => .refl _
        | _ => exact .refl _
    | _ => exact .refl _

/-- What may stop the key of a canonical value: its length, or an old vocabulary. -/
def KeyCapacityError (e : Error) : Prop :=
  e.code = .E_INDEX_KEY_LIMIT ∨ e.code = .E_STORAGE_UPGRADE_REQUIRED

theorem returns_encodeCompleteVersion {catalog : Catalog} (hc : catalog.WellFormed)
    {ty : ScalarType} (hty : ty.WellFormed) {v : Value} (h : catalog.WellTyped ty v)
    (indexId : UInt64) (descending : Bool) (rowId : UInt64) (version : ℕ) : Returns KeyCapacityError
      (encodeCompleteVersion catalog indexId [⟨ty, v, descending⟩] rowId version) fun _ =>
      True := by
  obtain ⟨code, hcode⟩ := (h.hasType hc hty).encodeValue_total hc hty
  have hvalue : Returns KeyCapacityError (encodeValue catalog version MAX_DEPTH ty v)
      fun _ => True :=
    ((curtails_encodeValue catalog version MAX_DEPTH ty v).returns hcode trivial).relax
      fun _ => .inr
  have hcomponent : Returns KeyCapacityError
      (encodeComponent catalog version ⟨ty, v, descending⟩) fun _ => True :=
    hvalue.bind fun _ _ => .ok trivial
  have htuple : Returns KeyCapacityError
      (encodeTupleVersion catalog [⟨ty, v, descending⟩] version) fun _ => True := by
    rw [encodeTupleVersion, if_neg (by simp [MAX_INDEX_COMPONENTS])]
    exact hcomponent.bind fun _ _ => .ok trivial
  refine htuple.bind fun tuple _ => ?_
  rw [if_neg (by simp)]
  dsimp only
  split
  · exact .error (.inl rfl)
  · exact .ok trivial

end OrderedKey

/-! ## Coercion -/

namespace Catalog

theorem validateFiniteTypes_of_define {catalog catalog' : Catalog} {name : String}
    {ty : ScalarType} (h : catalog.define name ty = .ok catalog') :
    catalog'.validateFiniteTypes = .ok () := by
  unfold define at h
  obtain ⟨-, h⟩ := of_refused h
  obtain ⟨bodyIds, -, reserved, -, h⟩ := of_bind₂ h
  obtain ⟨⟨resolved, nextId⟩, -, ⟨id, nextId'⟩, -, h⟩ := of_bind₂ h
  obtain ⟨normal, -, _, hvalid, h⟩ := of_bind₂ h
  cases h
  exact hvalid

theorem Produced.declared {catalog : Catalog} (h : catalog.Produced) : catalog.Declared := by
  induction h with
  | empty =>
    intro id d hd
    obtain ⟨name, hname⟩ := (definition_mem hd).2
    simp [Catalog.empty] at hname
  | define hproduced run ih =>
    have hsound := (Produced.define hproduced run).sound
    exact declared_of_validateFiniteTypes (fun id d hd => (hsound.wellFormed id d hd).distinct)
      (validateFiniteTypes_of_define run)
  -- the other operations only move the next identity
  | resolve _ run ih =>
    obtain ⟨_, -, _, -, run⟩ := of_bind₂ run
    cases run
    exact ih
  | allocate _ run ih =>
    obtain ⟨_, -, run⟩ := of_bind run
    cases run
    exact ih
  | restoreNextId _ run ih =>
    unfold Catalog.restoreNextId at run
    obtain ⟨-, run⟩ := of_refused run
    cases run
    exact ih

/-- **Coercion is a projection onto canonical values**, where no variant name reads as
qualified. What it returns it returns again; it encodes, compares with whatever else was
coerced to the type and can be an index key, unless a size limit or an older codec stops it;
and a value of the type is left alone. -/
theorem coerce_projection {catalog : Catalog} (hc : catalog.Produced)
    (hplain : catalog.Everywhere ScalarType.PlainVariants) {ty : ScalarType} (hty : ty.Bound)
    (hp : ty.Everywhere ScalarType.PlainVariants) (hdecl : ty.Everywhere catalog.IsDeclared)
    {v w : Value} {path : Message}
    (h : catalog.coerce v ty path = .ok w) :
    (∀ path', catalog.coerce w ty path' = .ok w) ∧
      (∀ version, Returns Codec.CapacityError (Codec.encodeValueVersion catalog ty w version)
        fun _ => True) ∧
      (∀ v' w' path', catalog.coerce v' ty path' = .ok w' →
        ∃ o, catalog.cmpTyped ty w w' = .ok o) ∧
      (∀ indexId descending rowId version, Returns OrderedKey.KeyCapacityError
        (OrderedKey.encodeCompleteVersion catalog indexId [⟨ty, w, descending⟩] rowId version)
        fun _ => True) ∧
      ∀ u, catalog.HasType MAX_DEPTH ty u → ∀ path', catalog.coerce u ty path' = .ok u := by
  have hwf := hc.sound.wellFormed
  have hcanonical : ∀ {v w path}, catalog.coerce v ty path = .ok w → catalog.WellTyped ty w :=
    fun h => coerce_coerce hwf hplain hty.wellFormed hp h _
  obtain ⟨code, hcode⟩ := exists_code hwf hty.wellFormed
  exact ⟨fun path' => coerce_coerce hwf hplain hty.wellFormed hp h path',
    Codec.returns_encodeValueVersion hwf hc.declared hty.wellFormed hdecl (hcanonical h),
    fun v' w' path' h' => ⟨_, hcode w w' (coerceInner_hasType hwf hty.wellFormed h)
      (coerceInner_hasType hwf hty.wellFormed h')⟩,
    OrderedKey.returns_encodeCompleteVersion hwf hty.wellFormed (hcanonical h),
    fun u hu path' => hu.coerceInner_eq hwf hplain hty.wellFormed hp path'⟩

theorem coerce_projection_price :
    ∃ catalog w, Catalog.empty.define "price" (.decimal 6 2) = .ok catalog ∧
      catalog.coerce (.option (some (.decimal ⟨5, 1, by decide⟩))) (.option (.ref 1)) "price" =
        .ok w ∧ catalog.coerce w (.option (.ref 1)) "row" = .ok w := by
  have hinner : ∀ {P : ScalarType → Prop}, P (.option (.ref 1)) → P (.ref 1) →
      (ScalarType.option (.ref 1)).Everywhere P := fun hhere hpart => .node hhere fun part h => by
    obtain rfl := mem_singleton.mp h
    exact .leaf hpart rfl
  obtain ⟨catalog, hdefine, hvalues, hprice, w, hw⟩ :
      ∃ catalog, Catalog.empty.define "price" (.decimal 6 2) = .ok catalog ∧
        valuesOf catalog.types = [⟨1, "price", .decimal 6 2⟩] ∧
        (∃ d, catalog.definition 1 = .ok d) ∧ ∃ w, catalog.coerce
          (.option (some (.decimal ⟨5, 1, by decide⟩))) (.option (.ref 1)) "price" = .ok w := by
    refine ⟨_, rfl, rfl, ⟨⟨1, "price", .decimal 6 2⟩, rfl⟩, ?_⟩
    exact ⟨.option (some (.named 1 (.decimal ⟨50, 2, by decide⟩))), rfl⟩
  have hplain : catalog.Everywhere ScalarType.PlainVariants := fun id d hd => by
    have hmem := mem_valuesOf.mpr (definition_mem hd).2
    rw [hvalues, mem_singleton] at hmem
    exact hmem ▸ .leaf trivial rfl
  exact ⟨catalog, w, hdefine, hw, (coerce_projection (.define .empty hdefine) hplain
    ⟨.option (.ref 1), hinner trivial trivial⟩ (hinner trivial trivial) (hinner trivial hprice)
    hw).1 "row"⟩

/-- A variant named with a dot is accepted by `define`, and the value that coercion returns
for it cannot be coerced again: what stands before the dot is taken for a type. -/
theorem coerce_qualified_variant :
    ∃ catalog w e, Catalog.empty.define "flag" (.enum [⟨"a.b", [], 0⟩]) = .ok catalog ∧
      catalog.coerce (.enum "on" [] 1) (.ref 2) "flag" = .ok w ∧
      catalog.coerce w (.ref 2) "flag" = .error e ∧ e.code = .E_TYPE :=
  ⟨_, _, _, rfl, rfl, rfl, rfl⟩

end Catalog

end UnionId
