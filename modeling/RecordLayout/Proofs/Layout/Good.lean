import Mathlib
import RecordLayout.Proofs.Layout.Answers
import RecordLayout.Proofs.Layout.Order

/-!
# Good compilers

What a compiler has compiled fits its catalog: every layout has the fields of its schema, bound to
encodings that the catalog and the chosen placements determine, in the order that their sizes call
for. This is said by `Compiler.Good`.

A layout's size may have been asked for while the layout was still being compiled, and counts as
unknown then. It stays unknown: `Compiler.Varies` says why a size is not fixed, in terms that never
change, and in a good compiler no size that varies is ever seen fixed. So fields are ordered in one
way, whenever they are ordered.

Main results:

* `Compiler.Varies.not_fixes` — no size both varies and is fixed;
* `boundFields?_draft`, `FieldsGood.draft_agree` — a schema and its draft have the same fields, in
  the same order;
* `FieldsGood.slots_perm`, `FieldsGood.governor_before` — every slot has one field, which comes after
  the field that decides its size.
-/

namespace RecordLayout

/-! ## Catalogs -/

/-- The declared type of what a field holds, if it holds values of one. -/
def FieldShape.valueType? : FieldShape → Option ValueType
  | .value type _ => some type
  | _ => none

theorem FieldShape.mem_valueType? {shape : FieldShape} {type : ValueType} :
    type ∈ shape.valueType? ↔ ∃ rule, shape = .value type rule := by
  cases shape <;> simp [valueType?, eq_comm]

namespace Catalog

/-- A schema or the draft of one is declared under the id. -/
def HasSchema (c : Catalog) (id : SchemaId) : Prop :=
  id.declared < c.schemas.length ∧ id.draft ≤ 1

instance (c : Catalog) (id : SchemaId) : Decidable (c.HasSchema id) :=
  inferInstanceAs (Decidable (_ ∧ _))

/-- What a type names is declared. -/
def Refers (c : Catalog) : ValueType → Prop
  | .wrapper id => id.index < c.wrappers.length
  | .choice id => id.index < c.choices.length
  | .record id | .back id _ => c.HasSchema id
  | _ => True

instance (c : Catalog) : (type : ValueType) → Decidable (c.Refers type)
  | .wrapper id => inferInstanceAs (Decidable (id.index < c.wrappers.length))
  | .choice id => inferInstanceAs (Decidable (id.index < c.choices.length))
  | .record id => inferInstanceAs (Decidable (c.HasSchema id))
  | .back id _ => inferInstanceAs (Decidable (c.HasSchema id))
  | .any => .isTrue trivial
  | .scalar _ => .isTrue trivial
  | .text => .isTrue trivial

/-- Declared types name declared types only. -/
structure Closed (c : Catalog) : Prop where
  schemas : ∀ d ∈ c.schemas, ∀ f ∈ d.schema.fields, ∀ type rule, f.shape = .value type rule →
    c.Refers type
  wrappers : ∀ w ∈ c.wrappers, c.HasSchema w.carrier
  choices : ∀ choice ∈ c.choices, ∀ v ∈ choice.variants, c.HasSchema v

/-- Whether a catalog is closed can be seen from what is listed in it. -/
theorem closed_iff {c : Catalog} : c.Closed ↔
    (∀ d ∈ c.schemas, ∀ f ∈ d.schema.fields, ∀ type ∈ f.shape.valueType?, c.Refers type) ∧
      (∀ w ∈ c.wrappers, c.HasSchema w.carrier) ∧
      ∀ choice ∈ c.choices, ∀ v ∈ choice.variants, c.HasSchema v := by
  constructor
  · refine fun h => ⟨fun d hd f hf type htype => ?_, h.wrappers, h.choices⟩
    obtain ⟨rule, hshape⟩ := FieldShape.mem_valueType?.mp htype
    exact h.schemas d hd f hf type rule hshape
  · exact fun ⟨hschemas, hwrappers, hchoices⟩ => ⟨fun d hd f hf type rule hshape =>
      hschemas d hd f hf type (FieldShape.mem_valueType?.mpr ⟨rule, hshape⟩), hwrappers, hchoices⟩

instance (c : Catalog) : Decidable c.Closed := decidable_of_iff' _ closed_iff

/-- A draft has the fields of the schema it is drawn from. -/
@[simp] theorem fields_draftOf (s : Schema) (n : Nat) : (draftOf s n).fields = s.fields := by
  induction n with
  | zero => rfl
  | succ n ih => exact ih

theorem fields_schema (c : Catalog) (id : SchemaId) :
    (c.schema id).fields = (c.schemas.getD id.declared default).schema.fields :=
  fields_draftOf _ _

/-- The draft of a schema is found under the draft's identifier. -/
theorem schema_toDraft (c : Catalog) (id : SchemaId) :
    c.schema id.toDraft = (c.schema id).draft :=
  rfl

/-- Only a declared schema itself is immutable, not a draft. -/
theorem draft_eq_zero {c : Catalog} {id : SchemaId} (h : (c.schema id).isImmutable = true) :
    id.draft = 0 := by
  obtain ⟨declared, draft⟩ := id
  cases draft with
  | zero => rfl
  | succ n => cases h

end Catalog

/-- The placement of a type under the flexible rule. -/
def Placement.flexible (c : Catalog) : TypeKey → Placement
  | .any => .inlineOpen
  | .scalar kind => .scalar kind
  | .text => .inlineText
  | .wrapper id => .wrapped id (c.wrapper id).carrier .standard
  | .choice id => .inlineChoice id
  | .record id => if (c.schema id).isUnmanaged then .handle id false else .inlineRecord id

/-- Under the flexible rule, no record stands in a layout of fixed width. -/
theorem Placement.flexible_ne_fixed (cat : Catalog) (key : TypeKey) (id : SchemaId) :
    Placement.flexible cat key ≠ .fixedRecord id := by
  cases key with
  | record schema =>
    rw [Placement.flexible]
    split <;> exact nofun
  | _ => exact nofun

/-- Under the flexible rule, wrapped values stand as the wrapper says, in the standard layout. -/
theorem Placement.flexible_wrapped {cat : Catalog} {key : TypeKey} {wrapper : WrapperId}
    {carrier : SchemaId} {kind : LayoutKind}
    (h : Placement.wrapped wrapper carrier kind = Placement.flexible cat key) :
    carrier = (cat.wrapper wrapper).carrier ∧ kind = .standard := by
  cases key with
  | wrapper id =>
    cases h
    exact ⟨rfl, rfl⟩
  | record schema =>
    rw [Placement.flexible] at h
    split at h <;> cases h
  | _ => cases h

/-- Whether a type can be placed like this under a rule that asks for a fixed width. -/
def Placement.FixedFor (c : Catalog) (p : Placement) : TypeKey → Prop
  | .any => p = .chunkOpen
  | .scalar kind => p = .scalar kind
  | .text => p = .chunkText
  | .wrapper id => p = .wrapped id (c.wrapper id).carrier .fixed
  | .choice id => p = .chunkChoice id
  | .record id =>
    if (c.schema id).isUnmanaged then p = .handle id true
    else p = .fixedRecord id ∨ p = .chunkRecord id

namespace Catalog

/-- Records of the first schema have records of the second one standing in them. Schemas and their
drafts are not told apart. -/
def Inlines (c : Catalog) (d e : Nat) : Prop :=
  ∃ f ∈ (c.schemas.getD d default).schema.fields, ∃ type, f.shape = .value type .flexible ∧
    ∃ key ∈ (Placement.flexible c type.key).asks c, key.1.declared = e

/-- What stands in something, seen from inside. -/
def StandsIn (c : Catalog) (e d : Nat) : Prop := c.Inlines d e

end Catalog

/-! ## Bound fields -/

/-- The encoding that a field has in a layout. -/
def boundEncoding? (c : Compiler) (s : Schema) (kind : LayoutKind) (f : FieldDecl) :
    Option Encoding :=
  match f.shape with
  | .scalar kind => some (.scalar kind)
  | .width => some .ordinal
  | .sized size => if kind.isFixed then some (.forced .widest) else (s.slot? size).map .sized
  | .varint => some (if kind.isFixed then .forced .widest else .varint)
  | .array element count => if kind.isFixed then none else (s.slot? count).map (.array element)
  | .value type rule =>
    (c.placementAnswer (type.key, kind.placementRule rule)).map fun p =>
      .placed p (f.nullable && !p.encodesNull)

/-- The derivation of a field in terms of slots. -/
def boundDerivation? (s : Schema) : Option Derivation → Option (Option SlotDerivation)
  | none => some none
  | some (.lengthOf array) => (s.slot? array).map fun slot => some (.lengthOf slot)
  | some (.widthOf numbers) => (numbers.mapM s.slot?).map fun slots => some (.widthOf slots)

/-- A field with its encoding. -/
def boundField? (c : Compiler) (s : Schema) (kind : LayoutKind) (slot : Nat) (f : FieldDecl) :
    Option Binding := do
  let encoding ← boundEncoding? c s kind f
  let needs ← f.requirements.mapM s.slot?
  let derivation ← boundDerivation? s f.derivation
  some ⟨f, slot, encoding, needs, derivation⟩

/-- Fields in a row with their encodings. -/
def boundFields? (c : Compiler) (s : Schema) (kind : LayoutKind) :
    Nat → List FieldDecl → Option (List Binding)
  | _, [] => some []
  | slot, f :: rest => do
    let first ← boundField? c s kind slot f
    let others ← boundFields? c s kind (slot + 1) rest
    some (first :: others)

/-- A field is bound when its encoding, its needs and its derivation are. -/
theorem boundField?_eq_some {c : Compiler} {s : Schema} {kind : LayoutKind} {slot : Nat}
    {f : FieldDecl} {b : Binding} :
    boundField? c s kind slot f = some b ↔
      b.decl = f ∧ b.slot = slot ∧ boundEncoding? c s kind f = some b.encoding ∧
        f.requirements.mapM s.slot? = some b.needs ∧
        boundDerivation? s f.derivation = some b.derivation := by
  obtain ⟨decl, bslot, encoding, needs, derivation⟩ := b
  simp only [boundField?, Option.bind_eq_bind, Option.bind_eq_some_iff, Option.some.injEq,
    Binding.mk.injEq]
  constructor
  · rintro ⟨e, he, n, hn, d, hd, rfl, rfl, rfl, rfl, rfl⟩
    exact ⟨rfl, rfl, he, hn, hd⟩
  · rintro ⟨rfl, rfl, he, hn, hd⟩
    exact ⟨_, he, _, hn, _, hd, rfl, rfl, rfl, rfl, rfl⟩

/-- A bound encoding stays bound as the compiler grows. -/
theorem boundEncoding?_grows {c c' : Compiler} (h : c.Grows c') {s : Schema} {kind : LayoutKind}
    {f : FieldDecl} {e : Encoding} (he : boundEncoding? c s kind f = some e) :
    boundEncoding? c' s kind f = some e := by
  rw [boundEncoding?] at he ⊢
  cases hshape : f.shape with
  | value type rule =>
    simp only [hshape, Option.map_eq_some_iff] at he ⊢
    obtain ⟨p, hp, rfl⟩ := he
    exact ⟨p, h.placementAnswer hp, rfl⟩
  | _ => simpa only [hshape] using he

/-- A bound field stays bound as the compiler grows. -/
theorem boundField?_grows {c c' : Compiler} (h : c.Grows c') {s : Schema} {kind : LayoutKind}
    {slot : Nat} {f : FieldDecl} {b : Binding} (hb : boundField? c s kind slot f = some b) :
    boundField? c' s kind slot f = some b := by
  obtain ⟨hdecl, hslot, he, hrest⟩ := boundField?_eq_some.mp hb
  exact boundField?_eq_some.mpr ⟨hdecl, hslot, boundEncoding?_grows h he, hrest⟩

/-- Bound fields stay bound as the compiler grows. -/
theorem boundFields?_grows {c c' : Compiler} (h : c.Grows c') {s : Schema} {kind : LayoutKind}
    {slot : Nat} {fields : List FieldDecl} {bs : List Binding}
    (hbs : boundFields? c s kind slot fields = some bs) :
    boundFields? c' s kind slot fields = some bs := by
  induction fields generalizing slot bs with
  | nil => exact hbs
  | cons f rest ih =>
    simp only [boundFields?, Option.bind_eq_bind, Option.bind_eq_some_iff] at hbs ⊢
    obtain ⟨first, hfirst, others, hothers, hcons⟩ := hbs
    exact ⟨first, boundField?_grows h hfirst, others, ih hothers, hcons⟩

/-- The draft of a schema binds its fields like the schema. -/
theorem boundFields?_draft (c : Compiler) (s : Schema) (kind : LayoutKind) (slot : Nat)
    (fields : List FieldDecl) :
    boundFields? c s.draft kind slot fields = boundFields? c s kind slot fields := by
  induction fields generalizing slot with
  | nil => rfl
  | cons f rest ih =>
    rw [boundFields?, boundFields?, ih]
    rfl

/-- Bound fields stand in the order of the declared ones, numbered from the first slot. -/
theorem boundFields?_spec {c : Compiler} {s : Schema} {kind : LayoutKind} {slot : Nat}
    {fields : List FieldDecl} {bs : List Binding}
    (h : boundFields? c s kind slot fields = some bs) :
    bs.length = fields.length ∧ ∀ i f, fields[i]? = some f →
      ∃ b, bs[i]? = some b ∧ boundField? c s kind (slot + i) f = some b := by
  induction fields generalizing slot bs with
  | nil =>
    cases h
    simp
  | cons f rest ih =>
    simp only [boundFields?, Option.bind_eq_bind, Option.bind_eq_some_iff] at h
    obtain ⟨first, hfirst, others, hothers, hcons⟩ := h
    cases hcons
    obtain ⟨hlen, hall⟩ := ih hothers
    refine ⟨by simp [hlen], fun i g hi => ?_⟩
    -- the first field has the first slot, the others the ones after it
    cases i with
    | zero =>
      cases hi
      exact ⟨first, rfl, hfirst⟩
    | succ i =>
      obtain ⟨b, hb, hbound⟩ := hall i g hi
      exact ⟨b, hb, by rwa [show slot + (i + 1) = slot + 1 + i by omega]⟩

/-- The binding at each place, with the declaration that it binds. -/
theorem boundFields?_getElem {c : Compiler} {s : Schema} {kind : LayoutKind} {bs : List Binding}
    (h : boundFields? c s kind 0 s.fields = some bs) {i : Nat} (hi : i < bs.length) :
    ∃ f, s.fields[i]? = some f ∧ boundField? c s kind i f = some bs[i] := by
  obtain ⟨hlen, hall⟩ := boundFields?_spec h
  have hf : i < s.fields.length := by omega
  obtain ⟨b, hb, hbound⟩ := hall i s.fields[i] (List.getElem?_eq_getElem hf)
  rw [List.getElem?_eq_getElem hi] at hb
  cases hb
  rw [Nat.zero_add] at hbound
  exact ⟨_, List.getElem?_eq_getElem hf, hbound⟩

/-- The fields of a schema are numbered by their slots. -/
theorem boundFields?_numbered {c : Compiler} {s : Schema} {kind : LayoutKind} {bs : List Binding}
    (h : boundFields? c s kind 0 s.fields = some bs) : Numbered bs := by
  intro i hi
  obtain ⟨f, -, hbound⟩ := boundFields?_getElem h hi
  exact (boundField?_eq_some.mp hbound).2.1

/-- A name's slot is that of a field. -/
theorem slot?_lt {s : Schema} {name : String} {i : Nat} (h : s.slot? name = some i) :
    i < s.fields.length := by
  rw [Schema.slot?, List.findIdx?_eq_some_iff_getElem] at h
  exact h.1

/-- The slots of some names are those of fields. -/
theorem slots_lt {s : Schema} {names : List String} {slots : List Nat}
    (h : names.mapM s.slot? = some slots) : ∀ n ∈ slots, n < s.fields.length := by
  induction names generalizing slots with
  | nil =>
    cases h
    exact fun n hn => absurd hn List.not_mem_nil
  | cons name rest ih =>
    simp only [List.mapM_cons, Option.bind_eq_bind, Option.bind_eq_some_iff, Option.pure_def,
      Option.some.injEq] at h
    obtain ⟨first, hfirst, others, hothers, rfl⟩ := h
    exact List.forall_mem_cons.mpr ⟨slot?_lt hfirst, ih hothers⟩

/-- Fields need fields of the same schema. -/
theorem boundFields?_needs_lt {c : Compiler} {s : Schema} {kind : LayoutKind} {bs : List Binding}
    (h : boundFields? c s kind 0 s.fields = some bs) (slot : Nat) :
    ∀ n ∈ needsOf bs slot, n < bs.length := by
  intro n hn
  rw [needsOf] at hn
  split at hn
  · rename_i b hb
    obtain ⟨hslot, rfl⟩ := List.getElem?_eq_some_iff.mp hb
    obtain ⟨f, -, hfield⟩ := boundFields?_getElem h hslot
    rw [(boundFields?_spec h).1]
    exact slots_lt (boundField?_eq_some.mp hfield).2.2.2.1 n hn
  · exact absurd hn List.not_mem_nil

/-- The field that decides the size of a field is among those that it needs. -/
theorem governor_mem_needs {c : Compiler} {s : Schema} {kind : LayoutKind} {slot : Nat}
    {f : FieldDecl} {b : Binding} (h : boundField? c s kind slot f = some b) {g : Nat}
    (hg : b.encoding.governor? = some g) : g ∈ b.needs := by
  obtain ⟨-, -, hencoding, hneeds, -⟩ := boundField?_eq_some.mp h
  rw [boundEncoding?] at hencoding
  -- the governor is named last among the requirements
  have hlast {name : String} (hname : f.shape.governor? = some name) (hslot : s.slot? name = some g) :
      g ∈ b.needs := by
    rw [FieldDecl.requirements, hname, Option.toList_some, List.mapM_append] at hneeds
    simp only [Option.bind_eq_bind, Option.bind_eq_some_iff, List.mapM_cons, List.mapM_nil,
      hslot, Option.pure_def, Option.bind_some] at hneeds
    obtain ⟨own, -, hall⟩ := hneeds
    rw [← Option.some.inj hall]
    exact List.mem_append_right _ (List.mem_singleton.mpr rfl)
  cases hshape : f.shape with
  | sized size =>
    simp only [hshape] at hencoding
    split at hencoding
    · have henc := Option.some.inj hencoding
      rw [← henc] at hg
      cases hg
    · obtain ⟨i, hi, henc⟩ := Option.map_eq_some_iff.mp hencoding
      rw [← henc] at hg
      cases hg
      exact hlast (by rw [hshape]; rfl) hi
  | array element count =>
    simp only [hshape] at hencoding
    split at hencoding
    · cases hencoding
    · obtain ⟨i, hi, henc⟩ := Option.map_eq_some_iff.mp hencoding
      rw [← henc] at hg
      cases hg
      exact hlast (by rw [hshape]; rfl) hi
  | scalar k =>
    simp only [hshape, Option.some.injEq] at hencoding
    rw [← hencoding] at hg
    cases hg
  | width =>
    simp only [hshape, Option.some.injEq] at hencoding
    rw [← hencoding] at hg
    cases hg
  | varint =>
    simp only [hshape, Option.some.injEq] at hencoding
    rw [← hencoding] at hg
    split at hg <;> cases hg
  | value type rule =>
    simp only [hshape, Option.map_eq_some_iff] at hencoding
    obtain ⟨p, -, henc⟩ := hencoding
    rw [← henc] at hg
    cases hg

/-! ## Sizes that vary -/

namespace Compiler

/-- A layout whose size will never be seen fixed: its compilation failed, its size is not fixed, or
it would stand inside itself without end. -/
def Spoilt (c : Compiler) (key : LayoutKey) : Prop :=
  (∃ e, c.layouts.find? key = some (.done (.error e))) ∨
    (∃ l, c.answer key = some l ∧ l.size.isFixed = false) ∨
      key.2 = .standard ∧ ¬Acc c.catalog.StandsIn key.1.declared

/-- The size of an encoding depends on a spoilt layout, or everything is known of it and it is not
fixed. -/
def Varies (c : Compiler) (e : Encoding) : Prop :=
  (∃ key ∈ e.asks c.catalog, c.Spoilt key) ∨
    (∀ key ∈ e.asks c.catalog, (c.answer key).isSome) ∧ ¬c.Fixes e

/-- What a size was seen as, and why it stays so. A size that is not fixed may have been seen when
less was known. -/
def Sized (c : Compiler) (e : Encoding) (size : SizeRange) : Prop :=
  c.Fixes e ∧ size = e.sizeIn c ∨
    c.Varies e ∧ size.isFixed = false ∧ ∃ c₀ : Compiler, c₀.Grows c ∧ size = e.sizeIn c₀

/-- A spoilt key stays spoilt. -/
theorem Spoilt.grows {c c' : Compiler} (h : c.Grows c') {key : LayoutKey} (hs : c.Spoilt key) :
    c'.Spoilt key := by
  rcases hs with ⟨e, he⟩ | ⟨l, hl, hsize⟩ | ⟨hkind, hacc⟩
  · exact Or.inl ⟨e, h.layouts _ _ he⟩
  · exact Or.inr (Or.inl ⟨l, h.answer hl, hsize⟩)
  · exact Or.inr (Or.inr ⟨hkind, by rwa [h.catalog]⟩)

/-- What varies keeps varying as the compiler grows. -/
theorem Varies.grows {c c' : Compiler} (h : c.Grows c') {e : Encoding} (hv : c.Varies e) :
    c'.Varies e := by
  rcases hv with ⟨key, hkey, hs⟩ | ⟨hall, hnot⟩
  · exact Or.inl ⟨key, by rwa [h.catalog], hs.grows h⟩
  · refine Or.inr ⟨fun key hkey => ?_, ?_⟩
    · rw [h.catalog] at hkey
      rw [h.answered (hall key hkey)]
      exact hall key hkey
    · rwa [Fixes, Encoding.sizeIn_congr h.catalog fun key hkey => h.answered (hall key hkey)]

/-- A size once given stays the size. -/
theorem Sized.grows {c c' : Compiler} (h : c.Grows c') {e : Encoding} {size : SizeRange}
    (hs : c.Sized e size) : c'.Sized e size := by
  rcases hs with ⟨hfix, hsize⟩ | ⟨hv, hsize, c₀, hle, hseen⟩
  · exact Or.inl ⟨hfix.grows h, by rw [hsize, hfix.sizeIn h]⟩
  · exact Or.inr ⟨hv.grows h, hsize, c₀, hle.trans h, hseen⟩

end Compiler

/-! ## Good layouts -/

/-- Ranks that are known beforehand: whether the size of each slot varies. -/
def rankWith (bindings : List Binding) (varies : Nat → Bool) (slot : Nat) : Rank :=
  ⟨varies slot, (bindings.getD slot default).decl.name, slot⟩

/-- Numbers get the chosen widths, in the order of the fields. -/
def assigned (bindings : List Binding) (order : List Nat) (widths : List Width) : List Binding :=
  let forced := order.filter fun slot => (bindings.getD slot default).encoding.isForced
  (forced.zip widths).foldl (fun bindings (slot, width) =>
    bindings.set slot { bindings.getD slot default with encoding := .forced width }) bindings

/-- The bindings with the widths that a layout of some kind chooses. -/
def widened (kind : LayoutKind) (bindings : List Binding) (order : List Nat) : List Binding :=
  match kind with
  | .varying widths => assigned bindings order widths
  | _ => bindings

/-- A field is what its binding says. -/
structure FinishedFrom (catalog : Catalog) (s : Schema) (governors : List Nat) (b : Binding)
    (f : BoundField) : Prop where
  owner : f.owner = s.name
  name : f.name = b.decl.name
  slot : f.slot = b.slot
  typeName : f.typeName = boundTypeName catalog b
  nullable : f.nullable = b.decl.nullable
  encoding : f.encoding = b.encoding
  needs : f.needs = b.needs
  derivation : f.derivation = b.derivation
  governs : f.governs = governors.contains b.slot

/-- Whether the sizes of the bindings vary is known, and said by `varies`. -/
structure FlagsFit (c : Compiler) (bindings : List Binding) (varies : Nat → Bool) : Prop where
  fit : ∀ i (h : i < bindings.length), varies i = false ∧ c.Fixes bindings[i].encoding ∨
    varies i = true ∧ c.Varies bindings[i].encoding
  outside : ∀ i, bindings.length ≤ i → varies i = false

/-- The fields of a schema in a layout of some kind, in canonical order. -/
def FieldsGood (c : Compiler) (s : Schema) (kind : LayoutKind) (fields : List BoundField) : Prop :=
  ∃ (bindings : List Binding) (varies : Nat → Bool) (finished : List BoundField),
    let order := orderWith (rankWith bindings varies) bindings
    let wide := widened kind bindings order
    boundFields? c s kind 0 s.fields = some bindings ∧ FlagsFit c bindings varies ∧
      order.length = bindings.length ∧
      List.Forall₂ (fun b f =>
        FinishedFrom c.catalog s (wide.filterMap (·.encoding.governor?)) b f ∧
          c.Sized b.encoding f.size) wide finished ∧
      fields = order.map fun slot => finished.getD slot default

/-- A layout is what the catalog and the chosen placements make of a schema. -/
structure LayoutGood (c : Compiler) (id : SchemaId) (kind : LayoutKind) (l : Layout) : Prop where
  schema_eq : l.schema = id
  schemaName : l.schemaName = c.catalog.schemaName id
  kind_eq : l.kind = kind
  fields : FieldsGood c (c.catalog.schema id) kind l.fields
  /-- A layout of fixed width has fields of fixed size only. -/
  fixed : kind.isFixed = true → ∀ f ∈ l.fields, c.Fixes f.encoding
  size : l.size = SizeRange.sum (l.fields.map (·.size))
  parts : (l.fixedPart, l.terms) = sizeTerms 0 [] 0 l.fields
  skips : l.skips = skipSteps 0 0 l.fields
  holds : l.holdsChunks = false → ∀ f ∈ l.fields, f.encoding.holdsIn c = false
  draft : if (c.catalog.schema id).isImmutable then
      l.draft = some id.toDraft ∧ (c.answer (id.toDraft, kind)).isSome
    else l.draft = none

/-- A placement fits its type and rule, and the layouts are known that a fixed width asks for. -/
structure PlacementGood (c : Compiler) (key : TypeKey) (rule : PlacementRule) (p : Placement) :
    Prop where
  flexible : rule.isFixed = false → p = Placement.flexible c.catalog key
  fixed : rule.isFixed = true →
    p.FixedFor c.catalog key ∧ ∀ k ∈ p.asks c.catalog, (c.answer k).isSome

namespace Compiler

/-- Everything that has been compiled fits the catalog. -/
structure Good (c : Compiler) : Prop where
  closed : c.catalog.Closed
  layouts : ∀ id kind l, c.answer (id, kind) = some l → LayoutGood c id kind l
  placements : ∀ key rule p, c.placementAnswer (key, rule) = some p → PlacementGood c key rule p
  /-- A layout of fixed size does not stand inside itself. -/
  founded : ∀ id l, c.answer (id, .standard) = some l → l.size.isFixed = true →
    Acc c.catalog.StandsIn id.declared

/-- What varies is never seen fixed. -/
theorem Varies.not_fixes {c : Compiler} (hc : c.Good) {e : Encoding} (h : c.Varies e) :
    ¬c.Fixes e := by
  intro hfix
  -- a size that varies has a missing or a varying layout behind it, or has no fixed size itself
  rcases h with ⟨key, hkey, hs⟩ | ⟨-, hnot⟩
  · obtain ⟨l, hl, hsize⟩ := Encoding.asks_of_fixed hfix key hkey
    rcases hs with ⟨err, herr⟩ | ⟨l', hl', hsize'⟩ | ⟨hkind, hacc⟩
    · rw [answer_eq_some] at hl
      rw [herr] at hl
      cases hl
    · rw [hl] at hl'
      cases hl'
      rw [hsize] at hsize'
      cases hsize'
    · obtain ⟨id, kind⟩ := key
      cases hkind
      exact hacc (hc.founded id l hl hsize)
  · exact hnot hfix

/-- A size is fixed exactly when the encoding is. -/
theorem Sized.isFixed_iff {c : Compiler} (hc : c.Good) {e : Encoding} {size : SizeRange}
    (h : c.Sized e size) : size.isFixed = true ↔ c.Fixes e := by
  rcases h with ⟨hfix, rfl⟩ | ⟨hv, hsize, -⟩
  · exact Iff.rfl
  · rw [hsize]
    exact ⟨fun h => absurd h (by decide), fun hfix => (hv.not_fixes hc hfix).elim⟩

/-- A size that was fixed when it was asked for still is the size of the encoding. -/
theorem Sized.eq_sizeIn {c : Compiler} {e : Encoding} {size : SizeRange} (h : c.Sized e size)
    (hsize : size.isFixed = true) : e.sizeIn c = size := by
  rcases h with ⟨-, rfl⟩ | ⟨-, hnot, -⟩
  · rfl
  · rw [hnot] at hsize
    cases hsize

end Compiler

/-- Flags that fit keep fitting. -/
theorem FlagsFit.grows {c c' : Compiler} (h : c.Grows c') {bindings : List Binding}
    {varies : Nat → Bool} (hfit : FlagsFit c bindings varies) : FlagsFit c' bindings varies := by
  refine ⟨fun i hi => ?_, hfit.outside⟩
  rcases hfit.fit i hi with ⟨hf, hfix⟩ | ⟨hf, hv⟩
  · exact Or.inl ⟨hf, hfix.grows h⟩
  · exact Or.inr ⟨hf, hv.grows h⟩

/-- There is one way to say which sizes vary. -/
theorem FlagsFit.unique {c : Compiler} (hc : c.Good) {bindings : List Binding}
    {varies varies' : Nat → Bool} (h : FlagsFit c bindings varies)
    (h' : FlagsFit c bindings varies') : varies = varies' := by
  funext i
  by_cases hi : i < bindings.length
  · rcases h.fit i hi with ⟨hf, hfix⟩ | ⟨hf, hv⟩ <;>
      rcases h'.fit i hi with ⟨hf', hfix'⟩ | ⟨hf', hv'⟩
    · rw [hf, hf']
    · exact (hv'.not_fixes hc hfix).elim
    · exact (hv.not_fixes hc hfix').elim
    · rw [hf, hf']
  · rw [h.outside i (by omega), h'.outside i (by omega)]

/-- Good fields stay good. -/
theorem FieldsGood.grows {c c' : Compiler} (h : c.Grows c') {s : Schema} {kind : LayoutKind}
    {fields : List BoundField} (hf : FieldsGood c s kind fields) : FieldsGood c' s kind fields := by
  obtain ⟨bindings, varies, finished, hbound, hfit, hlen, hall, hfields⟩ := hf
  refine ⟨bindings, varies, finished, boundFields?_grows h hbound, hfit.grows h, hlen, ?_, hfields⟩
  refine hall.imp fun b f hbf => ⟨?_, hbf.2.grows h⟩
  rw [h.catalog]
  exact hbf.1

/-- A good layout stays good. -/
theorem LayoutGood.grows {c c' : Compiler} (h : c.Grows c') {id : SchemaId} {kind : LayoutKind}
    {l : Layout} (hl : LayoutGood c id kind l) : LayoutGood c' id kind l where
  schema_eq := hl.schema_eq
  schemaName := by rw [h.catalog]; exact hl.schemaName
  kind_eq := hl.kind_eq
  fields := by rw [h.catalog]; exact hl.fields.grows h
  fixed := fun hkind f hf => (hl.fixed hkind f hf).grows h
  size := hl.size
  parts := hl.parts
  skips := hl.skips
  holds := fun hno f hf => Compiler.holdsIn_false h (hl.holds hno f hf)
  draft := by
    have hdraft := hl.draft
    rw [h.catalog]
    split at hdraft
    · rw [if_pos ‹_›]
      exact ⟨hdraft.1, by rw [h.answered hdraft.2]; exact hdraft.2⟩
    · rw [if_neg ‹_›]
      exact hdraft

/-- A good placement stays good. -/
theorem PlacementGood.grows {c c' : Compiler} (h : c.Grows c') {key : TypeKey}
    {rule : PlacementRule} {p : Placement} (hp : PlacementGood c key rule p) :
    PlacementGood c' key rule p := by
  refine ⟨fun hrule => ?_, fun hrule => ?_⟩
  · rw [h.catalog]
    exact hp.flexible hrule
  · obtain ⟨hfor, hall⟩ := hp.fixed hrule
    rw [h.catalog]
    exact ⟨hfor, fun k hk => by rw [h.answered (hall k hk)]; exact hall k hk⟩

/-! ## What the fields of a good layout are -/

/-- A binding with a width chosen for it. -/
def Widens (b b' : Binding) : Prop :=
  b' = b ∨ ∃ width width', b.encoding = .forced width ∧
    b' = { b with encoding := .forced width' }

/-- Assigning widths changes only the widths of forced numbers. -/
theorem assigned_widens (bindings : List Binding) (order : List Nat) (widths : List Width) :
    List.Forall₂ Widens bindings (assigned bindings order widths) := by
  -- only slots of forced numbers are touched
  have hgen : ∀ (pairs : List (Nat × Width)) (current : List Binding),
      (∀ pair ∈ pairs, (bindings.getD pair.1 default).encoding.isForced = true) →
      List.Forall₂ Widens bindings current →
      List.Forall₂ Widens bindings (pairs.foldl (fun bindings (slot, width) =>
        bindings.set slot { bindings.getD slot default with encoding := .forced width })
          current) := by
    intro pairs
    -- each width goes to the next number in the order, which is looked up among bindings that widen
    -- the old ones
    induction pairs with
    | nil => exact fun current _ h => h
    | cons pair rest ih =>
      obtain ⟨slot, width⟩ := pair
      intro current hforced h
      refine ih _ (fun p hp => hforced p (List.mem_cons_of_mem _ hp)) ?_
      have hlen := h.length_eq
      have hslot := hforced _ List.mem_cons_self
      rw [List.forall₂_iff_get]
      refine ⟨by rw [List.length_set, hlen], fun i hi hi' => ?_⟩
      have hold := (List.forall₂_iff_get.mp h).2 i hi (by omega)
      simp only [List.get_eq_getElem, List.getElem_set] at hold ⊢
      by_cases heq : slot = i
      · subst heq
        rw [if_pos rfl, List.getD_eq_getElem _ _ (by omega)]
        rw [List.getD_eq_getElem _ _ hi] at hslot
        have hwide : ∃ w, bindings[slot].encoding = .forced w := by
          cases henc : bindings[slot].encoding with
          | forced w => exact ⟨w, rfl⟩
          | _ => simp [henc, Encoding.isForced] at hslot
        obtain ⟨w, hw⟩ := hwide
        refine Or.inr ⟨w, width, hw, ?_⟩
        rcases hold with hsame | ⟨v, v', -, hchanged⟩
        · rw [hsame]
        · rw [hchanged]
      · rw [if_neg heq]
        exact hold
  refine hgen _ _ ?_ (List.forall₂_same.mpr fun b _ => Or.inl rfl)
  intro pair hpair
  have hmem := (List.of_mem_zip hpair).1
  exact (List.mem_filter.mp hmem).2

/-- Widening for a layout kind changes only the widths. -/
theorem widened_widens (kind : LayoutKind) (bindings : List Binding) (order : List Nat) :
    List.Forall₂ Widens bindings (widened kind bindings order) := by
  cases kind with
  | varying widths => exact assigned_widens bindings order widths
  | standard => exact List.forall₂_same.mpr fun b _ => Or.inl rfl
  | fixed => exact List.forall₂_same.mpr fun b _ => Or.inl rfl

/-- A widened encoding has the same governor. -/
theorem Widens.governor? {b b' : Binding} (h : Widens b b') :
    b'.encoding.governor? = b.encoding.governor? := by
  rcases h with rfl | ⟨w, w', hb, rfl⟩
  · rfl
  · rw [hb]
    rfl

/-- Widened bindings have the same governors. -/
theorem filterMap_governor? {bs wide : List Binding} (h : List.Forall₂ Widens bs wide) :
    wide.filterMap (·.encoding.governor?) = bs.filterMap (·.encoding.governor?) := by
  induction h with
  | nil => rfl
  | cons hb _ ih => simp only [List.filterMap_cons, hb.governor?, ih]

/-- The encoding of a field: as the declaration says, perhaps with a width chosen by the layout. -/
def EncodingOf (c : Compiler) (s : Schema) (kind : LayoutKind) (decl : FieldDecl) (e : Encoding) :
    Prop :=
  boundEncoding? c s kind decl = some e ∨
    ∃ width width', boundEncoding? c s kind decl = some (.forced width) ∧ e = .forced width'

/-- A field of a good layout and the declaration that it comes from. -/
structure FieldGood (c : Compiler) (s : Schema) (kind : LayoutKind) (decl : FieldDecl)
    (f : BoundField) : Prop where
  declared : s.fields[f.slot]? = some decl
  owner : f.owner = s.name
  name : f.name = decl.name
  nullable : f.nullable = decl.nullable
  encoding : EncodingOf c s kind decl f.encoding
  needs : decl.requirements.mapM s.slot? = some f.needs
  derivation : boundDerivation? s decl.derivation = some f.derivation
  sized : c.Sized f.encoding f.size

/-- A good field stays good. -/
theorem FieldGood.grows {c c' : Compiler} (h : c.Grows c') {s : Schema} {kind : LayoutKind}
    {decl : FieldDecl} {f : BoundField} (hf : FieldGood c s kind decl f) :
    FieldGood c' s kind decl f := by
  refine ⟨hf.declared, hf.owner, hf.name, hf.nullable, ?_, hf.needs, hf.derivation,
    hf.sized.grows h⟩
  rcases hf.encoding with hsame | ⟨w, w', hforced, heq⟩
  · exact Or.inl (boundEncoding?_grows h hsame)
  · exact Or.inr ⟨w, w', boundEncoding?_grows h hforced, heq⟩

namespace FieldsGood

variable {c : Compiler} {s : Schema} {kind : LayoutKind} {fields : List BoundField}

/-- The fields with what they come from: `finished` has the field of each slot in its place. -/
theorem unfolded (h : FieldsGood c s kind fields) :
    ∃ (bindings : List Binding) (order : List Nat) (finished : List BoundField),
      Numbered bindings ∧ bindings.length = s.fields.length ∧
      order.Perm (List.range s.fields.length) ∧
      (∀ before slot after, order = before ++ slot :: after →
        ∀ n ∈ needsOf bindings slot, n ∈ before) ∧
      fields = order.map (fun slot => finished.getD slot default) ∧
      finished.length = s.fields.length ∧
      ∀ i b f, bindings[i]? = some b → finished[i]? = some f →
        f.slot = i ∧ f.needs = b.needs ∧ f.encoding.governor? = b.encoding.governor? ∧
          (f.governs = true ↔ ∃ b' ∈ bindings, b'.encoding.governor? = some i) ∧
          ∃ decl, FieldGood c s kind decl f ∧ boundField? c s kind i decl = some b := by
  obtain ⟨bindings, varies, finished, hbound, hfit, hlen, hall, rfl⟩ := h
  have hnum := boundFields?_numbered hbound
  have hcount := (boundFields?_spec hbound).1
  have hrank : ∀ i, (rankWith bindings varies i).slot = i := fun _ => rfl
  have hwide := widened_widens kind bindings (orderWith (rankWith bindings varies) bindings)
  have hgov : (widened kind bindings (orderWith (rankWith bindings varies) bindings)).filterMap
      (·.encoding.governor?) = bindings.filterMap (·.encoding.governor?) :=
    filterMap_governor? hwide
  refine ⟨bindings, orderWith (rankWith bindings varies) bindings, finished, hnum, hcount, ?_,
    fun before slot after heq => orderWith_needs _ hrank hnum heq, rfl, ?_, ?_⟩
  · rw [← hcount]
    exact orderWith_perm _ hrank hnum hlen
  · rw [← hcount, hwide.length_eq, hall.length_eq]
  · intro i b f hb hf
    obtain ⟨hi, rfl⟩ := List.getElem?_eq_some_iff.mp hb
    obtain ⟨hi', rfl⟩ := List.getElem?_eq_some_iff.mp hf
    obtain ⟨decl, hdecl, hfield⟩ := boundFields?_getElem hbound hi
    obtain ⟨hbdecl, hbslot, hbenc, hbneeds, hbder⟩ := boundField?_eq_some.mp hfield
    have hw : i < (widened kind bindings
        (orderWith (rankWith bindings varies) bindings)).length := by
      rw [← hwide.length_eq]
      exact hi
    obtain ⟨hfin, hsized⟩ := (List.forall₂_iff_get.mp hall).2 i hw hi'
    have hwidens := (List.forall₂_iff_get.mp hwide).2 i hi hw
    simp only [List.get_eq_getElem] at hfin hsized hwidens
    rw [hgov] at hfin
    -- choosing a width changes nothing but the encoding
    have hrest : (widened kind bindings (orderWith (rankWith bindings varies) bindings))[i].decl =
          bindings[i].decl ∧
        (widened kind bindings (orderWith (rankWith bindings varies) bindings))[i].slot =
          bindings[i].slot ∧
        (widened kind bindings (orderWith (rankWith bindings varies) bindings))[i].needs =
          bindings[i].needs ∧
        (widened kind bindings (orderWith (rankWith bindings varies) bindings))[i].derivation =
          bindings[i].derivation := by
      rcases hwidens with heq | ⟨w, w', -, heq⟩ <;> rw [heq] <;> exact ⟨rfl, rfl, rfl, rfl⟩
    obtain ⟨hwdecl, hwslot, hwneeds, hwder⟩ := hrest
    have hslot : finished[i].slot = i := by rw [hfin.slot, hwslot, hbslot]
    refine ⟨hslot, by rw [hfin.needs, hwneeds], by rw [hfin.encoding, hwidens.governor?], ?_,
      decl, ⟨?_, hfin.owner, ?_, ?_, ?_, ?_, ?_, ?_⟩, hfield⟩
    · rw [hfin.governs, hwslot, hbslot, List.contains_iff_mem, List.mem_filterMap]
    · rw [hslot]
      exact hdecl
    · rw [hfin.name, hwdecl, hbdecl]
    · rw [hfin.nullable, hwdecl, hbdecl]
    · rw [hfin.encoding]
      rcases hwidens with heq | ⟨w, w', hforced, heq⟩
      · rw [heq]
        exact Or.inl hbenc
      · rw [hforced] at hbenc
        exact Or.inr ⟨w, w', hbenc, by rw [heq]⟩
    · rw [hfin.needs, hwneeds]
      exact hbneeds
    · rw [hfin.derivation, hwder]
      exact hbder
    · rw [hfin.encoding]
      exact hsized

/-- Every slot of the schema has one field. -/
theorem slots_perm (h : FieldsGood c s kind fields) :
    (fields.map (·.slot)).Perm (List.range s.fields.length) := by
  obtain ⟨bindings, order, finished, hnum, hcount, hperm, -, rfl, hlen, hall⟩ := h.unfolded
  rw [List.map_map]
  refine List.Perm.trans (List.Perm.of_eq ?_) hperm
  refine (List.map_congr_left fun i hi => ?_).trans (List.map_id order)
  have hlt : i < s.fields.length := List.mem_range.mp (hperm.mem_iff.mp hi)
  have hfin := hall i bindings[i] finished[i] (List.getElem?_eq_getElem (by omega))
    (List.getElem?_eq_getElem (by omega))
  simp only [Function.comp_apply, List.getD_eq_getElem _ _ (show i < finished.length by omega),
    id_eq]
  exact hfin.1

/-- Good fields stand in different slots. -/
theorem slots_nodup (h : FieldsGood c s kind fields) : (fields.map (·.slot)).Nodup :=
  h.slots_perm.nodup_iff.mpr List.nodup_range

/-- Every field comes from a declaration. -/
theorem declared (h : FieldsGood c s kind fields) {f : BoundField} (hf : f ∈ fields) :
    ∃ decl, FieldGood c s kind decl f := by
  obtain ⟨bindings, order, finished, hnum, hcount, hperm, -, rfl, hlen, hall⟩ := h.unfolded
  obtain ⟨i, hi, rfl⟩ := List.mem_map.mp hf
  have hlt : i < s.fields.length := List.mem_range.mp (hperm.mem_iff.mp hi)
  obtain ⟨-, -, -, -, decl, hgood, -⟩ := hall i bindings[i] finished[i]
    (List.getElem?_eq_getElem (by omega)) (List.getElem?_eq_getElem (by omega))
  rw [List.getD_eq_getElem _ _ (by omega)]
  exact ⟨decl, hgood⟩

/-- Every field comes after the fields that it needs. -/
theorem needs_before (h : FieldsGood c s kind fields) {before after : List BoundField}
    {f : BoundField} (heq : fields = before ++ f :: after) {n : Nat} (hn : n ∈ f.needs) :
    n ∈ before.map (·.slot) := by
  obtain ⟨bindings, order, finished, hnum, hcount, hperm, hneeds, rfl, hlen, hall⟩ := h.unfolded
  obtain ⟨first, last, rfl, hfirst, hlast⟩ := List.map_eq_append_iff.mp heq
  obtain ⟨slot, rest, rfl, hslot, -⟩ := List.map_eq_cons_iff.mp hlast
  have hin : ∀ i ∈ first ++ slot :: rest, i < s.fields.length := fun i hi =>
    List.mem_range.mp (hperm.mem_iff.mp hi)
  have hlt := hin slot (by simp)
  have hfin := hall slot bindings[slot] finished[slot] (List.getElem?_eq_getElem (by omega))
    (List.getElem?_eq_getElem (by omega))
  rw [List.getD_eq_getElem _ _ (by omega)] at hslot
  rw [← hslot, hfin.2.1] at hn
  have hmem := hneeds first slot rest rfl n
    (by rw [needsOf, List.getElem?_eq_getElem (by omega)]; exact hn)
  rw [← hfirst, List.map_map]
  refine List.mem_map.mpr ⟨n, hmem, ?_⟩
  have hnlt := hin n (List.mem_append_left _ hmem)
  have hnfin := hall n bindings[n] finished[n] (List.getElem?_eq_getElem (by omega))
    (List.getElem?_eq_getElem (by omega))
  simp only [Function.comp_apply, List.getD_eq_getElem _ _ (show n < finished.length by omega)]
  exact hnfin.1

/-- The governor of a field is among the fields that it needs. -/
theorem governor_mem (h : FieldsGood c s kind fields) {f : BoundField} (hf : f ∈ fields) {g : Nat}
    (hg : f.encoding.governor? = some g) : g ∈ f.needs := by
  obtain ⟨bindings, order, finished, hnum, hcount, hperm, hneeds, rfl, hlen, hall⟩ := h.unfolded
  obtain ⟨i, hi, rfl⟩ := List.mem_map.mp hf
  have hlt : i < s.fields.length := List.mem_range.mp (hperm.mem_iff.mp hi)
  obtain ⟨-, hfneeds, hfgov, -, decl, -, hbound⟩ := hall i bindings[i] finished[i]
    (List.getElem?_eq_getElem (by omega)) (List.getElem?_eq_getElem (by omega))
  rw [List.getD_eq_getElem _ _ (by omega)] at hg ⊢
  rw [hfneeds]
  rw [hfgov] at hg
  exact governor_mem_needs hbound hg

/-- Every field comes after the field that decides its size. -/
theorem governor_before (h : FieldsGood c s kind fields) {before after : List BoundField}
    {f : BoundField} (heq : fields = before ++ f :: after) {g : Nat}
    (hg : f.encoding.governor? = some g) : g ∈ before.map (·.slot) :=
  h.needs_before heq (h.governor_mem (by rw [heq]; simp) hg)

/-- A field governs if it decides the size of another one. -/
theorem governs_iff (h : FieldsGood c s kind fields) {f : BoundField} (hf : f ∈ fields) :
    f.governs = true ↔ ∃ g ∈ fields, g.encoding.governor? = some f.slot := by
  -- the flags were set from the bindings; a place in the order and a binding of the same slot are
  -- the same field
  obtain ⟨bindings, order, finished, hnum, hcount, hperm, hneeds, rfl, hlen, hall⟩ := h.unfolded
  obtain ⟨i, hi, rfl⟩ := List.mem_map.mp hf
  have hlt : i < s.fields.length := List.mem_range.mp (hperm.mem_iff.mp hi)
  obtain ⟨hslot, -, -, hgoverns, -⟩ := hall i bindings[i] finished[i]
    (List.getElem?_eq_getElem (by omega)) (List.getElem?_eq_getElem (by omega))
  rw [List.getD_eq_getElem _ _ (by omega), hgoverns, hslot]
  constructor
  · rintro ⟨b, hb, hgov⟩
    obtain ⟨j, hj, rfl⟩ := List.getElem_of_mem hb
    have hfin := hall j bindings[j] finished[j] (List.getElem?_eq_getElem (by omega))
      (List.getElem?_eq_getElem (by omega))
    refine ⟨finished.getD j default, List.mem_map.mpr ⟨j, ?_, rfl⟩, ?_⟩
    · exact hperm.mem_iff.mpr (List.mem_range.mpr (by omega))
    · rw [List.getD_eq_getElem _ _ (by omega), hfin.2.2.1]
      exact hgov
  · rintro ⟨g, hg, hgov⟩
    obtain ⟨j, hj, rfl⟩ := List.mem_map.mp hg
    have hjlt : j < s.fields.length := List.mem_range.mp (hperm.mem_iff.mp hj)
    have hfin := hall j bindings[j] finished[j] (List.getElem?_eq_getElem (by omega))
      (List.getElem?_eq_getElem (by omega))
    refine ⟨bindings[j], List.getElem_mem (by omega), ?_⟩
    rw [List.getD_eq_getElem _ _ (by omega), hfin.2.2.1] at hgov
    exact hgov

end FieldsGood

/-- Each field has a slot of its own, which decides the size of no field before it. -/
def InRow (fields : List BoundField) : Prop :=
  fields.Pairwise fun f g => f.slot ≠ g.slot ∧ f.encoding.governor? ≠ some g.slot

/-- Good fields stand in a row, each after those it needs. -/
theorem FieldsGood.inRow {c : Compiler} {s : Schema} {kind : LayoutKind} {fields : List BoundField}
    (h : FieldsGood c s kind fields) : InRow fields := by
  have hgen : ∀ before rest : List BoundField, fields = before ++ rest → InRow rest := by
    intro before rest
    induction rest generalizing before with
    | nil => exact fun _ => List.Pairwise.nil
    | cons f rest ih =>
      intro heq
      refine List.pairwise_cons.mpr ⟨fun g hg => ?_, ih (before ++ [f]) (by rw [heq]; simp)⟩
      have hnodup := h.slots_nodup
      rw [heq, List.map_append, List.nodup_append'] at hnodup
      obtain ⟨-, hrest, hdisj⟩ := hnodup
      have hlater : g.slot ∈ rest.map (·.slot) := List.mem_map_of_mem hg
      constructor
      · intro hsame
        rw [List.map_cons, List.nodup_cons, hsame] at hrest
        exact hrest.1 hlater
      · intro hgovernor
        exact hdisj (h.governor_before heq hgovernor) (List.mem_cons_of_mem _ hlater)
  exact hgen [] fields rfl

/-- Two fields stand for the same slot in the same way. -/
structure SameField (f f' : BoundField) : Prop where
  slot : f'.slot = f.slot
  name : f'.name = f.name
  nullable : f'.nullable = f.nullable
  encoding : f'.encoding = f.encoding
  needs : f'.needs = f.needs
  derivation : f'.derivation = f.derivation
  governs : f'.governs = f.governs

/-- Layouts have the same fields in the same order if these are bound in the same way and the same
sizes were seen to vary. -/
theorem FieldsGood.agree {c c' : Compiler} {s s' : Schema} {kind : LayoutKind}
    {fields fields' : List BoundField} (h : FieldsGood c s kind fields)
    (h' : FieldsGood c' s' kind fields')
    (hsame : ∀ bs bs' varies varies', boundFields? c s kind 0 s.fields = some bs →
      boundFields? c' s' kind 0 s'.fields = some bs' → FlagsFit c bs varies →
      FlagsFit c' bs' varies' → bs' = bs ∧ varies' = varies) :
    List.Forall₂ (fun f f' => SameField f f' ∧ c.Sized f.encoding f.size ∧
      c'.Sized f.encoding f'.size) fields fields' := by
  obtain ⟨bindings, varies, finished, hbound, hfit, hlen, hall, rfl⟩ := h
  obtain ⟨bindings', varies', finished', hbound', hfit', hlen', hall', rfl⟩ := h'
  obtain ⟨rfl, rfl⟩ := hsame _ _ _ _ hbound hbound' hfit hfit'
  have hwide := widened_widens kind bindings' (orderWith (rankWith bindings' varies') bindings')
  rw [List.forall₂_map_left_iff, List.forall₂_map_right_iff, List.forall₂_same]
  intro slot hslot
  have hlt := orderWith_lt _ (fun _ => rfl) (boundFields?_numbered hbound') slot hslot
  have hw := hwide.length_eq ▸ hlt
  have hi := hall.length_eq ▸ hw
  have hi' := hall'.length_eq ▸ hw
  obtain ⟨hfin, hsized⟩ := (List.forall₂_iff_get.mp hall).2 slot hw hi
  obtain ⟨hfin', hsized'⟩ := (List.forall₂_iff_get.mp hall').2 slot hw hi'
  rw [← hfin.encoding] at hsized hsized'
  rw [List.getD_eq_getElem _ _ hi, List.getD_eq_getElem _ _ hi']
  exact ⟨⟨hfin'.slot.trans hfin.slot.symm, hfin'.name.trans hfin.name.symm,
    hfin'.nullable.trans hfin.nullable.symm, hfin'.encoding.trans hfin.encoding.symm,
    hfin'.needs.trans hfin.needs.symm, hfin'.derivation.trans hfin.derivation.symm,
    hfin'.governs.trans hfin.governs.symm⟩, hsized, hsized'⟩

/-- A schema and its draft have the same fields in the same order: whenever the sizes were asked
for, the same ones were seen to vary. -/
theorem FieldsGood.draft_agree {c : Compiler} (hc : c.Good) {s : Schema} {kind : LayoutKind}
    {fields fields' : List BoundField} (h : FieldsGood c s kind fields)
    (h' : FieldsGood c s.draft kind fields') : List.Forall₂ SameField fields fields' := by
  refine (h.agree h' fun bs bs' varies varies' hbound hbound' hfit hfit' => ?_).imp
    fun _ _ => And.left
  rw [boundFields?_draft, show s.draft.fields = s.fields from rfl, hbound] at hbound'
  cases hbound'
  exact ⟨rfl, hfit'.unique hc hfit⟩

end RecordLayout
