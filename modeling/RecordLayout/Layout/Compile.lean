import RecordLayout.Layout.Basic

/-!
# Compiling layouts

Compiling a schema binds each field to an encoding and puts the fields in canonical order: every
field after the fields it needs, and among the fields that are ready those of fixed size first,
then by name. Byte offsets follow the canonical order, so it does not depend on the order of
declaration.

Results are kept, failures included. A layout whose compilation is still running is asked for again
when a type stands inside itself; its size then counts as unknown. At a fixed width, a record that
has no fixed layout is stored behind a reference instead.

* `Compiler` — the catalog and what has been compiled so far;
* `canonicalOrder` — the order of the fields;
* `layoutWithin` — one layout, given how deep compilations may ask for each other;
* `Compiler.layout`, `Compiler.placement` — the layout of a schema, the placement of a type.
-/

namespace RecordLayout

/-- The catalog and what has been compiled from it. -/
structure Compiler where
  catalog : Catalog
  layouts : Memo LayoutKey FormatError Layout
  placements : Memo (TypeKey × PlacementRule) FormatError Placement
  deriving Inhabited

/-- An operation that may compile. -/
abbrev CompileM := EStateM FormatError Compiler

/-- A way to ask for the layout of a schema. -/
abbrev LayoutOf := SchemaId → LayoutKind → CompileM Layout

namespace Compiler

/-- Nothing is compiled yet. -/
def ofCatalog (c : Catalog) : Compiler := ⟨c, .empty, .empty⟩

/-- Where layouts are kept. -/
def layoutMemo : Part Compiler (Memo LayoutKey FormatError Layout) :=
  ⟨(·.layouts), fun m c => { c with layouts := m }⟩

/-- Where placements are kept. -/
def placementMemo : Part Compiler (Memo (TypeKey × PlacementRule) FormatError Placement) :=
  ⟨(·.placements), fun m c => { c with placements := m }⟩

/-- The types that compiled layouts and placements refer to. -/
def types (c : Compiler) : List TypeKey :=
  c.layouts.values.map (fun l => .record l.schema) ++ c.placements.values.flatMap Placement.types

end Compiler

/-- The catalog. -/
def theCatalog : CompileM Catalog := fun c => .ok c.catalog c

/-! ## Sizes and references of placements -/

/-- Asks for a layout and falls back on a value if there is none. -/
def whenLaidOut {α : Type} (layoutOf : LayoutOf) (schema : SchemaId) (kind : LayoutKind)
    (use : Layout → α) (otherwise : α) : CompileM α := fun c =>
  match layoutOf schema kind c with
  | .ok l c => .ok (use l) c
  | .error _ c => .ok otherwise c

/-- The size of a tagged variant: one of the sizes so far, or the tag `tag` with one of the
further variants. -/
def variantSize (layoutOf : LayoutOf) : Nat → SizeRange → List SchemaId → CompileM SizeRange
  | _, size, [] => pure size
  | tag, size, variant :: rest => do
    let body ← whenLaidOut layoutOf variant .standard (some ·.size) none
    match body with
    | none => pure (.atLeast 1)
    | some body =>
      let tagged := (SizeRange.fixed (Varint.length (UInt64.ofNat tag))).add body
      variantSize layoutOf (tag + 1) (size.union tagged) rest

/-- Whether a variant may hold references; one without a layout counts as such. -/
def variantHoldsChunks (layoutOf : LayoutOf) : List SchemaId → CompileM Bool
  | [] => pure false
  | variant :: rest => do
    let holds ← whenLaidOut layoutOf variant .standard (·.holdsChunks) true
    if holds then pure true else variantHoldsChunks layoutOf rest

namespace Placement

/-- What is known of the size of a placed value. -/
def size (layoutOf : LayoutOf) : Placement → CompileM SizeRange
  | .scalar kind => pure (.fixed kind.bytes)
  | .inlineText | .inlineOpen => pure (.atLeast 1)
  | .chunkText | .chunkRecord _ => pure (.fixed ChunkId.fixedBytes)
  | .inlineRecord id => whenLaidOut layoutOf id .standard (·.size) (.atLeast 0)
  | .fixedRecord id => whenLaidOut layoutOf id .fixed (·.size) (.atLeast 0)
  | .wrapped _ carrier kind => whenLaidOut layoutOf carrier kind (·.size) (.atLeast 0)
  | .handle _ true => pure (.fixed ChunkId.fixedBytes)
  | .handle _ false => pure (.bounded 1 Varint.maxLength)
  | .inlineChoice id => do
    let c ← theCatalog
    variantSize layoutOf 1 (.fixed 1) (c.choice id).variants
  | .chunkChoice _ | .chunkOpen => pure (.fixed taggedBytes)

/-- The number of bytes that every placed value takes, if that is known. -/
def inlineSize (layoutOf : LayoutOf) (p : Placement) : CompileM (Option Nat) := do
  let size ← p.size layoutOf
  pure size.fixed?

/-- Whether placed values may hold references to chunks. -/
def holdsChunks (layoutOf : LayoutOf) : Placement → CompileM Bool
  | .scalar _ | .inlineText => pure false
  | .inlineRecord id => whenLaidOut layoutOf id .standard (·.holdsChunks) true
  | .fixedRecord id => whenLaidOut layoutOf id .fixed (·.holdsChunks) true
  | .wrapped _ carrier kind => whenLaidOut layoutOf carrier kind (·.holdsChunks) true
  | .inlineChoice id => do
    let c ← theCatalog
    variantHoldsChunks layoutOf (c.choice id).variants
  | .chunkText | .chunkRecord _ | .handle _ _ | .chunkChoice _ | .inlineOpen | .chunkOpen =>
    pure true

end Placement

namespace Encoding

/-- What is known of the size of an encoded slot. -/
def size (layoutOf : LayoutOf) : Encoding → CompileM SizeRange
  | .scalar kind => pure (.fixed kind.bytes)
  | .ordinal => pure (.fixed 1)
  | .sized _ => pure (.bounded 0 Width.widest.bytes)
  | .forced width => pure (.fixed width.bytes)
  | .varint => pure (.bounded 1 Varint.maxLength)
  | .array _ _ => pure (.atLeast 0)
  | .placed placement false => placement.size layoutOf
  | .placed placement true => do
    let inner ← placement.size layoutOf
    let body := if inner.isFixed then inner else inner.union (.fixed 0)
    pure ((SizeRange.fixed 1).add body)

/-- Whether an encoded slot may hold references to chunks. -/
def holdsChunks (layoutOf : LayoutOf) : Encoding → CompileM Bool
  | .placed placement _ => placement.holdsChunks layoutOf
  | _ => pure false

end Encoding

/-! ## Choosing placements -/

/-- The placement of a record in a slot of fixed width: its fixed layout, or a reference if it has
none. -/
def placeFixedRecord (layoutOf : LayoutOf) (id : SchemaId) : CompileM Placement := fun c =>
  match layoutOf id .fixed c with
  | .ok _ c => .ok (.fixedRecord id) c
  | .error e c => if e.isLayout || e.isRecursive then .ok (.chunkRecord id) c else .error e c

/-- The placement of a wrapper in a slot of fixed width, which must have a fixed layout. -/
def placeFixedWrapper (layoutOf : LayoutOf) (id : WrapperId) (w : Wrapper) : CompileM Placement :=
  fun c => match layoutOf w.carrier .fixed c with
    | .ok _ c => .ok (.wrapped id w.carrier .fixed) c
    | .error e c =>
      .error (if e.isLayout || e.isRecursive then .fixedUnsupported w.name e else e) c

/-- The placement of values of a type under a rule. A back reference has been followed before. -/
def place (layoutOf : LayoutOf) (type : ValueType) (rule : PlacementRule) : CompileM Placement := do
  let c ← theCatalog
  let fixed := rule.isFixed
  match type with
  | .any => pure (if fixed then .chunkOpen else .inlineOpen)
  | .scalar kind => pure (.scalar kind)
  | .text => pure (if fixed then .chunkText else .inlineText)
  | .wrapper id =>
    let w := c.wrapper id
    if fixed then placeFixedWrapper layoutOf id w
    else pure (.wrapped id w.carrier .standard)
  | .choice id => pure (if fixed then .chunkChoice id else .inlineChoice id)
  | .record id | .back id _ =>
    if (c.schema id).isUnmanaged then pure (.handle id fixed)
    else if fixed then placeFixedRecord layoutOf id
    else pure (.inlineRecord id)

/-- The placement of a type under a rule, chosen once. -/
def placementWith (layoutOf : LayoutOf) (type : ValueType) (rule : PlacementRule) :
    CompileM Placement :=
  Memo.fetch Compiler.placementMemo (.recursiveCompile (.placement type.key rule))
    (type.key, rule) do
      let c ← theCatalog
      let resolved ← ofExcept (c.resolve type)
      place layoutOf resolved rule

/-! ## Binding fields -/

/-- A field with its encoding, before the fields are ordered. -/
structure Binding where
  decl : FieldDecl
  slot : Nat
  encoding : Encoding
  needs : List Nat
  derivation : Option SlotDerivation
  deriving Inhabited

/-- The slot of the field with a name. -/
def slotOf (s : Schema) (name : String) : CompileM Nat :=
  match s.slot? name with
  | some i => pure i
  | none => throw (.invalidSchema s.name (.unknownField name))

/-- The encoding of a field in a layout. -/
def bindEncoding (layoutOf : LayoutOf) (s : Schema) (kind : LayoutKind) (f : FieldDecl) :
    CompileM Encoding :=
  match f.shape with
  | .scalar kind => pure (.scalar kind)
  | .width => pure .ordinal
  | .sized size =>
    if kind.isFixed then pure (.forced .widest)
    else do
      let governor ← slotOf s size
      pure (.sized governor)
  | .varint => pure (if kind.isFixed then .forced .widest else .varint)
  | .array element count =>
    if kind.isFixed then throw (.unsupportedLayout s.name (.array f.name))
    else do
      let governor ← slotOf s count
      pure (.array element governor)
  | .value type rule => do
    let placement ← placementWith layoutOf type (kind.placementRule rule)
    pure (.placed placement (f.nullable && !placement.encodesNull))

/-- The derivation of a field in terms of slots. -/
def bindDerivation (s : Schema) : Option Derivation → CompileM (Option SlotDerivation)
  | none => pure none
  | some (.lengthOf array) => do
    let slot ← slotOf s array
    pure (some (.lengthOf slot))
  | some (.widthOf numbers) => do
    let slots ← numbers.mapM (slotOf s)
    pure (some (.widthOf slots))

/-- Binds one field. In a layout of fixed width its size must be fixed. -/
def bindField (layoutOf : LayoutOf) (s : Schema) (kind : LayoutKind) (slot : Nat) (f : FieldDecl) :
    CompileM Binding := do
  let c ← theCatalog
  let encoding ← bindEncoding layoutOf s kind f
  if kind.isFixed then
    let size ← encoding.size layoutOf
    if !size.isFixed then
      throw (.unsupportedLayout s.name (.field f.name (c.shapeName f.shape)))
  let needs ← f.requirements.mapM (slotOf s)
  let derivation ← bindDerivation s f.derivation
  pure ⟨f, slot, encoding, needs, derivation⟩

/-- Binds fields in a row, the first of which has the slot `slot`. -/
def bindFields (layoutOf : LayoutOf) (s : Schema) (kind : LayoutKind) :
    Nat → List FieldDecl → CompileM (List Binding)
  | _, [] => pure []
  | slot, f :: rest => do
    let first ← bindField layoutOf s kind slot f
    let others ← bindFields layoutOf s kind (slot + 1) rest
    pure (first :: others)

/-! ## Canonical order -/

/-- What decides between fields that are ready: fixed size before variable size, then the name,
then the slot. -/
structure Rank where
  varies : Bool
  name : String
  slot : Nat
  deriving DecidableEq, Repr

namespace Rank

/-- Whether one field goes before another. -/
def before (a b : Rank) : Bool :=
  if a.varies != b.varies then b.varies
  else if a.name != b.name then a.name < b.name
  else a.slot < b.slot

/-- Puts a field among fields that are in order. -/
def insert (r : Rank) : List Rank → List Rank
  | [] => [r]
  | head :: rest => if r.before head then r :: head :: rest else head :: r.insert rest

end Rank

/-- The rank of a field. -/
def rankOf (layoutOf : LayoutOf) (b : Binding) : CompileM Rank := do
  let size ← b.encoding.size layoutOf
  pure ⟨!size.isFixed, b.decl.name, b.slot⟩

/-- The slots that wait for a slot, once per mention. -/
def waitingFor (bindings : List Binding) (slot : Nat) : List Nat :=
  bindings.flatMap fun b => (b.needs.filter (· == slot)).map fun _ => b.slot

/-- Counts off what some fields wait for and puts those that wait for nothing more among the ready
ones. `pending` holds, per slot, for how many fields it still waits. -/
def countOff (layoutOf : LayoutOf) (bindings : List Binding) :
    List Nat → List Rank → List Nat → CompileM (List Nat × List Rank)
  | pending, ready, [] => pure (pending, ready)
  | pending, ready, slot :: rest => do
    let left := pending.getD slot 0 - 1
    let pending := pending.set slot left
    if left = 0 then
      let rank ← rankOf layoutOf (bindings.getD slot default)
      countOff layoutOf bindings pending (rank.insert ready) rest
    else countOff layoutOf bindings pending ready rest

/-- Takes ready fields, at most `steps` of them, the first one first. -/
def takeReady (layoutOf : LayoutOf) (bindings : List Binding) :
    Nat → List Nat → List Rank → CompileM (List Nat)
  | 0, _, _ => pure []
  | _ + 1, _, [] => pure []
  | steps + 1, pending, first :: ready => do
    let (pending, ready) ←
      countOff layoutOf bindings pending ready (waitingFor bindings first.slot)
    let rest ← takeReady layoutOf bindings steps pending ready
    pure (first.slot :: rest)

/-- The fields that wait for nothing from the start, in order. -/
def initiallyReady (layoutOf : LayoutOf) : List Rank → List Binding → CompileM (List Rank)
  | ready, [] => pure ready
  | ready, b :: rest =>
    if b.needs.isEmpty then do
      let rank ← rankOf layoutOf b
      initiallyReady layoutOf (rank.insert ready) rest
    else initiallyReady layoutOf ready rest

/-- The slots in canonical order. -/
def canonicalOrder (layoutOf : LayoutOf) (s : Schema) (bindings : List Binding) :
    CompileM (List Nat) := do
  let ready ← initiallyReady layoutOf [] bindings
  let pending := bindings.map (·.needs.length)
  let order ← takeReady layoutOf bindings bindings.length pending ready
  if order.length = bindings.length then pure order
  else
    let stuck := bindings.filter fun b => !order.contains b.slot
    throw (.invalidSchema s.name (.cycle (stuck.map (·.decl.name))))

/-! ## Layouts -/

/-- Gives the numbers whose widths the layout sets the chosen widths, in the order of `order`. -/
def assignWidths (s : Schema) (bindings : List Binding) (order : List Nat) (widths : List Width) :
    CompileM (List Binding) :=
  let forced := order.filter fun slot => (bindings.getD slot default).encoding.isForced
  if forced.length = widths.length then
    pure <| (forced.zip widths).foldl (fun bindings (slot, width) =>
      bindings.set slot { bindings.getD slot default with encoding := .forced width }) bindings
  else throw (.invalidSchema s.name (.widthCount widths.length forced.length))

/-- The name of the type of a bound field; a set width is part of it. -/
def boundTypeName (c : Catalog) (b : Binding) : String :=
  match b.encoding with
  | .forced width => c.shapeName b.decl.shape ++ ":" ++ width.name
  | _ => c.shapeName b.decl.shape

/-- Completes a bound field; `governors` are the slots that decide the size of others. -/
def finishField (layoutOf : LayoutOf) (s : Schema) (governors : List Nat) (b : Binding) :
    CompileM BoundField := do
  let c ← theCatalog
  let size ← b.encoding.size layoutOf
  pure {
    owner := s.name
    name := b.decl.name
    slot := b.slot
    typeName := boundTypeName c b
    nullable := b.decl.nullable
    encoding := b.encoding
    size
    needs := b.needs
    derivation := b.derivation
    governs := governors.contains b.slot }

/-- The fields of a schema in canonical order. -/
def compileFields (layoutOf : LayoutOf) (s : Schema) (kind : LayoutKind) :
    CompileM (List BoundField) := do
  let bindings ← bindFields layoutOf s kind 0 s.fields
  let order ← canonicalOrder layoutOf s bindings
  let bindings ← match kind with
    | .varying widths => assignWidths s bindings order widths
    | _ => pure bindings
  let governors := bindings.filterMap (·.encoding.governor?)
  let fields ← bindings.mapM (finishField layoutOf s governors)
  pure (order.map fun slot => fields.getD slot default)

/-- Whether one of some fields may hold references to chunks. -/
def anyHoldsChunks (layoutOf : LayoutOf) : List BoundField → CompileM Bool
  | [] => pure false
  | f :: rest => do
    let holds ← f.encoding.holdsChunks layoutOf
    if holds then pure true else anyHoldsChunks layoutOf rest

/-- Compiles a layout, given how to ask for others. A schema whose records would stand inside
themselves has no layout of fixed width. -/
def compileLayout (layoutOf : LayoutOf) (id : SchemaId) (kind : LayoutKind) : CompileM Layout := do
  let c ← theCatalog
  let s := c.schema id
  if kind.isFixed && c.standsInItself id then
    throw (.recursiveCompile (.inlineCycle s.name))
  let fields ← compileFields layoutOf s kind
  let draft ←
    if s.isImmutable then do
      let draft ← layoutOf id.toDraft kind
      pure (some draft.schema)
    else pure none
  let (fixedPart, terms) := sizeTerms 0 [] 0 fields
  let holdsChunks ← anyHoldsChunks layoutOf fields
  pure {
    schema := id
    schemaName := s.name
    kind
    fields
    size := SizeRange.sum (fields.map (·.size))
    fixedPart
    terms
    skips := skipSteps 0 0 fields
    holdsChunks
    draft }

/-- The layout of a schema, compiled once; compilations may ask for each other `depth` deep. -/
def layoutWithin : Nat → LayoutOf
  | 0 => fun _ _ => throw .exhausted
  | depth + 1 => fun id kind =>
    Memo.fetch Compiler.layoutMemo (.recursiveCompile (.layout id kind)) (id, kind)
      (compileLayout (layoutWithin depth) id kind)

namespace Catalog

/-- How deep compilations can ask for each other: each schema and its draft has two layouts that
others ask for, and one more may be asked for from outside. -/
def compileDepth (c : Catalog) : Nat := 4 * c.size + 4

end Catalog

namespace Compiler

/-- The layout of a schema. -/
def layout : LayoutOf := fun id kind => do
  let c ← theCatalog
  layoutWithin c.compileDepth id kind

/-- The placement of a type under a rule. -/
def placement (type : ValueType) (rule : PlacementRule) : CompileM Placement :=
  placementWith layout type rule

/-- The layout of fixed width whose numbers take the widths that are chosen for them in order.
Where every choice is the widest, it is the plain fixed layout. -/
def chosenLayout (id : SchemaId) (choose : Nat → BoundField → Width) : CompileM Layout := do
  let fixed ← layout id .fixed
  let widths := fixed.forcedFields.mapIdx choose
  if widths.all (· == .widest) then pure fixed else layout id (.varying widths)

/-- The smallest width that holds what a record has in a number field. -/
def minimalWidth (c : Catalog) (r : Record) (f : BoundField) : Width :=
  match (c.get? r f.name).bind Value.toNat? with
  | some n => Width.fitting n
  | none => .widest

/-- The layout of fixed width with the smallest widths that hold the numbers of a record. -/
def minimalLayout (id : SchemaId) (r : Record) : CompileM Layout := do
  let c ← theCatalog
  chosenLayout id fun _ f => minimalWidth c r f

end Compiler

end RecordLayout
