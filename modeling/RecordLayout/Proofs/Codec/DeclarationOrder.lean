import Mathlib
import RecordLayout.Proofs.Codec.Reordered
import RecordLayout.Proofs.Codec.Repeated
import RecordLayout.Proofs.Codec.RoundTrip
import RecordLayout.Proofs.Layout.Verdict

/-!
# Declaration order does not matter

Two schemas with the same fields, declared in different orders, are used one after the other. Neither
refers to itself. Whatever the compiler has been asked before and in between, both have a layout or
neither has, the layouts list the same fields in the same order, and records with the same slots by name
are written as the same bytes, also if the compiler has learnt more between the two writes.

Main results:

* `Redeclares.layouts_moved` — the two layouts are the same but for the slots;
* `SameContent.reordered` — the two records are the same but for the slots;
* `LayoutMoved.writtenAlike_again` — they are written alike, one before the other;
* `declarationOrder_immaterial` — all of it.
-/

namespace RecordLayout

theorem map_eq_of_forall₂ {α β γ : Type} {R : α → β → Prop} {f : α → γ} {g : β → γ} {xs : List α}
    {ys : List β} (h : List.Forall₂ R xs ys) (heq : ∀ x y, R x y → g y = f x) :
    ys.map g = xs.map f := by
  induction h with
  | nil => rfl
  | cons hxy _ ih => rw [List.map_cons, List.map_cons, heq _ _ hxy, ih]

/-! ## Slots -/

section

variable {s s' : Schema}

theorem Redeclares.moved_moved (h : Redeclares s s') (i : Nat) : s'.moved s (s.moved s' i) = i := by
  -- a slot within the schema is that of a named field, one past the end stays where it is
  by_cases hi : i < s.fields.length
  · obtain ⟨j, hj, hslot⟩ := h.symm.named.slot?_name (h.perm.mem_iff.mpr (List.getElem_mem hi))
    have hback := h.named.slot?_iff.mpr ⟨_, List.getElem?_eq_getElem hi, rfl⟩
    have hmoved : s.moved s' i = j := by
      simp only [Schema.moved, List.getElem?_eq_getElem hi, Option.bind_some, hslot,
        Option.getD_some]
    rw [hmoved]
    simp only [Schema.moved, hj, Option.bind_some, hback, Option.getD_some]
  · have hlen := h.perm.length_eq
    have hnone : s.fields[i]? = none := List.getElem?_eq_none (by omega)
    have hnone' : s'.fields[i]? = none := List.getElem?_eq_none (by omega)
    have hmoved : s.moved s' i = i := by
      simp only [Schema.moved, hnone, Option.bind_none, Option.getD_none]
    rw [hmoved]
    simp only [Schema.moved, hnone', Option.bind_none, Option.getD_none]

/-- From the slots of a schema to those of a schema with the same fields. -/
def Redeclares.moving (h : Redeclares s s') : Equiv.Perm Nat :=
  ⟨s.moved s', s'.moved s, h.moved_moved, h.symm.moved_moved⟩

end

/-! ## Layouts -/

section

variable {cat : Catalog} {c : Compiler} {a b : SchemaId} {kind : LayoutKind}

/-- Layouts that are kept of free schemas with the same fields are the same but for the slots. -/
theorem Redeclares.layouts_moved (h : Redeclares (cat.schema a) (cat.schema b))
    (hc : Compiler.Assured cat c) (ha : cat.Free a) (hb : cat.Free b) (hkind : kind.Plain)
    {l l' : Layout} (hl : c.answer (a, kind) = some l) (hl' : c.answer (b, kind) = some l') :
    LayoutMoved h.moving l l' ∧ l'.fieldNames = l.fieldNames := by
  have hgood := hc.resting.good.layouts a kind l hl
  have hgood' := hc.resting.good.layouts b kind l' hl'
  have hfields := hgood.fields
  have hfields' := hgood'.fields
  rw [hc.catalog] at hfields hfields'
  have hsame := FieldsGood.redeclared hc.resting.good h hkind hfields hfields'
  -- sizes are final, so they are the same
  have hsizes := ((hc.verdict ha h.named hkind (Compiler.answer_eq_some.mp hl)).1 l rfl).2.2
  have hsizes' :=
    ((hc.verdict hb h.symm.named hkind (Compiler.answer_eq_some.mp hl')).1 l' rfl).2.2
  have hmoved : List.Forall₂ (FieldMoved h.moving) l.fields l'.fields := by
    refine List.forall₂_iff_get.mpr ⟨hsame.length_eq, fun i hi hi' => ?_⟩
    have hdecl := (List.forall₂_iff_get.mp hsame).2 i hi hi'
    simp only [List.get_eq_getElem] at hdecl ⊢
    refine ⟨hdecl.slot, hdecl.nullable, hdecl.encoding, hdecl.derivation, ?_⟩
    rw [hsizes _ (List.getElem_mem hi), hsizes' _ (List.getElem_mem hi'), hdecl.encoding,
      Encoding.sizeIn_moved]
  have hsize : l'.fields.map (·.size) = l.fields.map (·.size) :=
    map_eq_of_forall₂ hmoved fun _ _ hf => hf.size
  have hterms := sizeTerms_moved hmoved 0 [] 0
  rw [List.map_nil, ← hgood'.parts, ← hgood.parts] at hterms
  refine ⟨⟨hmoved, ?_, congrArg Prod.fst hterms, congrArg Prod.snd hterms⟩, ?_⟩
  · rw [hgood'.size, hgood.size, hsize]
  · exact map_eq_of_forall₂ hsame fun _ _ hf => hf.name

end

/-- Names of fields in a row: every field once, after all the fields that it needs. -/
structure ListsInOrder (s : Schema) (names : List String) : Prop where
  perm : names.Perm (s.fields.map (·.name))
  nodup : names.Nodup
  needs : ∀ before name after, names = before ++ name :: after →
    ∀ needed, s.Needs name needed → needed ∈ before

theorem FieldsGood.listsInOrder {c : Compiler} {s : Schema} {kind : LayoutKind} (hc : c.Good)
    (hs : s.Named) (hkind : kind.Plain) {fields : List BoundField}
    (h : FieldsGood c s kind fields) : ListsInOrder s (fields.map (·.name)) := by
  obtain ⟨decls, horder, hall⟩ := h.canonical hc hs hkind
  have hnames : fields.map (·.name) = decls.map (·.name) :=
    map_eq_of_forall₂ hall fun _ _ hf => hf.1.name
  have hperm : (decls.map (·.name)).Perm (s.fields.map (·.name)) := horder.perm.map _
  rw [hnames]
  refine ⟨hperm, hperm.nodup_iff.mpr hs, fun before name after heq needed hneeds => ?_⟩
  obtain ⟨first, last, hdecls, rfl, hlast⟩ := List.map_eq_append_iff.mp heq
  obtain ⟨f, rest, rfl, rfl, rfl⟩ := List.map_eq_cons_iff.mp hlast
  obtain ⟨g, hg, hname, hneeded⟩ := hneeds
  -- the names of the fields are distinct
  have hf : f ∈ s.fields := horder.perm.subset (by rw [hdecls]; simp)
  obtain rfl : g = f := List.inj_on_of_nodup_map hs hg hf hname
  exact horder.needs first g rest hdecls needed hneeded

/-! ## Records -/

/-- Two new records of schemas with the same fields: the same slots by name, and no chunks. -/
structure SameContent (cat : Catalog) (a b : SchemaId) (r r' : Record) : Prop where
  schema : r.schema = a
  schema' : r'.schema = b
  full : r.slots.length = (cat.schema a).fields.length
  full' : r'.slots.length = (cat.schema b).fields.length
  chunks : r.chunks = r.slots.map fun _ => .null
  chunks' : r'.chunks = r'.slots.map fun _ => .null
  slots : ∀ name, cat.get? r' name = cat.get? r name

theorem SameContent.reordered {cat : Catalog} {a b : SchemaId} {r r' : Record}
    (hr : SameContent cat a b r r') (h : Redeclares (cat.schema a) (cat.schema b)) :
    Reordered h.moving a b r r' := by
  have hslots : Moved h.moving r.slots r'.slots := by
    -- a slot of the first record is looked up by its field's name and found under the same name in
    -- the second
    intro i
    show r'.slots[(cat.schema a).moved (cat.schema b) i]? = r.slots[i]?
    by_cases hi : i < (cat.schema a).fields.length
    · have hslot := h.named.slot?_iff.mpr ⟨_, List.getElem?_eq_getElem hi, rfl⟩
      have hslot' := h.slot? (cat.schema a).fields[i].name
      rw [hslot, Option.map_some] at hslot'
      have hvalue := hr.slots (cat.schema a).fields[i].name
      rw [Catalog.get?, Catalog.get?, hr.schema, hr.schema', hslot, hslot', Option.map_some,
        Option.map_some, Option.some.injEq, RecordOf.slot, RecordOf.slot] at hvalue
      have hj : (cat.schema a).moved (cat.schema b) i < r'.slots.length := by
        rw [hr.full']
        exact slot?_lt hslot'
      rw [← hr.full] at hi
      rw [List.getD_eq_getElem _ _ hi, List.getD_eq_getElem _ _ hj] at hvalue
      rw [List.getElem?_eq_getElem hi, List.getElem?_eq_getElem hj, hvalue]
    · -- neither record has such a slot
      have hnone : (cat.schema a).fields[i]? = none := List.getElem?_eq_none (by omega)
      have hmoved : (cat.schema a).moved (cat.schema b) i = i := by
        simp only [Schema.moved, hnone, Option.bind_none, Option.getD_none]
      have hlen := h.perm.length_eq
      have hfull := hr.full
      have hfull' := hr.full'
      rw [hmoved, List.getElem?_eq_none (by omega), List.getElem?_eq_none (by omega)]
  refine ⟨hr.schema, hr.schema', hslots, fun i => ?_⟩
  rw [hr.chunks, hr.chunks', List.getElem?_map, List.getElem?_map, hslots i]

/-! ## Both together -/

/-- What the layout of a schema was asked for with. -/
structure LaidOutInOrder (cat : Catalog) (c : Compiler) (id : SchemaId) (kind : LayoutKind)
    (result : Except FormatError Layout) : Prop where
  /-- There is a layout exactly if all fields can be bound and no field needs itself. -/
  laidOut : (∃ l, result = .ok l) ↔ Bindable c (cat.schema id) kind ∧ ¬(cat.schema id).Circular
  /-- Once all fields are bound, ordering them fails exactly if a field needs itself. -/
  ordering : Bindable c (cat.schema id) kind →
    ((∃ e, result = .error e ∧ CycleFault (cat.schema id) e) ↔ (cat.schema id).Circular)
  listed : ∀ l, result = .ok l → ListsInOrder (cat.schema id) l.fieldNames

/-- A workspace for a second write: that of the first one, but that the compiler may have learnt what the
first write made it learn, and more. -/
def Workspace.Again (w : Workspace) (l : Layout) (out : ByteStream) (r : Record)
    (w' : Workspace) : Prop :=
  w' = w ∨ w.compiler.Resting ∧ ∃ c, (outcome (writeRecord l) ⟨w, out, r⟩).2.space.compiler.Grows c ∧
    w' = { w with compiler := c }

/-- Two records are written alike: both or neither, with the same bytes in the stream, and with
workspaces that are the same but for their compilers. -/
structure WrittenAlike (l l' : Layout) (w w' : Workspace) (out : ByteStream) (r r' : Record) :
    Prop where
  both : (outcome (writeRecord l') ⟨w', out, r'⟩).1.isOk =
    (outcome (writeRecord l) ⟨w, out, r⟩).1.isOk
  stream : (outcome (writeRecord l') ⟨w', out, r'⟩).2.stream =
    (outcome (writeRecord l) ⟨w, out, r⟩).2.stream
  space : { (outcome (writeRecord l') ⟨w', out, r'⟩).2.space with compiler := w.compiler } =
    { (outcome (writeRecord l) ⟨w, out, r⟩).2.space with compiler := w.compiler }

/-- What the layouts of two schemas were asked for with, and how their records are written. -/
structure OrderImmaterial (cat : Catalog) (c : Compiler) (a b : SchemaId) (kind : LayoutKind)
    (first second : Except FormatError Layout) : Prop where
  inOrder : LaidOutInOrder cat c a kind first
  inOrder' : LaidOutInOrder cat c b kind second
  /-- The same fields in the same order, or two failures. -/
  names : second.toOption.map Layout.fieldNames = first.toOption.map Layout.fieldNames
  written : ∀ l l', first = .ok l → second = .ok l' → ∀ w w' out r r',
    SameContent cat a b r r' → w.Again l out r w' → WrittenAlike l l' w w' out r r'

section

variable {cat : Catalog} {c : Compiler} {a b : SchemaId} {kind : LayoutKind}
  {first second : Except FormatError Layout}

theorem Compiler.Assured.laidOutInOrder (h : Assured cat c) (hfree : cat.Free a)
    (hs : (cat.schema a).Named) (hkind : kind.Plain)
    (hkept : c.layouts.find? (a, kind) = some (.done first)) :
    LaidOutInOrder cat c a kind first := by
  -- the verdict on the schema says both when a layout is given and which error is
  obtain ⟨hok, herror⟩ := h.verdict hfree hs hkind hkept
  refine ⟨⟨?_, fun hboth => ?_⟩, fun hb => ⟨?_, fun hcircle => ?_⟩, fun l hl => ?_⟩
  · rintro ⟨l, hl⟩
    exact ⟨(hok l hl).1, (hok l hl).2.1⟩
  · cases first with
    | ok l => exact ⟨l, rfl⟩
    | error e => exact absurd (herror e rfl hboth.1).1 hboth.2
  · rintro ⟨e, he, -⟩
    exact (herror e he hb).1
  · cases first with
    | ok l => exact absurd hcircle (hok l rfl).2.1
    | error e => exact ⟨e, rfl, (herror e rfl hb).2⟩
  · subst hl
    have hgood := (h.resting.good.layouts a kind l (answer_eq_some.mpr hkept)).fields
    rw [h.catalog] at hgood
    exact hgood.listsInOrder h.resting.good hs hkind

/-- Records with the same slots by name are written alike in the same workspace. -/
theorem LayoutMoved.writtenAlike {σ : Equiv.Perm Nat} {l l' : Layout} (hl : LayoutMoved σ l l')
    (hla : l.schema = a) (hlb : l'.schema = b) {r r' : Record} (hr : Reordered σ a b r r')
    (w : Workspace) (out : ByteStream) :
    (outcome (writeRecord l') ⟨w, out, r'⟩).1.isOk = (outcome (writeRecord l) ⟨w, out, r⟩).1.isOk ∧
      Beside σ a b (outcome (writeRecord l) ⟨w, out, r⟩).2
        (outcome (writeRecord l') ⟨w, out, r'⟩).2 := by
  have hrun := writeRecord_twins hl hla hlb ⟨w, out, r⟩ ⟨w, out, r'⟩ ⟨rfl, rfl, hr⟩
  unfold outcome
  generalize writeRecord l _ = result at hrun
  generalize writeRecord l' _ = result' at hrun
  cases hrun with
  | ok hrel => exact ⟨rfl, hrel⟩
  | error hrel => exact ⟨rfl, hrel⟩

/-- The same, and the second write may come later. -/
theorem LayoutMoved.writtenAlike_again {σ : Equiv.Perm Nat} {l l' : Layout}
    (hl : LayoutMoved σ l l') (hla : l.schema = a) (hlb : l'.schema = b) {r r' : Record}
    (hr : Reordered σ a b r r') {w w' : Workspace} {out : ByteStream}
    (hw : w.Again l out r w') : WrittenAlike l l' w w' out r r' := by
  obtain ⟨hboth, hbeside⟩ := hl.writtenAlike hla hlb hr w out
  rcases hw with rfl | ⟨hrest, c, hgrows, rfl⟩
  · exact ⟨hboth, hbeside.stream, by rw [hbeside.space]⟩
  · -- the second write, had it come first, would have taught the compiler the same
    rw [← hbeside.space] at hgrows
    have hlater := (repeatable.writeRecord l' ⟨w, out, r'⟩ hrest).2 c hgrows
    have hlater : outcome (writeRecord l') ⟨{ w with compiler := c }, out, r'⟩ = _ := hlater
    refine ⟨?_, ?_, ?_⟩
    · rw [hlater, hboth]
    · rw [hlater, ← hbeside.stream]
      rfl
    · rw [hlater, ← hbeside.space]
      rfl

/-- What has been kept of two free schemas with the same fields. -/
theorem Compiler.Assured.orderImmaterial (hc : Assured cat c)
    (h : Redeclares (cat.schema a) (cat.schema b)) (ha : cat.Free a) (hb : cat.Free b)
    (hkind : kind.Plain) (hfirst : c.layouts.find? (a, kind) = some (.done first))
    (hsecond : c.layouts.find? (b, kind) = some (.done second)) :
    OrderImmaterial cat c a b kind first second := by
  -- both layouts are judged by the same two properties of the schema, which do not depend on the
  -- order
  have hin := hc.laidOutInOrder ha h.named hkind hfirst
  have hin' := hc.laidOutInOrder hb h.symm.named hkind hsecond
  have hmoved {l l' : Layout} (hl : first = .ok l) (hl' : second = .ok l') :=
    h.layouts_moved hc ha hb hkind (answer_eq_some.mpr (hl ▸ hfirst))
      (answer_eq_some.mpr (hl' ▸ hsecond))
  have hboth : (∃ l', second = .ok l') ↔ ∃ l, first = .ok l := by
    rw [hin'.laidOut, hin.laidOut, h.bindable, h.circular]
  refine ⟨hin, hin', ?_, fun l l' hl hl' w w' out r r' hr hw => ?_⟩
  · cases first with
    | ok l =>
      obtain ⟨l', rfl⟩ := hboth.mpr ⟨l, rfl⟩
      exact congrArg some (hmoved rfl rfl).2
    -- neither side can fail alone
    | error e =>
      cases second with
      | ok l' =>
        obtain ⟨l, hl⟩ := hboth.mp ⟨l', rfl⟩
        cases hl
      | error e' => rfl
  · have hgood := hc.resting.good.layouts a kind l (answer_eq_some.mpr (hl ▸ hfirst))
    have hgood' := hc.resting.good.layouts b kind l' (answer_eq_some.mpr (hl' ▸ hsecond))
    exact (hmoved hl hl').1.writtenAlike_again hgood.schema_eq hgood'.schema_eq
      (hr.reordered h) hw

end

/-- The order in which fields are declared does not matter. -/
theorem declarationOrder_immaterial {cat : Catalog} (hclosed : cat.Closed) {a b : SchemaId}
    (h : Redeclares (cat.schema a) (cat.schema b)) (ha : cat.Free a) (hb : cat.Free b)
    {kind : LayoutKind} (hkind : kind.Plain) {before between : List Compiler.Request}
    (hbefore : ∀ r ∈ before, r.Declared cat) (hbetween : ∀ r ∈ between, r.Declared cat) :
    OrderImmaterial cat
      (Compiler.asked cat (before ++ .layout a kind :: (between ++ [.layout b kind]))) a b kind
      (outcome (Compiler.layout a kind) (Compiler.asked cat before)).1
      (outcome (Compiler.layout b kind)
        (Compiler.asked cat (before ++ .layout a kind :: between))).1 := by
  have hstart := Compiler.asked_assured hclosed hbefore
  -- each answer is kept at once, and stays
  have hfirst := hstart.resting.layout_kept a kind
  obtain ⟨-, hafter⟩ := Compiler.Request.run_assured hstart
    (Compiler.Request.declared_layout cat a kind)
  obtain ⟨hgrows, hlater⟩ := Compiler.foldl_assured hbetween hafter
  have hsecond := hlater.resting.layout_kept b kind
  obtain ⟨hret, hlast⟩ := Compiler.Request.run_assured hlater
    (Compiler.Request.declared_layout cat b kind)
  have hmiddle : Compiler.asked cat (before ++ .layout a kind :: between) =
      between.foldl Compiler.Request.run
        ((Compiler.Request.layout a kind).run (Compiler.asked cat before)) := by
    simp only [Compiler.asked, List.foldl_append, List.foldl_cons]
  have hend : Compiler.asked cat (before ++ .layout a kind :: (between ++ [.layout b kind])) =
      (Compiler.Request.layout b kind).run (between.foldl Compiler.Request.run
        ((Compiler.Request.layout a kind).run (Compiler.asked cat before))) := by
    simp only [Compiler.asked, List.foldl_append, List.foldl_cons, List.foldl_nil]
  rw [hend, hmiddle]
  exact hlast.orderImmaterial h ha hb hkind
    ((hgrows.trans hret.toGrows).layouts _ _ hfirst) hsecond

/-! ## Parcels -/

/-- The fields of a parcel: a list after its length, a text, a point and a mark that needs the text. -/
def parcelFields : List FieldDecl :=
  [⟨"count", .varint, false, [], some (.lengthOf "items")⟩,
    ⟨"items", .array .u8 "count", false, [], none⟩, ⟨"label", .value .text .flexible, true, [], none⟩,
    ⟨"at", .value (.record ⟨0, 0⟩) .flexible, false, [], none⟩,
    ⟨"mark", .scalar .u8, false, ["label"], none⟩]

/-- Points and parcels, with the fields of the parcels declared in two orders. -/
def parcels : Catalog :=
  ⟨[⟨⟨"Point", .managed, [⟨"x", .scalar .u8, false, [], none⟩, ⟨"y", .scalar .u8, false, [], none⟩]⟩,
      true⟩,
    ⟨⟨"Parcel", .managed, parcelFields⟩, true⟩,
    ⟨⟨"Backwards", .managed, parcelFields.reverse⟩, true⟩], [], []⟩

/-- Where a type stands in the fields of points and parcels, it is a text or a point. -/
theorem parcels_types {d : Declared} (hd : d ∈ parcels.schemas) {f : FieldDecl}
    (hf : f ∈ d.schema.fields) {type : ValueType} {rule : PlacementRule}
    (hshape : f.shape = .value type rule) : type = .text ∨ type = .record ⟨0, 0⟩ := by
  -- the parcel's own fields hold a text, a record of the first type, and numbers
  have hparcel (hin : f ∈ parcelFields) : type = .text ∨ type = .record ⟨0, 0⟩ := by
    simp only [parcelFields, List.mem_cons, List.not_mem_nil, or_false] at hin
    rcases hin with rfl | rfl | rfl | rfl | rfl
    · cases hshape
    · cases hshape
    · cases hshape
      exact Or.inl rfl
    · cases hshape
      exact Or.inr rfl
    · cases hshape
  simp only [parcels, List.mem_cons, List.not_mem_nil, or_false] at hd
  rcases hd with rfl | rfl | rfl
  · simp only [List.mem_cons, List.not_mem_nil, or_false] at hf
    rcases hf with rfl | rfl
    · cases hshape
    · cases hshape
  · exact hparcel hf
  · exact hparcel (List.mem_reverse.mp hf)

theorem parcels_closed : parcels.Closed := by decide

/-- Nothing leads to parcels. -/
theorem parcels_free {id : SchemaId} (hid : id.declared ≠ 0) : parcels.Free id := by
  intro hpath
  obtain ⟨d, -, f, hf, type, rule, hshape, hname⟩ := Relation.TransGen.tail'_iff.mp hpath
  have hd : parcels.schemas.getD d default ∈ parcels.schemas := by
    by_cases hlt : d < parcels.schemas.length
    · rw [List.getD_eq_getElem _ _ hlt]
      exact List.getElem_mem hlt
    · rw [List.getD_eq_default _ _ (not_lt.mp hlt)] at hf
      cases hf
  rcases parcels_types hd hf hshape with rfl | rfl
  · cases hname
  · exact hid (List.mem_singleton.mp hname)

theorem parcels_redeclares : Redeclares (parcels.schema ⟨1, 0⟩) (parcels.schema ⟨2, 0⟩) :=
  ⟨List.reverse_perm _, by unfold Schema.Named; decide⟩

/-- The slots of a parcel. -/
def parcelSlots : List Value :=
  [.scalar (.u64 0), .list [.scalar (.u8 1), .scalar (.u8 2)], .text "a",
    .record ⟨⟨0, 0⟩, [.scalar (.u8 3), .scalar (.u8 4)], [.null, .null]⟩, .scalar (.u8 5)]

/-- A parcel. -/
def parcel : Record := ⟨⟨1, 0⟩, parcelSlots, parcelSlots.map fun _ => .null⟩

/-- The same parcel, with the fields in the other order. -/
def backwards : Record := ⟨⟨2, 0⟩, parcelSlots.reverse, parcelSlots.reverse.map fun _ => .null⟩

theorem parcel_sameContent : SameContent parcels ⟨1, 0⟩ ⟨2, 0⟩ parcel backwards := by
  refine ⟨rfl, rfl, rfl, rfl, rfl, rfl, fun name => ?_⟩
  by_cases hname : name ∈ parcelFields.map (·.name)
  · simp only [parcelFields, List.map_cons, List.map_nil, List.mem_cons, List.not_mem_nil,
      or_false] at hname
    rcases hname with rfl | rfl | rfl | rfl | rfl
    all_goals rfl
  · -- neither has such a slot
    have hnone {fields : List FieldDecl} (hsub : fields ⊆ parcelFields) :
        fields.findIdx? (·.name == name) = none := by
      rw [List.findIdx?_eq_none_iff]
      intro f hf
      rw [beq_eq_false_iff_ne]
      rintro rfl
      exact hname (List.mem_map_of_mem (hsub hf))
    have hfirst : (parcels.schema ⟨1, 0⟩).slot? name = none := hnone (List.Subset.refl _)
    have hsecond : (parcels.schema ⟨2, 0⟩).slot? name = none :=
      hnone (List.reverse_perm _).subset
    rw [Catalog.get?, Catalog.get?, parcel, backwards, hfirst, hsecond]
    rfl

/-- What was asked before the parcels. -/
def askPoints : List Compiler.Request := [.layout ⟨0, 0⟩ .fixed]

/-- What was asked between them. -/
def askTexts : List Compiler.Request := [.placement .text .flexible, .layout ⟨0, 0⟩ .standard]

/-- The layout of parcels. -/
def parcelLayout : Layout :=
  (outcome (Compiler.layout ⟨1, 0⟩ .standard) (Compiler.asked parcels askPoints)).1.toOption.getD
    default

/-- Both orders of declaration give one order of the fields. -/
theorem declarationOrder_immaterial_parcels :
    parcelLayout.fieldNames = ["at", "count", "items", "label", "mark"] ∧
      (outcome (writeRecord parcelLayout) ⟨.fresh parcels .standard none, .empty, parcel⟩).2.stream.shown =
        [3, 4, 2, 1, 2, 2, 97, 5] ∧
      SameContent parcels ⟨1, 0⟩ ⟨2, 0⟩ parcel backwards ∧
      OrderImmaterial parcels (Compiler.asked parcels
          (askPoints ++ .layout ⟨1, 0⟩ .standard :: (askTexts ++ [.layout ⟨2, 0⟩ .standard])))
        ⟨1, 0⟩ ⟨2, 0⟩ .standard
        (outcome (Compiler.layout ⟨1, 0⟩ .standard) (Compiler.asked parcels askPoints)).1
        (outcome (Compiler.layout ⟨2, 0⟩ .standard) (Compiler.asked parcels
          (askPoints ++ .layout ⟨1, 0⟩ .standard :: askTexts))).1 := by
  have hpoints : ∀ r ∈ askPoints, r.Declared parcels := fun r hr => by
    rw [List.mem_singleton.mp hr]
    trivial
  have htexts : ∀ r ∈ askTexts, r.Declared parcels := fun r hr => by
    rcases List.mem_cons.mp hr with rfl | hr
    · trivial
    · rw [List.mem_singleton.mp hr]
      trivial
  exact ⟨by decide +kernel, by decide +kernel, parcel_sameContent,
    declarationOrder_immaterial parcels_closed parcels_redeclares (parcels_free (by decide))
      (parcels_free (by decide)) (Or.inl rfl) hpoints htexts⟩

/-! ## Two fields that need each other -/

/-- A list of varying length, and two fields that need each other. -/
def knots : Catalog :=
  ⟨[⟨⟨"Knot", .managed, [⟨"n", .varint, false, [], none⟩, ⟨"xs", .array .u8 "n", false, [], none⟩,
    ⟨"a", .scalar .u8, false, ["b"], none⟩, ⟨"b", .scalar .u8, false, ["a"], none⟩]⟩, true⟩], [], []⟩

theorem knots_shapes {d : Declared} (hd : d ∈ knots.schemas) {f : FieldDecl}
    (hf : f ∈ d.schema.fields) (type : ValueType) (rule : PlacementRule) :
    f.shape ≠ .value type rule := by
  rw [List.mem_singleton.mp hd] at hf
  simp only [List.mem_cons, List.not_mem_nil, or_false] at hf
  rcases hf with rfl | rfl | rfl | rfl
  all_goals exact fun hshape => nomatch hshape

/-- A list cannot stand in a layout of fixed width, so that the fields of such a layout are never put
in order, though two of them need each other. -/
theorem cycle_not_reported :
    ¬∀ (cat : Catalog) (id : SchemaId) (kind : LayoutKind), cat.Closed → (cat.schema id).Named →
      cat.Free id → kind.Plain →
        ((∃ e, (outcome (Compiler.layout id kind) (.ofCatalog cat)).1 = .error e ∧
          CycleFault (cat.schema id) e) ↔ (cat.schema id).Circular) := by
  -- the knots need each other, so the statement would have their cycle reported; an array that cannot
  -- be bound is reported before
  intro hall
  have hclosed : knots.Closed := by decide
  have hfree : knots.Free ⟨0, 0⟩ := by
    intro hpath
    obtain ⟨d, -, f, hf, type, rule, hshape, -⟩ := Relation.TransGen.tail'_iff.mp hpath
    cases d with
    | zero => exact knots_shapes (List.mem_singleton.mpr rfl) hf type rule hshape
    | succ d => cases hf
  have hcircular : (knots.schema ⟨0, 0⟩).Circular := by
    have hfields : (knots.schema ⟨0, 0⟩).fields = (knots.schemas.getD 0 default).schema.fields := rfl
    have hab : (knots.schema ⟨0, 0⟩).Needs "a" "b" :=
      ⟨⟨"a", .scalar .u8, false, ["b"], none⟩, by rw [hfields]; decide, rfl, by decide⟩
    have hba : (knots.schema ⟨0, 0⟩).Needs "b" "a" :=
      ⟨⟨"b", .scalar .u8, false, ["a"], none⟩, by rw [hfields]; decide, rfl, by decide⟩
    exact ⟨"a", .tail (.single hab) hba⟩
  obtain ⟨e, he, names, rfl⟩ := (hall knots ⟨0, 0⟩ .fixed hclosed
    (by unfold Schema.Named; decide) hfree (Or.inr rfl)).mpr hcircular
  -- what the fixed layout reports is an error of another kind
  have hlist : ((outcome (Compiler.layout ⟨0, 0⟩ .fixed) (.ofCatalog knots)).1.tryCatch fun e =>
      if e.isLayout then .ok default else .error e).isOk = true := by decide +kernel
  rw [he] at hlist
  cases hlist

end RecordLayout
