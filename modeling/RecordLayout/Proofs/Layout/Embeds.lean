import Mathlib
import RecordLayout.Proofs.Layout.Sound
import RecordLayout.Proofs.Reach

/-!
# Records inside records

At a fixed width a record stands in the fields that hold it, as it is or wrapped, unless it is only
named by a handle: `Catalog.Embeds`. A schema that reaches itself in this way has no layout of fixed
width, and nothing of its fields is looked at. The layout of any other schema leans on those of the
schemas that it embeds, and on that of its draft: `Catalog.LeansOn`. Layouts do not lean on each other
in a circle. What is dropped from the catalog does not matter as long as nothing on the way from the
schema names it: `Catalog.LiveFrom`.

Main results:

* `Catalog.LiveFrom.standsInItself_iff` — the search for circles finds them all;
* `Catalog.LeansOn.irrefl`, `Catalog.Closed.leansOn_wf` — layouts of fixed width can be worked out one
  after the other.
-/

namespace RecordLayout

namespace Catalog

/-- Records of a schema stand inline in values of a type at a fixed width. -/
def Holds (c : Catalog) : TypeKey → SchemaId → Prop
  | .wrapper w, id => (c.wrapper w).carrier = id
  | .record r, id => r = id ∧ (c.schema r).isUnmanaged = false
  | _, _ => False

/-- Records of the second schema stand inline in a field of the first one at a fixed width. -/
def Embeds (c : Catalog) (s t : SchemaId) : Prop :=
  ∃ f ∈ (c.schema s).fields, ∃ type rule, f.shape = .value type rule ∧ c.Holds type.key t

/-- All types are declared, complete and in use. -/
structure Live (c : Catalog) : Prop extends c.Closed where
  inUse : ∀ d ∈ c.schemas, d.inUse = true

instance (c : Catalog) : Decidable c.Live :=
  decidable_of_iff (c.Closed ∧ ∀ d ∈ c.schemas, d.inUse = true)
    ⟨fun ⟨hclosed, huse⟩ => ⟨hclosed, huse⟩, fun h => ⟨h.toClosed, h.inUse⟩⟩

/-- The schema that a type names, if it names one, is in use. -/
def Alive (c : Catalog) : TypeKey → Prop
  | .record id => c.inUse id = true
  | _ => True

/-- All types are declared and complete. Those that the fields of a schema name are in use, and so are
those named by the fields of what stands in it, at any depth. -/
structure LiveFrom (c : Catalog) (id : SchemaId) : Prop extends c.Closed where
  alive : ∀ s, Relation.ReflTransGen c.Embeds id s → ∀ f ∈ (c.schema s).fields, ∀ type rule,
    f.shape = .value type rule → c.Alive type.key

/-- A type is in use, and so is what is named on the way from the records that stand in its values. -/
structure LiveType (c : Catalog) (key : TypeKey) : Prop where
  alive : c.Alive key
  held : ∀ id, c.Holds key id → c.LiveFrom id

variable {c : Catalog}

/-! ## Types in use -/

theorem Live.inUse_of_hasSchema (h : c.Live) {id : SchemaId} (hid : c.HasSchema id) :
    c.inUse id = true := by
  rw [Catalog.inUse, List.getD_eq_getElem _ _ hid.1]
  exact h.inUse _ (List.getElem_mem hid.1)

theorem Live.alive (h : c.Live) {type : ValueType} (href : c.Refers type) : c.Alive type.key := by
  cases type with
  | record id => exact h.inUse_of_hasSchema href
  | back id name => exact h.inUse_of_hasSchema href
  | _ => trivial

/-- Where all types are in use, it does not matter from where they are named. -/
theorem Live.liveFrom (h : c.Live) (id : SchemaId) : c.LiveFrom id :=
  ⟨h.toClosed, fun _ _ _ hf _ _ hshape => h.alive (h.refers hf hshape)⟩

theorem Live.liveType (h : c.Live) {type : ValueType} (href : c.Refers type) : c.LiveType type.key :=
  ⟨h.alive href, fun id _ => h.liveFrom id⟩

/-- Back references to what is in use can be followed. -/
theorem Alive.resolve {type : ValueType} (h : c.Alive type.key) :
    ∃ resolved, c.resolve type = .ok resolved ∧ resolved.key = type.key := by
  cases type with
  | back id name =>
    refine ⟨.record id, ?_, rfl⟩
    rw [Catalog.resolve, if_pos (show c.inUse id = true from h)]
  | _ => exact ⟨_, rfl, rfl⟩

theorem LiveFrom.of_reach {s t : SchemaId} (h : c.LiveFrom s)
    (hpath : Relation.ReflTransGen c.Embeds s t) : c.LiveFrom t :=
  ⟨h.toClosed, fun u hu => h.alive u (hpath.trans hu)⟩

/-- What stands in a schema is as live as the schema. -/
theorem LiveFrom.embeds {s t : SchemaId} (h : c.LiveFrom s) (hst : c.Embeds s t) : c.LiveFrom t :=
  h.of_reach (.single hst)

/-- The types of the fields are live. -/
theorem LiveFrom.liveType {id : SchemaId} (h : c.LiveFrom id) {f : FieldDecl}
    (hf : f ∈ (c.schema id).fields) {type : ValueType} {rule : PlacementRule}
    (hshape : f.shape = .value type rule) : c.LiveType type.key :=
  ⟨h.alive id .refl f hf type rule hshape, fun _ ht => h.embeds ⟨f, hf, type, rule, hshape, ht⟩⟩

/-- A draft has the fields of its schema. -/
theorem LiveFrom.toDraft {id : SchemaId} (h : c.LiveFrom id) : c.LiveFrom id.toDraft := by
  refine ⟨h.toClosed, fun s hs => ?_⟩
  rcases Relation.reflTransGen_iff_eq_or_transGen.mp hs with rfl | hpath
  · exact h.alive id .refl
  · obtain ⟨t, hfirst, hrest⟩ := Relation.TransGen.head'_iff.mp hpath
    exact h.alive s (.head hfirst hrest)

/-! ## What types hold -/

theorem Closed.hasSchema_of_holds (h : c.Closed) {type : ValueType} (href : c.Refers type)
    {id : SchemaId} (hid : c.Holds type.key id) : c.HasSchema id := by
  cases type with
  | wrapper w =>
    obtain rfl : (c.wrapper w).carrier = id := hid
    refine h.wrappers _ ?_
    rw [wrapper, List.getD_eq_getElem _ _ href]
    exact List.getElem_mem href
  | record r =>
    obtain ⟨rfl, -⟩ := hid
    exact href
  | back r name =>
    obtain ⟨rfl, -⟩ := hid
    exact href
  | _ => exact hid.elim

theorem Holds.unique {key : TypeKey} {s t : SchemaId} (hs : c.Holds key s) (ht : c.Holds key t) :
    s = t := by
  cases key with
  | wrapper w => exact hs.symm.trans ht
  | record r => exact hs.1.symm.trans ht.1
  | _ => exact hs.elim

/-! ## The search for circles -/

/-- A field embeds what its type holds, if the type can be followed. -/
theorem mem_embedded? {f : FieldDecl} {id : SchemaId} : c.embedded? f = some id ↔
    ∃ type rule, f.shape = .value type rule ∧ c.Holds type.key id ∧
      ∃ resolved, c.resolve type = .ok resolved := by
  -- an unmanaged record is never embedded: it is stored by itself and held by a handle
  have hrecord {r : SchemaId} : (some r).filter (fun r => !(c.schema r).isUnmanaged) = some id ↔
      r = id ∧ (c.schema r).isUnmanaged = false := by
    rw [Option.filter_eq_some_iff, Option.some.injEq, Bool.not_eq_true']
    constructor
    · rintro ⟨rfl, hmanaged⟩
      exact ⟨rfl, hmanaged⟩
    · rintro ⟨rfl, hmanaged⟩
      exact ⟨rfl, hmanaged⟩
  unfold embedded?
  cases hshape : f.shape with
  | value type rule =>
    have hone : (∃ type' rule', FieldShape.value type rule = .value type' rule' ∧
        c.Holds type'.key id ∧ ∃ resolved, c.resolve type' = .ok resolved) ↔
          c.Holds type.key id ∧ ∃ resolved, c.resolve type = .ok resolved := by
      constructor
      · rintro ⟨_, _, heq, hholds⟩
        cases heq
        exact hholds
      · exact fun hholds => ⟨type, rule, rfl, hholds⟩
    rw [hone]
    cases type with
    | wrapper w => exact Option.some_inj.trans ⟨fun h => ⟨h, _, rfl⟩, And.left⟩
    | record r => exact hrecord.trans ⟨fun h => ⟨h, _, rfl⟩, And.left⟩
    | back r name =>
      -- a back reference to a type in use names its schema as the record's own type does
      cases huse : c.inUse r with
      | true =>
        simp only [schemaOf?, resolve, huse, if_true]
        exact hrecord.trans ⟨fun h => ⟨h, _, rfl⟩, And.left⟩
      | false => simp [schemaOf?, resolve, huse]
    | _ => simp [schemaOf?, ValueType.key, Holds]
  | _ => simp

theorem embeds_of_mem {s t : SchemaId} (h : t ∈ c.embeds s) : c.Embeds s t := by
  obtain ⟨f, hf, hembedded⟩ := List.mem_filterMap.mp h
  obtain ⟨type, rule, hshape, hholds, -⟩ := mem_embedded?.mp hembedded
  exact ⟨f, hf, type, rule, hshape, hholds⟩

theorem LiveFrom.mem_embeds {s t : SchemaId} (h : c.LiveFrom s) : t ∈ c.embeds s ↔ c.Embeds s t := by
  refine ⟨embeds_of_mem, fun ⟨f, hf, type, rule, hshape, hholds⟩ => ?_⟩
  obtain ⟨resolved, hresolve, -⟩ := (h.liveType hf hshape).alive.resolve
  exact List.mem_filterMap.mpr ⟨f, hf, mem_embedded?.mpr ⟨type, rule, hshape, hholds, _, hresolve⟩⟩

theorem Closed.hasSchema_of_embeds (h : c.Closed) {s t : SchemaId} (hst : c.Embeds s t) :
    c.HasSchema t := by
  obtain ⟨f, hf, type, rule, hshape, hholds⟩ := hst
  exact h.hasSchema_of_holds (h.refers hf hshape) hholds

/-- The declared schemas and their drafts. -/
def everySchema (c : Catalog) : Finset SchemaId :=
  (Finset.range c.schemas.length ×ˢ Finset.range 2).image fun x => ⟨x.1, x.2⟩

theorem mem_everySchema {id : SchemaId} : id ∈ c.everySchema ↔ c.HasSchema id := by
  obtain ⟨declared, draft⟩ := id
  simp only [everySchema, Finset.mem_image, Finset.mem_product, Finset.mem_range, HasSchema,
    Prod.exists]
  constructor
  · rintro ⟨d, n, ⟨hd, hn⟩, heq⟩
    cases heq
    exact ⟨hd, by omega⟩
  · rintro ⟨hd, hn⟩
    exact ⟨declared, draft, ⟨hd, by omega⟩, rfl⟩

theorem card_everySchema_le (c : Catalog) : c.everySchema.card ≤ 2 * c.schemas.length := by
  have hcard : (Finset.range c.schemas.length ×ˢ Finset.range 2).card = 2 * c.schemas.length := by
    rw [Finset.card_product, Finset.card_range, Finset.card_range, Nat.mul_comm]
  rw [← hcard]
  exact Finset.card_image_le

/-- A schema stands in itself exactly if it reaches itself through what its fields hold. -/
theorem LiveFrom.standsInItself_iff {id : SchemaId} (h : c.LiveFrom id) :
    c.standsInItself id = true ↔ Relation.TransGen c.Embeds id id := by
  have hclosed {s t : SchemaId} (ht : t ∈ c.embeds s) : t ∈ c.everySchema :=
    mem_everySchema.mpr (h.hasSchema_of_embeds (embeds_of_mem ht))
  have hcard := c.card_everySchema_le
  rw [standsInItself, List.contains_iff_mem, mem_reach_iff c.everySchema
    (fun s _ t ht => hclosed ht) (fun t ht => hclosed ht) (by rw [size]; omega),
    ← Relation.TransGen.head'_iff (r := fun s t => t ∈ c.embeds s)]
  -- along the way every schema is live, so the search goes where the fields lead
  have hfollow {t : SchemaId} (hpath : Relation.TransGen c.Embeds id t) :
      Relation.TransGen (fun s t => t ∈ c.embeds s) id t := by
    induction hpath with
    | single hst => exact .single (h.mem_embeds.mpr hst)
    | tail hpath hst ih => exact ih.tail ((h.of_reach hpath.to_reflTransGen).mem_embeds.mpr hst)
  exact ⟨fun hpath => Relation.TransGen.mono (fun _ _ => embeds_of_mem) _ _ hpath, hfollow⟩

/-! ## What layouts of fixed width lean on -/

/-- The layout of fixed width of the first schema is worked out from that of the second one. -/
structure LeansOn (c : Catalog) (s t : SchemaId) : Prop where
  acyclic : ¬Relation.TransGen c.Embeds s s
  leans : c.Embeds s t ∨ (c.schema s).isImmutable = true ∧ t = s.toDraft

/-- A draft embeds what its schema embeds. -/
theorem embeds_toDraft {s t : SchemaId} : c.Embeds s.toDraft t ↔ c.Embeds s t := Iff.rfl

theorem LiveFrom.leansOn {s t : SchemaId} (h : c.LiveFrom s) (hst : c.LeansOn s t) : c.LiveFrom t := by
  rcases hst.leans with hembeds | ⟨-, rfl⟩
  · exact h.embeds hembeds
  · exact h.toDraft

theorem LiveFrom.ahead {s t : SchemaId} (h : c.LiveFrom s)
    (hst : Relation.TransGen c.LeansOn s t) : c.LiveFrom t := by
  induction hst with
  | single hst => exact h.leansOn hst
  | tail _ hst ih => exact ih.leansOn hst

theorem transGen_embeds_toDraft {s t : SchemaId} (h : Relation.TransGen c.Embeds s.toDraft t) :
    Relation.TransGen c.Embeds s t := by
  obtain ⟨u, hfirst, hrest⟩ := Relation.TransGen.head'_iff.mp h
  exact Relation.TransGen.head' (embeds_toDraft.mp hfirst) hrest

/-- What a layout leans on is embedded, or the draft of something that is. -/
theorem LeansOn.embeds {s t : SchemaId} (h : Relation.TransGen c.LeansOn s t) :
    Relation.TransGen c.Embeds s t ∨ ∃ r, (c.schema r).isImmutable = true ∧
      ¬Relation.TransGen c.Embeds r r ∧ t = r.toDraft ∧ Relation.ReflTransGen c.Embeds s r := by
  induction h with
  | single hst =>
    rcases hst.leans with hembeds | ⟨himm, rfl⟩
    · exact Or.inl (.single hembeds)
    · exact Or.inr ⟨s, himm, hst.acyclic, rfl, .refl⟩
  | tail _ hut ih =>
    rcases hut.leans with hembeds | ⟨himm, rfl⟩
    · rcases ih with hsu | ⟨r, -, -, rfl, hsr⟩
      · exact Or.inl (hsu.tail hembeds)
      · exact Or.inl (Relation.TransGen.tail' hsr (embeds_toDraft.mp hembeds))
    · rcases ih with hsu | ⟨r, -, -, rfl, -⟩
      · exact Or.inr ⟨_, himm, hut.acyclic, rfl, hsu.to_reflTransGen⟩
      · -- a draft is not immutable
        have hdraft := draft_eq_zero himm
        cases hdraft

/-- No layout leans on itself. -/
theorem LeansOn.irrefl {s : SchemaId} : ¬Relation.TransGen c.LeansOn s s := by
  intro h
  obtain ⟨u, hfirst, -⟩ := Relation.TransGen.head'_iff.mp h
  rcases embeds h with hcycle | ⟨r, himm, hacyclic, rfl, hpath⟩
  · exact hfirst.acyclic hcycle
  · rcases Relation.reflTransGen_iff_eq_or_transGen.mp hpath with heq | hcycle
    · have hdraft := draft_eq_zero himm
      rw [heq] at hdraft
      cases hdraft
    · exact hacyclic (transGen_embeds_toDraft hcycle)

/-- An immutable schema is declared. -/
theorem hasSchema_of_isImmutable {id : SchemaId} (h : (c.schema id).isImmutable = true) :
    c.HasSchema id := by
  have hdraft := draft_eq_zero h
  refine ⟨?_, by rw [hdraft]; omega⟩
  by_contra hout
  rw [schema, List.getD_eq_default _ _ (by omega), hdraft] at h
  cases h

theorem Closed.hasSchema_of_leansOn (h : c.Closed) {s t : SchemaId} (hst : c.LeansOn s t) :
    c.HasSchema t := by
  rcases hst.leans with hembeds | ⟨himm, rfl⟩
  · exact h.hasSchema_of_embeds hembeds
  · exact ⟨(hasSchema_of_isImmutable himm).1, by rw [SchemaId.toDraft, draft_eq_zero himm]⟩

/-- Layouts of fixed width lean on each other in one direction only. -/
theorem Closed.leansOn_wf (h : c.Closed) : WellFounded fun t s => c.LeansOn s t := by
  classical
  -- fewer schemas are ahead of a layout than of one that leans on it
  refine Subrelation.wf (r := InvImage (· < ·) fun s =>
    (c.everySchema.filter (Relation.TransGen c.LeansOn s)).card) ?_ (InvImage.wf _ Nat.lt_wfRel.wf)
  intro t s hst
  refine Finset.card_lt_card (Finset.ssubset_iff_of_subset ?_ |>.mpr ⟨t, ?_, ?_⟩)
  · intro u hu
    obtain ⟨hmem, hpath⟩ := Finset.mem_filter.mp hu
    exact Finset.mem_filter.mpr ⟨hmem, .head hst hpath⟩
  · exact Finset.mem_filter.mpr ⟨mem_everySchema.mpr (h.hasSchema_of_leansOn hst), .single hst⟩
  · intro ht
    exact LeansOn.irrefl (Finset.mem_filter.mp ht).2

end Catalog

end RecordLayout
