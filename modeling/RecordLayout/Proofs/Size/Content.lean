import RecordLayout.Proofs.Format.Readable
import RecordLayout.Proofs.Size.Takes

/-!
# Sizes and content

How many bytes a value takes is a matter of its content: a detached copy, which owns no chunk, takes
as many, and has no size where the value has none.

Main results:

* `placedSizeWithin_detached` — values in their placements, by induction on the depth;
* `recordSize_detached` — records.
-/

namespace RecordLayout

/-! ## Sizes of detached copies -/

mutual

theorem Value.depth_detached : ∀ v : Value, v.detached.depth = v.depth
  | .list items => Value.depthAll_detached items
  | .record r => RecordOf.depth_detached r
  | .wrapped _ carrier => RecordOf.depth_detached carrier
  | .null | .scalar _ | .width _ | .text _ | .handle _ => rfl

theorem Value.depthAll_detached : ∀ values : List Value,
    Value.depthAll (Value.detachedAll values) = Value.depthAll values
  | [] => rfl
  | v :: vs => by
    rw [Value.detachedAll, Value.depthAll, Value.depthAll, Value.depth_detached v,
      Value.depthAll_detached vs]

/-- A detached copy is as deep. -/
theorem RecordOf.depth_detached : ∀ r : RecordOf Value, r.detached.depth = r.depth
  | ⟨_, slots, _⟩ => congrArg (· + 1) (Value.depthAll_detached slots)

end

theorem RecordOf.schema_detached (r : Record) : r.detached.schema = r.schema := by cases r; rfl

theorem RecordOf.detached_slot (r : Record) (i : Nat) :
    r.detached.slot i = (r.slot i).detached := by
  obtain ⟨schema, slots, chunks⟩ := r
  show (Value.detachedAll slots).getD i .null = (slots.getD i .null).detached
  rw [Value.detachedAll_eq_map, List.getD_eq_getElem?_getD, List.getD_eq_getElem?_getD,
    List.getElem?_map]
  cases slots[i]? <;> rfl

theorem Value.isNull_detached (v : Value) : v.detached.isNull = v.isNull := by cases v <;> rfl

theorem mismatch_detached {α : Type} (expected : String) (v : Value) :
    (SpaceM.mismatch expected v.detached : SpaceM α) = SpaceM.mismatch expected v := by
  have hname (cat : Catalog) : cat.valueTypeName v.detached = cat.valueTypeName v := by
    cases v with
    | record r => exact congrArg cat.schemaName r.schema_detached
    | _ => rfl
  simp only [SpaceM.mismatch, hname]

theorem mismatch_record_detached {α : Type} (expected : String) (r : Record) :
    (SpaceM.mismatch expected (.record r.detached) : SpaceM α) =
      SpaceM.mismatch expected (.record r) :=
  mismatch_detached expected (.record r)

theorem countOf_detached (v : Value) : countOf v.detached = countOf v := by
  rw [countOf, countOf, Value.toNat?_detached, mismatch_detached]

theorem widthIn_detached (r : Record) (i : Nat) : widthIn r.detached i = widthIn r i := by
  rw [widthIn, widthIn, RecordOf.detached_slot]
  cases r.slot i with
  | width w => rfl
  | _ => exact mismatch_detached "numsize" _

section

variable {sizeOf : SizeOf} (hsize : ∀ p v, sizeOf p v.detached = sizeOf p v)
include hsize

theorem fieldSizeWith_detached (r : Record) (f : BoundField) :
    fieldSizeWith sizeOf r.detached f = fieldSizeWith sizeOf r f := by
  have hslot := r.detached_slot f.slot
  cases he : f.encoding with
  | sized governor => simp only [fieldSizeWith, he, widthIn_detached]
  | varint => simp only [fieldSizeWith, he, hslot, countOf_detached]
  | array element governor =>
    simp only [fieldSizeWith, he, hslot]
    cases r.slot f.slot with
    | list items =>
      show (pure ((Value.detachedAll items).length * element.bytes) : SpaceM Nat) = _
      rw [Value.detachedAll_eq_map, List.length_map]
      rfl
    | _ => exact congrArg (· >>= _) (mismatch_detached "list" _)
  | placed p marker =>
    cases marker <;> simp only [fieldSizeWith, he, hslot, hsize, Value.isNull_detached]
  | _ => simp only [fieldSizeWith, he]

theorem recordSizeWith_detached (l : Layout) (r : Record) :
    recordSizeWith sizeOf l r.detached = recordSizeWith sizeOf l r := by
  have hterm (term : SizeTerm) :
      termSizeWith sizeOf l r.detached term = termSizeWith sizeOf l r term := by
    cases term with
    | widths governor count => simp only [termSizeWith, widthIn_detached]
    | strides governor stride =>
      simp only [termSizeWith, RecordOf.detached_slot, Value.toNat?_detached, mismatch_detached]
    | field place => exact fieldSizeWith_detached hsize r _
  simp only [recordSizeWith, funext hterm]

theorem innerSize_detached (id : SchemaId) (kind : LayoutKind) (v : Value) :
    innerSize sizeOf id kind v.detached = innerSize sizeOf id kind v := by
  cases v with
  | record r =>
    simp only [Value.detached, innerSize, RecordOf.schema_detached, recordSizeWith_detached hsize,
      mismatch_record_detached]
  | _ => simp only [innerSize, Value.detached] <;> rfl

end

/-- The size of a value is a matter of its content. -/
theorem placedSizeWithin_detached (depth : Nat) (p : Placement) (v : Value) :
    placedSizeWithin depth p v.detached = placedSizeWithin depth p v := by
  induction depth generalizing p v with
  | zero => rfl
  | succ depth ih =>
    cases p with
    | inlineRecord id => exact innerSize_detached ih id .standard v
    | fixedRecord id => exact innerSize_detached ih id .fixed v
    | wrapped id carrier kind =>
      cases v <;> simp only [placedSizeWithin, Value.detached, recordSizeWith_detached ih,
        mismatch_record_detached] <;> rfl
    | inlineChoice id =>
      cases v with
      | record r =>
        simp only [placedSizeWithin, Value.detached, recordSizeWith_detached ih, SpaceM.tagOf,
          RecordOf.schema_detached]
      | _ => simp only [placedSizeWithin, Value.detached] <;> rfl
    | inlineOpen =>
      -- a value has the same type whatever its chunks are
      have hid : SpaceM.typeId v.detached = SpaceM.typeId v := by
        cases v with
        | record r =>
          simp only [SpaceM.typeId, TypeIndex.idOf, Value.detached, RecordOf.schema_detached]
        | _ => rfl
      simp only [placedSizeWithin, hid, ih]
    | handle id fixed =>
      cases fixed with
      | true => rfl
      | false =>
        cases v with
        | record r => exact mismatch_record_detached "handle" r
        | _ => rfl
    | inlineText =>
      cases v with
      | record r => exact mismatch_record_detached "string" r
      | _ => rfl
    | _ => rfl

/-- The size of a record is a matter of its content. -/
theorem recordSize_detached (l : Layout) (r : Record) :
    recordSize l r.detached = recordSize l r := by
  rw [recordSize, recordSize, RecordOf.walkDepth, RecordOf.walkDepth, r.depth_detached]
  exact recordSizeWith_detached (placedSizeWithin_detached _) l r

end RecordLayout
