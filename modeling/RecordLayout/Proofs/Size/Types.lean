import RecordLayout.Proofs.Space

/-!
# Ids of types

The id that a type has been given stays its id, so the id of a value that is met again is the one
that it had before.

Main results:

* `TypeIndex.register_gives`, `TypeIndex.Gives.register` — ids are given once;
* `Workspace.typeId_steady` — the id of a value stays.
-/

namespace RecordLayout

/-- The type under which a value is registered. -/
def Value.type? : Value → Option ValueType
  | .scalar s => some (.scalar s.kind)
  | .text _ => some .text
  | .record r => some (.record r.schema)
  | .handle h => some (.record h.schema)
  | .wrapped wrapper _ => some (.wrapper wrapper)
  | _ => none

/-- Values have types that need not be resolved. -/
theorem Value.type?_cases {v : Value} {type : ValueType} (h : v.type? = some type) :
    type.key ≠ .any ∧ ∀ c : Catalog, c.resolve type = .ok type := by
  cases v <;> cases h <;> exact ⟨nofun, fun _ => rfl⟩

namespace TypeIndex

variable {x x' : TypeIndex} {c : Catalog} {type : ValueType} {v : Value} {i id : Nat}

/-- The name of a type has an id, which stands for a type of the same key. -/
def Gives (x : TypeIndex) (c : Catalog) (type : ValueType) (i : Nat) : Prop :=
  x.ids.lookup (c.typeName type) = some (i + 1) ∧
    ∃ known, x.types[i]? = some known ∧ known.key = type.key

theorem idOf_of_type? (h : v.type? = some type) : idOf c v = register c type := by
  cases v <;> cases h <;> rfl

theorem Gives.extend (h : x.Gives c type i) (hmore : x.Extends x') : x'.Gives c type i := by
  obtain ⟨hname, known, hknown, hkey⟩ := h
  obtain ⟨more, heq⟩ := hmore.types
  refine ⟨hmore.ids _ _ hname, known, ?_, hkey⟩
  rw [← heq, List.getElem?_append_left (List.getElem?_eq_some_iff.mp hknown).1, hknown]

/-- A type that has an id keeps it. -/
theorem Gives.register (h : x.Gives c type i) (hne : type.key ≠ .any)
    (hresolve : c.resolve type = .ok type) : TypeIndex.register c type x = .ok (i + 1) x := by
  obtain ⟨hname, known, hknown, hkey⟩ := h
  refine register_ok.mpr ⟨?_, type, hresolve, .known hname (resolve_ok.mpr ⟨i, rfl, hknown⟩) hkey⟩
  rintro rfl
  exact hne rfl

theorem Registers.gives (h : Registers c x type id x') : ∃ i, id = i + 1 ∧ x'.Gives c type i := by
  cases h with
  | known hname hknown hkey =>
    obtain ⟨i, rfl, hget⟩ := resolve_ok.mp hknown
    exact ⟨i, rfl, hname, _, hget, hkey⟩
  | new hname hid _ =>
    refine ⟨x.size, hid, ?_, type, List.getElem?_concat_length, rfl⟩
    rw [lookup_extend, if_pos rfl]

theorem register_gives (hresolve : c.resolve type = .ok type)
    (h : TypeIndex.register c type x = .ok id x') : ∃ i, id = i + 1 ∧ x'.Gives c type i := by
  obtain ⟨-, found, hfound, hreg⟩ := register_ok.mp h
  obtain rfl : type = found := by
    rw [hresolve] at hfound
    exact Except.ok.inj hfound
  exact hreg.gives

/-- The type that an id stands for. -/
theorem Gives.resolve (h : x.Gives c type i) :
    ∃ known, x.resolve (i + 1) = .ok known ∧ known.key = type.key := by
  obtain ⟨-, known, hknown, hkey⟩ := h
  exact ⟨known, resolve_ok.mpr ⟨i, rfl, hknown⟩, hkey⟩

end TypeIndex

/-- The id of the type of a value. Only null has none. -/
theorem typeId_gives {w : Workspace} (hs : w.Sound) (v : Value) :
    Learning (SpaceM.typeId v) w fun id w' => id = 0 ∧ v = .null ∨
      ∃ type i, v.type? = some type ∧ id = i + 1 ∧ w'.types.Gives w'.catalog type i := by
  intro id w' hrun
  obtain ⟨hs', hlearns, hid⟩ := typeId_learning hs v id w' hrun
  refine ⟨hs', hlearns, ?_⟩
  obtain ⟨x, hgiven, rfl⟩ := typeId_ok.mp hrun
  cases htype : v.type? with
  | some type =>
    rw [TypeIndex.idOf_of_type? htype] at hgiven
    obtain ⟨i, rfl, hgives⟩ :=
      TypeIndex.register_gives ((Value.type?_cases htype).2 _) hgiven
    exact Or.inr ⟨type, i, rfl, rfl, hgives⟩
  | none =>
    cases v with
    | null =>
      cases hgiven
      exact Or.inl ⟨rfl, rfl⟩
    | width width => cases hgiven
    | list items => cases hgiven
    | _ => cases htype

namespace Workspace

variable {w : Workspace}

theorem typeId_steady {v : Value} {type : ValueType} {i : Nat} (htype : v.type? = some type)
    (h : w.types.Gives w.catalog type i) : w.Steady (SpaceM.typeId v) (i + 1) := by
  intro w' hle hs
  obtain ⟨hne, hresolve⟩ := Value.type?_cases htype
  have hgives := h.extend hle.types
  rw [← hle.catalog] at hgives
  refine ⟨w', ?_, hs, .refl w'⟩
  refine typeId_ok.mpr ⟨w'.types, ?_, rfl⟩
  rw [TypeIndex.idOf_of_type? htype, hgives.register hne (hresolve _)]

end Workspace

end RecordLayout
