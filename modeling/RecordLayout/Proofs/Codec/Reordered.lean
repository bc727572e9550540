import Mathlib
import RecordLayout.Codec.Write
import RecordLayout.Proofs.Layout.Redeclared
import RecordLayout.Proofs.Size.Takes

/-!
# Writing records whose slots are in another order

Two schemas with the same fields give layouts with the same fields in the same order, but at other
slots. Of two records that have the same values at the slots of the same fields, writing does the same:
every step looks at a slot only through the field that it belongs to, so the two runs go side by side.

Main results:

* `Twins` — operations that end alike from states that are related;
* `Reordered.setSlotAt`, `Reordered.depth_eq` — records with the same slots in another order;
* `checkedSize_twins`, `deriveRecord_twins` — sizes and derived fields;
* `writeRecord_twins` — whole records.
-/

namespace RecordLayout

/-! ## Two runs side by side -/

/-- Two runs end alike: both succeed with the same result, or both fail, in related states. -/
inductive Paired {ε σ τ α : Type} (R : σ → τ → Prop) :
    EStateM.Result ε σ α → EStateM.Result ε τ α → Prop where
  | ok {a : α} {s : σ} {t : τ} (h : R s t) : Paired R (.ok a s) (.ok a t)
  | error {e e' : ε} {s : σ} {t : τ} (h : R s t) : Paired R (.error e s) (.error e' t)

/-- From related states, two operations end alike. -/
def Twins {ε σ τ α : Type} (R : σ → τ → Prop) (act : EStateM ε σ α) (act' : EStateM ε τ α) : Prop :=
  ∀ s t, R s t → Paired R (act s) (act' t)

namespace Twins

section

variable {ε σ τ α β : Type} {R : σ → τ → Prop}

/-- Results that are known are the same. -/
theorem pure (a : α) : Twins R (Pure.pure a : EStateM ε σ α) (Pure.pure a) :=
  fun _ _ h => .ok h

/-- The two failures may name different fields. -/
theorem throw (e e' : ε) : Twins R (MonadExcept.throw e : EStateM ε σ α) (MonadExcept.throw e') :=
  fun _ _ h => .error h

/-- Operations one after another end alike if each pair of them does. -/
theorem bind {act : EStateM ε σ α} {act' : EStateM ε τ α} {next : α → EStateM ε σ β}
    {next' : α → EStateM ε τ β} (h : Twins R act act') (hnext : ∀ a, Twins R (next a) (next' a)) :
    Twins R (act >>= next) (act' >>= next') := by
  intro s t hst
  have hfirst := h s t hst
  simp only [Bind.bind, EStateM.bind]
  -- only how the first two have ended matters for what follows
  generalize act s = out at hfirst
  generalize act' t = out' at hfirst
  cases hfirst with
  | ok hrel => exact hnext _ _ _ hrel
  | error hrel => exact .error hrel

/-- A choice that both runs make alike. -/
theorem ite {p : Prop} [Decidable p] {act next : EStateM ε σ α} {act' next' : EStateM ε τ α}
    (h : p → Twins R act act') (hnext : ¬p → Twins R next next') :
    Twins R (if p then act else next) (if p then act' else next') := by
  by_cases hp : p
  · rw [if_pos hp, if_pos hp]
    exact h hp
  · rw [if_neg hp, if_neg hp]
    exact hnext hp

/-- The same operation in the same state. -/
theorem same (act : EStateM ε σ α) : Twins Eq act act := by
  rintro s t rfl
  cases act s with
  | ok a s' => exact .ok rfl
  | error e s' => exact .error rfl

end

end Twins

/-! ## Slots in another order -/

/-- What stands at a place in the first list stands at the place of that in the second one. -/
def Moved {α : Type} (σ : Equiv.Perm Nat) (xs ys : List α) : Prop := ∀ i, ys[σ i]? = xs[i]?

namespace Moved

variable {α : Type} {σ : Equiv.Perm Nat} {xs ys : List α}

/-- A place without an entry has no counterpart with one. -/
theorem getD (h : Moved σ xs ys) (i : Nat) (d : α) : ys.getD (σ i) d = xs.getD i d := by
  rw [List.getD_eq_getElem?_getD, h i, List.getD_eq_getElem?_getD]

/-- Places of the first list have places in the second. -/
theorem lt_iff (h : Moved σ xs ys) (i : Nat) : σ i < ys.length ↔ i < xs.length := by
  rw [← not_le, ← List.getElem?_eq_none_iff, h i, List.getElem?_eq_none_iff, not_le]

/-- The same entry is replaced on both sides. -/
theorem set (h : Moved σ xs ys) (i : Nat) (v : α) : Moved σ (xs.set i v) (ys.set (σ i) v) := by
  intro j
  rw [List.getElem?_set, List.getElem?_set]
  simp only [σ.injective.eq_iff, h.lt_iff i, h j]

/-- The places can be followed back. -/
theorem symm (h : Moved σ xs ys) : Moved σ.symm ys xs := by
  intro i
  rw [← h (σ.symm i), Equiv.apply_symm_apply]

/-- No entry is lost. -/
theorem subset (h : Moved σ xs ys) : xs ⊆ ys := by
  intro x hx
  obtain ⟨i, hi⟩ := List.mem_iff_getElem?.mp hx
  rw [← h i] at hi
  exact List.mem_of_getElem? hi

end Moved

/-- Values of limited depth are of that depth together. -/
theorem Value.depthAll_le {values : List Value} {n : Nat} (h : ∀ v ∈ values, v.depth ≤ n) :
    Value.depthAll values ≤ n := by
  induction values with
  | nil =>
    rw [Value.depthAll]
    exact Nat.zero_le n
  | cons v rest ih =>
    rw [Value.depthAll]
    exact Nat.max_le.mpr ⟨h v List.mem_cons_self, ih fun w hw => h w (List.mem_cons_of_mem _ hw)⟩

/-- Records of two schemas with the same values and chunks at the slots of the same fields. -/
structure Reordered (σ : Equiv.Perm Nat) (a b : SchemaId) (r r' : Record) : Prop where
  schema : r.schema = a
  schema' : r'.schema = b
  slots : Moved σ r.slots r'.slots
  chunks : Moved σ r.chunks r'.chunks

namespace Reordered

variable {σ : Equiv.Perm Nat} {a b : SchemaId} {r r' : Record}

/-- Values at the slots of the same field. -/
theorem slot (h : Reordered σ a b r r') (i : Nat) : r'.slot (σ i) = r.slot i := h.slots.getD i _

/-- Values with their chunks at the slots of the same field. -/
theorem slotAt (h : Reordered σ a b r r') (i : Nat) : r'.slotAt (σ i) = r.slotAt i := by
  unfold RecordOf.slotAt RecordOf.chunk
  rw [h.slot, h.chunks.getD]

/-- The same value is set on both sides. -/
theorem setSlot (h : Reordered σ a b r r') (i : Nat) (v : Value) :
    Reordered σ a b (r.setSlot i v) (r'.setSlot (σ i) v) :=
  ⟨h.schema, h.schema', h.slots.set i v, h.chunks⟩

/-- The same value is set on both sides, with the same chunk behind it. -/
theorem setSlotAt (h : Reordered σ a b r r') (i : Nat) (slot : Slot) :
    Reordered σ a b (r.setSlotAt i slot) (r'.setSlotAt (σ i) slot) :=
  ⟨h.schema, h.schema', h.slots.set i _, h.chunks.set i _⟩

/-- Chunks can be taken back to what they were. -/
theorem restore (h : Reordered σ a b r r') {old old' : Record} (hold : Reordered σ a b old old') :
    Reordered σ a b { r with chunks := old.chunks } { r' with chunks := old'.chunks } :=
  ⟨h.schema, h.schema', h.slots, hold.chunks⟩

/-- The depth is that of the deepest slot, wherever it stands. -/
theorem depth_eq (h : Reordered σ a b r r') : r'.depth = r.depth := by
  have hall {xs ys : List Value} (hsub : xs ⊆ ys) : Value.depthAll xs ≤ Value.depthAll ys :=
    Value.depthAll_le fun v hv => Value.depth_le_depthAll (hsub hv)
  obtain ⟨schema, slots, chunks⟩ := r
  obtain ⟨schema', slots', chunks'⟩ := r'
  rw [RecordOf.depth, RecordOf.depth]
  -- each of the two records holds the slots of the other
  have hle := hall h.slots.subset
  have hge := hall h.slots.symm.subset
  dsimp only at hle hge
  omega

/-- Walks over both records may go equally deep. -/
theorem walkDepth_eq (h : Reordered σ a b r r') : r'.walkDepth = r.walkDepth := by
  unfold RecordOf.walkDepth
  rw [h.depth_eq]

end Reordered

/-! ## Fields at other slots -/

/-- A term of a size whose governor has another slot. -/
def SizeTerm.moved (σ : Nat → Nat) : SizeTerm → SizeTerm
  | .widths governor count => .widths (σ governor) count
  | .strides governor stride => .strides (σ governor) stride
  | .field place => .field place

/-- The same field at another slot. -/
structure FieldMoved (σ : Equiv.Perm Nat) (f f' : BoundField) : Prop where
  slot : f'.slot = σ f.slot
  nullable : f'.nullable = f.nullable
  encoding : f'.encoding = f.encoding.moved σ
  derivation : f'.derivation = f.derivation.map (SlotDerivation.moved σ)
  size : f'.size = f.size

section

variable {σ : Equiv.Perm Nat}

/-- Widths are counted for the same governor. -/
theorem addWidth_moved (governor : Nat) (terms : List SizeTerm) :
    addWidth (σ governor) (terms.map (SizeTerm.moved σ)) =
      (addWidth governor terms).map (SizeTerm.moved σ) := by
  induction terms with
  | nil => rfl
  | cons term rest ih =>
    -- a term of the same governor is found at its moved slot
    cases term with
    | widths g count =>
      simp only [List.map_cons, SizeTerm.moved, addWidth, σ.injective.eq_iff]
      split
      · rfl
      · rw [ih]
        rfl
    | strides g stride =>
      simp only [List.map_cons, SizeTerm.moved, addWidth, ih]
    | field place =>
      simp only [List.map_cons, SizeTerm.moved, addWidth, ih]

/-- Strides are added up for the same governor. -/
theorem addStride_moved (governor bytes : Nat) (terms : List SizeTerm) :
    addStride (σ governor) bytes (terms.map (SizeTerm.moved σ)) =
      (addStride governor bytes terms).map (SizeTerm.moved σ) := by
  induction terms with
  | nil => rfl
  | cons term rest ih =>
    -- a term of the same governor is found at its moved slot
    cases term with
    | strides g stride =>
      simp only [List.map_cons, SizeTerm.moved, addStride, σ.injective.eq_iff]
      split
      · rfl
      · rw [ih]
        rfl
    | widths g count =>
      simp only [List.map_cons, SizeTerm.moved, addStride, ih]
    | field place =>
      simp only [List.map_cons, SizeTerm.moved, addStride, ih]

/-- What is added up for the size of a record has the same form. -/
theorem sizeTerms_moved {fields fields' : List BoundField}
    (h : List.Forall₂ (FieldMoved σ) fields fields') (fixedPart : Nat) (terms : List SizeTerm)
    (place : Nat) : sizeTerms fixedPart (terms.map (SizeTerm.moved σ)) place fields' =
      ((sizeTerms fixedPart terms place fields).1,
        (sizeTerms fixedPart terms place fields).2.map (SizeTerm.moved σ)) := by
  induction h generalizing fixedPart terms place with
  | nil => rfl
  | @cons f f' rest rest' hf _ ih =>
    rw [sizeTerms, sizeTerms, hf.encoding]
    cases hencoding : f.encoding with
    | sized governor =>
      simp only [Encoding.moved, addWidth_moved]
      exact ih _ _ _
    | array element governor =>
      simp only [Encoding.moved, addStride_moved]
      exact ih _ _ _
    | _ =>
      -- a field that decides its own size
      simp only [Encoding.moved, hf.size]
      cases f.size with
      | fixed n => exact ih _ _ _
      | between least most =>
        have happend : terms.map (SizeTerm.moved σ) ++ [SizeTerm.field place] =
            (terms ++ [SizeTerm.field place]).map (SizeTerm.moved σ) := by
          rw [List.map_append]
          rfl
        rw [happend]
        exact ih _ _ _

end

/-- The same layout at other slots. -/
structure LayoutMoved (σ : Equiv.Perm Nat) (l l' : Layout) : Prop where
  fields : List.Forall₂ (FieldMoved σ) l.fields l'.fields
  size : l'.size = l.size
  fixedPart : l'.fixedPart = l.fixedPart
  terms : l'.terms = l.terms.map (SizeTerm.moved σ)

/-! ## Sizes -/

section

variable {σ : Equiv.Perm Nat} {a b : SchemaId} {r r' : Record} {f f' : BoundField} {l l' : Layout}

variable (hr : Reordered σ a b r r')

include hr

/-- The width is that of the same governor. -/
theorem widthIn_twins (slot : Nat) : Twins Eq (widthIn r slot) (widthIn r' (σ slot)) := by
  unfold widthIn
  rw [hr.slot]
  exact .same _

/-- One field. -/
theorem fieldSizeWith_twins (sizeOf : SizeOf) (hf : FieldMoved σ f f') :
    Twins Eq (fieldSizeWith sizeOf r f) (fieldSizeWith sizeOf r' f') := by
  unfold fieldSizeWith
  rw [hf.encoding, hf.slot, hr.slot]
  cases f.encoding with
  | sized governor => exact (widthIn_twins hr governor).bind fun _ => .pure _
  | placed placement marker => cases marker <;> exact .same _
  | _ => exact .same _

/-- One term. -/
theorem termSizeWith_twins (sizeOf : SizeOf) (hl : LayoutMoved σ l l') (term : SizeTerm) :
    Twins Eq (termSizeWith sizeOf l r term) (termSizeWith sizeOf l' r' (term.moved σ)) := by
  unfold termSizeWith SizeTerm.moved
  cases term with
  | widths governor count => exact (widthIn_twins hr governor).bind fun _ => .pure _
  | strides governor stride =>
    dsimp only
    rw [hr.slot]
    exact .same _
  | field place =>
    dsimp only
    by_cases hplace : place < l.fields.length
    · have hplace' : place < l'.fields.length := by rwa [← hl.fields.length_eq]
      rw [List.getD_eq_getElem _ _ hplace, List.getD_eq_getElem _ _ hplace']
      exact fieldSizeWith_twins hr sizeOf
        ((List.forall₂_iff_get.mp hl.fields).2 place hplace hplace')
    · -- no field, of a size of its own
      have hplace' : ¬place < l'.fields.length := by rwa [← hl.fields.length_eq]
      rw [List.getD_eq_default _ _ (by omega), List.getD_eq_default _ _ (by omega)]
      exact .pure _

/-- The size of a record is made up of the same terms. -/
theorem recordSizeWith_twins (sizeOf : SizeOf) (hl : LayoutMoved σ l l') :
    Twins Eq (recordSizeWith sizeOf l r) (recordSizeWith sizeOf l' r') := by
  have hsum (terms : List SizeTerm) : Twins Eq (sumOf (termSizeWith sizeOf l r) terms)
      (sumOf (termSizeWith sizeOf l' r') (terms.map (SizeTerm.moved σ))) := by
    induction terms with
    | nil => exact .pure _
    | cons term rest ih =>
      rw [List.map_cons, sumOf, sumOf]
      exact (termSizeWith_twins hr sizeOf hl term).bind fun n => ih.bind fun m => .pure _
  unfold recordSizeWith
  rw [hl.terms, hl.fixedPart]
  exact (hsum l.terms).bind fun _ => .pure _

/-! ## Derived fields -/

omit hr in
/-- A disagreement is reported of each field under its own name. -/
theorem disagreement_twins {α : Type} (f f' : BoundField) (fault fault' : DerivationFault) :
    Twins Eq (disagreement f fault : SpaceM α) (disagreement f' fault') :=
  .throw _ _

omit hr in
/-- A count is stored as a number of the same kind. -/
theorem countValue_twins (hf : FieldMoved σ f f') (n : Nat) :
    Twins Eq (countValue f n) (countValue f' n) := by
  have hkind : f'.encoding.scalarKind? = f.encoding.scalarKind? := by
    rw [hf.encoding]
    cases f.encoding <;> rfl
  unfold countValue
  rw [hkind]
  split
  · exact .pure _
  · split
    · exact .pure _
    · exact disagreement_twins f f' _ _

/-- The largest of the numbers at the same fields. -/
theorem largestCount_twins (widest : Nat) (slots : List Nat) :
    Twins Eq (largestCount r widest slots) (largestCount r' widest (slots.map σ)) := by
  induction slots generalizing widest with
  | nil => exact .pure _
  | cons slot rest ih =>
    rw [List.map_cons, largestCount, largestCount, hr.slot]
    exact (Twins.same _).bind fun n => ih _

/-- A derived value is worked out from the same array or the same numbers. -/
theorem derivedValue_twins (hf : FieldMoved σ f f') (d : SlotDerivation) :
    Twins Eq (derivedValue f r d) (derivedValue f' r' (d.moved σ)) := by
  unfold derivedValue SlotDerivation.moved
  cases d with
  | lengthOf array =>
    dsimp only
    rw [hr.slot]
    exact (Twins.same _).bind fun items => countValue_twins hf _
  | widthOf numbers => exact (largestCount_twins hr 0 numbers).bind fun _ => .pure _

/-! ## Checks -/

/-- A width is held against the same numbers. -/
theorem checkWidth_twins (width : Width) (slots : List Nat) :
    Twins Eq (checkWidth f width r slots) (checkWidth f' width r' (slots.map σ)) := by
  induction slots with
  | nil => exact .pure _
  | cons slot rest ih =>
    rw [List.map_cons, checkWidth, checkWidth, hr.slot]
    exact (Twins.same _).bind fun n => .ite (fun _ => ih) fun _ => disagreement_twins f f' _ _

/-- A derived field is held against the same value. -/
theorem checkDerived_twins (hf : FieldMoved σ f f') :
    Twins Eq (checkDerived f r) (checkDerived f' r') := by
  unfold checkDerived
  rw [hf.derivation, hf.slot]
  cases f.derivation with
  | none => exact .pure _
  | some d =>
    cases d with
    -- widths and counts are derived alike from what the slots hold
    | widthOf numbers =>
      exact (widthIn_twins hr f.slot).bind fun width => checkWidth_twins hr width numbers
    | lengthOf array =>
      refine (derivedValue_twins hr hf (.lengthOf array)).bind fun expected => ?_
      dsimp only
      rw [hr.slot]
      exact .ite (fun _ => .pure _) fun _ =>
        (Twins.same _).bind fun c => disagreement_twins f f' _ _

/-- A number is held against the width of the same governor. -/
theorem checkGoverned_twins (hf : FieldMoved σ f f') :
    Twins Eq (checkGoverned f r) (checkGoverned f' r') := by
  unfold checkGoverned
  rw [hf.encoding, hf.slot, hr.slot]
  cases f.encoding with
  | sized governor =>
    refine (widthIn_twins hr governor).bind fun width => (Twins.same _).bind fun n => ?_
    exact .ite (fun _ => .pure _) fun _ => disagreement_twins f f' _ _
  | _ => exact .pure _

/-- Fields in a row, which both layouts have in one order. -/
theorem checkFields_twins (sizeOf : SizeOf) {fields fields' : List BoundField}
    (h : List.Forall₂ (FieldMoved σ) fields fields') :
    Twins Eq (checkFields sizeOf r fields) (checkFields sizeOf r' fields') := by
  induction h with
  | nil => exact .pure _
  | @cons f f' rest rest' hf _ ih =>
    rw [checkFields, checkFields]
    have hfield : Twins Eq (checkField f r) (checkField f' r') :=
      (checkDerived_twins hr hf).bind fun _ => checkGoverned_twins hr hf
    refine hfield.bind fun _ => (fieldSizeWith_twins hr sizeOf hf).bind fun size => ?_
    exact ih.bind fun others => .pure _

/-- Both records pass their checks, or neither does. -/
theorem checkedSize_twins (hl : LayoutMoved σ l l') :
    Twins Eq (checkedSize l r) (checkedSize l' r') := by
  -- the bounds are those of the layout, which are the same
  have hrange (size : Nat) : Twins Eq (ofExcept (checkRange l size) : SpaceM Unit)
      (ofExcept (checkRange l' size)) := by
    unfold checkRange
    rw [hl.size]
    cases l.size.toWords with
    | fixed n =>
      dsimp only
      by_cases hsize : size = n
      · rw [if_pos hsize, if_pos hsize]
        exact .pure _
      · rw [if_neg hsize, if_neg hsize]
        exact .throw _ _
    | between least most =>
      dsimp only
      split
      · exact .pure _
      · exact .throw _ _
  unfold checkedSize
  rw [hr.walkDepth_eq]
  refine (checkFields_twins hr _ hl.fields).bind fun measured => ?_
  refine (recordSizeWith_twins hr _ hl).bind fun size => ?_
  have hlast : Twins Eq (do ofExcept (checkRange l (sizeWord size)); pure size : SpaceM Nat)
      (do ofExcept (checkRange l' (sizeWord size)); pure size) := (hrange _).bind fun _ => .pure _
  exact .ite (fun _ => (Twins.throw _ _).bind fun _ => hlast) fun _ => hlast

end

/-! ## Scenes side by side -/

/-- Scenes that differ in the order of the slots of their records only. -/
structure Beside (σ : Equiv.Perm Nat) (a b : SchemaId) (s s' : Scene Record) : Prop where
  space : s'.space = s.space
  stream : s'.stream = s.stream
  subject : Reordered σ a b s.subject s'.subject

section

variable {σ : Equiv.Perm Nat} {a b : SchemaId} {α : Type} {f f' : BoundField} {l l' : Layout}

/-- What is done with the records at hand. -/
theorem subject_twins {next next' : Record → Op Record α}
    (h : ∀ r r', Reordered σ a b r r' → Twins (Beside σ a b) (next r) (next' r')) :
    Twins (Beside σ a b) (Op.subject >>= next) (Op.subject >>= next') :=
  fun s t hst => h s.subject t.subject hst.subject s t hst

/-- New records in the place of those at hand. -/
theorem setSubject_twins {r r' : Record} (h : Reordered σ a b r r') :
    Twins (Beside σ a b) (Op.setSubject r) (Op.setSubject r') :=
  fun _ _ hst => .ok ⟨hst.space, hst.stream, h⟩

/-- Questions are asked of the same workspace. -/
theorem space_twins {act act' : SpaceM α} (h : Twins Eq act act') :
    Twins (Beside σ a b) (Op.space act : Op Record α) (Op.space act') := by
  intro s t hst
  have hrun := h (Scene.spacePart.get s) (Scene.spacePart.get t) hst.space.symm
  unfold Op.space within
  -- both questions have ended alike, so the workspaces are the same again
  generalize act _ = out at hrun
  generalize act' _ = out' at hrun
  cases hrun with
  | ok hrel => exact .ok ⟨hrel.symm, hst.stream, hst.subject⟩
  | error hrel => exact .error ⟨hrel.symm, hst.stream, hst.subject⟩

/-- The same bytes go to the same stream. -/
theorem stream_twins (act : StreamM ByteStream α) :
    Twins (Beside σ a b) (Op.stream act : Op Record α) (Op.stream act) := by
  intro s t hst
  have hget : Scene.streamPart.get t = Scene.streamPart.get s := hst.stream
  unfold Op.stream within
  rw [hget]
  cases failingAs FormatError.stream act (Scene.streamPart.get s) with
  | ok x stream => exact .ok ⟨hst.space, rfl, hst.subject⟩
  | error e stream => exact .error ⟨hst.space, rfl, hst.subject⟩

/-- The cursor is at the same place. -/
theorem position_twins : Twins (Beside σ a b) (Op.position : Op Record Nat) Op.position := by
  intro s t hst
  unfold Op.position
  rw [hst.stream]
  exact .ok hst

/-- The settings are the same. -/
theorem config_twins : Twins (Beside σ a b) (Op.config : Op Record Config) Op.config := by
  intro s t hst
  unfold Op.config
  rw [hst.space]
  exact .ok hst

/-- The same work on the slot of the same field. -/
theorem slot_twins (i : Nat) (act : Op Slot α) :
    Twins (Beside σ a b) (Op.on (RecordOf.slotPart i) act) (Op.on (RecordOf.slotPart (σ i)) act) := by
  intro s t hst
  have hget : (Scene.part (RecordOf.slotPart (σ i))).get t =
      (Scene.part (RecordOf.slotPart i)).get s := by
    show Scene.mk t.space t.stream (t.subject.slotAt (σ i)) = ⟨s.space, s.stream, s.subject.slotAt i⟩
    rw [hst.space, hst.stream, hst.subject.slotAt]
  unfold Op.on within
  rw [hget]
  cases act ((Scene.part (RecordOf.slotPart i)).get s) with
  | ok x u => exact .ok ⟨rfl, rfl, hst.subject.setSlotAt i u.subject⟩
  | error e u => exact .error ⟨rfl, rfl, hst.subject.setSlotAt i u.subject⟩

/-- The same work on the value at the slot of the same field. -/
theorem value_twins (i : Nat) (act : Op Value α) :
    Twins (Beside σ a b) (Op.on (RecordOf.valuePart i) act)
      (Op.on (RecordOf.valuePart (σ i)) act) := by
  intro s t hst
  have hget : (Scene.part (RecordOf.valuePart (σ i))).get t =
      (Scene.part (RecordOf.valuePart i)).get s := by
    show Scene.mk t.space t.stream (t.subject.slot (σ i)) = ⟨s.space, s.stream, s.subject.slot i⟩
    rw [hst.space, hst.stream, hst.subject.slot]
  unfold Op.on within
  rw [hget]
  cases act ((Scene.part (RecordOf.valuePart i)).get s) with
  | ok x u => exact .ok ⟨rfl, rfl, hst.subject.setSlot i u.subject⟩
  | error e u => exact .error ⟨rfl, rfl, hst.subject.setSlot i u.subject⟩

/-- Failures are reported for each field under its own name. -/
theorem inField_twins (f f' : BoundField) {act act' : Op Record α}
    (h : Twins (Beside σ a b) act act') :
    Twins (Beside σ a b) (Op.inField f act) (Op.inField f' act') := by
  intro s t hst
  have hrun := h s t hst
  unfold Op.inField failingAs
  generalize act s = out at hrun
  generalize act' t = out' at hrun
  cases hrun with
  | ok hrel => exact .ok hrel
  | error hrel => exact .error hrel

/-- Both scopes are left in the same way, with the same chunks noted. -/
theorem rollback_twins {act act' : Op Record α} (h : Twins (Beside σ a b) act act') :
    Twins (Beside σ a b) (rollback act) (rollback act') := by
  intro s t hst
  have hrun := h { s with space := s.space.openScope } { t with space := t.space.openScope }
    ⟨by rw [hst.space], hst.stream, hst.subject⟩
  unfold rollback
  generalize act _ = out at hrun
  generalize act' _ = out' at hrun
  cases hrun with
  | ok hrel => exact .ok ⟨by rw [hrel.space], hrel.stream, hrel.subject⟩
  | error hrel => exact .error ⟨by rw [hrel.space], hrel.stream, hrel.subject⟩

/-- After a failure, both records have the chunks back that they had. -/
theorem guardingChunks_twins {act act' : Op Record Unit} (h : Twins (Beside σ a b) act act') :
    Twins (Beside σ a b) (guardingChunks act) (guardingChunks act') := by
  refine subject_twins fun r r' hr s t hst => ?_
  have hrun := rollback_twins h s t hst
  unfold Op.onFailure
  generalize rollback act s = out at hrun
  generalize rollback act' t = out' at hrun
  cases hrun with
  | ok hrel => exact .ok hrel
  | error hrel => exact .error ⟨hrel.space, hrel.stream, hrel.subject.restore hr⟩

end

/-! ## Writing -/

section

variable {σ : Equiv.Perm Nat} {a b : SchemaId} {f f' : BoundField} {l l' : Layout}

/-- The same bytes are written. -/
theorem write_twins (bytes : Bytes) :
    Twins (Beside σ a b) (Op.write bytes : Op Record Unit) (Op.write bytes) :=
  stream_twins _

/-- The same number of zeros, by induction on how many are left. -/
theorem writeZeros_twins (n : Nat) :
    Twins (Beside σ a b) (writeZeros n : Op Record Unit) (writeZeros n) := by
  induction n using Nat.strong_induction_on with
  | _ n ih =>
    rw [writeZeros]
    split
    · exact .pure _
    · exact (write_twins _).bind fun _ => ih _ (by omega)

/-- The same scalar is written. -/
theorem writeScalar_twins (kind : ScalarKind) (value : Value) :
    Twins (Beside σ a b) (writeScalar kind value : Op Record Unit) (writeScalar kind value) := by
  unfold writeScalar
  split
  · split
    · exact write_twins _
    · exact space_twins (.same _)
  · exact space_twins (.same _)

/-- The same scalars are written, by induction on the list. -/
theorem writeScalars_twins (kind : ScalarKind) (items : List Value) :
    Twins (Beside σ a b) (writeScalars kind items : Op Record Unit) (writeScalars kind items) := by
  unfold writeScalars
  induction items with
  | nil => exact .pure _
  | cons item rest ih => exact (writeScalar_twins kind item).bind fun _ => ih

/-- One field. Its value, and its governor if it has one, stand at other slots. -/
theorem writeFieldWith_twins (writeIn : WriteIn) (hf : FieldMoved σ f f') :
    Twins (Beside σ a b) (writeFieldWith writeIn f) (writeFieldWith writeIn f') := by
  refine inField_twins f f' (subject_twins fun r r' hr => ?_)
  dsimp only
  rw [hf.slot, hr.slot, hf.encoding, hf.nullable]
  -- one case for each encoding
  cases f.encoding with
  | scalar kind => exact writeScalar_twins kind _
  | ordinal => exact (space_twins (widthIn_twins hr f.slot)).bind fun width => stream_twins _
  | sized governor =>
    refine (space_twins (widthIn_twins hr governor)).bind fun width => ?_
    refine (space_twins (.same _)).bind fun n => .ite (fun _ => stream_twins _) fun _ => ?_
    exact space_twins (disagreement_twins f f' _ _)
  | forced width =>
    refine (space_twins (.same _)).bind fun n => .ite (fun _ => stream_twins _) fun _ => ?_
    exact .throw _ _
  | varint => exact (space_twins (.same _)).bind fun n => stream_twins _
  | array element governor =>
    show Twins _ (Op.space (countOf (r.slot governor)) >>= _)
      (Op.space (countOf (r'.slot (σ governor))) >>= _)
    rw [hr.slot]
    refine (space_twins (.same _)).bind fun count => (space_twins (.same _)).bind fun items => ?_
    refine .ite (fun _ => writeScalars_twins element items) fun _ => ?_
    exact space_twins (disagreement_twins f f' _ _)
  | placed placement marker =>
    refine .ite (fun _ => .throw _ _) fun _ => .ite (fun _ => ?_) fun _ => ?_
    · refine (write_twins _).bind fun _ => (space_twins (.same _)).bind fun inline => ?_
      exact writeZeros_twins _
    · cases marker with
      | false => exact slot_twins f.slot _
      | true => exact (write_twins _).bind fun _ => slot_twins f.slot _

/-- Work on all fields in a row. -/
theorem forM_twins {act act' : BoundField → Op Record Unit}
    (h : ∀ f f', FieldMoved σ f f' → Twins (Beside σ a b) (act f) (act' f'))
    {fields fields' : List BoundField} (hall : List.Forall₂ (FieldMoved σ) fields fields') :
    Twins (Beside σ a b) (fields.forM act) (fields'.forM act') := by
  induction hall with
  | nil => exact .pure _
  | cons hf _ ih => exact (h _ _ hf).bind fun _ => ih

/-- Each record is written in the layout of its own schema. -/
theorem requireSchema_twins {r r' : Record} (hr : Reordered σ a b r r') (ha : l.schema = a)
    (hb : l'.schema = b) : Twins Eq (requireSchema l r) (requireSchema l' r') := by
  unfold requireSchema
  refine (Twins.same _).bind fun c => ?_
  rw [if_pos (hr.schema.trans ha.symm), if_pos (hr.schema'.trans hb.symm)]
  exact .pure _

/-- A field is derived and set on both sides. -/
theorem deriveField_twins (hf : FieldMoved σ f f') :
    Twins (Beside σ a b) (deriveField f) (deriveField f') := by
  unfold deriveField
  rw [hf.derivation]
  cases f.derivation with
  | none => exact .pure _
  | some d =>
    refine subject_twins fun r r' hr => (space_twins (derivedValue_twins hr hf d)).bind fun v => ?_
    rw [hf.slot]
    exact setSubject_twins (hr.setSlot f.slot v)

/-- Records inside are the same, so the same is derived in them. -/
theorem deriveInside_twins (deriveIn : DeriveIn) {fields fields' : List BoundField}
    (hall : List.Forall₂ (FieldMoved σ) fields fields') :
    Twins (Beside σ a b) (deriveInside deriveIn fields) (deriveInside deriveIn fields') := by
  induction hall with
  | nil => exact .pure _
  | @cons f f' rest rest' hf _ ih =>
    rw [deriveInside, deriveInside, hf.encoding, hf.slot]
    cases f.encoding with
    | placed placement marker => exact (value_twins f.slot _).bind fun _ => ih
    | _ => exact ih

section

variable (hl : LayoutMoved σ l l') (ha : l.schema = a) (hb : l'.schema = b)

include hl ha hb

/-- Everything is derived in the same order. -/
theorem deriveRecord_twins : Twins (Beside σ a b) (deriveRecord l) (deriveRecord l') := by
  refine subject_twins fun r r' hr => ?_
  rw [hr.walkDepth_eq]
  refine subject_twins fun r r' hr => (space_twins (requireSchema_twins hr ha hb)).bind fun _ => ?_
  refine (deriveInside_twins _ hl.fields).bind fun _ => ?_
  exact forM_twins (fun f f' hf => deriveField_twins hf) hl.fields

/-- Both records are checked, or neither is, and then their fields are written. -/
theorem writeBody_twins (writeIn : WriteIn) :
    Twins (Beside σ a b) (writeBody writeIn l) (writeBody writeIn l') := by
  have hfields : Twins (Beside σ a b) (writeFields writeIn l.fields)
      (writeFields writeIn l'.fields) :=
    forM_twins (fun f f' hf => writeFieldWith_twins writeIn hf) hl.fields
  refine (deriveRecord_twins hl ha hb).bind fun _ => config_twins.bind fun config => ?_
  -- checks are set for both or for neither
  refine .ite (fun _ => ?_) fun _ => hfields
  refine subject_twins fun r r' hr => (space_twins (checkedSize_twins hr hl)).bind fun expected => ?_
  refine position_twins.bind fun start => hfields.bind fun _ => position_twins.bind fun stop => ?_
  exact .ite (fun _ => .throw _ _) fun _ => .pure _

/-- Records with the same values at the slots of the same fields are written alike: the workspace and
the stream become the same. -/
theorem writeRecord_twins : Twins (Beside σ a b) (writeRecord l) (writeRecord l') := by
  refine subject_twins fun r r' hr => ?_
  rw [hr.walkDepth_eq]
  refine subject_twins fun r r' hr => (space_twins (requireSchema_twins hr ha hb)).bind fun _ => ?_
  exact guardingChunks_twins (writeBody_twins hl ha hb _)

end

end

end RecordLayout
