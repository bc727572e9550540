import RecordLayout.Proofs.Codec.Abreast
import RecordLayout.Proofs.Codec.Packed
import RecordLayout.Proofs.Codec.Settled
import RecordLayout.Proofs.Layout.Narrow

/-!
# Writing with chosen widths

A layout with chosen widths writes what the plain layout of fixed width writes, only that every number
takes the width that is chosen for it. So a write with chosen widths goes side by side with the plain one,
up to the first number that does not fit; there it fails.

Main results:

* `Workspace.Knows.narrowed` — the two layouts;
* `deriveRecord_narrowed`, `checkedSize_narrowed` — what is done before the fields are written;
* `writeFields_narrowed` — fields in a row, by induction along the row;
* `writeRecord_narrowed` — records.
-/

namespace RecordLayout

/-! ## Sizes -/

section

variable {width : Width} {widths : List Width} {f f' : BoundField} {fields fields' : List BoundField}
  {l l' : Layout} {w : Workspace}

/-- The bytes that numbers of chosen widths save together. -/
def Width.savedBy (widths : List Width) : Nat := (widths.map saved).sum

/-- A number of a chosen width takes as many bytes. -/
theorem Narrows.width_eq (h : Narrows width f f') : f'.width = width.bytes := by
  rw [BoundField.width, h.same]
  rfl

theorem Narrows.width_widest (h : Narrows width f f') : f.width = Width.widest.bytes := by
  rw [BoundField.width, h.size]
  rfl

theorem Narrowing.sum_width (h : Narrowing widths fields fields') :
    (fields.map (·.width)).sum = (fields'.map (·.width)).sum + Width.savedBy widths := by
  induction h with
  | nil => rfl
  | keep _ _ ih =>
    rw [List.map_cons, List.map_cons, List.sum_cons, List.sum_cons, ih, Nat.add_assoc]
  | @narrow width widths f f' fields fields' hf _ ih =>
    have hsplit := width.bytes_add_saved
    simp only [Width.savedBy, List.map_cons, List.sum_cons] at ih ⊢
    rw [ih, hf.width_eq, hf.width_widest]
    omega

/-- A field of fixed size has no governor. -/
theorem FieldPacked.governor? {c : Compiler} (h : FieldPacked c f) : f.governor? = none := by
  have hseen := h.seen
  cases he : f.encoding with
  | sized governor =>
    rw [he] at hseen
    exact absurd hseen (SizeRange.bounded_ne_fixed (by decide))
  | array element governor =>
    rw [he] at hseen
    cases hseen
  | _ =>
    rw [BoundField.governor?, he]
    rfl

/-- Fields of fixed size have no part in the terms of a size. -/
theorem sizeTerms_packed (total : Nat) (terms : List SizeTerm) (place : Nat)
    (h : ∀ f ∈ fields, f.size = .fixed f.width ∧ f.governor? = none) :
    sizeTerms total terms place fields = (total + (fields.map (·.width)).sum, terms) := by
  induction fields generalizing total place with
  | nil => rfl
  | cons f rest ih =>
    obtain ⟨hsize, hgovernor⟩ := h f List.mem_cons_self
    rw [List.map_cons, List.sum_cons, ← Nat.add_assoc,
      ← ih (total + f.width) (place + 1) fun g hg => h g (List.mem_cons_of_mem _ hg), sizeTerms]
    -- a field with a governor is excluded, any other has its width in the fixed part
    cases he : f.encoding with
    | sized governor =>
      rw [BoundField.governor?, he] at hgovernor
      cases hgovernor
    | array element governor =>
      rw [BoundField.governor?, he] at hgovernor
      cases hgovernor
    | _ => simp only [hsize]

/-- The size of a record in a layout of fixed width does not depend on its values. -/
theorem Workspace.Knows.parts_packed (hl : w.Knows l) (hs : w.Sound) (hkind : l.kind.isFixed = true) :
    l.fixedPart = l.offset l.fields.length ∧ l.terms = [] := by
  have hparts := (hl.good hs).parts
  rw [sizeTerms_packed 0 [] 0 fun f hf =>
    ⟨(hl.packed hs hkind hf).size, (hl.packed hs hkind hf).governor?⟩, Nat.zero_add] at hparts
  obtain ⟨htotal, hterms⟩ := Prod.mk.inj hparts
  exact ⟨by rw [htotal, Layout.offset, List.take_length], hterms⟩

/-- A layout with chosen widths beside the plain one of fixed width. -/
structure Layout.Narrowed (widths : List Width) (l l' : Layout) : Prop where
  schema : l'.schema = l.schema
  schemaName : l'.schemaName = l.schemaName
  fields : Narrowing widths l.fields l'.fields
  size : ∃ n, l'.size = .fixed n ∧ l.size = .fixed (n + Width.savedBy widths)
  fixedPart : l.fixedPart = l'.fixedPart + Width.savedBy widths
  terms : l.terms = []
  terms' : l'.terms = []

/-- Without chosen widths, nothing is saved. -/
theorem Layout.Narrowed.plain (h : l.Narrowed widths l') :
    l.Narrowed (widths.map fun _ => .widest) l := by
  have hnone : Width.savedBy (widths.map fun _ => .widest) = 0 := by
    rw [Width.savedBy, List.map_map]
    exact List.sum_eq_zero fun n hn => by
      obtain ⟨_, -, rfl⟩ := List.mem_map.mp hn
      rfl
  obtain ⟨n, -, hsize⟩ := h.size
  refine ⟨rfl, rfl, h.fields.plain, ⟨_, hsize, ?_⟩, ?_, h.terms, h.terms⟩
  · rw [hsize, hnone, Nat.add_zero]
  · rw [hnone, Nat.add_zero]

theorem Workspace.Knows.narrowed (hl : w.Knows l) (hl' : w.Knows l') (hs : w.Sound)
    (hfaithful : w.compiler.Faithful) (hlive : w.compiler.catalog.LiveFrom l.schema)
    (hfixed : l.key = (l.schema, .fixed)) (hvarying : l'.key = (l.schema, .varying widths))
    (hlen : widths.length = l.forcedFields.length) : l.Narrowed widths l' := by
  -- both layouts are fixed ones of one schema, so they have the same fields up to the widths of the
  -- forced numbers
  have hschema : l'.schema = l.schema := congrArg Prod.fst hvarying
  have hkind : l.kind = .fixed := congrArg Prod.snd hfixed
  have hkind' : l'.kind = .varying widths := congrArg Prod.snd hvarying
  have hplain : l.kind.isFixed = true := by rw [hkind]; rfl
  have hchosen : l'.kind.isFixed = true := by rw [hkind']; rfl
  have hgood := hl.good hs
  have hgood' := hl'.good hs
  have hfields := hgood.fields
  have hfields' := hgood'.fields
  rw [hkind] at hfields
  rw [hkind', hschema] at hfields'
  have hnarrow : Narrowing widths l.fields l'.fields := hfields.narrowing hs.compiler.good hfaithful
    (fun f hf type rule hshape => hlive.liveType hf hshape) hfields' (hgood.fixed hplain)
    (hgood'.fixed hchosen) hlen
  -- fields stand one after the other at a fixed layout, so the sums of their widths decide the
  -- sizes
  have hsaved : l.offset l.fields.length = l'.offset l'.fields.length + Width.savedBy widths := by
    rw [Layout.offset, Layout.offset, List.take_length, List.take_length, hnarrow.sum_width]
  obtain ⟨hpart, hterms⟩ := hl.parts_packed hs hplain
  obtain ⟨hpart', hterms'⟩ := hl'.parts_packed hs hchosen
  refine ⟨hschema, ?_, hnarrow, ⟨_, hl'.size_packed hs hchosen, ?_⟩, ?_, hterms, hterms'⟩
  · rw [hgood'.schemaName, hgood.schemaName, hschema]
  · rw [hl.size_packed hs hplain, hsaved]
  · rw [hpart, hpart', hsaved]

end

/-! ## What is done before the fields are written -/

section

variable {width : Width} {widths : List Width} {f f' : BoundField} {fields fields' : List BoundField}
  {l l' : Layout} {r : Record} {w w' : Workspace} {sizeOf : SizeOf} {n : Nat}

theorem disagreement_narrowed {α : Type} (h : Narrows width f f') (fault : DerivationFault) :
    (disagreement f' fault : SpaceM α) = disagreement f fault := by
  rw [disagreement, disagreement, h.owner, h.name]

theorem derivedValue_narrowed (h : Narrows width f f') (r : Record) (d : SlotDerivation) :
    derivedValue f' r d = derivedValue f r d := by
  cases d with
  | lengthOf array =>
    have hcount (n : Nat) : countValue f' n = countValue f n := by
      rw [countValue, countValue, h.encoding, h.widest]
      rfl
    simp only [derivedValue, hcount]
  | widthOf numbers => rfl

theorem deriveField_narrowed (h : Narrows width f f') : deriveField f' = deriveField f := by
  rw [deriveField, deriveField, h.derivation]
  simp only [derivedValue_narrowed h, h.slot]

theorem checkField_narrowed (h : Narrows width f f') (r : Record) :
    checkField f' r = checkField f r := by
  have hwidth (width : Width) (slots : List Nat) :
      checkWidth f' width r slots = checkWidth f width r slots := by
    induction slots with
    | nil => rfl
    | cons slot rest ih => simp only [checkWidth, ih, disagreement_narrowed h]
  have hderived : checkDerived f' r = checkDerived f r := by
    rw [checkDerived, checkDerived, h.derivation]
    simp only [hwidth, derivedValue_narrowed h, disagreement_narrowed h, h.slot]
  have hgoverned : checkGoverned f' r = checkGoverned f r := by
    rw [checkGoverned, checkGoverned, h.encoding, h.widest]
  rw [checkField, checkField, hderived, hgoverned]

theorem deriveInside_narrowed (h : Narrowing widths fields fields') (deriveIn : DeriveIn) :
    deriveInside deriveIn fields' = deriveInside deriveIn fields := by
  induction h with
  | nil => rfl
  | keep _ _ ih => rw [deriveInside, deriveInside, ih]
  | narrow hf _ ih => rw [deriveInside, deriveInside, ih, hf.encoding, hf.widest]

theorem deriveFields_narrowed (h : Narrowing widths fields fields') :
    fields'.forM deriveField = fields.forM deriveField := by
  induction h with
  | nil => rfl
  | keep _ _ ih => rw [List.forM, List.forM, ih]
  | narrow hf _ ih => rw [List.forM, List.forM, ih, deriveField_narrowed hf]

theorem requireSchema_narrowed (h : l.Narrowed widths l') (r : Record) :
    requireSchema l' r = requireSchema l r := by
  rw [requireSchema, requireSchema, h.schema, h.schemaName]

/-- The same fields are derived, in the same way. -/
theorem deriveRecord_narrowed (h : l.Narrowed widths l') : deriveRecord l' = deriveRecord l := by
  have hwith (deriveIn : DeriveIn) : deriveRecordWith deriveIn l' = deriveRecordWith deriveIn l := by
    rw [deriveRecordWith, deriveRecordWith]
    simp only [requireSchema_narrowed h, deriveInside_narrowed h.fields,
      deriveFields_narrowed h.fields]
  simp only [deriveRecord, hwith]

/-- Fields that pass the checks pass them with the chosen widths, too. -/
theorem checkFields_narrowed (h : Narrowing widths fields fields')
    (hrun : checkFields sizeOf r fields w = .ok n w') :
    ∃ m, checkFields sizeOf r fields' w = .ok m w' ∧ n = m + Width.savedBy widths := by
  -- the induction is on the narrowing; each narrowed field takes fewer bytes by what its width
  -- saves
  induction h generalizing w n with
  | nil =>
    obtain ⟨rfl, rfl⟩ := pure_ok.mp hrun
    exact ⟨0, rfl, rfl⟩
  | keep _ _ ih =>
    simp only [checkFields, bind_ok, pure_ok] at hrun ⊢
    obtain ⟨_, w₁, hcheck, size, w₂, hsize, others, w₃, hrest, rfl, rfl⟩ := hrun
    obtain ⟨m, hrest', rfl⟩ := ih hrest
    exact ⟨_, ⟨_, w₁, hcheck, size, w₂, hsize, m, w₃, hrest', rfl, rfl⟩, by omega⟩
  | @narrow width widths f f' fields fields' hf _ ih =>
    have hsplit := width.bytes_add_saved
    have hsize : fieldSizeWith sizeOf r f = pure Width.widest.bytes := by
      rw [fieldSizeWith, hf.widest]
      rfl
    have hsize' : fieldSizeWith sizeOf r f' = pure width.bytes := by
      rw [fieldSizeWith, hf.encoding]
      rfl
    simp only [checkFields, bind_ok, pure_ok, hsize, hsize', checkField_narrowed hf] at hrun ⊢
    obtain ⟨_, w₁, hcheck, size, w₂, ⟨rfl, rfl⟩, others, w₃, hrest, rfl, rfl⟩ := hrun
    obtain ⟨m, hrest', rfl⟩ := ih hrest
    refine ⟨_, ⟨_, w₁, hcheck, _, w₁, ⟨rfl, rfl⟩, m, w₃, hrest', rfl, rfl⟩, ?_⟩
    simp only [Width.savedBy, List.map_cons, List.sum_cons]
    omega

/-- A record that passes the checks passes them with the chosen widths, too. -/
theorem checkedSize_narrowed (h : l.Narrowed widths l') (hrun : checkedSize l r w = .ok n w') :
    ∃ m, checkedSize l' r w = .ok m w' ∧ n = m + Width.savedBy widths := by
  have hmeasure {l : Layout} (hterms : l.terms = []) (sizeOf : SizeOf) :
      recordSizeWith sizeOf l r = pure l.fixedPart := by
    rw [recordSizeWith, hterms]
    rfl
  obtain ⟨k, hsize', hsize⟩ := h.size
  unfold checkedSize at hrun ⊢
  rw [hmeasure h.terms] at hrun
  rw [hmeasure h.terms']
  simp only [pure_bind] at hrun ⊢
  obtain ⟨measured, w₁, hfields, hrest⟩ := bind_ok.mp hrun
  obtain ⟨m, hfields', hsaved⟩ := checkFields_narrowed h.fields hfields
  -- the check goes on only if what is measured is what the layout says
  have hequal : sizeWord measured = sizeWord l.fixedPart := by
    by_contra hne
    rw [if_pos hne] at hrest
    obtain ⟨_, _, hthrow, -⟩ := bind_ok.mp hrest
    exact throw_ok.mp hthrow
  rw [if_neg (not_not_intro hequal)] at hrest
  obtain ⟨_, w₂, hrange, hpure⟩ := bind_ok.mp hrest
  obtain ⟨hinside, rfl⟩ := ofExcept_ok.mp hrange
  obtain ⟨rfl, rfl⟩ := pure_ok.mp hpure
  have hfixed := h.fixedPart
  have htotal : sizeWord l.fixedPart = sizeWord (k + Width.savedBy widths) := by
    by_contra hne
    rw [checkRange, hsize, SizeRange.toWords] at hinside
    simp only [if_neg hne] at hinside
    cases hinside
  -- both sides are smaller by the same number of bytes
  have hequal' : sizeWord m = sizeWord l'.fixedPart := by
    rw [sizeWord, sizeWord] at hequal ⊢
    omega
  have hrange' : checkRange l' (sizeWord l'.fixedPart) = .ok () := by
    rw [checkRange, hsize', SizeRange.toWords]
    rw [sizeWord, sizeWord] at htotal
    refine if_pos ?_
    rw [sizeWord, sizeWord]
    omega
  refine ⟨l'.fixedPart, bind_ok.mpr ⟨m, w₁, hfields', ?_⟩, hfixed⟩
  rw [if_neg (not_not_intro hequal'), hrange']
  rfl

end

/-! ## Numbers and the widths that are chosen for them -/

/-- The number in the slot of a field fits the width that is chosen for it. -/
def NumberFits (r : Record) (pair : BoundField × Width) : Prop :=
  ∃ n, (r.slot pair.1.slot).toNat? = some n ∧ pair.2.canFit n = true

/-- The first of some numbers in a row that does not fit the width that is chosen for it. -/
inductive FirstMisfit (r : Record) : List (BoundField × Width) → BoundField → Width → Nat → Prop where
  | here {f : BoundField} {width : Width} {n : Nat} {rest : List (BoundField × Width)} :
    (r.slot f.slot).toNat? = some n → width.canFit n = false →
      FirstMisfit r ((f, width) :: rest) f width n
  | later {pair : BoundField × Width} {f : BoundField} {width : Width} {n : Nat}
    {rest : List (BoundField × Width)} : NumberFits r pair → FirstMisfit r rest f width n →
      FirstMisfit r (pair :: rest) f width n

/-- How a write with chosen widths ends beside one that leaves `s'`: it leaves the same, with the cursor
`k` bytes behind, if all numbers fit, and fails with the first number that does not. -/
def EndsBeside (r : Record) (pairs : List (BoundField × Width)) (k : Nat) (s' : Scene Record) :
    EStateM.Result FormatError (Scene Record) Unit → Prop
  | .ok _ t' => (∀ pair ∈ pairs, NumberFits r pair) ∧ s'.Abreast k t'
  | .error e _ => ∃ f width n, FirstMisfit r pairs f width n ∧
      e = .widthTooSmall f.owner f.name width n

section

variable {r r' : Record} {pairs : List (BoundField × Width)} {f : BoundField} {width : Width}
  {n k : Nat} {s' : Scene Record} {result : EStateM.Result FormatError (Scene Record) Unit}

/-- Not all numbers fit if one does not. -/
theorem FirstMisfit.not_all (h : FirstMisfit r pairs f width n) :
    ¬∀ pair ∈ pairs, NumberFits r pair := by
  intro hall
  induction h with
  | here hvalue hnarrow =>
    obtain ⟨m, hm, hfits⟩ := hall _ List.mem_cons_self
    obtain rfl := Option.some.inj (hvalue.symm.trans hm)
    rw [hnarrow] at hfits
    cases hfits
  | later _ _ ih => exact ih fun pair hpair => hall pair (List.mem_cons_of_mem _ hpair)

/-- Only the numbers of the record matter. -/
theorem FirstMisfit.imp (h : FirstMisfit r pairs f width n)
    (hsame : ∀ pair ∈ pairs, ∀ m, (r.slot pair.1.slot).toNat? = some m →
      (r'.slot pair.1.slot).toNat? = some m) : FirstMisfit r' pairs f width n := by
  induction h with
  | here hvalue hnarrow => exact .here (hsame _ List.mem_cons_self _ hvalue) hnarrow
  | later hfits _ ih =>
    obtain ⟨m, hm, hfit⟩ := hfits
    exact .later ⟨m, hsame _ List.mem_cons_self _ hm, hfit⟩
      (ih fun pair hpair => hsame pair (List.mem_cons_of_mem _ hpair))

theorem EndsBeside.imp (h : EndsBeside r pairs k s' result)
    (hsame : ∀ pair ∈ pairs, ∀ m, (r.slot pair.1.slot).toNat? = some m →
      (r'.slot pair.1.slot).toNat? = some m) : EndsBeside r' pairs k s' result := by
  cases result with
  | ok _ t' =>
    obtain ⟨hall, hend⟩ := h
    refine ⟨fun pair hpair => ?_, hend⟩
    obtain ⟨m, hm, hfit⟩ := hall pair hpair
    exact ⟨m, hsame pair hpair m hm, hfit⟩
  | error e t' =>
    obtain ⟨f, width, n, hmisfit, rfl⟩ := h
    exact ⟨f, width, n, hmisfit.imp hsame, rfl⟩

/-- One number that fits, and the rest. -/
theorem EndsBeside.cons {pair : BoundField × Width} (h : EndsBeside r pairs k s' result)
    (hfits : NumberFits r pair) : EndsBeside r (pair :: pairs) k s' result := by
  cases result with
  | ok _ t' => exact ⟨List.forall_mem_cons.mpr ⟨hfits, h.1⟩, h.2⟩
  | error e t' =>
    obtain ⟨f, width, n, hmisfit, rfl⟩ := h
    exact ⟨f, width, n, .later hfits hmisfit, rfl⟩

end

/-! ## Fields in a row -/

section

variable {writeIn : WriteIn} {width : Width} {widths : List Width} {f : BoundField}
  {fields fields' : List BoundField} {s s' t : Scene Record} {k n : Nat} {u : Unit}

/-- A number that is written fits its width, and its bytes are put into the stream. -/
theorem writeFieldWith_forced (he : f.encoding = .forced width) :
    writeFieldWith writeIn f s = .ok u s' ↔ ∃ n b, (s.subject.slot f.slot).toNat? = some n ∧
      width.canFit n = true ∧ s.stream.put (leBytes width.bytes (UInt64.ofNat n).toNat) = .ok b ∧
        s' = { s with stream := b } := by
  -- a width of nine bytes does not exist, so a number is one write
  have hword (n : Nat) : (writeNumber width n : Op Record Unit) =
      Op.write (leBytes width.bytes (UInt64.ofNat n).toNat) := by
    rw [writeNumber, ByteSink.writeWord, if_neg (by cases width <;> decide)]
    rfl
  rw [writeFieldWith, Op.inField_ok]
  simp only [bind_ok, Op.subject_ok, he, hword]
  constructor
  · rintro ⟨r, s, ⟨rfl, rfl⟩, n, s₁, hcount, hwrite⟩
    obtain ⟨hn, rfl⟩ := space_countOf_ok.mp hcount
    rcases ite_ok.mp hwrite with ⟨hfits, hwrite⟩ | ⟨-, hfail⟩
    · obtain ⟨b, hput, rfl⟩ := Op.write_ok.mp hwrite
      exact ⟨n, b, hn, hfits, hput, rfl⟩
    · exact (throw_ok.mp hfail).elim
  · rintro ⟨n, b, hn, hfits, hput, rfl⟩
    exact ⟨_, s, ⟨rfl, rfl⟩, n, s, space_countOf_ok.mpr ⟨hn, rfl⟩,
      ite_ok.mpr (.inl ⟨hfits, Op.write_ok.mpr ⟨b, hput, rfl⟩⟩)⟩

/-- A number that does not fit its width is not written. -/
theorem writeFieldWith_misfit (he : f.encoding = .forced width)
    (hn : (s.subject.slot f.slot).toNat? = some n) (hnarrow : width.canFit n = false) :
    writeFieldWith writeIn f s = .error (.widthTooSmall f.owner f.name width n) s := by
  have hcount : (Op.space (countOf (s.subject.slot f.slot)) : Op Record Nat) s = .ok n s :=
    space_countOf_ok.mpr ⟨hn, rfl⟩
  -- the count is read before the width is looked at
  have hbody : (do
      let r ← Op.subject
      let n ← Op.space (countOf (r.slot f.slot))
      if width.canFit n then writeNumber width n
      else throw (.widthTooSmall f.owner f.name width n) : Op Record Unit) s =
        .error (.widthTooSmall f.owner f.name width n) s := by
    rw [bind_of_ok (show (Op.subject : Op Record Record) s = .ok s.subject s from rfl),
      bind_of_ok hcount, hnarrow]
    rfl
  simp only [writeFieldWith, he, Op.inField, failingAs]
  rw [hbody]
  rfl

/-- By induction along the row: other fields are written alike, and every number falls behind by the
bytes that it saves. -/
theorem writeFields_narrowed (habreast : ∀ p, (writeIn p).Abreast) (hsizes : SizesWell writeIn)
    (h : Narrowing widths fields fields') (hnodup : (fields.map (·.slot)).Nodup)
    (hst : s.Abreast k t) (hs : s.space.Sound) (hrun : writeFields writeIn fields s = .ok u s') :
    EndsBeside s.subject ((fields.filter (·.encoding.isForced)).zip widths)
      (k + Width.savedBy widths) s' (writeFields writeIn fields' t) := by
  induction h generalizing s t k with
  | nil =>
    obtain ⟨-, rfl⟩ := pure_ok.mp hrun
    exact ⟨fun pair hpair => (List.not_mem_nil hpair).elim, hst⟩
  | @keep widths f fields fields' hf _ ih =>
    obtain ⟨hnew, hrest⟩ := List.nodup_cons.mp hnodup
    obtain ⟨_, s₁, hfirst, hmore⟩ := bind_ok.mp hrun
    obtain ⟨t₁, hfirst', hst₁⟩ := abreast.writeFieldWith habreast f k s t _ s₁ hst hfirst
    obtain ⟨_, hone⟩ := writeFieldWith_sized hsizes hfirst hs
    have hends := ih hrest hst₁ hone.moved.sound hmore
    rw [List.filter_cons_of_neg (by rw [hf]; decide)]
    show EndsBeside _ _ _ _ ((writeFieldWith writeIn f >>= fun _ => writeFields writeIn fields') t)
    rw [bind_of_ok hfirst']
    -- the numbers to come are in other slots than the field that has been written
    refine hends.imp fun pair hpair m hm => ?_
    have hmem : pair.1.slot ∈ fields.map (·.slot) :=
      List.mem_map_of_mem (List.mem_filter.mp (List.of_mem_zip hpair).1).1
    have hother : pair.1.slot ≠ f.slot := fun heq => by
      rw [heq] at hmem
      exact hnew hmem
    rwa [← hone.others _ hother]
  | @narrow width widths f f' fields fields' hf _ ih =>
    obtain ⟨hnew, hrest⟩ := List.nodup_cons.mp hnodup
    obtain ⟨_, s₁, hfirst, hmore⟩ := bind_ok.mp hrun
    obtain ⟨n, b, hn, -, hput, rfl⟩ := (writeFieldWith_forced hf.widest).mp hfirst
    rw [List.filter_cons_of_pos (by rw [hf.widest]; rfl), List.zip_cons_cons]
    have hn' : (t.subject.slot f'.slot).toNat? = some n := by rw [hst.subject, hf.slot, hn]
    show EndsBeside _ _ _ _ ((writeFieldWith writeIn f' >>= fun _ => writeFields writeIn fields') t)
    cases hfits : width.canFit n with
    | false =>
      rw [bind_error.mpr (.inl (writeFieldWith_misfit hf.encoding hn' hfits)), hf.owner, hf.name]
      exact ⟨f, width, n, .here hn hfits, rfl⟩
    | true =>
      obtain ⟨b', hput', htrails⟩ := hst.stream.put hput
        (show _ = (leBytes width.bytes (UInt64.ofNat n).toNat).length + width.saved by
          rw [length_leBytes, length_leBytes, width.bytes_add_saved])
      have hwrite : writeFieldWith writeIn f' t = .ok () { t with stream := b' } :=
        (writeFieldWith_forced hf.encoding).mpr ⟨n, b', hn', hfits, hput', rfl⟩
      rw [bind_of_ok hwrite]
      have hnext : Scene.Abreast (k + width.saved) { s with stream := b } { t with stream := b' } :=
        ⟨hst.space, hst.subject, htrails⟩
      have hends := ih hrest hnext hs hmore
      rw [Nat.add_assoc] at hends
      exact hends.cons ⟨n, hn, hfits⟩

end

/-! ## Records -/

section

variable {l l' : Layout} {widths : List Width} {writeIn : WriteIn} {s s' : Scene Record} {u : Unit}

/-- A row of all fields of a layout. -/
theorem writeRow_narrowed (habreast : ∀ p, (writeIn p).Abreast) (hsizes : SizesWell writeIn)
    (h : l.Narrowed widths l') (hs : s.space.Sound) (hl : s.space.Knows l)
    (hrun : writeFields writeIn l.fields s = .ok u s') :
    EndsBeside s.subject (l.forcedFields.zip widths) (Width.savedBy widths) s'
      (writeFields writeIn l'.fields s) := by
  have hends := writeFields_narrowed habreast hsizes h.fields (hl.good hs).fields.slots_nodup
    ⟨rfl, rfl, .refl s.stream⟩ hs hrun
  rwa [Nat.zero_add] at hends

/-- If the plain write moves the cursor as far as it has to, so does the one beside it. -/
theorem EndsBeside.movingBy {r : Record} {pairs : List (BoundField × Width)} {k bytes : Nat}
    {failure : Nat → FormatError} {act : Op Record Unit}
    (hmoved : s'.stream.position - s.stream.position = bytes + k)
    (h : EndsBeside r pairs k s' (act s)) :
    EndsBeside r pairs k s' (Op.movingBy bytes failure act s) := by
  rw [Op.movingBy, bind_of_ok (show (Op.position : Op Record Nat) s = .ok _ s from rfl)]
  cases hact : act s with
  | error e t' =>
    rw [hact] at h
    rw [bind_error.mpr (.inl hact)]
    exact h
  | ok _ t' =>
    rw [hact] at h
    have hposition := h.2.stream.position
    rw [bind_of_ok hact, bind_of_ok (show (Op.position : Op Record Nat) t' = .ok _ t' from rfl),
      if_neg (not_not_intro (by omega))]
    exact h

theorem writeChecked_narrowed (habreast : ∀ p, (writeIn p).Abreast) (hsizes : SizesWell writeIn)
    (h : l.Narrowed widths l') (hs : s.space.Sound) (hl : s.space.Knows l)
    (hrun : writeChecked writeIn l s = .ok u s') :
    EndsBeside s.subject (l.forcedFields.zip widths) (Width.savedBy widths) s'
      (writeChecked writeIn l' s) := by
  rw [writeChecked] at hrun
  simp only [bind_ok, Op.subject_ok, Op.position_ok] at hrun
  obtain ⟨r, s, ⟨rfl, rfl⟩, expected, s₁, hcheck, start, s₁, ⟨rfl, rfl⟩, _, s₂, hfields, stop, s₂,
    ⟨rfl, rfl⟩, hrest⟩ := hrun
  obtain ⟨w, hsize, rfl⟩ := Op.space_ok.mp hcheck
  -- the narrowed layout announces fewer bytes, and as many fewer are written
  obtain ⟨m, hsize', rfl⟩ := checkedSize_narrowed h hsize
  obtain ⟨hstudied, -, -⟩ := space_studied (studies.checkedSize l _ _ hs) hcheck
  have hends := writeRow_narrowed habreast hsizes h hstudied.sound (hl.mono hstudied.learns.toLe)
    hfields
  rcases ite_ok.mp hrest with ⟨-, hfail⟩ | ⟨hmoved, hpure⟩
  · exact (throw_ok.mp hfail).elim
  · obtain ⟨-, rfl⟩ := pure_ok.mp hpure
    show EndsBeside _ _ _ _ ((Op.space (checkedSize l' s.subject) >>= fun expected =>
      Op.movingBy expected (fun moved => .sizeMismatch l'.schemaName .written expected moved)
        (writeFields writeIn l'.fields)) s)
    rw [bind_of_ok (Op.space_ok.mpr ⟨w, hsize', rfl⟩)]
    exact hends.movingBy (not_not.mp hmoved)

/-- An array has no encoding of fixed width. -/
theorem FieldGood.not_array {c : Compiler} {schema : Schema} {kind : LayoutKind} {decl : FieldDecl}
    {f : BoundField} (h : FieldGood c schema kind decl f) (hkind : kind.isFixed = true)
    {element : ScalarKind} {count : String} : decl.shape ≠ .array element count := by
  intro hshape
  have hnone : boundEncoding? c schema kind decl = none := by
    rw [boundEncoding?, hshape]
    exact if_pos hkind
  rcases h.encoding with hbound | ⟨_, _, hbound, -⟩ <;>
  · rw [hnone] at hbound
    cases hbound

/-- A number is not declared as a width. -/
theorem FieldGood.not_width {c : Compiler} {schema : Schema} {kind : LayoutKind} {decl : FieldDecl}
    {f : BoundField} (h : FieldGood c schema kind decl f) (hforced : f.encoding.isForced = true) :
    decl.shape ≠ .width := by
  intro hshape
  have hordinal : boundEncoding? c schema kind decl = some .ordinal := by
    rw [boundEncoding?, hshape]
  rcases h.encoding with hbound | ⟨_, _, hbound, -⟩
  · obtain heq := Option.some.inj (hordinal.symm.trans hbound)
    rw [← heq] at hforced
    cases hforced
  · cases hordinal.symm.trans hbound

/-- A number of a layout of fixed width is not derived: a count would follow from an array, and there is
none in such a layout. -/
theorem Workspace.Knows.forced_underived {w : Workspace} (hl : w.Knows l) (hs : w.Sound)
    (hchecked : w.catalog.Checked) (hkind : l.kind.isFixed = true) {f : BoundField}
    (hf : f ∈ l.forcedFields) : f.derivation = none := by
  obtain ⟨hmem, hforced⟩ := List.mem_filter.mp hf
  have hchecked : w.compiler.catalog.Checked := hchecked
  have hfields := (hl.good hs).fields
  obtain ⟨decl, hgood⟩ := hfields.declared hmem
  have hdecl := List.mem_of_getElem? hgood.declared
  cases hd : f.derivation with
  | none => rfl
  | some d =>
    have hderived := hgood.derived hd
    cases d with
    | widthOf slots =>
      obtain ⟨numbers, hderives, -⟩ := hderived
      exact absurd (hchecked.shape hdecl hderives) (hgood.not_width hforced)
    | lengthOf slot =>
      -- the array is a field of the same schema, so the layout would have to bind it
      obtain ⟨array, hderives, hslot⟩ := hderived
      obtain ⟨g, element, count, hfound, hshape⟩ := hchecked.array hdecl hderives
      rw [Schema.field?_of_slot? hslot] at hfound
      obtain ⟨source, hsource, hat⟩ := List.mem_map.mp
        (hfields.mem_slots.mpr (List.getElem?_eq_some_iff.mp hfound).1)
      obtain ⟨gdecl, hgdecl⟩ := hfields.declared hsource
      have hsame := hgdecl.declared
      rw [hat] at hsame
      obtain rfl := Option.some.inj (hsame.symm.trans hfound)
      exact absurd hshape (hgdecl.not_array hkind)

theorem writeBody_narrowed (habreast : ∀ p, (writeIn p).Abreast) (hsizes : SizesWell writeIn)
    (h : l.Narrowed widths l') (hs : s.space.Sound) (hl : s.space.Knows l)
    (hchecked : s.space.catalog.Checked) (hkind : l.kind.isFixed = true)
    (hschema : s.subject.schema = l.schema) (hrun : writeBody writeIn l s = .ok u s') :
    EndsBeside s.subject (l.forcedFields.zip widths) (Width.savedBy widths) s'
      (writeBody writeIn l' s) := by
  rw [writeBody] at hrun
  obtain ⟨_, s₁, hderive, hrest⟩ := bind_ok.mp hrun
  obtain ⟨config, s₂, hconfig, hwrite⟩ := bind_ok.mp hrest
  obtain ⟨rfl, rfl⟩ := Op.config_ok.mp hconfig
  obtain ⟨hstudied, hrefreshed⟩ := deriveRecord_ok hderive hs hl
  have hl₁ := hl.mono hstudied.learns.toLe
  have hends : EndsBeside s₂.subject (l.forcedFields.zip widths) (Width.savedBy widths) s'
      (writeBody writeIn l' s) := by
    rw [writeBody, bind_of_ok (deriveRecord_narrowed h ▸ hderive),
      bind_of_ok (show (Op.config : Op Record Config) s₂ = .ok _ s₂ from rfl)]
    rcases ite_ok.mp hwrite with ⟨hvalidates, hwrite⟩ | ⟨hvalidates, hwrite⟩
    · rw [if_pos hvalidates]
      exact writeChecked_narrowed habreast hsizes h hstudied.sound hl₁ hwrite
    · rw [if_neg hvalidates]
      exact writeRow_narrowed habreast hsizes h hstudied.sound hl₁ hwrite
  -- the numbers are as they were before the derived fields were worked out
  refine hends.imp fun pair hpair m hm => ?_
  have hnumber := (List.of_mem_zip hpair).1
  obtain ⟨decl, hgood⟩ := (hl.good hs).fields.declared (List.mem_filter.mp hnumber).1
  have hkept : s.space.compiler.catalog.derives s.subject.schema pair.1.slot = false := by
    rw [hschema, hgood.derives, hl.forced_underived hs hchecked hkind hnumber]
    rfl
  have hrecast := hrefreshed.recast.slots _ hkept
  cases hv : s₂.subject.slot pair.1.slot with
  | scalar x => rwa [hrecast.scalar hv, ← hv]
  | _ =>
    rw [hv] at hm
    cases hm

theorem EndsBeside.guardingChunks {r : Record} {pairs : List (BoundField × Width)} {k : Nat}
    {act : Op Record Unit} (h : EndsBeside r pairs k s' (act { s with space := s.space.openScope })) :
    EndsBeside r pairs k { s' with space := s'.space.keepScope } (guardingChunks act s) := by
  rw [RecordLayout.guardingChunks, bind_of_ok (show (Op.subject : Op Record Record) s = .ok _ s from rfl)]
  simp only [Op.onFailure, rollback]
  cases hact : act { s with space := s.space.openScope } with
  | error e t' =>
    rw [hact] at h
    exact h
  | ok _ t' =>
    rw [hact] at h
    exact ⟨h.1, congrArg Workspace.keepScope h.2.space, h.2.subject, h.2.stream⟩

/-- A record that is written in the plain layout is written with chosen widths beside it, up to the first
number that does not fit. -/
theorem writeRecord_narrowed (h : l.Narrowed widths l') (hs : s.space.Sound) (hl : s.space.Knows l)
    (hchecked : s.space.catalog.Checked) (hkind : l.kind.isFixed = true)
    (hrun : writeRecord l s = .ok u s') :
    EndsBeside s.subject (l.forcedFields.zip widths) (Width.savedBy widths) s'
      (writeRecord l' s) := by
  obtain ⟨r, s, hsubject, hwrite⟩ := bind_ok.mp hrun
  obtain ⟨rfl, rfl⟩ := Op.subject_ok.mp hsubject
  have habreast : ∀ p, (writeWithin s.subject.walkDepth p).Abreast := abreast.writeWithin _
  rw [writeRecordWith] at hwrite
  simp only [bind_ok, Op.subject_ok, space_requireSchema_ok] at hwrite
  obtain ⟨r, s, ⟨rfl, rfl⟩, _, s, ⟨hschema, rfl⟩, hguarded⟩ := hwrite
  rw [guardingChunks] at hguarded
  simp only [bind_ok, Op.subject_ok, Op.onFailure_ok, rollback_ok] at hguarded
  obtain ⟨r, s, ⟨rfl, rfl⟩, t, hbody, rfl⟩ := hguarded
  -- the frame is opened alike for both layouts
  have hopen : s.space.openScope.Sound := ⟨hs.compiler, hs.store⟩
  have hbody' := writeBody_narrowed (s := { s with space := s.space.openScope }) habreast
    (writeWithin_sized _) h hopen hl hchecked hkind hschema hbody
  have hrequire : (Op.space (requireSchema l' s.subject) : Op Record Unit) s = .ok () s := by
    rw [requireSchema_narrowed h]
    exact space_requireSchema_ok.mpr ⟨hschema, rfl⟩
  have hsubject : (Op.subject : Op Record Record) s = .ok s.subject s := rfl
  rw [writeRecord, bind_of_ok hsubject, writeRecordWith, bind_of_ok hsubject, bind_of_ok hrequire]
  exact hbody'.guardingChunks

/-- The numbers of a record that is written in the plain layout are counts of words. -/
theorem writeRecord_numbers (h : l.Narrowed widths l') (hs : s.space.Sound) (hl : s.space.Knows l)
    (hchecked : s.space.catalog.Checked) (hkind : l.kind.isFixed = true)
    (hrun : writeRecord l s = .ok u s') {f : BoundField} (hf : f ∈ l.forcedFields) :
    ∃ n, (s.subject.slot f.slot).toNat? = some n ∧ n < 2 ^ 64 := by
  have hends := writeRecord_narrowed h.plain hs hl hchecked hkind hrun
  rw [hrun] at hends
  have hlen : l.forcedFields.length = (widths.map fun _ => Width.widest).length :=
    h.fields.plain.length_forced
  obtain ⟨i, hi, rfl⟩ := List.getElem_of_mem hf
  have hmem : (l.forcedFields[i], Width.widest) ∈
      l.forcedFields.zip (widths.map fun _ => Width.widest) := by
    rw [List.mem_iff_getElem]
    refine ⟨i, by rw [List.length_zip, ← hlen, Nat.min_self]; exact hi, ?_⟩
    rw [List.getElem_zip, List.getElem_map]
  obtain ⟨n, hn, hfits⟩ := hends.1 _ hmem
  exact ⟨n, hn, Width.canFit_iff.mp hfits⟩

end

end RecordLayout
