import Mathlib
import RecordLayout.Proofs.Layout.Chosen

/-!
# What chosen widths change

A layout with chosen widths has the fields of the plain layout of fixed width, in the same order. Only
the numbers take other widths, in the order of the fields: `Narrowing`.

Main results:

* `Narrowing.forced` — the chosen widths are those of the numbers;
* `FieldsGood.narrowing` — the fields of both layouts.
-/

namespace RecordLayout

/-- The bytes that a number saves that does not take the widest width. -/
def Width.saved (w : Width) : Nat := widest.bytes - w.bytes

theorem Width.bytes_add_saved (w : Width) : w.bytes + w.saved = widest.bytes := by
  cases w <;> rfl

/-- A number that takes another width than the widest one, and nothing else about it is different. -/
structure Narrows (width : Width) (f f' : BoundField) : Prop where
  widest : f.encoding = .forced .widest
  size : f.size = .fixed Width.widest.bytes
  same : f' = { f with
    encoding := .forced width, size := .fixed width.bytes, typeName := f'.typeName }

/-- The fields of two layouts, the second of which gives its numbers the chosen widths in order. -/
inductive Narrowing : List Width → List BoundField → List BoundField → Prop where
  | nil : Narrowing [] [] []
  | keep {widths : List Width} {f : BoundField} {fields fields' : List BoundField} :
    f.encoding.isForced = false → Narrowing widths fields fields' →
      Narrowing widths (f :: fields) (f :: fields')
  | narrow {width : Width} {widths : List Width} {f f' : BoundField}
    {fields fields' : List BoundField} : Narrows width f f' → Narrowing widths fields fields' →
      Narrowing (width :: widths) (f :: fields) (f' :: fields')

namespace Narrows

variable {width : Width} {f f' : BoundField}

theorem encoding (h : Narrows width f f') : f'.encoding = .forced width := by rw [h.same]

theorem owner (h : Narrows width f f') : f'.owner = f.owner := by rw [h.same]

theorem name (h : Narrows width f f') : f'.name = f.name := by rw [h.same]

theorem slot (h : Narrows width f f') : f'.slot = f.slot := by rw [h.same]

theorem derivation (h : Narrows width f f') : f'.derivation = f.derivation := by rw [h.same]

end Narrows

namespace Narrowing

variable {widths : List Width} {fields fields' : List BoundField}

/-- The numbers of the plain layout are as many as the chosen widths. -/
theorem length_forced (h : Narrowing widths fields fields') :
    (fields.filter (·.encoding.isForced)).length = widths.length := by
  induction h with
  | nil => rfl
  | keep hf _ ih => rw [List.filter_cons_of_neg (by rw [hf]; decide), ih]
  | narrow hf _ ih =>
    rw [List.filter_cons_of_pos (by rw [hf.widest]; rfl), List.length_cons, List.length_cons, ih]

/-- The numbers have the chosen widths. -/
theorem forced (h : Narrowing widths fields fields') :
    (fields'.filter (·.encoding.isForced)).map (·.encoding) = widths.map .forced := by
  induction h with
  | nil => rfl
  | keep hf _ ih => rw [List.filter_cons_of_neg (by rw [hf]; decide), ih]
  | narrow hf _ ih =>
    rw [List.filter_cons_of_pos (by rw [hf.encoding]; rfl), List.map_cons, List.map_cons, ih,
      hf.encoding]

/-- Without chosen widths, all numbers have the widest one. -/
theorem plain (h : Narrowing widths fields fields') :
    Narrowing (widths.map fun _ => .widest) fields fields := by
  induction h with
  | nil => exact .nil
  | keep hf _ ih => exact .keep hf ih
  | @narrow width widths f f' fields fields' hf _ ih =>
    refine .narrow ⟨hf.widest, hf.size, ?_⟩ ih
    rw [← hf.widest, ← hf.size]

end Narrowing

/-! ## Widths that are assigned -/

section

variable {pairs : List (Nat × Width)} {bindings : List Binding} {i : Nat}

/-- One slot after another is given a width. -/
abbrev assignAll (pairs : List (Nat × Width)) (bindings : List Binding) : List Binding :=
  pairs.foldl (fun bindings (slot, width) =>
    bindings.set slot { bindings.getD slot default with encoding := .forced width }) bindings

theorem assignAll_of_notMem (h : i ∉ pairs.map Prod.fst) :
    (assignAll pairs bindings).getD i default = bindings.getD i default := by
  induction pairs generalizing bindings with
  | nil => rfl
  | cons pair rest ih =>
    obtain ⟨slot, width⟩ := pair
    rw [List.map_cons, List.mem_cons, not_or] at h
    obtain ⟨hne, hrest⟩ := h
    refine (ih hrest).trans ?_
    rw [List.getD_eq_getElem?_getD, List.getD_eq_getElem?_getD, List.getElem?_set_ne (Ne.symm hne)]

theorem assignAll_of_mem (hnodup : (pairs.map Prod.fst).Nodup) (hi : i < bindings.length)
    {width : Width} (h : (i, width) ∈ pairs) : (assignAll pairs bindings).getD i default =
      { bindings.getD i default with encoding := .forced width } := by
  induction pairs generalizing bindings with
  | nil => cases h
  | cons pair rest ih =>
    obtain ⟨slot, first⟩ := pair
    obtain ⟨hslot, hrest⟩ := List.nodup_cons.mp hnodup
    rcases List.mem_cons.mp h with heq | hmem
    · cases heq
      refine (assignAll_of_notMem hslot).trans ?_
      rw [List.getD_eq_getElem _ _ (by rwa [List.length_set]), List.getElem_set_self]
    · have hne : slot ≠ i := fun heq => hslot (List.mem_map.mpr ⟨_, hmem, heq.symm⟩)
      refine (ih hrest (by rwa [List.length_set]) hmem).trans ?_
      rw [List.getD_eq_getElem?_getD, List.getElem?_set_ne hne, ← List.getD_eq_getElem?_getD]

end

/-- Fields in the order of their slots. -/
theorem narrowing_of_slots (forced : Nat → Bool) {field field' : Nat → BoundField} {order : List Nat}
    {widths : List Width} (hlen : widths.length = (order.filter forced).length)
    (hnarrow : ∀ slot w, (slot, w) ∈ (order.filter forced).zip widths →
      Narrows w (field slot) (field' slot))
    (hkeep : ∀ slot ∈ order, forced slot = false →
      field' slot = field slot ∧ (field slot).encoding.isForced = false) :
    Narrowing widths (order.map field) (order.map field') := by
  -- the induction is on the order, taking a width off the list at each forced slot
  induction order generalizing widths with
  | nil =>
    obtain rfl := List.length_eq_zero_iff.mp hlen
    exact .nil
  | cons slot rest ih =>
    have hrest (s : Nat) (hs : s ∈ rest) := hkeep s (List.mem_cons_of_mem _ hs)
    rw [List.map_cons, List.map_cons]
    cases hforced : forced slot with
    | false =>
      rw [List.filter_cons_of_neg (by rw [hforced]; decide)] at hlen hnarrow
      obtain ⟨hsame, hplain⟩ := hkeep slot List.mem_cons_self hforced
      rw [hsame]
      exact .keep hplain (ih hlen hnarrow hrest)
    | true =>
      rw [List.filter_cons_of_pos hforced] at hlen hnarrow
      cases widths with
      | nil => cases hlen
      | cons w widths =>
        rw [List.zip_cons_cons] at hnarrow
        exact .narrow (hnarrow slot w List.mem_cons_self) (ih (Nat.succ.inj hlen)
          (fun s v hsv => hnarrow s v (List.mem_cons_of_mem _ hsv)) hrest)

/-! ## Bindings -/

section

variable {c : Compiler} {s : Schema} {widths : List Width}

/-- A field is bound in the same way, whatever widths are chosen. -/
theorem boundEncoding?_varying (hfaithful : c.Faithful) {f : FieldDecl}
    (hlive : ∀ type rule, f.shape = .value type rule → c.catalog.LiveType type.key) {e e' : Encoding}
    (h : boundEncoding? c s .fixed f = some e) (h' : boundEncoding? c s (.varying widths) f = some e') :
    e' = e := by
  unfold boundEncoding? at h h'
  cases hshape : f.shape with
  | value type rule =>
    simp only [hshape, Option.map_eq_some_iff] at h h'
    obtain ⟨p, hp, rfl⟩ := h
    obtain ⟨p', hp', rfl⟩ := h'
    have htype := hlive type rule hshape
    have hfixed := hfaithful.placements _ _ _ rfl htype (Compiler.placementAnswer_eq_some.mp hp)
    have hvarying := hfaithful.placements _ _ _ rfl htype (Compiler.placementAnswer_eq_some.mp hp')
    obtain rfl := Except.ok.inj (hvarying.trans hfixed.symm)
    rfl
  | _ =>
    rw [hshape] at h h'
    exact Option.some.inj (h'.symm.trans h)

theorem boundFields?_varying (hfaithful : c.Faithful) {slot : Nat} {fields : List FieldDecl}
    (hlive : ∀ f ∈ fields, ∀ type rule, f.shape = .value type rule → c.catalog.LiveType type.key)
    {bs bs' : List Binding} (h : boundFields? c s .fixed slot fields = some bs)
    (h' : boundFields? c s (.varying widths) slot fields = some bs') : bs' = bs := by
  induction fields generalizing slot bs bs' with
  | nil =>
    cases h
    cases h'
    rfl
  | cons f rest ih =>
    simp only [boundFields?, Option.bind_eq_bind, Option.bind_eq_some_iff, Option.some.injEq] at h h'
    obtain ⟨b, hb, others, hothers, rfl⟩ := h
    obtain ⟨b', hb', others', hothers', rfl⟩ := h'
    obtain rfl := ih (fun f hf => hlive f (List.mem_cons_of_mem _ hf)) hothers hothers'
    obtain ⟨hdecl, hslot, henc, hneeds, hder⟩ := boundField?_eq_some.mp hb
    obtain ⟨hdecl', hslot', henc', hneeds', hder'⟩ := boundField?_eq_some.mp hb'
    -- the two bindings agree in every part, so they are one
    have heq : b' = b := by
      obtain ⟨decl, bslot, encoding, needs, derivation⟩ := b
      obtain ⟨decl', bslot', encoding', needs', derivation'⟩ := b'
      obtain rfl := boundEncoding?_varying hfaithful (hlive f List.mem_cons_self) henc henc'
      obtain rfl := Option.some.inj (hneeds'.symm.trans hneeds)
      obtain rfl := Option.some.inj (hder'.symm.trans hder)
      obtain rfl := hdecl'.trans hdecl.symm
      obtain rfl := hslot'.trans hslot.symm
      rfl
    rw [heq]

/-- Without chosen widths, a number takes the widest one. -/
theorem boundEncoding?_widest {f : FieldDecl} {e : Encoding} (h : boundEncoding? c s .fixed f = some e)
    (hforced : e.isForced = true) : e = .forced .widest := by
  unfold boundEncoding? at h
  cases hshape : f.shape with
  | value type rule =>
    simp only [hshape, Option.map_eq_some_iff] at h
    obtain ⟨p, -, rfl⟩ := h
    cases hforced
  | array element count =>
    rw [hshape] at h
    cases h
  | varint =>
    rw [hshape] at h
    exact (Option.some.inj h).symm
  | sized size =>
    rw [hshape] at h
    exact (Option.some.inj h).symm
  | _ =>
    rw [hshape] at h
    cases Option.some.inj h
    cases hforced

/-- A field with a chosen width differs from the one without in nothing else. -/
theorem FinishedFrom.narrowed {governors : List Nat} {b : Binding} {f f' : BoundField} {w : Width}
    (h : FinishedFrom c.catalog s governors b f)
    (h' : FinishedFrom c.catalog s governors { b with encoding := .forced w } f')
    (hsize : f'.size = .fixed w.bytes) :
    f' = { f with encoding := .forced w, size := .fixed w.bytes, typeName := f'.typeName } := by
  obtain ⟨owner, name, slot, typeName, nullable, encoding, size, needs, derivation, governs⟩ := f'
  simp only [BoundField.mk.injEq]
  exact ⟨h'.owner.trans h.owner.symm, h'.name.trans h.name.symm, h'.slot.trans h.slot.symm, trivial,
    h'.nullable.trans h.nullable.symm, h'.encoding, hsize, h'.needs.trans h.needs.symm,
    h'.derivation.trans h.derivation.symm, h'.governs.trans h.governs.symm⟩

theorem FinishedFrom.unique {governors : List Nat} {b : Binding} {f f' : BoundField}
    (h : FinishedFrom c.catalog s governors b f) (h' : FinishedFrom c.catalog s governors b f')
    (hsize : f'.size = f.size) : f' = f := by
  obtain ⟨owner, name, slot, typeName, nullable, encoding, size, needs, derivation, governs⟩ := f
  obtain ⟨owner', name', slot', typeName', nullable', encoding', size', needs', derivation',
    governs'⟩ := f'
  simp only [BoundField.mk.injEq]
  exact ⟨h'.owner.trans h.owner.symm, h'.name.trans h.name.symm, h'.slot.trans h.slot.symm,
    h'.typeName.trans h.typeName.symm, h'.nullable.trans h.nullable.symm,
    h'.encoding.trans h.encoding.symm, hsize, h'.needs.trans h.needs.symm,
    h'.derivation.trans h.derivation.symm, h'.governs.trans h.governs.symm⟩

/-- A field of fixed size is as long as its binding says. -/
theorem finished_at (hc : c.Good) {governors : List Nat} {bindings : List Binding}
    {finished : List BoundField} {order : List Nat}
    (hall : List.Forall₂ (fun b f => FinishedFrom c.catalog s governors b f ∧
      c.Sized b.encoding f.size) bindings finished)
    (hfixed : ∀ f ∈ order.map fun slot => finished.getD slot default, c.Fixes f.encoding)
    {slot : Nat} (hslot : slot ∈ order) (hlt : slot < bindings.length) :
    FinishedFrom c.catalog s governors (bindings.getD slot default) (finished.getD slot default) ∧
      (finished.getD slot default).size = (bindings.getD slot default).encoding.sizeIn c := by
  have hfixes := hfixed _ (List.mem_map_of_mem hslot)
  have hlt' := hall.length_eq ▸ hlt
  rw [List.getD_eq_getElem _ _ hlt'] at hfixes ⊢
  rw [List.getD_eq_getElem _ _ hlt]
  obtain ⟨hfin, hsized⟩ := (List.forall₂_iff_get.mp hall).2 slot hlt hlt'
  refine ⟨hfin, (hsized.eq_sizeIn ((hsized.isFixed_iff hc).mpr ?_)).symm⟩
  rw [← hfin.encoding]
  exact hfixes

/-- Fields that are completed from the same bindings, without chosen widths and with them. -/
theorem narrowing_of_assigned (hc : c.Good) {governors : List Nat} {bindings : List Binding}
    {finished finished' : List BoundField} {order : List Nat}
    (hall : List.Forall₂ (fun b f => FinishedFrom c.catalog s governors b f ∧
      c.Sized b.encoding f.size) bindings finished)
    (hall' : List.Forall₂ (fun b f => FinishedFrom c.catalog s governors b f ∧
      c.Sized b.encoding f.size) (assigned bindings order widths) finished')
    (hfixed : ∀ f ∈ order.map fun slot => finished.getD slot default, c.Fixes f.encoding)
    (hfixed' : ∀ f ∈ order.map fun slot => finished'.getD slot default, c.Fixes f.encoding)
    (hnodup : order.Nodup) (hlt : ∀ slot ∈ order, slot < bindings.length)
    (hwidest : ∀ slot ∈ order, (bindings.getD slot default).encoding.isForced = true →
      (bindings.getD slot default).encoding = .forced .widest)
    (hcount : (order.filter fun slot => (bindings.getD slot default).encoding.isForced).length =
      widths.length) :
    Narrowing widths (order.map fun slot => finished.getD slot default)
      (order.map fun slot => finished'.getD slot default) := by
  have hwide : (assigned bindings order widths).length = bindings.length :=
    (assigned_widens bindings order widths).length_eq.symm
  have hplain {slot : Nat} (hslot : slot ∈ order) :=
    finished_at hc hall hfixed hslot (hlt slot hslot)
  have hchosen {slot : Nat} (hslot : slot ∈ order) :=
    finished_at hc hall' hfixed' hslot (hwide ▸ hlt slot hslot)
  -- the slots that are given a width are those of the numbers, each of them once
  have hkeys : ((order.filter fun slot => (bindings.getD slot default).encoding.isForced).zip
      widths).map Prod.fst = order.filter fun slot => (bindings.getD slot default).encoding.isForced :=
    List.map_fst_zip (Nat.le_of_eq hcount)
  have hdistinct : (((order.filter fun slot =>
      (bindings.getD slot default).encoding.isForced).zip widths).map Prod.fst).Nodup := by
    rw [hkeys]
    exact hnodup.filter _
  refine narrowing_of_slots (fun slot => (bindings.getD slot default).encoding.isForced)
    hcount.symm (fun slot w hmem => ?_) fun slot hslot hkept => ?_
  · -- a number takes the width that is chosen for it
    obtain ⟨hslot, hnumber⟩ := List.mem_filter.mp (List.of_mem_zip hmem).1
    obtain ⟨hfin', hsize'⟩ := hchosen hslot
    rw [show (assigned bindings order widths).getD slot default = _ from
      assignAll_of_mem hdistinct (hlt slot hslot) hmem] at hfin' hsize'
    obtain ⟨hfin, hsize⟩ := hplain hslot
    rw [hwidest slot hslot hnumber] at hsize
    exact ⟨hfin.encoding.trans (hwidest slot hslot hnumber), hsize, hfin.narrowed hfin' hsize'⟩
  · -- any other field is the same
    have hout : slot ∉ ((order.filter fun slot =>
        (bindings.getD slot default).encoding.isForced).zip widths).map Prod.fst := by
      rw [hkeys, List.mem_filter, hkept]
      exact fun h => by cases h.2
    obtain ⟨hfin', hsize'⟩ := hchosen hslot
    rw [show (assigned bindings order widths).getD slot default = _ from
      assignAll_of_notMem hout] at hfin' hsize'
    obtain ⟨hfin, hsize⟩ := hplain hslot
    exact ⟨hfin.unique hfin' (hsize'.trans hsize.symm), by rw [hfin.encoding, hkept]⟩

/-- The fields of the plain layout of fixed width, and those with chosen widths. -/
theorem FieldsGood.narrowing (hc : c.Good) (hfaithful : c.Faithful)
    (hlive : ∀ f ∈ s.fields, ∀ type rule, f.shape = .value type rule → c.catalog.LiveType type.key)
    {fields fields' : List BoundField} (h : FieldsGood c s .fixed fields)
    (h' : FieldsGood c s (.varying widths) fields')
    (hfixed : ∀ f ∈ fields, c.Fixes f.encoding) (hfixed' : ∀ f ∈ fields', c.Fixes f.encoding)
    (hlen : widths.length = (fields.filter (·.encoding.isForced)).length) :
    Narrowing widths fields fields' := by
  obtain ⟨bindings, varies, finished, hbound, hfit, hcount, hall, rfl⟩ := h
  obtain ⟨bindings', varies', finished', hbound', hfit', -, hall', rfl⟩ := h'
  -- both layouts bind the same fields and order them in the same way
  obtain rfl := boundFields?_varying hfaithful hlive hbound hbound'
  obtain rfl := hfit'.unique hc hfit
  have hnum := boundFields?_numbered hbound
  have hrank : ∀ i, (rankWith bindings' varies' i).slot = i := fun _ => rfl
  have hlt := orderWith_lt _ hrank hnum
  have hnodup := orderWith_nodup _ hrank hnum
  generalize orderWith (rankWith bindings' varies') bindings' = order at *
  have hgov : (assigned bindings' order widths).filterMap (·.encoding.governor?) =
      bindings'.filterMap (·.encoding.governor?) :=
    filterMap_governor? (assigned_widens bindings' order widths)
  replace hall : List.Forall₂ (fun b f =>
      FinishedFrom c.catalog s (bindings'.filterMap (·.encoding.governor?)) b f ∧
        c.Sized b.encoding f.size) bindings' finished := hall
  replace hall' : List.Forall₂ (fun b f =>
      FinishedFrom c.catalog s (bindings'.filterMap (·.encoding.governor?)) b f ∧
        c.Sized b.encoding f.size) (assigned bindings' order widths) finished' := hgov ▸ hall'
  refine narrowing_of_assigned hc hall hall' hfixed hfixed' hnodup hlt (fun slot hslot hnumber => ?_) ?_
  · obtain ⟨decl, -, hfield⟩ := boundFields?_getElem hbound (hlt slot hslot)
    rw [← List.getD_eq_getElem _ default] at hfield
    exact boundEncoding?_widest (boundField?_eq_some.mp hfield).2.2.1 hnumber
  · rw [hlen, RecordLayout.length_forced (hall.imp fun b f hbf => hbf.1.encoding)]

end

end RecordLayout
