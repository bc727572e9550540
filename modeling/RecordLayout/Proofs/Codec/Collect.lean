import Mathlib
import RecordLayout.Codec.Collect
import RecordLayout.Proofs.Codec.Skip
import RecordLayout.Proofs.Codec.Tidy

/-!
# What a walk collects

A walk over bytes that read as a record finds the chunks in which they are stored, each of them as often
as they refer to it, and ends behind them. On the way it reads the fields that decide sizes, passes those
that hold no chunks, and goes into the chunks that it finds. If references are cleared on the way, that is
done in the bytes that have been passed.

Main results:

* `Catalog.Checked.governor` — what decides a size is a width or a count;
* `overwriteSince_overlaid`, `clearing_runs` — clearing what has just been passed;
* `collectFieldsWith_runs` — fields in a row, by induction along the row;
* `collectWithin_runs`, `collectRecord_runs` — values at any depth and whole records.
-/

namespace RecordLayout

open ByteStream
open Workspace (Runs)

/-! ## Fields that decide sizes -/

/-- Every declared schema has passed its check, or is only reserved. -/
def Catalog.Checked (c : Catalog) : Prop :=
  ∀ d ∈ c.schemas, d.schema.fields = [] ∨ d.schema.check = .ok ()

/-- What a schema demands and gets is true. -/
theorem Schema.demand_ok {condition : Bool} {fault : SchemaFault} {u : Unit}
    (h : Schema.demand condition fault = .ok u) : condition = true := by
  cases condition with
  | true => rfl
  | false => cases h

/-- A checked schema has checked fields. -/
theorem Schema.checkField_of_check {s : Schema} (h : s.check = .ok ()) {f : FieldDecl}
    (hf : f ∈ s.fields) : s.checkField f = .ok () := by
  rw [Schema.check] at h
  obtain ⟨_, -, h⟩ := except_bind_ok h
  obtain ⟨_, -, h⟩ := except_bind_ok h
  generalize s.fields = fields at h hf
  induction fields with
  | nil => exact absurd hf List.not_mem_nil
  | cons g rest ih =>
    obtain ⟨_, hfirst, hrest⟩ := except_bind_ok h
    rcases List.mem_cons.mp hf with rfl | hmem
    · exact hfirst
    · exact ih hrest hmem

/-- A schema with fields has passed its check; a draft has the fields of a schema that has. -/
theorem Catalog.Checked.check {c : Catalog} (h : c.Checked) (id : SchemaId) :
    (c.schema id).fields = [] ∨ ∃ s : Schema, s.fields = (c.schema id).fields ∧ s.check = .ok () := by
  rw [Catalog.fields_schema]
  by_cases hlt : id.declared < c.schemas.length
  · rw [List.getD_eq_getElem _ _ hlt]
    rcases h _ (List.getElem_mem hlt) with hnone | hcheck
    · exact .inl hnone
    · exact .inr ⟨_, rfl, hcheck⟩
  · rw [List.getD_eq_default _ _ (by omega)]
    exact .inl rfl

/-- A declared field has passed its check among the fields of its schema. -/
theorem Catalog.Checked.field {c : Catalog} (h : c.Checked) {id : SchemaId} {f : FieldDecl}
    (hf : f ∈ (c.schema id).fields) :
    ∃ s : Schema, s.fields = (c.schema id).fields ∧ s.checkGovernor f = .ok () ∧
      s.checkDerivation f = .ok () := by
  rcases h.check id with hnone | ⟨s, hfields, hcheck⟩
  · rw [hnone] at hf
    exact absurd hf List.not_mem_nil
  · obtain ⟨_, -, hmore⟩ := except_bind_ok (Schema.checkField_of_check hcheck (hfields ▸ hf))
    obtain ⟨_, -, hmore⟩ := except_bind_ok hmore
    obtain ⟨_, hgovernor, hderivation⟩ := except_bind_ok hmore
    exact ⟨s, hfields, hgovernor, hderivation⟩

/-- What decides a size is a width or a count. -/
theorem Catalog.Checked.governor {c : Catalog} (h : c.Checked) {id : SchemaId} {f : FieldDecl}
    (hf : f ∈ (c.schema id).fields) {name : String} (hname : f.shape.governor? = some name) :
    ∃ g, (c.schema id).field? name = some g ∧ (g.shape = .width ∨ g.shape.isCount = true) := by
  -- only sized numbers and arrays have a governor, and the check has looked its name up
  obtain ⟨s, hfields, hgovernor, -⟩ := h.field hf
  rw [Schema.field?, ← hfields]
  rw [Schema.checkGovernor] at hgovernor
  cases hshape : f.shape with
  | sized size =>
    rw [hshape] at hgovernor hname
    cases hname
    have hfits := Schema.demand_ok hgovernor
    cases hfound : s.field? name with
    | none =>
      rw [hfound] at hfits
      cases hfits
    | some g =>
      rw [hfound] at hfits
      exact ⟨g, hfound, .inl (beq_iff_eq.mp hfits)⟩
  | array element count =>
    rw [hshape] at hgovernor hname
    cases hname
    have hfits := Schema.demand_ok hgovernor
    cases hfound : s.field? name with
    | none =>
      rw [hfound] at hfits
      cases hfits
    | some g =>
      rw [hfound] at hfits
      exact ⟨g, hfound, .inr (Bool.and_eq_true_iff.mp hfits).1⟩
  | _ =>
    rw [hshape] at hname
    cases hname

/-- The field of a name is that of its slot. -/
theorem Schema.field?_of_slot? {s : Schema} {name : String} {i : Nat} (h : s.slot? name = some i) :
    s.field? name = s.fields[i]? := by
  obtain ⟨hlt, hfirst, hbefore⟩ := List.findIdx?_eq_some_iff_getElem.mp h
  rw [List.getElem?_eq_getElem hlt]
  exact List.find?_eq_some_iff_getElem.mpr ⟨hfirst, i, hlt, rfl, fun j hj => by
    simpa using hbefore j hj⟩

/-- The field that a declared field takes its size from. -/
theorem boundEncoding?_governor {c : Compiler} {s : Schema} {kind : LayoutKind} {f : FieldDecl}
    {e : Encoding} (h : boundEncoding? c s kind f = some e) {g : Nat}
    (hg : e.governor? = some g) :
    ∃ name, f.shape.governor? = some name ∧ s.slot? name = some g := by
  -- a bound encoding with a governor comes from the shape that names it
  rw [boundEncoding?] at h
  cases hshape : f.shape with
  | sized size =>
    simp only [hshape] at h
    split at h
    · -- at a fixed width the number is forced to a width of its own
      obtain rfl := Option.some.inj h
      cases hg
    · obtain ⟨i, hi, rfl⟩ := Option.map_eq_some_iff.mp h
      cases hg
      exact ⟨size, rfl, hi⟩
  | array element count =>
    simp only [hshape] at h
    split at h
    · cases h
    · obtain ⟨i, hi, rfl⟩ := Option.map_eq_some_iff.mp h
      cases hg
      exact ⟨count, rfl, hi⟩
  | varint =>
    simp only [hshape] at h
    obtain rfl := Option.some.inj h
    split at hg <;> cases hg
  | value type rule =>
    simp only [hshape] at h
    obtain ⟨p, -, rfl⟩ := Option.map_eq_some_iff.mp h
    cases hg
  | _ =>
    simp only [hshape] at h
    obtain rfl := Option.some.inj h
    cases hg

/-- Widths and counts hold no references. -/
theorem boundEncoding?_holds {c : Compiler} (hc : c.Good) {s : Schema} {kind : LayoutKind}
    {f : FieldDecl} {e : Encoding} (h : boundEncoding? c s kind f = some e)
    (hshape : f.shape = .width ∨ f.shape.isCount = true) (c' : Compiler) :
    e.holdsIn c' = false := by
  -- a governor's encoding is decided by its shape, a width or a count, neither of which is in a
  -- chunk
  rw [boundEncoding?] at h
  cases hf : f.shape with
  | sized size =>
    simp only [hf] at h
    split at h
    · obtain rfl := Option.some.inj h
      rfl
    · obtain ⟨i, -, rfl⟩ := Option.map_eq_some_iff.mp h
      rfl
  | varint =>
    simp only [hf] at h
    obtain rfl := Option.some.inj h
    split <;> rfl
  | value type rule =>
    simp only [hf] at h
    obtain ⟨p, hplace, rfl⟩ := Option.map_eq_some_iff.mp h
    rw [hf] at hshape
    rcases hshape with hwidth | hcount
    · cases hwidth
    · -- counts are scalars, and these are placed as they are
      cases type with
      | scalar kind =>
        have hgood := hc.placements _ _ _ hplace
        have hp : p = .scalar kind := by
          cases hfixed : (LayoutKind.placementRule _ rule).isFixed with
          | true => exact (hgood.fixed hfixed).1
          | false => exact hgood.flexible hfixed
        rw [hp]
        rfl
      | _ => cases hcount
  | array element count =>
    rw [hf] at hshape
    rcases hshape with h | h <;> cases h
  | _ =>
    simp only [hf] at h
    obtain rfl := Option.some.inj h
    rfl

/-- A field that decides the size of another one holds no references. -/
theorem FieldsGood.governor_holds {c : Compiler} (hc : c.Good) (hchecked : c.catalog.Checked)
    {id : SchemaId} {kind : LayoutKind} {fields : List BoundField}
    (h : FieldsGood c (c.catalog.schema id) kind fields) {f : BoundField} (hf : f ∈ fields)
    (hgoverns : f.governs = true) (c' : Compiler) : f.encoding.holdsIn c' = false := by
  obtain ⟨user, huser, hdecides⟩ := (h.governs_iff hf).mp hgoverns
  obtain ⟨udecl, hudecl⟩ := h.declared huser
  obtain ⟨decl, hdecl⟩ := h.declared hf
  -- the declaration of the field is the one that the other field names
  have hshape : decl.shape = .width ∨ decl.shape.isCount = true := by
    rcases hudecl.encoding with hbound | ⟨_, _, -, hforced⟩
    · obtain ⟨name, hname, hslot⟩ := boundEncoding?_governor hbound hdecides
      obtain ⟨g, hg, hshape⟩ := hchecked.governor (List.mem_of_getElem? hudecl.declared) hname
      have hsame := hdecl.declared
      rw [← Schema.field?_of_slot? hslot, hg] at hsame
      cases hsame
      exact hshape
    · rw [hforced] at hdecides
      cases hdecides
  rcases hdecl.encoding with hbound | ⟨_, _, -, hforced⟩
  · exact boundEncoding?_holds hc hbound hshape c'
  · rw [hforced]
    rfl

/-! ## References that are not there -/

/-- Values in placements that hold no references, as far as it is known later, are in no chunks. -/
def HoldsNone (c : Compiler) (form : Parse) : Prop :=
  ∀ p v o b F, form p v o b F → p.holdsIn c = false → F = []

section

variable {w : Workspace} {form : Parse} {c : Compiler} {b : Bytes} {F : List ChunkId}

/-- An encoding that holds no chunks parses without any. -/
theorem SlotParse.holds_none (hform : HoldsNone c form) {slots : Nat → Value} {e : Encoding}
    {v : Value} {o : Option ChunkId} (h : SlotParse form w slots e v o b F)
    (hno : e.holdsIn c = false) : F = [] := by
  cases h with
  | present hplaced => exact hform _ _ _ _ _ hplaced hno
  | plain hplaced => exact hform _ _ _ _ _ hplaced hno
  | _ => rfl

/-- Fields that hold no chunks parse without any. -/
theorem RowParse.holds_none (hform : HoldsNone c form) {r : Record} {fields : List BoundField}
    (h : RowParse form w r fields b F) (hno : ∀ f ∈ fields, f.encoding.holdsIn c = false) :
    F = [] := by
  induction h with
  | nil => rfl
  | @cons f rest o b d F G first _ _ ih =>
    rw [first.holds_none hform (hno f List.mem_cons_self),
      ih fun g hg => hno g (List.mem_cons_of_mem _ hg)]
    rfl

/-- A layout that holds no chunks parses without any. -/
theorem RecordParse.holds_none (hs : w.Sound) (hgrows : w.compiler.Grows c)
    (hform : HoldsNone c form) {key : LayoutKey} {r : Record} (h : RecordParse form w key r b F)
    (hno : (c.answer key).elim true (·.holdsChunks) = false) : F = [] := by
  obtain ⟨l, hl, hrow⟩ := h.fields
  rw [hgrows.answer hl] at hno
  have hgood := hs.compiler.good.layouts _ _ l hl
  exact hrow.holds_none hform fun f hf =>
    Compiler.holdsIn_false hgrows (hgood.holds hno f hf)

end

/-- A tag stands for one of the variants. -/
theorem Choice.mem_of_variant? {c : Choice} {tag : Nat} {id : SchemaId}
    (h : c.variant? tag = some id) : id ∈ c.variants := by
  rw [variant?] at h
  split at h
  · cases h
  · exact List.mem_of_getElem? h

/-- What holds no chunks parses without any, at every depth. -/
theorem Parses.holds_none {w : Workspace} (hs : w.Sound) {c : Compiler}
    (hgrows : w.compiler.Grows c) (n : Nat) : HoldsNone c (Parses w n) := by
  -- the induction is on the depth; a reference holds a chunk by its placement
  induction n with
  | zero => exact fun _ _ _ _ _ h => h.elim
  | succ n ih =>
    intro p v o b F h hno
    cases h with
    | inlineRecord hrecord => exact hrecord.holds_none hs hgrows ih hno
    | fixedRecord hrecord => exact hrecord.holds_none hs hgrows ih hno
    | wrapped hrecord => exact hrecord.holds_none hs hgrows ih hno
    | @choice choice tag id r b d F _ _ hvariant hrecord _ =>
      rw [Placement.holdsIn, hgrows.catalog] at hno
      obtain ⟨l, hl, hnone⟩ :=
        Compiler.variantHoldsIn_false hno id (Choice.mem_of_variant? hvariant)
      exact hrecord.holds_none hs hgrows ih (by rw [hl]; exact hnone)
    | chunkText _ _ _ _ => cases hno
    | chunkRecord _ _ _ _ => cases hno
    | chunkChoice _ _ _ _ _ _ => cases hno
    | typed _ _ _ _ _ => cases hno
    | chunkTyped _ _ _ _ _ _ _ => cases hno
    | _ => rfl

/-! ## Streams that are cleared on the way -/

namespace ByteStream

variable {s t u : ByteStream} {b c d : Bytes} {n m : Nat} {cleared : Prop}

/-- From `s` to `t`, `n` bytes have been passed. If they were cleared on the way, this cannot be seen
from behind them. -/
structure Passed (cleared : Prop) (s : ByteStream) (n : Nat) (t : ByteStream) : Prop where
  same : ¬cleared → t = s.ahead n
  shown : t.shown.drop t.position = s.shown.drop (s.position + n)
  coherent : s.Coherent → t.Coherent
  buffered : s.Buffered → t.Buffered

/-- Moving ahead passes the bytes it moves over. -/
theorem Passed.ahead (cleared : Prop) (s : ByteStream) (n : Nat) :
    s.Passed cleared n (s.ahead n) :=
  ⟨fun _ => rfl, by rw [shown_ahead, position_ahead], fun h => coherent_setPosition h _,
    (staysOn_setPosition s _).buffered⟩

/-- Passing twice passes both lengths. -/
theorem Passed.trans (h : s.Passed cleared n t) (h' : t.Passed cleared m u) :
    s.Passed cleared (n + m) u := by
  refine ⟨fun hnot => ?_, ?_, fun hs => h'.coherent (h.coherent hs),
    fun hs => h'.buffered (h.buffered hs)⟩
  · rw [h'.same hnot, h.same hnot, ahead_ahead]
  · rw [h'.shown, ← List.drop_drop, h.shown, List.drop_drop, Nat.add_assoc]

/-- What has passed without clearing has passed. -/
theorem Passed.mono {cleared' : Prop} (h : s.Passed cleared n t) (himp : cleared → cleared') :
    s.Passed cleared' n t :=
  ⟨fun hnot => h.same fun hyes => hnot (himp hyes), h.shown, h.coherent, h.buffered⟩

/-- What stands behind the bytes that have been passed. -/
theorem Passed.shows (h : s.Passed cleared b.length t) (hshows : s.Shows (b ++ c)) : t.Shows c := by
  refine ⟨h.coherent hshows.coherent, ?_⟩
  have hright := hshows.right.prefixed
  rwa [shown_ahead, position_ahead, ← h.shown] at hright

/-- From `s` to `t`, the cursor has passed as many bytes as there are in `c`, and these stand there now. -/
structure Overlaid (s : ByteStream) (c : Bytes) (t : ByteStream) : Prop where
  room : c = [] ∨ s.position + c.length ≤ s.shown.length
  shown : t.shown = s.shown.take s.position ++ c ++ s.shown.drop (s.position + c.length)
  position : t.position = s.position + c.length
  coherent : t.Coherent
  buffered : t.Buffered

/-- Bytes that are shown have room between the cursor and the end. -/
theorem Shows.room (h : s.Shows b) : b = [] ∨ s.position + b.length ≤ s.shown.length := by
  have hle := h.prefixed.length_le
  rw [List.length_drop] at hle
  cases b with
  | nil => exact .inl rfl
  | cons byte rest =>
    rw [List.length_cons] at hle ⊢
    exact .inr (by omega)

/-- Bytes that are passed stay. -/
theorem Overlaid.ahead (h : s.Shows b) (hbuf : s.Buffered) : s.Overlaid b (s.ahead b.length) := by
  refine ⟨h.room, ?_, position_ahead _ _, h.ahead _, (staysOn_setPosition s _).buffered hbuf⟩
  obtain ⟨rest, hrest⟩ := h.prefixed
  rw [shown_ahead, ← List.drop_drop, ← hrest, List.drop_left, List.append_assoc, hrest,
    List.take_append_drop]

/-- Overlaying does not change the size. -/
theorem Overlaid.length (h : s.Overlaid c t) : t.shown.length = s.shown.length := by
  rw [h.shown]
  simp only [List.length_append, List.length_take, List.length_drop]
  rcases h.room with rfl | hroom
  · rw [List.length_nil]
    omega
  · omega

/-- What stands behind is as it was. -/
theorem Overlaid.behind (h : s.Overlaid c t) (n : Nat) :
    t.shown.drop (t.position + n) = s.shown.drop (s.position + c.length + n) := by
  rcases h.room with rfl | hroom
  · rw [h.position, h.shown, List.append_nil, List.length_nil, Nat.add_zero, List.take_append_drop]
  · have hfront : (s.shown.take s.position ++ c).length = s.position + c.length := by
      rw [List.length_append, List.length_take]
      omega
    rw [h.position, h.shown, ← hfront, List.drop_length_add_append, hfront, List.drop_drop]

/-- What is before the cursor grows by the bytes laid over. -/
theorem Overlaid.before (h : s.Overlaid c t) :
    t.shown.take t.position = s.shown.take s.position ++ c := by
  rw [h.position, h.shown]
  rcases h.room with rfl | hroom
  · rw [List.append_nil, List.length_nil, Nat.add_zero, List.take_append_drop]
  · rw [List.take_left' (by rw [List.length_append, List.length_take]; omega)]

/-- Overlaying two runs overlays their concatenation. -/
theorem Overlaid.trans (h : s.Overlaid c t) (h' : t.Overlaid d u) : s.Overlaid (c ++ d) u := by
  refine ⟨?_, ?_, ?_, h'.coherent, h'.buffered⟩
  · have hroom' := h'.room
    rw [h.position, h.length] at hroom'
    rcases h.room with rfl | hroom
    · rw [List.length_nil, Nat.add_zero] at hroom'
      rwa [List.nil_append]
    · rcases hroom' with rfl | hroom'
      · rw [List.append_nil]
        exact .inr hroom
      · rw [List.length_append]
        exact .inr (by omega)
  · rw [h'.shown, h.before, h.behind, List.length_append, List.append_assoc _ c d, Nat.add_assoc]
  · rw [h'.position, h.position, List.length_append, Nat.add_assoc]

/-- What stands behind can be read next. -/
theorem Overlaid.shows (h : s.Overlaid c t) (hshows : s.Shows (b ++ d)) (hlen : c.length = b.length) :
    t.Shows d := by
  refine ⟨h.coherent, ?_⟩
  have hright := hshows.right.prefixed
  rw [shown_ahead, position_ahead, ← hlen] at hright
  rwa [← Nat.add_zero t.position, h.behind 0]

/-- What stands there now can be read from where it begins. -/
theorem Overlaid.back (h : s.Overlaid c t) : (t.setPosition s.position).Shows c := by
  refine ⟨coherent_setPosition h.coherent _, ?_⟩
  rw [shown_setPosition, position_setPosition, h.shown]
  rcases h.room with rfl | hroom
  · exact List.nil_prefix
  · rw [List.append_assoc, List.drop_left' (by rw [List.length_take]; omega)]
    exact List.prefix_append _ _

/-- Going back and ahead again ends where the overlay did. -/
theorem Overlaid.forth (h : s.Overlaid c t) : (t.setPosition s.position).ahead c.length = t := by
  rw [ByteStream.ahead, position_setPosition, setPosition_setPosition, ← h.position,
    setPosition_position]

/-- An overlay has passed the bytes it covers. -/
theorem Overlaid.passed (h : s.Overlaid c t) : s.Passed True c.length t := by
  refine ⟨fun hnot => absurd trivial hnot, ?_, fun _ => h.coherent, fun _ => h.buffered⟩
  have hbehind := h.behind 0
  rwa [Nat.add_zero, Nat.add_zero] at hbehind

end ByteStream

section

variable {τ : Type} {w : Workspace} {t : ByteStream} {x : τ} {b c : Bytes}

/-- What was read is overwritten. -/
theorem overwriteSince_overlaid (hshows : t.Shows b) (hbuf : t.Buffered) (hpos : 0 < b.length)
    (hlen : c.length = b.length) :
    ∃ t', t.Overlaid c t' ∧ ∀ u : Workspace,
      overwriteSince t.position c ⟨u, t.ahead b.length, x⟩ = .ok () ⟨u, t', x⟩ := by
  obtain ⟨t₁, hput⟩ := hbuf.put c
  -- the bytes are all there, so the overwrite ends within the stream
  have hroom := hshows.prefixed.length_le
  rw [List.length_drop] at hroom
  obtain ⟨hshown, hposition, hcoherent⟩ := put_shown hshows.coherent (.inr (by omega)) hput
  refine ⟨t₁.setPosition (t.position + c.length), ⟨.inr (by omega), ?_, position_setPosition _ _,
    coherent_setPosition hcoherent _,
    (staysOn_setPosition t₁ _).buffered ((staysOn_put hput).buffered hbuf)⟩, fun u => ?_⟩
  · have hgap : t.position - t.shown.length = 0 := by omega
    rw [shown_setPosition, hshown, spliced, hgap, List.replicate_zero, List.append_nil]
  · simp only [overwriteSince, bind_ok, Op.position_ok, Op.setPosition_ok, Op.write_ok]
    refine ⟨_, _, ⟨rfl, rfl⟩, (), _, rfl, (), _, ⟨t₁, ?_, rfl⟩, ?_⟩
    · show ((t.ahead b.length).setPosition t.position).put c = .ok t₁
      rw [ByteStream.ahead, setPosition_setPosition, setPosition_position]
      exact hput
    · rw [position_ahead, hlen]

/-- Bytes that were read are overwritten with as many others. -/
theorem overwriteSince_runs (hshows : t.Shows b) (hbuf : t.Buffered) (hpos : 0 < b.length)
    {bytes : Bytes} (hlen : bytes.length = b.length) :
    ∃ t', w.Runs (overwriteSince t.position bytes : Op τ Unit) (t.ahead b.length) x () t' x ∧
      t.Passed True b.length t' := by
  obtain ⟨t', hover, hwrite⟩ := overwriteSince_overlaid (x := x) hshows hbuf hpos hlen
  exact ⟨t', fun v hv => ⟨v, hwrite v, .refl v, hv.sound⟩, hlen ▸ hover.passed⟩

/-- A question whose answer may depend on what is known by then. -/
theorem Workspace.Runs.question {α β : Type} {act : SpaceM α} {next : α → Op τ β} {P : α → Prop}
    {t' : ByteStream} {x' : τ} {a : β}
    (hask : ∀ v, w.Later v → ∃ a v', act v = .ok a v' ∧ v.Learns v' ∧ v'.Sound ∧ P a)
    (hnext : ∀ b, P b → w.Runs (next b) t x a t' x') :
    w.Runs (Op.space act >>= next) t x a t' x' := by
  intro v hv
  obtain ⟨b, v₁, hact, hlearns, hs₁, hb⟩ := hask v hv
  obtain ⟨v₂, hthen, hlearns', hs₂⟩ := hnext b hb v₁ (hv.learns hlearns hs₁)
  exact ⟨v₂, bind_ok.mpr ⟨b, _, Op.space_ok.mpr ⟨v₁, hact, rfl⟩, hthen⟩, hlearns.trans hlearns', hs₂⟩

end

/-! ## Workspaces that are walked over -/

/-- The layout of what a reference leads to can be asked for, even if it leads nowhere. -/
def Workspace.Opens (w : Workspace) (p : Placement) : Prop :=
  ∀ id, p = .chunkRecord id → ∀ v, w.Later v → ∃ l v', SpaceM.layout id .standard v = .ok l v'

/-- A workspace whose stored records can be walked over. -/
structure Workspace.Walkable (w : Workspace) : Prop where
  sound : w.Sound
  checked : w.catalog.Checked
  short : ∀ chunk content, w.store.content? chunk = some content → content.length < 2 ^ 64
  opens : ∀ key l f p marker, w.compiler.answer key = some l → f ∈ l.fields →
    f.encoding = .placed p marker → w.Opens p

/-- A layout that has been answered is kept. -/
theorem Compiler.mem_values_of_answer {c : Compiler} {key : LayoutKey} {l : Layout}
    (h : c.answer key = some l) : l ∈ c.layouts.values := by
  have hfind := Compiler.answer_eq_some.mp h
  rw [Memo.find?, List.lookup_eq_some_iff] at hfind
  obtain ⟨before, after, hslots, -⟩ := hfind
  refine List.mem_filterMap.mpr ⟨(key, .done (.ok l)), ?_, rfl⟩
  rw [hslots]
  exact List.mem_append_right _ List.mem_cons_self

/-- The placement that follows the id of a type is no reference. -/
theorem Workspace.opens_flexible {w : Workspace} (hs : w.Sound) {key : TypeKey} {p : Placement}
    (h : w.compiler.placementAnswer (key, .flexible) = some p) : w.Opens p := by
  rintro id rfl
  have hbehind := Placement.isBehind_flexible w.catalog key
  rw [← hs.openPlacement h] at hbehind
  cases hbehind

/-- A way to collect the chunks of values gives those that the values are read from, in the order in
which they are met, and passes the bytes that the values are read from. -/
def CollectsAll (w : Workspace) (form : Parse) (collectIn : {τ : Type} → CollectIn τ) : Prop :=
  ∀ {τ : Type} (clear : Bool) p v o b F t (x : τ), form p v o b F → v.HandleFree → w.Opens p →
    t.Shows b → b.length < 2 ^ 64 → (clear = true → t.Buffered) →
      ∃ t', w.Runs (collectIn clear p) t x F t' x ∧
        t.Passed (clear = true ∧ F ≠ []) b.length t'

section

variable {τ : Type} {w : Workspace} {t : ByteStream} {x : τ} {b : Bytes} {F : List ChunkId}

/-- A walk that finds nothing. -/
theorem collectNone_runs {act : Op τ (List ChunkId)} {clear : Bool}
    (h : w.Runs act t x [] (t.ahead b.length) x) :
    ∃ t', w.Runs act t x [] t' x ∧ t.Passed (clear = true ∧ ([] : List ChunkId) ≠ []) b.length t' :=
  ⟨_, h, .ahead _ _ _⟩

/-! ## References -/

/-- A reference is cleared on request, after what it leads to has been found. -/
theorem clearing_runs (hshows : t.Shows b) (hpos : 0 < b.length) {clear : Bool}
    (hclear : clear = true → t.Buffered) (found : List ChunkId) :
    ∃ t', w.Runs (if clear then do
        overwriteSince t.position (List.replicate b.length 0)
        pure found
      else pure found : Op τ (List ChunkId)) (t.ahead b.length) x found t' x ∧
        t.Passed (clear = true) b.length t' := by
  cases clear with
  | true =>
    obtain ⟨t', hrun, hpassed⟩ :=
      overwriteSince_runs (w := w) (x := x) hshows (hclear rfl) hpos List.length_replicate
    exact ⟨t', hrun.bind (.pure found), hpassed.mono fun _ => rfl⟩
  | false => exact ⟨_, .pure found, .ahead _ _ _⟩

/-- A chunk is collected before those behind it. -/
theorem chunkAndInner_runs {chunk : ChunkId} {content : Bytes}
    (hcontent : w.store.content? chunk = some content) {walk : Op τ (List ChunkId)}
    (hwalk : ∃ n, w.Runs walk (.ofBytes content) x F ((ByteStream.ofBytes content).ahead n) x) :
    w.Runs (chunkAndInner chunk walk) t x (chunk :: F) t x := by
  obtain ⟨n, hwalk⟩ := hwalk
  exact (Runs.withChunk hcontent hwalk).bind (.pure _)

theorem not_isNull {chunk : ChunkId} (hne : chunk ≠ .null) : ¬chunk.isNull = true :=
  fun hnull => hne (ChunkId.isNull_iff.mp hnull)

/-- A reference of fixed width that leads nowhere. -/
theorem collectBehind_null {clear : Bool} (hchunk : ChunkId.null.Spelled b) (hshows : t.Shows b)
    {walk : Op τ (List ChunkId)} :
    w.Runs (collectBehind clear walk) t x [] (t.ahead b.length) x := by
  refine Runs.bind (a := t.position) (fun v hv => ⟨v, rfl, .refl v, hv.sound⟩) ?_
  exact (readChunkId_runs hchunk hshows).bind (.pure [])

/-- A reference is collected with what is behind it, and cleared if asked for. -/
theorem collectBehind_runs {clear : Bool} {chunk : ChunkId} {content : Bytes}
    (hchunk : chunk.Spelled b) (hne : chunk ≠ .null)
    (hcontent : w.store.content? chunk = some content) {walk : Op τ (List ChunkId)}
    (hwalk : ∃ n, w.Runs walk (.ofBytes content) x F ((ByteStream.ofBytes content).ahead n) x)
    (hshows : t.Shows b) (hclear : clear = true → t.Buffered) :
    ∃ t', w.Runs (collectBehind clear walk) t x (chunk :: F) t' x ∧
      t.Passed (clear = true ∧ chunk :: F ≠ []) b.length t' := by
  have hpos : 0 < b.length := by
    rw [hchunk.1]
    decide
  obtain ⟨t', hrun, hpassed⟩ := clearing_runs (w := w) (x := x) hshows hpos hclear (chunk :: F)
  rw [hchunk.1] at hrun
  refine ⟨t', ?_, hpassed.mono fun hyes => ⟨hyes, List.cons_ne_nil _ _⟩⟩
  refine Runs.bind (a := t.position) (fun v hv => ⟨v, rfl, .refl v, hv.sound⟩) ?_
  refine (readChunkId_runs hchunk hshows).bind ?_
  rw [if_neg (not_isNull hne), hchunk.1]
  exact (chunkAndInner_runs hcontent hwalk).bind hrun

/-- A tagged reference that leads nowhere. -/
theorem collectTagged_null {clear : Bool} {chunk : ChunkId} (htagged : SpellsTagged b 0 chunk)
    (hshows : t.Shows b) {walk : Nat → Op τ (List ChunkId)} :
    w.Runs (collectTagged clear walk) t x [] (t.ahead b.length) x := by
  refine Runs.bind (a := t.position) (fun v hv => ⟨v, rfl, .refl v, hv.sound⟩) ?_
  exact readTaggedId_runs htagged hshows (.pure [])

/-- A tagged reference is collected with what is behind it, and cleared if asked for. -/
theorem collectTagged_runs {clear : Bool} {tag : Nat} {chunk : ChunkId} {content : Bytes}
    (htagged : SpellsTagged b tag chunk) (htag : tag ≠ 0) (hne : chunk ≠ .null)
    (hcontent : w.store.content? chunk = some content) {walk : Nat → Op τ (List ChunkId)}
    (hwalk : ∃ n, w.Runs (walk tag) (.ofBytes content) x F
      ((ByteStream.ofBytes content).ahead n) x)
    (hshows : t.Shows b) (hclear : clear = true → t.Buffered) :
    ∃ t', w.Runs (collectTagged clear walk) t x (chunk :: F) t' x ∧
      t.Passed (clear = true ∧ chunk :: F ≠ []) b.length t' := by
  have hpos : 0 < b.length := by
    rw [htagged.length]
    decide
  obtain ⟨t', hrun, hpassed⟩ := clearing_runs (w := w) (x := x) hshows hpos hclear (chunk :: F)
  refine ⟨t', ?_, hpassed.mono fun hyes => ⟨hyes, List.cons_ne_nil _ _⟩⟩
  refine Runs.bind (a := t.position) (fun v hv => ⟨v, rfl, .refl v, hv.sound⟩) ?_
  refine readTaggedId_runs htagged hshows ?_
  have hsome : (decide (tag = 0) || chunk.isNull) = false := by
    simp [htag, Bool.eq_false_iff.mpr (not_isNull hne)]
  rw [hsome, if_neg Bool.false_ne_true]
  rw [htagged.length] at hrun ⊢
  exact (chunkAndInner_runs hcontent hwalk).bind hrun

end

/-! ## Fields -/

/-- A new record holds nothing that has been read. -/
theorem Governed.start_new {w : Workspace} {l : Layout} {r : Record} :
    Governed w l r [] (some (w.catalog.newRecord l.schema)) :=
  ⟨List.length_map _, List.length_map _, fun _ h => absurd h List.not_mem_nil⟩

section

variable {w : Workspace} {l : Layout} {r x : Record} {before rest fields : List BoundField}
  {f : BoundField} {n : Nat} {o : Option ChunkId} {b : Bytes} {F : List ChunkId} {t : ByteStream}

/-- Moving past a field without looking for references. -/
theorem passField_runs (hs : w.Sound) (hl : w.Knows l) (hsplit : l.fields = before ++ f :: rest)
    (hgoverned : Governed w l r before (some x)) (hdecides : f.governs = true → (r.slot f.slot).Decides)
    (h : SlotParse (Parses w n) w r.slot f.encoding (r.slot f.slot) o b F) (hshows : t.Shows b)
    (hlt : b.length < 2 ^ 64) :
    ∃ x', w.Runs (passField n f) t x () (t.ahead b.length) x' ∧
      Governed w l r (before ++ [f]) (some x') ∧ (f.governs = false → x' = x) := by
  have hknown := fun g (hg : f.encoding.governor? = some g) => hgoverned.governor hs hl hsplit hg
  rw [passField]
  cases hgoverns : f.governs with
  | true =>
    obtain ⟨q, hread, hgoverned'⟩ := hgoverned.read hs hl (by rw [hsplit]; simp)
      ((hdecides hgoverns).built _) hknown (readWithin_runs hs n) h hshows
    exact ⟨q, hread, hgoverned', nofun⟩
  | false =>
    refine ⟨x, ?_, hgoverned.pass hgoverns, fun _ => rfl⟩
    exact Runs.subject.bind (skipFieldWith_runs hs (skipWithin_runs hs n) h hshows hlt hknown)

/-- Whatever decides the size of a field of a record can do so. -/
theorem RowParse.governors_decide {form : Parse} (h : RowParse form w r l.fields b F) (hs : w.Sound)
    (hl : w.Knows l) (f : BoundField) (hf : f ∈ l.fields) (hgoverns : f.governs = true) :
    (r.slot f.slot).Decides := by
  obtain ⟨user, huser, hown⟩ := ((hl.good hs).fields.governs_iff hf).mp hgoverns
  exact h.governor_decides huser hown

/-- The references of a field whose value is placed, behind the marker. -/
theorem collectPlacedField_runs (hs : w.Sound) {collectIn : {τ : Type} → CollectIn τ}
    (hin : CollectsAll w (Parses w n) collectIn) {p : Placement} {marker : Bool}
    (hopens : w.Opens p) {v : Value} {slots : Nat → Value}
    (h : SlotParse (Parses w n) w slots (.placed p marker) v o b F) (hfree : v.HandleFree)
    (hshows : t.Shows b) (hlt : b.length < 2 ^ 64) {clear : Bool}
    (hclear : clear = true → t.Buffered) :
    ∃ t', w.Runs (do
        let present ← if marker then readMarker else pure true
        if present then collectIn clear p
        else do
          let inline ← Op.compile (p.inlineSize Compiler.layout)
          passBytes (inline.getD 0)
          pure []) t x F t' x ∧ t.Passed (clear = true ∧ F ≠ []) b.length t' := by
  cases h with
  | @absent _ b hset hlen =>
    -- the marker says that nothing but the room for a value follows
    have hmarker : t.Shows [if false then 1 else 0] := hshows.left (b := [0])
    have hroom : (t.ahead 1).Shows b := hshows.right (b := [0])
    refine ⟨_, ?_, .ahead _ _ _⟩
    rw [List.length_cons, Nat.add_comm, ← ahead_ahead, hlen]
    refine (readMarker_runs hmarker).bind ?_
    refine Runs.bind (Runs.space (Workspace.inlineSize_steady hs hset)) ?_
    exact (passBytes_runs hroom hlen).bind (.pure [])
  | @present _ _ _ b _ hplaced =>
    have hmarker : t.Shows [if true then 1 else 0] := hshows.left (b := [1])
    rw [List.length_cons] at hlt
    obtain ⟨t', hrun, hpassed⟩ := hin clear p v o b F (t.ahead 1) x hplaced hfree hopens
      (hshows.right (b := [1])) (by omega)
      fun hyes => (staysOn_setPosition t _).buffered (hclear hyes)
    refine ⟨t', (readMarker_runs hmarker).bind hrun, ?_⟩
    rw [List.length_cons, Nat.add_comm]
    exact (Passed.ahead _ t 1).trans hpassed
  | plain hplaced =>
    obtain ⟨t', hrun, hpassed⟩ := hin clear p v o b F t x hplaced hfree hopens hshows hlt hclear
    exact ⟨t', Runs.bind (.pure true) hrun, hpassed⟩

/-- It can always be asked whether a field holds references. -/
theorem holdsChunks_answered {v : Workspace} (hv : v.Sound) (e : Encoding) :
    ∃ v', SpaceM.compile (e.holdsChunks Compiler.layout) v = .ok (e.holdsIn v'.compiler) v' ∧
      v.Learns v' ∧ v'.Sound := by
  obtain ⟨c, hrun, hrest, hgrows⟩ := hv.compiler.holdsChunks e
  obtain ⟨hs, hlearns⟩ := learns_compiler hv hrest hgrows
  exact ⟨_, compile_ok.mpr ⟨c, hrun, rfl⟩, hlearns, hs⟩

/-- Whether a field holds references may be known better by the time it is asked for. It is walked
over if it does, and passed if it decides sizes. -/
theorem collectFieldWith_runs (hw : w.Walkable) (hl : w.Knows l)
    {collectIn : {τ : Type} → CollectIn τ} (hin : CollectsAll w (Parses w n) collectIn)
    (hsplit : l.fields = before ++ f :: rest) (hgoverned : Governed w l r before (some x))
    (hdecides : f.governs = true → (r.slot f.slot).Decides)
    (h : SlotParse (Parses w n) w r.slot f.encoding (r.slot f.slot) o b F)
    (hfree : (r.slot f.slot).HandleFree) (hshows : t.Shows b) (hlt : b.length < 2 ^ 64)
    {clear : Bool} (hclear : clear = true → t.Buffered) :
    ∃ t' x', w.Runs (collectFieldWith n collectIn clear f) t x F t' x' ∧
      t.Passed (clear = true ∧ F ≠ []) b.length t' ∧
        Governed w l r (before ++ [f]) (some x') := by
  have hs := hw.sound
  have hmem : f ∈ l.fields := by
    rw [hsplit]
    simp
  have hask (v : Workspace) (hv : w.Later v) : ∃ holds v',
      SpaceM.compile (f.encoding.holdsChunks Compiler.layout) v = .ok holds v' ∧ v.Learns v' ∧
        v'.Sound ∧ (holds = false → F = []) ∧ (f.governs = true → holds = false) := by
    obtain ⟨v', hrun, hlearns, hs'⟩ := holdsChunks_answered hv.sound f.encoding
    exact ⟨_, v', hrun, hlearns, hs',
      h.holds_none (Parses.holds_none hs (hv.learns hlearns hs').compiler n),
      fun hgoverns => (hl.good hs).fields.governor_holds hs.compiler.good hw.checked hmem hgoverns _⟩
  obtain ⟨x', hpass, hgoverned', hsame⟩ := passField_runs hs hl hsplit hgoverned hdecides h hshows hlt
  have hskip (hnone : F = []) : w.Runs (do passField n f; pure [] : Op Record (List ChunkId)) t x F
      (t.ahead b.length) x' := by
    rw [hnone]
    exact hpass.bind (.pure [])
  rw [collectFieldWith]
  cases he : f.encoding with
  | placed p marker =>
    rw [he] at h hask
    cases hgoverns : f.governs with
    | true =>
      -- a field that decides sizes holds no references, whatever is known of it
      obtain ⟨holds, _, -, -, -, hnone, hholds⟩ := hask w (.refl hs)
      refine ⟨_, x', Runs.question hask fun holds hanswer => ?_, .ahead _ _ _, hgoverned'⟩
      rw [hanswer.2 hgoverns]
      exact hskip (hnone (hholds hgoverns))
    | false =>
      -- passing any other field leaves the record as it is
      obtain rfl := hsame hgoverns
      obtain ⟨t', hrun, hpassed⟩ := collectPlacedField_runs (x := x') hs hin
        (hw.opens _ l f p marker hl hmem he) h hfree hshows hlt hclear
      refine ⟨t', x', Runs.question hask fun holds hanswer => ?_, hpassed, hgoverned'⟩
      cases holds with
      | true => exact Runs.inField hrun
      | false =>
        rw [hpassed.same fun hyes => hyes.2 (hanswer.1 rfl)]
        exact hskip (hanswer.1 rfl)
  | _ =>
    rw [he] at h hask
    exact ⟨_, x', Runs.question hask fun holds _ =>
      hskip (h.holds_none (Parses.holds_none hs (.refl _) n) rfl), .ahead _ _ _, hgoverned'⟩

/-! ## Fields in a row -/

/-- By induction along the row: what has been passed decides the sizes of what comes after it. -/
theorem collectFieldsWith_runs (hw : w.Walkable) (hl : w.Knows l)
    {collectIn : {τ : Type} → CollectIn τ} (hin : CollectsAll w (Parses w n) collectIn)
    (h : RowParse (Parses w n) w r fields b F) (hsplit : l.fields = before ++ fields)
    (hgoverned : Governed w l r before (some x))
    (hdecides : ∀ f ∈ fields, f.governs = true → (r.slot f.slot).Decides) (hfree : r.HandleFree)
    (hshows : t.Shows b) (hlt : b.length < 2 ^ 64) {clear : Bool}
    (hclear : clear = true → t.Buffered) :
    ∃ t' x', w.Runs (collectFieldsWith n collectIn clear fields) t x F t' x' ∧
      t.Passed (clear = true ∧ F ≠ []) b.length t' := by
  induction h generalizing before x t with
  | nil => exact ⟨t, x, .pure [], by simpa using Passed.ahead _ t 0⟩
  | @cons f rest o b c F G first _ _ ih =>
    rw [List.length_append] at hlt
    obtain ⟨t₁, x₁, hfirst, hpassed, hgoverned'⟩ := collectFieldWith_runs hw hl hin hsplit hgoverned
      (hdecides f List.mem_cons_self) first (hfree.slot _) hshows.left (by omega) hclear
    obtain ⟨t₂, x₂, hrest, hpassed'⟩ := ih (by rw [hsplit, List.append_assoc]; rfl) hgoverned'
      (fun g hg => hdecides g (List.mem_cons_of_mem _ hg)) (hpassed.shows hshows) (by omega)
      fun hyes => hpassed.buffered (hclear hyes)
    refine ⟨t₂, x₂, hfirst.bind (hrest.bind (.pure _)), ?_⟩
    rw [List.length_append]
    exact (hpassed.mono fun hyes => ⟨hyes.1, List.append_ne_nil_of_left_ne_nil hyes.2 _⟩).trans
      (hpassed'.mono fun hyes => ⟨hyes.1, List.append_ne_nil_of_right_ne_nil _ hyes.2⟩)

end

/-! ## Records -/

section

variable {τ : Type} {w : Workspace} {n : Nat} {x : τ} {r : Record} {b : Bytes} {F : List ChunkId}
  {t : ByteStream}

/-- A record is collected field by field, over the bytes it parses from. -/
theorem collectRecordWith_runs (hw : w.Walkable) {l : Layout} (hl : w.Knows l)
    {collectIn : {τ : Type} → CollectIn τ} (hin : CollectsAll w (Parses w n) collectIn)
    (h : RowParse (Parses w n) w r l.fields b F) (hfree : r.HandleFree) (hshows : t.Shows b)
    (hlt : b.length < 2 ^ 64) {clear : Bool} (hclear : clear = true → t.Buffered) :
    ∃ t', w.Runs (collectRecordWith n collectIn clear l) t x F t' x ∧
      t.Passed (clear = true ∧ F ≠ []) b.length t' := by
  have hs := hw.sound
  rw [collectRecordWith]
  cases hholds : l.holdsChunks with
  | true =>
    obtain ⟨t', x', hrun, hpassed⟩ := collectFieldsWith_runs hw hl hin h (List.nil_append _).symm
      Governed.start_new (h.governors_decide hs hl) hfree hshows hlt hclear
    exact ⟨t', Runs.catalog.bind ((Runs.withSubject hrun).bind (.pure _)), hpassed⟩
  | false =>
    have hnone : F = [] :=
      h.holds_none (Parses.holds_none hs (.refl _) n) ((hl.good hs).holds hholds)
    subst hnone
    exact collectNone_runs ((skipRecordWith_runs hs (Parses.fixed hs n) (readWithin_runs hs n)
      (skipWithin_runs hs n) hl h hshows hlt).bind (.pure []))

/-- A record in a layout that is asked for. -/
theorem collectInner_runs (hw : w.Walkable) {collectIn : {τ : Type} → CollectIn τ}
    (hin : CollectsAll w (Parses w n) collectIn) {layout : SpaceM Layout} {key : LayoutKey}
    (hsteady : ∀ l, w.compiler.answer key = some l → w.Steady layout l)
    (h : RecordParse (Parses w n) w key r b F) (hfree : r.HandleFree) (hshows : t.Shows b)
    (hlt : b.length < 2 ^ 64) {clear : Bool} (hclear : clear = true → t.Buffered) :
    ∃ t', w.Runs (do
        let l ← Op.space layout
        collectRecordWith n collectIn clear l) t x F t' x ∧
      t.Passed (clear = true ∧ F ≠ []) b.length t' := by
  obtain ⟨l, hl, hknows, hrecord⟩ := h.layout hw.sound
  obtain ⟨t', hrun, hpassed⟩ :=
    collectRecordWith_runs (x := x) hw hknows hin (hrecord.row hknows) hfree hshows hlt hclear
  exact ⟨t', (Runs.space (hsteady l hl)).bind hrun, hpassed⟩

/-- What is read at the front of a chunk. It is not cleared. -/
theorem walk_content {walk : Op τ (List ChunkId)} {d : Bytes}
    (h : ∃ t', w.Runs walk (.ofBytes (b ++ d)) x F t' x ∧
      (ByteStream.ofBytes (b ++ d)).Passed (false = true ∧ F ≠ []) b.length t') :
    ∃ m, w.Runs walk (.ofBytes (b ++ d)) x F ((ByteStream.ofBytes (b ++ d)).ahead m) x := by
  obtain ⟨t', hrun, hpassed⟩ := h
  rw [hpassed.same fun hyes => Bool.false_ne_true hyes.1] at hrun
  exact ⟨b.length, hrun⟩

/-! ## Values at any depth -/

/-- A walk over values, however deep they are nested. -/
theorem collectWithin_runs (hw : w.Walkable) (n : Nat) :
    CollectsAll w (Parses w n) (collectWithin n) := by
  have hs := hw.sound
  induction n with
  | zero => exact fun _ _ _ _ _ _ _ _ h => h.elim
  | succ n ih =>
    intro τ clear p v o b F t x h hfree hopens hshows hlt hclear
    -- the bytes of a chunk are as many as can be counted
    have hshort {chunk : ChunkId} {c d : Bytes}
        (hcontent : w.store.content? chunk = some (c ++ d)) : c.length < 2 ^ 64 := by
      have hall := hw.short _ _ hcontent
      rw [List.length_append] at hall
      omega
    have hskip := skipWithin_runs hs (n + 1) p v o b F t x
    cases h with
    | scalar hlen hdecode =>
      exact collectNone_runs ((hskip (.scalar hlen hdecode) hshows hlt).bind (.pure []))
    | noText hlen =>
      exact collectNone_runs ((hskip (.noText hlen) hshows hlt).bind (.pure []))
    | text hlen hne hc hdecode =>
      exact collectNone_runs ((hskip (.text hlen hne hc hdecode) hshows hlt).bind (.pure []))
    | inlineRecord hrecord =>
      exact collectInner_runs hw ih (fun l => Workspace.layout_steady) hrecord hfree hshows hlt hclear
    | fixedRecord hrecord =>
      exact collectInner_runs hw ih (fun l => Workspace.layout_steady) hrecord hfree hshows hlt hclear
    | wrapped hrecord =>
      exact collectInner_runs hw ih (fun l => Workspace.layout_steady) hrecord hfree hshows hlt hclear
    | noHandle hchunk =>
      refine collectNone_runs (Runs.bind (a := t.position) (fun v hv => ⟨v, rfl, .refl v, hv.sound⟩) ?_)
      exact (readHandleChunk_runs hchunk hshows).bind (.pure [])
    | handle _ _ => exact hfree.elim
    | noChoice htag _ => exact collectNone_runs ((readTag_runs htag hshows).bind (.pure []))
    | choice htag hne hvariant hrecord _ =>
      rw [List.length_append] at hlt ⊢
      obtain ⟨t', hrun, hpassed⟩ := collectInner_runs (x := x) hw ih
        (fun l => Workspace.variantLayout_steady hvariant) hrecord hfree hshows.right (by omega)
        fun hyes => (staysOn_setPosition t _).buffered (hclear hyes)
      refine ⟨t', (readTag_runs htag hshows.left).bind ?_, (Passed.ahead _ t _).trans hpassed⟩
      rw [if_neg hne]
      exact hrun
    | noOpen hid => exact collectNone_runs ((readTag_runs hid hshows).bind (.pure []))
    | typed hid hne htype hplace hplaced =>
      rw [List.length_append] at hlt ⊢
      obtain ⟨t', hrun, hpassed⟩ := ih clear _ _ _ _ _ _ x hplaced hfree
        (Workspace.opens_flexible hs hplace) hshows.right (by omega)
        fun hyes => (staysOn_setPosition t _).buffered (hclear hyes)
      refine ⟨t', (readTag_runs hid hshows.left).bind ?_, (Passed.ahead _ t _).trans hpassed⟩
      rw [if_neg hne]
      exact (Runs.space (Workspace.openPlacement_steady htype hplace)).bind hrun
    | noChunkText hchunk => exact collectNone_runs (collectBehind_null hchunk hshows)
    | chunkText hchunk hne hcontent _ =>
      exact collectBehind_runs hchunk hne hcontent ⟨0, by rw [ahead_zero]; exact .pure []⟩ hshows
        hclear
    | @noChunkRecord id b hchunk =>
      refine collectNone_runs (Runs.question (P := fun _ => True) (fun v hv => ?_)
        fun _ _ => collectBehind_null hchunk hshows)
      obtain ⟨l, v', hask⟩ := hopens id rfl v hv
      obtain ⟨hs', hlearns, -⟩ := layout_learning hv.sound id .standard l v' hask
      exact ⟨l, v', hask, hlearns, hs', trivial⟩
    | chunkRecord hchunk hne hcontent hrecord =>
      obtain ⟨l, hl, hknows, hrecord'⟩ := hrecord.layout hs
      obtain ⟨t', hrun, hpassed⟩ := collectBehind_runs hchunk hne hcontent
        (walk_content (collectRecordWith_runs (x := x) hw hknows ih (hrecord'.row hknows) hfree
          (shows_ofBytes _ _) (hshort hcontent) fun hno => absurd hno Bool.false_ne_true)) hshows hclear
      exact ⟨t', (Runs.space (Workspace.layout_steady hl)).bind hrun, hpassed⟩
    | noChunkChoice htagged => exact collectNone_runs (collectTagged_null htagged hshows)
    | chunkChoice htagged htag hne hvariant hcontent hrecord =>
      exact collectTagged_runs htagged htag hne hcontent (walk_content (collectInner_runs hw ih
        (fun l => Workspace.variantLayout_steady hvariant) hrecord hfree (shows_ofBytes _ _)
        (hshort hcontent) fun hno => absurd hno Bool.false_ne_true)) hshows hclear
    | noChunkOpen htagged => exact collectNone_runs (collectTagged_null htagged hshows)
    | chunkTyped htagged hid hne htype hplace hcontent hplaced =>
      obtain ⟨m, hrun⟩ := walk_content (ih false _ _ _ _ _ _ x hplaced hfree
        (Workspace.opens_flexible hs hplace) (shows_ofBytes _ _) (hshort hcontent) nofun)
      exact collectTagged_runs htagged hid hne hcontent
        ⟨m, (Runs.space (Workspace.openPlacement_steady htype hplace)).bind hrun⟩ hshows hclear

/-! ## Whole records -/

/-- A walk over a stored record gives the chunks that it is read from, each where it is met. -/
theorem collectRecord_runs (hw : w.Walkable) {l : Layout} (hl : w.Knows l)
    (h : RecordParse (Parses w (w.readerDepth t.remaining)) w l.key r b F) (hfree : r.HandleFree)
    (hshows : t.Shows b) (hlt : b.length < 2 ^ 64) {clear : Bool}
    (hclear : clear = true → t.Buffered) :
    ∃ t', w.Runs (collectRecord clear l) t x F t' x ∧
      t.Passed (clear = true ∧ F ≠ []) b.length t' := by
  obtain ⟨t', hrun, hpassed⟩ := collectRecordWith_runs (x := x) hw hl (collectWithin_runs hw _)
    (h.row hl) hfree hshows hlt hclear
  exact ⟨t', readDepth_runs.bind hrun, hpassed⟩

end

end RecordLayout
