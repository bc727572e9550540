import Mathlib
import RecordLayout.Codec.Read
import RecordLayout.Proofs.Space

/-!
# The stored format

What it means that bytes stand for a value in a placement, in terms of what a workspace knows and of
the chunks in its store. `Stands` is built like the walks that write and read: values may be nested
`n` deep. Beside the bytes it gives the chunks that the value is stored in, in the order in which
the references stand.

Main results:

* `Stands.mono` — depth is only a bound;
* `Stands.stable` — a value keeps standing as long as its own chunks are left as they are;
* `Stands.live` — these chunks are live.
-/

namespace RecordLayout

open ChunkStore (mem_live_iff)

/-- A relation between placed values, their bytes and the chunks that they are stored in. -/
abbrev Form := Placement → Value → Bytes → List ChunkId → Prop

/-! ## Slots -/

/-- The bytes of an encoded slot. `slots` gives the slots that decide sizes. -/
inductive Encodes (form : Form) (w : Workspace) (slots : Nat → Value) :
    Encoding → Value → Bytes → List ChunkId → Prop
  | scalar (s : Scalar) : Encodes form w slots (.scalar s.kind) (.scalar s) s.encode []
  | ordinal (width : Width) :
    Encodes form w slots .ordinal (.width width) [UInt8.ofNat width.ordinal] []
  | sized {g : Nat} {width : Width} {n : UInt64} (hwidth : slots g = .width width)
    (hfit : width.canFit n.toNat = true) :
    Encodes form w slots (.sized g) (.scalar (.u64 n)) (leBytes width.bytes n.toNat) []
  | forced {width : Width} {n : UInt64} (hfit : width.canFit n.toNat = true) :
    Encodes form w slots (.forced width) (.scalar (.u64 n)) (leBytes width.bytes n.toNat) []
  | varint (n : UInt64) : Encodes form w slots .varint (.scalar (.u64 n)) (Varint.encode n) []
  | array {g : Nat} {kind : ScalarKind} {items : List Scalar}
    (hcount : (slots g).toNat? = some items.length) (hkind : ∀ s ∈ items, s.kind = kind) :
    Encodes form w slots (.array kind g) (.list (items.map .scalar)) (items.flatMap Scalar.encode) []
  /-- A null takes as many zeros as a present value would take, if that is one number. -/
  | absent {p : Placement} (hset : w.compiler.Settles (p.asks w.catalog)) :
    Encodes form w slots (.placed p true) .null
      (0 :: List.replicate ((p.sizeIn w.compiler).fixed?.getD 0) 0) []
  | present {p : Placement} {v : Value} {b : Bytes} {F : List ChunkId}
    (hplaced : form p v b F) : Encodes form w slots (.placed p true) v (1 :: b) F
  | plain {p : Placement} {v : Value} {b : Bytes} {F : List ChunkId}
    (hplaced : form p v b F) : Encodes form w slots (.placed p false) v b F

/-- The bytes of fields in a row. -/
inductive FieldsForm (form : Form) (w : Workspace) (slots : Nat → Value) :
    List BoundField → Bytes → List ChunkId → Prop
  | nil : FieldsForm form w slots [] [] []
  | cons {f : BoundField} {fields : List BoundField} {b c : Bytes} {F G : List ChunkId}
    (first : Encodes form w slots f.encoding (slots f.slot) b F)
    (rest : FieldsForm form w slots fields c G) :
    FieldsForm form w slots (f :: fields) (b ++ c) (F ++ G)

/-- The bytes of fields in a row of a record that keeps the value of each field in chunks of the
field's own slot. -/
inductive FieldsHeld (form : Form) (w : Workspace) (r : Record) :
    List BoundField → Bytes → List ChunkId → Prop
  | nil : FieldsHeld form w r [] [] []
  | cons {f : BoundField} {fields : List BoundField} {b c : Bytes} {F G : List ChunkId}
    (first : Encodes form w r.slot f.encoding (r.slot f.slot) b F)
    (own : F ⊆ (r.slotAt f.slot).companions) (rest : FieldsHeld form w r fields c G) :
    FieldsHeld form w r (f :: fields) (b ++ c) (F ++ G)

/-- The bytes of a record in a layout. -/
structure RecordForm (form : Form) (w : Workspace) (key : LayoutKey) (r : Record) (b : Bytes)
    (F : List ChunkId) : Prop where
  schema : r.schema = key.1
  slots : r.slots.length = (w.catalog.schema r.schema).fields.length
  chunks : r.chunks.length = r.slots.length
  fields : ∃ l, w.compiler.answer key = some l ∧ FieldsForm form w r.slot l.fields b F

/-! ## Values -/

/-- The bytes of a reference to a record of an unmanaged schema. -/
def handleBytes (fixed : Bool) (chunk : ChunkId) : Bytes :=
  if fixed then chunk.encode else Varint.encode (UInt64.ofNat chunk.id)

/-- The bytes of a value in its placement, given those of the values inside. -/
inductive Placed (form : Form) (w : Workspace) : Placement → Value → Bytes → List ChunkId → Prop
  | scalar (s : Scalar) : Placed form w (.scalar s.kind) (.scalar s) s.encode []
  | noText : Placed form w .inlineText .null (Varint.encode 0) []
  | text {s : String} (hlen : (Utf8.encode s).length + 1 < 2 ^ 64) :
    Placed form w .inlineText (.text s)
      (Varint.encode (UInt64.ofNat ((Utf8.encode s).length + 1)) ++ Utf8.encode s) []
  | inlineRecord {id : SchemaId} {r : Record} {b : Bytes} {F : List ChunkId}
    (hrecord : RecordForm form w (id, .standard) r b F) :
    Placed form w (.inlineRecord id) (.record r) b F
  | fixedRecord {id : SchemaId} {r : Record} {b : Bytes} {F : List ChunkId}
    (hrecord : RecordForm form w (id, .fixed) r b F) :
    Placed form w (.fixedRecord id) (.record r) b F
  | wrapped {wrapper : WrapperId} {carrier : SchemaId} {kind : LayoutKind} {r : Record} {b : Bytes}
    {F : List ChunkId} (hrecord : RecordForm form w (carrier, kind) r b F) :
    Placed form w (.wrapped wrapper carrier kind) (.wrapped wrapper r) b F
  | noHandle {id : SchemaId} {fixed : Bool} :
    Placed form w (.handle id fixed) .null (handleBytes fixed .null) []
  | handle {h : Handle} {fixed : Bool} (hchunk : h.chunk ≠ .null) (hfit : h.chunk.id < 2 ^ 64) :
    Placed form w (.handle h.schema fixed) (.handle h) (handleBytes fixed h.chunk) []
  | noChoice {choice : ChoiceId} : Placed form w (.inlineChoice choice) .null (Varint.encode 0) []
  | choice {choice : ChoiceId} {r : Record} {tag : Nat} {b : Bytes} {F : List ChunkId}
    (htag : (w.catalog.choice choice).tagOf? r.schema = some tag)
    (hrecord : RecordForm form w (r.schema, .standard) r b F) :
    Placed form w (.inlineChoice choice) (.record r) (Varint.encode (UInt64.ofNat tag) ++ b) F
  | noOpen : Placed form w .inlineOpen .null (Varint.encode 0) []
  | typed {id : Nat} {type : ValueType} {p : Placement} {v : Value} {b : Bytes} {F : List ChunkId}
    (htype : w.types.resolve id = .ok type)
    (hplace : w.compiler.placementAnswer (type.key, .flexible) = some p) (hplaced : form p v b F) :
    Placed form w .inlineOpen v (Varint.encode (UInt64.ofNat id) ++ b) F
  | noChunkText : Placed form w .chunkText .null (ChunkId.encode .null) []
  | chunkText {s : String} {chunk : ChunkId}
    (hcontent : w.store.content? chunk = some (Utf8.encode s)) :
    Placed form w .chunkText (.text s) chunk.encode [chunk]
  | noChunkRecord {id : SchemaId} : Placed form w (.chunkRecord id) .null (ChunkId.encode .null) []
  | chunkRecord {id : SchemaId} {r : Record} {chunk : ChunkId} {b : Bytes} {F : List ChunkId}
    (hcontent : w.store.content? chunk = some b)
    (hrecord : RecordForm form w (id, .standard) r b F) :
    Placed form w (.chunkRecord id) (.record r) chunk.encode (chunk :: F)
  | noChunkChoice {choice : ChoiceId} :
    Placed form w (.chunkChoice choice) .null (leBytes 4 0 ++ ChunkId.encode .null) []
  | chunkChoice {choice : ChoiceId} {r : Record} {tag : Nat} {chunk : ChunkId} {b : Bytes}
    {F : List ChunkId} (htag : (w.catalog.choice choice).tagOf? r.schema = some tag)
    (hcontent : w.store.content? chunk = some b)
    (hrecord : RecordForm form w (r.schema, .standard) r b F) :
    Placed form w (.chunkChoice choice) (.record r) (leBytes 4 tag ++ chunk.encode) (chunk :: F)
  | noChunkOpen : Placed form w .chunkOpen .null (leBytes 4 0 ++ ChunkId.encode .null) []
  | chunkTyped {id : Nat} {type : ValueType} {p : Placement} {v : Value} {chunk : ChunkId}
    {b : Bytes} {F : List ChunkId} (htype : w.types.resolve id = .ok type)
    (hplace : w.compiler.placementAnswer (type.key, .flexible) = some p)
    (hcontent : w.store.content? chunk = some b) (hplaced : form p v b F) :
    Placed form w .chunkOpen v (leBytes 4 id ++ chunk.encode) (chunk :: F)

/-- The bytes of a value in its placement; values may be nested `n` deep. -/
def Stands (w : Workspace) : Nat → Form
  | 0 => fun _ _ _ _ => False
  | n + 1 => Placed (Stands w n) w

/-! ## Later workspaces -/

theorem Compiler.Settles.grows {c c' : Compiler} (hrest : c.Resting) (h : c.Grows c')
    {keys : List LayoutKey} (hset : c.Settles keys) : c'.Settles keys := by
  rcases hset with hall | ⟨key, hkey, hrun | ⟨e, hfailed⟩⟩
  · refine Or.inl fun key hkey => ?_
    rw [h.answered (hall key hkey)]
    exact hall key hkey
  · exact absurd hrun (hrest.running key)
  · exact Or.inr ⟨key, hkey, Or.inr ⟨e, h.layouts _ _ hfailed⟩⟩

section

variable {form form' : Form} {w w' : Workspace}

/-- An encoded slot in a later workspace. -/
theorem Encodes.transfer (hs : w.Sound) (hle : w.Le w') {slots slots' : Nat → Value}
    {e : Encoding} {v : Value} {b : Bytes} {F : List ChunkId}
    (hform : ∀ p v b, form p v b F → form' p v b F)
    (hslots : ∀ g, e.governor? = some g → slots' g = slots g)
    (h : Encodes form w slots e v b F) : Encodes form' w' slots' e v b F := by
  cases h with
  | scalar s => exact .scalar s
  | ordinal width => exact .ordinal width
  | sized hwidth hfit => exact .sized ((hslots _ rfl).trans hwidth) hfit
  | forced hfit => exact .forced hfit
  | varint n => exact .varint n
  | array hcount hkind => exact .array (by rw [hslots _ rfl]; exact hcount) hkind
  -- an absent value is padded to its size, which is settled and stays the same
  | absent hset =>
    rw [← Compiler.fixed?_sizeIn hs.compiler hle.compiler hset]
    refine .absent ?_
    rw [hle.catalog]
    exact hset.grows hs.compiler hle.compiler
  | present hplaced => exact .present (hform _ _ _ hplaced)
  | plain hplaced => exact .plain (hform _ _ _ hplaced)

/-- Fields in a row in a later workspace. -/
theorem FieldsForm.transfer (hs : w.Sound) (hle : w.Le w') {slots slots' : Nat → Value}
    {fields : List BoundField} {b : Bytes} {F : List ChunkId}
    (hform : ∀ p v b G, G ⊆ F → form p v b G → form' p v b G)
    (hslots : ∀ f ∈ fields, slots' f.slot = slots f.slot ∧
      ∀ g, f.encoding.governor? = some g → slots' g = slots g)
    (h : FieldsForm form w slots fields b F) : FieldsForm form' w' slots' fields b F := by
  induction h with
  | nil => exact .nil
  | @cons f fields b c F G first rest ih =>
    obtain ⟨hown, hgovern⟩ := hslots f List.mem_cons_self
    refine .cons ?_ (ih (fun p v b H hH => hform p v b H (List.subset_append_of_subset_right _ hH))
      fun g hg => hslots g (List.mem_cons_of_mem _ hg))
    rw [hown]
    exact first.transfer hs hle
      (fun p v b => hform p v b F (List.subset_append_left _ _)) hgovern

theorem FieldsHeld.row {r : Record} {fields : List BoundField} {b : Bytes} {F : List ChunkId}
    (h : FieldsHeld form w r fields b F) : FieldsForm form w r.slot fields b F := by
  induction h with
  | nil => exact .nil
  | cons first _ _ ih => exact .cons first ih

theorem FieldsHeld.own_subset {r : Record} {fields : List BoundField} {b : Bytes}
    {F : List ChunkId} (h : FieldsHeld form w r fields b F) :
    F ⊆ fields.flatMap fun f => (r.slotAt f.slot).companions := by
  induction h with
  | nil => exact List.Subset.refl _
  | cons _ own _ ih =>
    rw [List.flatMap_cons]
    exact List.append_subset.mpr
      ⟨List.subset_append_of_subset_left _ own, List.subset_append_of_subset_right _ ih⟩

theorem RecordForm.transfer (hs : w.Sound) (hle : w.Le w') {key : LayoutKey} {r : Record}
    {b : Bytes} {F : List ChunkId} (hform : ∀ p v b G, G ⊆ F → form p v b G → form' p v b G)
    (h : RecordForm form w key r b F) : RecordForm form' w' key r b F := by
  obtain ⟨l, hl, hfields⟩ := h.fields
  refine ⟨h.schema, by rw [hle.catalog]; exact h.slots, h.chunks, l, hle.compiler.answer hl, ?_⟩
  exact hfields.transfer hs hle hform fun _ _ => ⟨rfl, fun _ _ => rfl⟩

/-- A placed value in a later workspace that left its chunks as they were. -/
theorem Placed.transfer (hs : w.Sound) (hle : w.Le w') {p : Placement} {v : Value} {b : Bytes}
    {F : List ChunkId} (hstore : ∀ c ∈ F, w'.store.content? c = w.store.content? c)
    (hform : ∀ p v b G, G ⊆ F → form p v b G → form' p v b G) (h : Placed form w p v b F) :
    Placed form' w' p v b F := by
  have hcat := hle.catalog
  -- what is behind a reference is in the chunks named first, what is inside in the remaining ones
  cases h with
  | scalar s => exact .scalar s
  | noText => exact .noText
  | text hlen => exact .text hlen
  | inlineRecord hrecord => exact .inlineRecord (hrecord.transfer hs hle hform)
  | fixedRecord hrecord => exact .fixedRecord (hrecord.transfer hs hle hform)
  | wrapped hrecord => exact .wrapped (hrecord.transfer hs hle hform)
  | noHandle => exact .noHandle
  | handle hchunk hfit => exact .handle hchunk hfit
  | noChoice => exact .noChoice
  | choice htag hrecord =>
    exact .choice (by rw [hcat]; exact htag) (hrecord.transfer hs hle hform)
  | noOpen => exact .noOpen
  | typed htype hplace hplaced =>
    exact .typed (hle.resolve htype) (hle.compiler.placementAnswer hplace)
      (hform _ _ _ _ (List.Subset.refl _) hplaced)
  | noChunkText => exact .noChunkText
  | chunkText hcontent => exact .chunkText ((hstore _ List.mem_cons_self).trans hcontent)
  | noChunkRecord => exact .noChunkRecord
  | chunkRecord hcontent hrecord =>
    exact .chunkRecord ((hstore _ List.mem_cons_self).trans hcontent)
      (hrecord.transfer hs hle fun p v b G hG => hform p v b G (List.subset_cons_of_subset _ hG))
  | noChunkChoice => exact .noChunkChoice
  | chunkChoice htag hcontent hrecord =>
    exact .chunkChoice (by rw [hcat]; exact htag) ((hstore _ List.mem_cons_self).trans hcontent)
      (hrecord.transfer hs hle fun p v b G hG => hform p v b G (List.subset_cons_of_subset _ hG))
  | noChunkOpen => exact .noChunkOpen
  | chunkTyped htype hplace hcontent hplaced =>
    exact .chunkTyped (hle.resolve htype) (hle.compiler.placementAnswer hplace)
      ((hstore _ List.mem_cons_self).trans hcontent)
      (hform _ _ _ _ (List.subset_cons_of_subset _ (List.Subset.refl _)) hplaced)

end

/-- A value that stands at some depth stands at every greater one. -/
theorem Stands.mono {w : Workspace} (hs : w.Sound) {n m : Nat} (hle : n ≤ m) {p : Placement}
    {v : Value} {b : Bytes} {F : List ChunkId} (h : Stands w n p v b F) : Stands w m p v b F := by
  induction n generalizing m p v b F with
  | zero => exact h.elim
  | succ n ih =>
    obtain ⟨m, rfl⟩ : ∃ k, m = k + 1 := ⟨m - 1, by omega⟩
    exact Placed.transfer hs (.refl w) (fun _ _ => rfl)
      (fun p v b G _ hG => ih (by omega) hG) h

/-- A value keeps standing as long as its own chunks are left as they are. -/
theorem Stands.stable {w w' : Workspace} (hs : w.Sound) (hle : w.Le w') {n : Nat} {p : Placement}
    {v : Value} {b : Bytes} {F : List ChunkId}
    (hstore : ∀ c ∈ F, w'.store.content? c = w.store.content? c) (h : Stands w n p v b F) :
    Stands w' n p v b F := by
  induction n generalizing p v b F with
  | zero => exact h.elim
  | succ n ih =>
    exact Placed.transfer hs hle hstore
      (fun p v b G hsub hG => ih (fun c hc => hstore c (hsub hc)) hG) h

theorem FieldsHeld.stable {w w' : Workspace} (hs : w.Sound) (hle : w.Le w') {n : Nat} {r : Record}
    {fields : List BoundField} {b : Bytes} {F : List ChunkId}
    (hstore : ∀ c ∈ F, w'.store.content? c = w.store.content? c)
    (h : FieldsHeld (Stands w n) w r fields b F) :
    FieldsHeld (Stands w' n) w' r fields b F := by
  induction h with
  | nil => exact .nil
  | @cons f fields b c F G first own _ ih =>
    refine .cons ?_ own (ih fun x hx => hstore x (List.mem_append_right _ hx))
    exact first.transfer hs hle (fun _ _ _ hp => hp.stable hs hle fun x hx =>
      hstore x (List.mem_append_left _ hx)) fun _ _ => rfl

theorem RecordForm.stable {w w' : Workspace} (hs : w.Sound) (hle : w.Le w') {n : Nat}
    {key : LayoutKey} {r : Record} {b : Bytes} {F : List ChunkId}
    (hstore : ∀ c ∈ F, w'.store.content? c = w.store.content? c)
    (h : RecordForm (Stands w n) w key r b F) : RecordForm (Stands w' n) w' key r b F :=
  h.transfer hs hle fun _ _ _ _ hsub hG => hG.stable hs hle fun c hc => hstore c (hsub hc)

/-! ## Chunks that are stored in -/

section

variable {form : Form} {w : Workspace}

theorem Encodes.live (hform : ∀ p v b G, form p v b G → G ⊆ w.store.live) {slots : Nat → Value}
    {e : Encoding} {v : Value} {b : Bytes} {F : List ChunkId} (h : Encodes form w slots e v b F) :
    F ⊆ w.store.live := by
  cases h with
  | present hplaced => exact hform _ _ _ _ hplaced
  | plain hplaced => exact hform _ _ _ _ hplaced
  | _ => exact List.nil_subset _

theorem FieldsForm.live (hform : ∀ p v b G, form p v b G → G ⊆ w.store.live)
    {slots : Nat → Value} {fields : List BoundField} {b : Bytes} {F : List ChunkId}
    (h : FieldsForm form w slots fields b F) : F ⊆ w.store.live := by
  induction h with
  | nil => exact List.nil_subset _
  | cons first _ ih => exact List.append_subset.mpr ⟨first.live hform, ih⟩

theorem RecordForm.live (hform : ∀ p v b G, form p v b G → G ⊆ w.store.live) {key : LayoutKey}
    {r : Record} {b : Bytes} {F : List ChunkId} (h : RecordForm form w key r b F) :
    F ⊆ w.store.live := by
  obtain ⟨l, -, hfields⟩ := h.fields
  exact hfields.live hform

theorem Placed.live (hform : ∀ p v b G, form p v b G → G ⊆ w.store.live) {p : Placement}
    {v : Value} {b : Bytes} {F : List ChunkId} (h : Placed form w p v b F) :
    F ⊆ w.store.live := by
  -- the chunk of a reference holds content, so it is live
  have hchunk {chunk : ChunkId} {content : Bytes} {G : List ChunkId}
      (hcontent : w.store.content? chunk = some content) (hG : G ⊆ w.store.live) :
      chunk :: G ⊆ w.store.live :=
    List.cons_subset.mpr ⟨mem_live_iff.mpr (by rw [hcontent]; rfl), hG⟩
  cases h with
  | inlineRecord hrecord => exact hrecord.live hform
  | fixedRecord hrecord => exact hrecord.live hform
  | wrapped hrecord => exact hrecord.live hform
  | choice _ hrecord => exact hrecord.live hform
  | typed _ _ hplaced => exact hform _ _ _ _ hplaced
  | chunkText hcontent => exact hchunk hcontent (List.nil_subset _)
  | chunkRecord hcontent hrecord => exact hchunk hcontent (hrecord.live hform)
  | chunkChoice _ hcontent hrecord => exact hchunk hcontent (hrecord.live hform)
  | chunkTyped _ _ hcontent hplaced => exact hchunk hcontent (hform _ _ _ _ hplaced)
  | _ => exact List.nil_subset _

end

/-- The chunks that a value stands in are live. -/
theorem Stands.live {w : Workspace} {n : Nat} {p : Placement} {v : Value} {b : Bytes}
    {F : List ChunkId} (h : Stands w n p v b F) : F ⊆ w.store.live := by
  induction n generalizing p v b F with
  | zero => exact h.elim
  | succ n ih => exact Placed.live (fun _ _ _ _ hplaced => ih hplaced) h

end RecordLayout
