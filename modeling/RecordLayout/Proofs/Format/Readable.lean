import Mathlib
import RecordLayout.Proofs.Format.Parsed
import RecordLayout.Proofs.Size.Ranges
import RecordLayout.Proofs.Text.Utf8
import RecordLayout.Proofs.Value.Content

/-!
# What written bytes are read as

Bytes that stand for a value are read as a value of the same content, if ids fit into the words that
hold them.

Main results:

* `Stands.parses_later` — values in their placements, by induction on the depth;
* `RecordForm.parses` — records.
-/

namespace RecordLayout

/-- Ids fit into the words that hold them. -/
structure Workspace.Fits (w : Workspace) : Prop where
  chunks : w.store.next ≤ 2 ^ 64
  types : w.types.size < 2 ^ 32
  choices : ∀ choice, (w.catalog.choice choice).variants.length < 2 ^ 32

/-- There are no choices, and ids for more chunks and types. All of this can be computed. -/
def Workspace.Roomy (w : Workspace) : Prop :=
  w.store.next ≤ 2 ^ 64 ∧ w.types.size < 2 ^ 32 ∧ w.catalog.choices.length = 0

instance (w : Workspace) : Decidable w.Roomy := inferInstanceAs (Decidable (_ ∧ _ ∧ _))

theorem Workspace.Roomy.fits {w : Workspace} (h : w.Roomy) : w.Fits := by
  obtain ⟨hchunks, htypes, hchoices⟩ := h
  refine ⟨hchunks, htypes, fun choice => ?_⟩
  rw [Catalog.choice, List.eq_nil_of_length_eq_zero hchoices, List.getD_nil]
  decide

/-! ## Contents -/

theorem Value.detached_eq_width {v : Value} {width : Width} (h : v.detached = .width width) :
    v = .width width := by
  cases v <;> simp_all [Value.detached]

theorem Value.toNat?_detached (v : Value) : v.detached.toNat? = v.toNat? := by
  cases v <;> rfl

theorem Value.toNat?_congr {v v' : Value} (h : v.detached = v'.detached) :
    v.toNat? = v'.toNat? := by
  rw [← v.toNat?_detached, h, v'.toNat?_detached]

/-! ## Plain bytes -/

theorem Choice.variant?_of_tagOf? {c : Choice} {id : SchemaId} {tag : Nat}
    (h : c.tagOf? id = some tag) : c.variant? tag = some id ∧ tag ≠ 0 ∧
      tag ≤ c.variants.length := by
  obtain ⟨i, hi, rfl⟩ := Option.map_eq_some_iff.mp h
  obtain ⟨hlt, heq, -⟩ := List.findIdx?_eq_some_iff_getElem.mp hi
  refine ⟨?_, Nat.succ_ne_zero _, hlt⟩
  rw [Choice.variant?, if_neg (Nat.succ_ne_zero _), Nat.add_sub_cancel,
    List.getElem?_eq_getElem hlt, beq_iff_eq.mp heq]

theorem TypeIndex.resolve_bounds {x : TypeIndex} {id : Nat} {type : ValueType}
    (h : x.resolve id = .ok type) : id ≠ 0 ∧ id ≤ x.size := by
  obtain ⟨i, rfl, hfound⟩ := TypeIndex.resolve_ok.mp h
  exact ⟨Nat.succ_ne_zero i, (List.getElem?_eq_some_iff.mp hfound).1⟩

/-- The chunk of a reference that leads somewhere. -/
theorem chunk_bounds {w : Workspace} (hs : w.Sound) (hfit : w.Fits) {chunk : ChunkId}
    {content : Bytes} (h : w.store.content? chunk = some content) :
    chunk ≠ .null ∧ chunk.id < 2 ^ 64 := by
  obtain ⟨hpos, hlt⟩ := hs.store.lt_next h
  have hnext := hfit.chunks
  refine ⟨?_, by omega⟩
  rintro rfl
  exact Nat.lt_irrefl 0 hpos

theorem spellsTag_encode {tag : Nat} (h : tag < 2 ^ 32) :
    SpellsTag (Varint.encode (UInt64.ofNat tag)) tag :=
  ⟨_, Varint.spells_encode _, UInt64.toNat_ofNat_of_lt' (Nat.lt_trans h (by decide)),
    by rw [maxTag]; omega⟩

theorem ChunkId.spelled_encode {chunk : ChunkId} (h : chunk.id < 2 ^ 64) :
    chunk.Spelled chunk.encode :=
  ⟨length_leBytes _ _, leValue_leBytes_of_lt (Nat.lt_of_lt_of_le h (by decide))⟩

theorem spellsHandle_handleBytes {fixed : Bool} {chunk : ChunkId} (h : chunk.id < 2 ^ 64) :
    SpellsHandle fixed (handleBytes fixed chunk) chunk := by
  cases fixed with
  | true => exact ChunkId.spelled_encode h
  | false => exact ⟨_, Varint.spells_encode _, UInt64.toNat_ofNat_of_lt' h⟩

theorem spellsTagged_append {tag : Nat} {chunk : ChunkId} (htag : tag < 2 ^ 32)
    (h : chunk.id < 2 ^ 64) : SpellsTagged (leBytes 4 tag ++ chunk.encode) tag chunk := by
  have hlen : (leBytes 4 tag).length = 4 := length_leBytes _ _
  refine ⟨?_, ?_, ?_⟩
  · rw [List.length_append, hlen, ChunkId.encode, length_leBytes]
    rfl
  · rw [List.take_left' hlen]
    exact leValue_leBytes_of_lt (by omega)
  · rw [List.drop_left' hlen]
    exact ChunkId.spelled_encode h

theorem spellsScalars_flatMap {kind : ScalarKind} {items : List Scalar}
    (h : ∀ s ∈ items, s.kind = kind) :
    SpellsScalars kind items (items.flatMap Scalar.encode) := by
  induction items with
  | nil => exact .nil
  | cons s rest ih =>
    obtain rfl := h s List.mem_cons_self
    rw [List.flatMap_cons]
    exact .cons s.length_encode s.decode_encode (ih fun t ht => h t (List.mem_cons_of_mem _ ht))

/-! ## Slots and records -/

/-- What stands in some form is read as a value of the same content. -/
def ReadAs (form : Form) (parse : Parse) : Prop :=
  ∀ p v b F, form p v b F → ∃ v' o, parse p v' o b F ∧ v'.detached = v.detached

section

variable {w : Workspace} {form : Form} {parse : Parse}

theorem Encodes.parses (hform : ReadAs form parse) {slots slots' : Nat → Value}
    (hslots : ∀ i, (slots' i).detached = (slots i).detached) {e : Encoding} {v : Value} {b : Bytes}
    {F : List ChunkId} (h : Encodes form w slots e v b F) :
    ∃ v' o, SlotParse parse w slots' e v' o b F ∧ v'.detached = v.detached := by
  -- what an encoding writes parses again: numbers at their width, arrays by their count, values as
  -- assumed
  cases h with
  | scalar s => exact ⟨_, _, .scalar s.length_encode s.decode_encode, rfl⟩
  | ordinal width => exact ⟨_, _, .ordinal width.ofOrdinal_ofNat, rfl⟩
  | @sized g width n hwidth hfit =>
    have hword : SlotParse parse w slots' (.sized g) _ none (leBytes width.bytes n.toNat) [] :=
      .sized (Value.detached_eq_width (by rw [hslots, hwidth]; rfl)) (length_leBytes _ _)
    rw [leValue_leBytes_of_lt (Width.canFit_iff.mp hfit), UInt64.ofNat_toNat] at hword
    exact ⟨_, _, hword, rfl⟩
  | @forced width n hfit =>
    have hword : SlotParse parse w slots' (.forced width) _ none (leBytes width.bytes n.toNat) [] :=
      .forced (length_leBytes _ _)
    rw [leValue_leBytes_of_lt (Width.canFit_iff.mp hfit), UInt64.ofNat_toNat] at hword
    exact ⟨_, _, hword, rfl⟩
  | varint n => exact ⟨_, _, .varint (Varint.spells_encode n), rfl⟩
  | @array g kind items hcount hkind =>
    exact ⟨_, _, .array ((Value.toNat?_congr (hslots g)).trans hcount) (spellsScalars_flatMap hkind),
      rfl⟩
  | absent hset => exact ⟨_, _, .absent hset List.length_replicate, rfl⟩
  | present hplaced =>
    obtain ⟨v', o, hparse, hv⟩ := hform _ _ _ _ hplaced
    exact ⟨v', o, .present hparse, hv⟩
  | plain hplaced =>
    obtain ⟨v', o, hparse, hv⟩ := hform _ _ _ _ hplaced
    exact ⟨v', o, .plain hparse, hv⟩

/-- The slots as they are read, with the chunks behind them; any record that has them fits the
row. -/
theorem FieldsForm.parses (hform : ReadAs form parse) {slots : Nat → Value}
    {fields : List BoundField} {b : Bytes} {F : List ChunkId}
    (h : FieldsForm form w slots fields b F) (hrow : InRow fields) :
    ∃ (values : Nat → Value) (behind : Nat → ChunkId),
      (∀ i, (values i).detached = (slots i).detached) ∧
      ∀ r : Record, (∀ i, (r.slot i).detached = (slots i).detached) →
        (∀ f ∈ fields, r.slot f.slot = values f.slot ∧ r.chunk f.slot = behind f.slot) →
          RowParse parse w r fields b F := by
  induction h with
  | nil => exact ⟨slots, fun _ => .null, fun _ => rfl, fun _ _ _ => .nil⟩
  | @cons f fields b c F G first _ ih =>
    obtain ⟨hapart, hrow'⟩ := List.pairwise_cons.mp hrow
    obtain ⟨values, behind, hvalues, hrest⟩ := ih hrow'
    -- which value is read does not depend on how the slots before it are held
    obtain ⟨v, o, hfirst, hv⟩ : ∃ v o, (∀ slots' : Nat → Value,
        (∀ i, (slots' i).detached = (slots i).detached) →
          SlotParse parse w slots' f.encoding v o b F) ∧ v.detached = (slots f.slot).detached := by
      obtain ⟨v, o, hparse, hv⟩ := first.parses hform fun _ => rfl
      refine ⟨v, o, fun slots' hslots' => ?_, hv⟩
      generalize f.encoding = e at hparse
      cases hparse with
      | scalar hlen hdecode => exact .scalar hlen hdecode
      | ordinal hbyte => exact .ordinal hbyte
      | sized hwidth hlen =>
        exact .sized (Value.detached_eq_width (by rw [hslots', hwidth]; rfl)) hlen
      | forced hlen => exact .forced hlen
      | varint hspell => exact .varint hspell
      | array hcount hitems =>
        exact .array ((Value.toNat?_congr (hslots' _)).trans hcount) hitems
      | absent hset hlen => exact .absent hset hlen
      | present hplaced => exact .present hplaced
      | plain hplaced => exact .plain hplaced
    refine ⟨Function.update values f.slot v, Function.update behind f.slot (o.getD .null),
      fun i => ?_, fun r hr hall => ?_⟩
    · by_cases hi : i = f.slot
      · rw [hi, Function.update_self, hv]
      · rw [Function.update_of_ne hi, hvalues]
    · obtain ⟨hslot, hchunk⟩ := hall f List.mem_cons_self
      rw [Function.update_self] at hslot hchunk
      refine .cons ?_ hchunk (hrest r hr fun g hg => ?_)
      · rw [hslot]
        exact hfirst r.slot hr
      · have hne : g.slot ≠ f.slot := (hapart g hg).1.symm
        have hg' := hall g (List.mem_cons_of_mem _ hg)
        rwa [Function.update_of_ne hne, Function.update_of_ne hne] at hg'

theorem RecordForm.parses (hs : w.Sound) (hform : ReadAs form parse) {key : LayoutKey}
    {r : Record} {b : Bytes} {F : List ChunkId} (h : RecordForm form w key r b F) :
    ∃ r', RecordParse parse w key r' b F ∧ r'.detached = r.detached := by
  obtain ⟨l, hl, hfields⟩ := h.fields
  obtain ⟨id, kind⟩ := key
  have hschema : r.schema = id := h.schema
  have hgood := (hs.compiler.good.layouts id kind l hl).fields
  obtain ⟨values, behind, hvalues, hrow⟩ := hfields.parses hform hgood.inRow
  -- the record as it is read
  let n := r.slots.length
  let r' : Record := ⟨id, (List.range n).map values, (List.range n).map behind⟩
  have hget {α : Type} (f : Nat → α) (d : α) {i : Nat} (hi : i < n) :
      ((List.range n).map f).getD i d = f i := by
    rw [List.getD_eq_getElem _ _ (by rw [List.length_map, List.length_range]; exact hi),
      List.getElem_map, List.getElem_range]
  have hlen : r'.slots.length = r.slots.length := by
    rw [List.length_map, List.length_range]
  have hslots (i : Nat) : (r'.slot i).detached = (r.slot i).detached := by
    by_cases hi : i < n
    · have hslot : r'.slot i = values i := hget values .null hi
      rw [hslot, hvalues]
    · rw [RecordOf.slot_of_length_le (by rw [hlen]; omega),
        RecordOf.slot_of_length_le (r := r) (by omega)]
  have hmap : r'.slots.map Value.detached = r.slots.map Value.detached :=
    RecordOf.map_detached_eq hlen fun i _ => hslots i
  have hchunks : r'.chunks.length = r'.slots.length := by
    rw [List.length_map, List.length_map]
  refine ⟨r', ⟨rfl, ?_, hchunks, l, hl, hrow r' hslots fun f hf => ?_⟩, ?_⟩
  · rw [hlen, h.slots, hschema]
  · have hi : f.slot < n := by
      have hmem := hgood.slots_perm.mem_iff.mp (List.mem_map_of_mem hf)
      rw [List.mem_range] at hmem
      have hcount := h.slots
      rw [hschema] at hcount
      show f.slot < r.slots.length
      rw [hcount]
      exact hmem
    exact ⟨hget values .null hi, hget behind .null hi⟩
  · exact RecordOf.detached_eq_iff.mpr ⟨hschema.symm, hmap, by rw [hchunks, hlen, h.chunks]⟩

end

/-! ## Values -/

/-- A choice whose size is seen as fixed has nothing but tags of one byte. -/
theorem Placement.choice_fixed {c : Compiler} {choice : ChoiceId} {n : Nat}
    (h : (Placement.inlineChoice choice).sizeIn c = .fixed n) :
    n = 1 ∧ ∀ i v, (c.catalog.choice choice).variants[i]? = some v → ∃ l m,
      c.answer (v, .standard) = some l ∧ l.size = .fixed m ∧
        Varint.length (UInt64.ofNat (i + 1)) + m = 1 := by
  rw [sizeIn] at h
  obtain ⟨hsize, -, hall⟩ := variantSizeIn_fixed (by rw [h]; rfl)
  rw [h] at hsize
  refine ⟨SizeRange.fixed.inj hsize, fun i v hi => ?_⟩
  obtain ⟨l, hl, hadd⟩ := hall i v hi
  cases hm : l.size with
  | fixed m =>
    rw [hm, SizeRange.add, Nat.add_comm 1 i] at hadd
    exact ⟨l, m, hl, hm, SizeRange.fixed.inj hadd⟩
  | between least most =>
    rw [hm] at hadd
    cases hadd

/-- What stands in a placement is read as a value of the same content in every later workspace that
has left its chunks as they were. -/
theorem Stands.parses_later {w v : Workspace} (hs : w.Sound) (hv : v.Sound) (hle : w.Le v)
    (hfit : w.Fits) {n : Nat} {p : Placement} {x : Value} {b : Bytes} {F : List ChunkId}
    (hsame : ∀ c ∈ F, v.store.content? c = w.store.content? c) (h : Stands w n p x b F) :
    ∃ x' o, Parses v n p x' o b F ∧ x'.detached = x.detached := by
  induction n generalizing p x b F with
  | zero => exact h.elim
  | succ n ih =>
    -- parts that the value itself determines
    have hplain {o : Option ChunkId} (hparse : PlacedParse (Parses v n) v p x o b F) :
        ∃ x' o, Parses v (n + 1) p x' o b F ∧ x'.detached = x.detached := ⟨x, o, hparse, rfl⟩
    -- the records inside
    have hinner {key : LayoutKey} {r : Record} {c : Bytes} {G : List ChunkId} (hG : G ⊆ F)
        (hrecord : RecordForm (Stands w n) w key r c G) :
        ∃ r', RecordParse (Parses v n) v key r' c G ∧ r'.detached = r.detached := by
      let form : Form := fun p x c H => H ⊆ F ∧ Stands w n p x c H
      have hlater : RecordForm form v key r c G :=
        hrecord.transfer hs hle fun p x c H hH hstands => ⟨fun _ hx => hG (hH hx), hstands⟩
      exact hlater.parses hv fun p x c H hform => ih (fun d hd => hsame d (hform.1 hd)) hform.2
    have hnull : ChunkId.null.Spelled (ChunkId.encode .null) :=
      ChunkId.spelled_encode (by decide)
    have hzero : SpellsTag (Varint.encode 0) 0 := spellsTag_encode (by decide)
    have hcat := hle.catalog
    cases h with
    | scalar s => exact hplain (.scalar s.length_encode s.decode_encode)
    | noText => exact hplain (.noText (Varint.spells_encode 0))
    | @text s hlen =>
      have hn := UInt64.toNat_ofNat_of_lt' hlen
      refine hplain (.text (Varint.spells_encode _) (by rw [hn]; exact Nat.succ_ne_zero _) ?_
        (Utf8.decode_encode s))
      rw [hn, Nat.add_sub_cancel]
    | inlineRecord hrecord =>
      obtain ⟨r', hparse, hr⟩ := hinner (.refl F) hrecord
      exact ⟨_, _, .inlineRecord hparse, congrArg Value.record hr⟩
    | fixedRecord hrecord =>
      obtain ⟨r', hparse, hr⟩ := hinner (.refl F) hrecord
      exact ⟨_, _, .fixedRecord hparse, congrArg Value.record hr⟩
    | @wrapped wrapper _ _ _ _ _ hrecord =>
      obtain ⟨r', hparse, hr⟩ := hinner (.refl F) hrecord
      exact ⟨_, _, .wrapped hparse, congrArg (Value.wrapped wrapper) hr⟩
    | noHandle => exact hplain (.noHandle (spellsHandle_handleBytes (by decide)))
    | @handle h fixed hchunk hlt =>
      exact hplain (.handle (spellsHandle_handleBytes hlt) hchunk)
    | noChoice =>
      refine hplain (.noChoice hzero fun m hm => ?_)
      rw [(Placement.choice_fixed hm).1]
      rfl
    | @choice choice r tag b F htag hrecord =>
      obtain ⟨hvariant, hne, hle⟩ := Choice.variant?_of_tagOf? htag
      have hbound := hfit.choices choice
      obtain ⟨r', hparse, hr⟩ := hinner (.refl F) hrecord
      refine ⟨_, _, .choice (spellsTag_encode (by omega)) hne (by rw [hcat]; exact hvariant) hparse
        fun m hm => ?_, congrArg Value.record hr⟩
      -- every variant takes what the choice is seen to take
      obtain ⟨rfl, hall⟩ := Placement.choice_fixed hm
      obtain ⟨i, rfl, hi⟩ := Choice.variants_of_tagOf? htag
      rw [← hcat] at hi
      obtain ⟨l, k, hl, hsize, hsum⟩ := hall i r.schema hi
      have hk := hparse.fixed hv (Parses.fixed hv n) (n := k) (by rw [hl]; exact hsize)
      rw [List.length_append, Varint.length_encode, hk, hsum]
    | noOpen => exact hplain (.noOpen hzero)
    | typed htype hplace hplaced =>
      have hid := TypeIndex.resolve_bounds htype
      have hbound := hfit.types
      obtain ⟨x', o, hparse, hx⟩ := ih hsame hplaced
      exact ⟨x', _, .typed (spellsTag_encode (by omega)) hid.1 (hle.resolve htype)
        (hle.compiler.placementAnswer hplace) hparse, hx⟩
    | noChunkText => exact hplain (.noChunkText hnull)
    | @chunkText s chunk hcontent =>
      obtain ⟨hne, hlt⟩ := chunk_bounds hs hfit hcontent
      rw [← hsame chunk List.mem_cons_self] at hcontent
      exact hplain (.chunkText (ChunkId.spelled_encode hlt) hne hcontent (Utf8.decode_encode s))
    | noChunkRecord => exact hplain (.noChunkRecord hnull)
    | @chunkRecord id r chunk b F hcontent hrecord =>
      obtain ⟨hne, hlt⟩ := chunk_bounds hs hfit hcontent
      rw [← hsame chunk List.mem_cons_self] at hcontent
      obtain ⟨r', hparse, hr⟩ := hinner (List.subset_cons_self _ _) hrecord
      exact ⟨_, _, .chunkRecord (d := []) (ChunkId.spelled_encode hlt) hne
        (by rw [List.append_nil]; exact hcontent) hparse, congrArg Value.record hr⟩
    | noChunkChoice => exact hplain (.noChunkChoice (spellsTagged_append (by decide) (by decide)))
    | @chunkChoice choice r tag chunk b F htag hcontent hrecord =>
      obtain ⟨hvariant, htag', hle⟩ := Choice.variant?_of_tagOf? htag
      have hbound := hfit.choices choice
      obtain ⟨hne, hlt⟩ := chunk_bounds hs hfit hcontent
      rw [← hsame chunk List.mem_cons_self] at hcontent
      obtain ⟨r', hparse, hr⟩ := hinner (List.subset_cons_self _ _) hrecord
      exact ⟨_, _, .chunkChoice (d := []) (spellsTagged_append (by omega) hlt) htag' hne
        (by rw [hcat]; exact hvariant) (by rw [List.append_nil]; exact hcontent) hparse,
        congrArg Value.record hr⟩
    | noChunkOpen => exact hplain (.noChunkOpen (spellsTagged_append (by decide) (by decide)))
    | @chunkTyped id type p x chunk b F htype hplace hcontent hplaced =>
      have hid := TypeIndex.resolve_bounds htype
      have hbound := hfit.types
      obtain ⟨hne, hlt⟩ := chunk_bounds hs hfit hcontent
      rw [← hsame chunk List.mem_cons_self] at hcontent
      obtain ⟨x', o, hparse, hx⟩ := ih (fun c hc => hsame c (List.mem_cons_of_mem _ hc)) hplaced
      exact ⟨x', _, .chunkTyped (d := []) (spellsTagged_append (by omega) hlt) hid.1 hne
        (hle.resolve htype) (hle.compiler.placementAnswer hplace)
        (by rw [List.append_nil]; exact hcontent) hparse, hx⟩

/-- What stands in a placement is read as a value of the same content. -/
theorem Stands.parses {w : Workspace} (hs : w.Sound) (hfit : w.Fits) (n : Nat) :
    ReadAs (Stands w n) (Parses w n) :=
  fun _ _ _ _ h => h.parses_later hs hs (.refl w) hfit fun _ _ => rfl

/-- An encoded slot is read as a value of the same content in every later workspace that has left its
chunks as they were. -/
theorem Encodes.parses_later {w v : Workspace} (hs : w.Sound) (hv : v.Sound) (hle : w.Le v)
    (hfit : w.Fits) {n : Nat} {slots slots' : Nat → Value} {e : Encoding} {x : Value} {b : Bytes}
    {F : List ChunkId} (hsame : ∀ c ∈ F, v.store.content? c = w.store.content? c)
    (hslots : ∀ g, e.governor? = some g → slots' g = slots g)
    (h : Encodes (Stands w n) w slots e x b F) :
    ∃ x' o, SlotParse (Parses v n) v slots' e x' o b F ∧ x'.detached = x.detached := by
  let form : Form := fun p x b G => G = F ∧ Stands w n p x b G
  have hlater : Encodes form v slots' e x b F :=
    h.transfer hs hle (fun _ _ _ hp => ⟨rfl, hp⟩) hslots
  refine hlater.parses (fun p x b G hform => ?_) fun _ => rfl
  obtain ⟨rfl, hstands⟩ := hform
  exact hstands.parses_later hs hv hle hfit hsame

end RecordLayout
