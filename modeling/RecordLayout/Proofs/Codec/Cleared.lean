import Mathlib
import RecordLayout.Proofs.Codec.Collect

/-!
# Bytes with their references cleared

What clearing makes of the bytes of a record. References that lead somewhere become zeros, tagged ones as
a whole; handles become a zero of variable length in as many bytes; everything else stays, what stands
in chunks too. `Cleared` follows `Parses`, and like that it says nothing of who wrote the bytes.

A handle of fixed width is eight plain bytes, and a padded zero of variable length does not read as null
there. `Cleared` tells which handles this has happened to.

Main results:

* `RecordParse.cleared` — whatever reads as a record can be cleared;
* `RecordCleared.length` — cleared bytes are as many;
* `RecordCleared.none` — where nothing is kept in chunks, nothing is cleared;
* `RecordCleared.parsed` — cleared bytes read as a record again, and lead to no chunks.
-/

namespace RecordLayout

open ByteStream

/-- A relation between placements, the values that are read there, their bytes, what is left of these
once they are cleared, and the handles of fixed width among what was cleared. -/
abbrev Clearing := Placement → Value → Bytes → Bytes → List Handle → Prop

/-- What clearing makes of the bytes of a slot. -/
inductive SlotCleared (clearing : Clearing) : Encoding → Value → Bytes → Bytes → List Handle → Prop
  | plain {e : Encoding} {v : Value} {b : Bytes} (hplain : ∀ p marker, e ≠ .placed p marker) :
    SlotCleared clearing e v b b []
  | absent {p : Placement} {b : Bytes} : SlotCleared clearing (.placed p true) .null (0 :: b) (0 :: b) []
  | present {p : Placement} {v : Value} {b b₀ : Bytes} {H : List Handle}
    (hplaced : clearing p v b b₀ H) : SlotCleared clearing (.placed p true) v (1 :: b) (1 :: b₀) H
  | unmarked {p : Placement} {v : Value} {b b₀ : Bytes} {H : List Handle}
    (hplaced : clearing p v b b₀ H) : SlotCleared clearing (.placed p false) v b b₀ H

/-- What clearing makes of the bytes of fields in a row, which read as those of a record. -/
inductive RowCleared (form : Parse) (clearing : Clearing) (w : Workspace) (r : Record) :
    List BoundField → Bytes → Bytes → List Handle → Prop
  | nil : RowCleared form clearing w r [] [] [] []
  | cons {f : BoundField} {fields : List BoundField} {o : Option ChunkId} {b c b₀ c₀ : Bytes}
    {F : List ChunkId} {H K : List Handle}
    (first : SlotParse form w r.slot f.encoding (r.slot f.slot) o b F)
    (behind : r.chunk f.slot = o.getD .null)
    (cleared : SlotCleared clearing f.encoding (r.slot f.slot) b b₀ H)
    (rest : RowCleared form clearing w r fields c c₀ K) :
    RowCleared form clearing w r (f :: fields) (b ++ c) (b₀ ++ c₀) (H ++ K)

/-- What clearing makes of the bytes of a record in a layout. -/
structure RecordCleared (form : Parse) (clearing : Clearing) (w : Workspace) (key : LayoutKey)
    (r : Record) (b b₀ : Bytes) (H : List Handle) : Prop where
  schema : r.schema = key.1
  slots : r.slots.length = (w.catalog.schema key.1).fields.length
  chunks : r.chunks.length = r.slots.length
  fields : ∃ l, w.compiler.answer key = some l ∧ RowCleared form clearing w r l.fields b b₀ H

/-- Whether nothing stands inside a placed value where the value itself stands. -/
def Placement.isLeaf : Placement → Bool
  | .scalar _ | .inlineText => true
  | p => p.isBehind

/-- What clearing makes of the bytes of a value in its placement. -/
inductive PlacedCleared (form : Parse) (clearing : Clearing) (w : Workspace) :
    Placement → Value → Bytes → Bytes → List Handle → Prop
  /-- What leads nowhere stays. -/
  | kept {p : Placement} {v : Value} {o : Option ChunkId} {b : Bytes} (hleaf : p.isLeaf = true)
    (h : PlacedParse form w p v o b []) : PlacedCleared form clearing w p v b b []
  | cleared {p : Placement} {v : Value} {o : Option ChunkId} {chunk : ChunkId} {b : Bytes}
    {F : List ChunkId} (hleaf : p.isLeaf = true) (h : PlacedParse form w p v o b (chunk :: F)) :
    PlacedCleared form clearing w p v b (List.replicate b.length 0) []
  | noHandle {id : SchemaId} {fixed : Bool} {b : Bytes} (hchunk : SpellsHandle fixed b .null) :
    PlacedCleared form clearing w (.handle id fixed) .null b b []
  | handle {id : SchemaId} {fixed : Bool} {chunk : ChunkId} {b : Bytes}
    (hchunk : SpellsHandle fixed b chunk) (hne : chunk ≠ .null) :
    PlacedCleared form clearing w (.handle id fixed) (.handle ⟨id, chunk⟩) b (paddedZero b.length)
      (if fixed then [⟨id, chunk⟩] else [])
  | inlineRecord {id : SchemaId} {r : Record} {b b₀ : Bytes} {H : List Handle}
    (hrecord : RecordCleared form clearing w (id, .standard) r b b₀ H) :
    PlacedCleared form clearing w (.inlineRecord id) (.record r) b b₀ H
  | fixedRecord {id : SchemaId} {r : Record} {b b₀ : Bytes} {H : List Handle}
    (hrecord : RecordCleared form clearing w (id, .fixed) r b b₀ H) :
    PlacedCleared form clearing w (.fixedRecord id) (.record r) b b₀ H
  | wrapped {wrapper : WrapperId} {carrier : SchemaId} {kind : LayoutKind} {r : Record}
    {b b₀ : Bytes} {H : List Handle}
    (hrecord : RecordCleared form clearing w (carrier, kind) r b b₀ H) :
    PlacedCleared form clearing w (.wrapped wrapper carrier kind) (.wrapped wrapper r) b b₀ H
  | noChoice {choice : ChoiceId} {b : Bytes} (htag : SpellsTag b 0)
    (hsize : ∀ n, (Placement.inlineChoice choice).sizeIn w.compiler = .fixed n → b.length = n) :
    PlacedCleared form clearing w (.inlineChoice choice) .null b b []
  | choice {choice : ChoiceId} {tag : Nat} {id : SchemaId} {r : Record} {b c c₀ : Bytes}
    {H : List Handle} (htag : SpellsTag b tag) (hne : tag ≠ 0)
    (hvariant : (w.catalog.choice choice).variant? tag = some id)
    (hrecord : RecordCleared form clearing w (id, .standard) r c c₀ H)
    (hsize : ∀ n, (Placement.inlineChoice choice).sizeIn w.compiler = .fixed n →
      (b ++ c).length = n) :
    PlacedCleared form clearing w (.inlineChoice choice) (.record r) (b ++ c) (b ++ c₀) H
  | noOpen {b : Bytes} (hid : SpellsTag b 0) : PlacedCleared form clearing w .inlineOpen .null b b []
  | typed {id : Nat} {type : ValueType} {p : Placement} {v : Value} {b c c₀ : Bytes}
    {H : List Handle} (hid : SpellsTag b id) (hne : id ≠ 0)
    (htype : w.types.resolve id = .ok type)
    (hplace : w.compiler.placementAnswer (type.key, .flexible) = some p)
    (hplaced : clearing p v c c₀ H) :
    PlacedCleared form clearing w .inlineOpen v (b ++ c) (b ++ c₀) H

/-- What clearing makes of the bytes of a value in its placement; values may be nested `n` deep. -/
def Cleared (w : Workspace) : Nat → Clearing
  | 0 => fun _ _ _ _ _ => False
  | n + 1 => PlacedCleared (Parses w n) (Cleared w n) w

/-! ## Whatever is read can be cleared -/

section

variable {w : Workspace} {form : Parse} {clearing : Clearing} {b b₀ : Bytes} {F : List ChunkId}
  {H : List Handle}

/-- Whatever is read as a value can be cleared. -/
def Clearing.Covers (clearing : Clearing) (form : Parse) : Prop :=
  ∀ p v o b F, form p v o b F → ∃ b₀ H, clearing p v b b₀ H

/-- What parses can be cleared. -/
theorem SlotParse.cleared (hclear : clearing.Covers form) {slots : Nat → Value} {e : Encoding}
    {v : Value} {o : Option ChunkId} (h : SlotParse form w slots e v o b F) :
    ∃ b₀ H, SlotCleared clearing e v b b₀ H := by
  cases h with
  | absent hset hlen => exact ⟨_, _, .absent⟩
  | present hplaced =>
    obtain ⟨b₀, H, h⟩ := hclear _ _ _ _ _ hplaced
    exact ⟨_, H, .present h⟩
  | plain hplaced =>
    obtain ⟨b₀, H, h⟩ := hclear _ _ _ _ _ hplaced
    exact ⟨b₀, H, .unmarked h⟩
  | _ => exact ⟨_, _, .plain nofun⟩

/-- Fields that parse can be cleared. -/
theorem RowParse.cleared (hclear : clearing.Covers form) {r : Record} {fields : List BoundField}
    (h : RowParse form w r fields b F) : ∃ b₀ H, RowCleared form clearing w r fields b b₀ H := by
  induction h with
  | nil => exact ⟨_, _, .nil⟩
  | cons first behind _ ih =>
    obtain ⟨b₀, H, hfirst⟩ := first.cleared hclear
    obtain ⟨c₀, K, hrest⟩ := ih
    exact ⟨_, _, .cons first behind hfirst hrest⟩

/-- A record that parses can be cleared. -/
theorem RecordParse.cleared (hclear : clearing.Covers form) {key : LayoutKey} {r : Record}
    (h : RecordParse form w key r b F) : ∃ b₀ H, RecordCleared form clearing w key r b b₀ H := by
  obtain ⟨l, hl, hrow⟩ := h.fields
  obtain ⟨b₀, H, hcleared⟩ := hrow.cleared hclear
  exact ⟨b₀, H, h.schema, h.slots, h.chunks, l, hl, hcleared⟩

/-- What parses to some depth can be cleared to that depth. -/
theorem Parses.cleared (w : Workspace) (n : Nat) : (Cleared w n).Covers (Parses w n) := by
  induction n with
  | zero => exact fun _ _ _ _ _ h => h.elim
  | succ n ih =>
    intro p v o b F h
    cases hleaf : p.isLeaf with
    | true =>
      -- a reference is cleared if it leads to a chunk
      cases F with
      | nil => exact ⟨_, _, .kept hleaf h⟩
      | cons chunk F => exact ⟨_, _, .cleared hleaf h⟩
    | false =>
      cases h with
      | inlineRecord hrecord =>
        obtain ⟨b₀, H, h⟩ := hrecord.cleared ih
        exact ⟨b₀, H, .inlineRecord h⟩
      | fixedRecord hrecord =>
        obtain ⟨b₀, H, h⟩ := hrecord.cleared ih
        exact ⟨b₀, H, .fixedRecord h⟩
      | wrapped hrecord =>
        obtain ⟨b₀, H, h⟩ := hrecord.cleared ih
        exact ⟨b₀, H, .wrapped h⟩
      | noHandle hchunk => exact ⟨_, _, .noHandle hchunk⟩
      | handle hchunk hne => exact ⟨_, _, .handle hchunk hne⟩
      | noChoice htag hsize => exact ⟨_, _, .noChoice htag hsize⟩
      | choice htag hne hvariant hrecord hsize =>
        obtain ⟨c₀, H, h⟩ := hrecord.cleared ih
        exact ⟨_, H, .choice htag hne hvariant h hsize⟩
      | noOpen hid => exact ⟨_, _, .noOpen hid⟩
      | typed hid hne htype hplace hplaced =>
        obtain ⟨c₀, H, h⟩ := ih _ _ _ _ _ hplaced
        exact ⟨_, H, .typed hid hne htype hplace h⟩
      | _ => cases hleaf

/-- The bytes before they are cleared. -/
theorem RowCleared.row {r : Record} {fields : List BoundField}
    (h : RowCleared form clearing w r fields b b₀ H) : ∃ F, RowParse form w r fields b F := by
  induction h with
  | nil => exact ⟨[], .nil⟩
  | cons first behind _ _ ih =>
    obtain ⟨G, hrest⟩ := ih
    exact ⟨_, .cons first behind hrest⟩

/-- A record that is cleared did parse. -/
theorem RecordCleared.record {key : LayoutKey} {r : Record}
    (h : RecordCleared form clearing w key r b b₀ H) : ∃ F, RecordParse form w key r b F := by
  obtain ⟨l, hl, hrow⟩ := h.fields
  obtain ⟨F, hparse⟩ := hrow.row
  exact ⟨F, h.schema, h.slots, h.chunks, l, hl, hparse⟩

end

/-! ## Lengths -/

/-- A number of variable length takes at least one byte and at most as many as are allowed. -/
theorem Varint.Decoder.Spells.length {more : Nat} {d : Varint.Decoder} {b : Bytes} {v : UInt64}
    (h : d.Spells more b v) : 0 < b.length ∧ b.length ≤ more := by
  induction h with
  | last _ => exact ⟨Nat.zero_lt_one, Nat.succ_le_succ (Nat.zero_le _)⟩
  | more _ _ ih => exact ⟨Nat.succ_pos _, Nat.succ_le_succ ih.2⟩

/-- A handle takes between one byte and the longest varint. -/
theorem SpellsHandle.length {fixed : Bool} {b : Bytes} {chunk : ChunkId}
    (h : SpellsHandle fixed b chunk) : 0 < b.length ∧ b.length ≤ Varint.maxLength := by
  cases fixed with
  | true =>
    have hlen : b.length = ChunkId.fixedBytes := h.1
    rw [hlen]
    decide
  | false =>
    obtain ⟨v, hspell, -⟩ := h
    exact hspell.length

/-- A padded zero is as long as asked for. -/
@[simp] theorem length_paddedZero {n : Nat} (h : 0 < n) : (paddedZero n).length = n := by
  rw [paddedZero, List.length_append, List.length_replicate, List.length_singleton]
  omega

section

variable {w : Workspace} {form : Parse} {clearing : Clearing} {b b₀ : Bytes} {H : List Handle}

/-- Clearing keeps the number of bytes. -/
def Clearing.InPlace (clearing : Clearing) : Prop :=
  ∀ p v b b₀ H, clearing p v b b₀ H → b₀.length = b.length

/-- Clearing keeps the length of an encoding. -/
theorem SlotCleared.length (hclear : clearing.InPlace) {e : Encoding} {v : Value}
    (h : SlotCleared clearing e v b b₀ H) : b₀.length = b.length := by
  cases h with
  | present hplaced => exact congrArg Nat.succ (hclear _ _ _ _ _ hplaced)
  | unmarked hplaced => exact hclear _ _ _ _ _ hplaced
  | _ => rfl

/-- Clearing keeps the length of a row. -/
theorem RowCleared.length (hclear : clearing.InPlace) {r : Record} {fields : List BoundField}
    (h : RowCleared form clearing w r fields b b₀ H) : b₀.length = b.length := by
  induction h with
  | nil => rfl
  | cons _ _ cleared _ ih => rw [List.length_append, List.length_append, cleared.length hclear, ih]

/-- Clearing keeps the length of a record. -/
theorem RecordCleared.length (hclear : clearing.InPlace) {key : LayoutKey} {r : Record}
    (h : RecordCleared form clearing w key r b b₀ H) : b₀.length = b.length := by
  obtain ⟨l, -, hrow⟩ := h.fields
  exact hrow.length hclear

/-- Clearing keeps lengths at every depth. -/
theorem Cleared.inPlace (w : Workspace) (n : Nat) : (Cleared w n).InPlace := by
  -- the induction is on the depth; references are blanked in place, records field by field
  induction n with
  | zero => exact fun _ _ _ _ _ h => h.elim
  | succ n ih =>
    intro p v b b₀ H h
    cases h with
    | cleared _ _ => exact List.length_replicate
    | handle hchunk _ => exact length_paddedZero hchunk.length.1
    | inlineRecord hrecord => exact hrecord.length ih
    | fixedRecord hrecord => exact hrecord.length ih
    | wrapped hrecord => exact hrecord.length ih
    | choice _ _ _ hrecord _ => rw [List.length_append, List.length_append, hrecord.length ih]
    | typed _ _ _ _ hplaced =>
      rw [List.length_append, List.length_append, ih _ _ _ _ _ hplaced]
    | _ => rfl

end

/-! ## Where nothing is cleared -/

section

variable {w : Workspace} {form : Parse} {clearing : Clearing} {c : Compiler} {b b₀ : Bytes}
  {H : List Handle}

/-- In placements that hold no references, as far as it is known later, nothing is cleared. -/
def Clearing.KeepsNone (clearing : Clearing) (c : Compiler) : Prop :=
  ∀ p v b b₀ H, clearing p v b b₀ H → p.holdsIn c = false → b₀ = b ∧ H = []

/-- Clearing leaves an encoding that holds no chunks. -/
theorem SlotCleared.none (hclear : clearing.KeepsNone c) {e : Encoding} {v : Value}
    (h : SlotCleared clearing e v b b₀ H) (hno : e.holdsIn c = false) : b₀ = b ∧ H = [] := by
  cases h with
  | present hplaced =>
    obtain ⟨rfl, rfl⟩ := hclear _ _ _ _ _ hplaced hno
    exact ⟨rfl, rfl⟩
  | unmarked hplaced => exact hclear _ _ _ _ _ hplaced hno
  | _ => exact ⟨rfl, rfl⟩

/-- Clearing leaves fields that hold no chunks. -/
theorem RowCleared.none (hclear : clearing.KeepsNone c) {r : Record} {fields : List BoundField}
    (h : RowCleared form clearing w r fields b b₀ H)
    (hno : ∀ f ∈ fields, f.encoding.holdsIn c = false) : b₀ = b ∧ H = [] := by
  induction h with
  | nil => exact ⟨rfl, rfl⟩
  | cons _ _ cleared _ ih =>
    obtain ⟨rfl, rfl⟩ := cleared.none hclear (hno _ List.mem_cons_self)
    obtain ⟨rfl, rfl⟩ := ih fun g hg => hno g (List.mem_cons_of_mem _ hg)
    exact ⟨rfl, rfl⟩

/-- Clearing leaves a record that holds no chunks. -/
theorem RecordCleared.none (hs : w.Sound) (hgrows : w.compiler.Grows c)
    (hclear : clearing.KeepsNone c) {key : LayoutKey} {r : Record}
    (h : RecordCleared form clearing w key r b b₀ H)
    (hno : (c.answer key).elim true (·.holdsChunks) = false) : b₀ = b ∧ H = [] := by
  obtain ⟨l, hl, hrow⟩ := h.fields
  rw [hgrows.answer hl] at hno
  have hgood := hs.compiler.good.layouts _ _ l hl
  exact hrow.none hclear fun f hf => Compiler.holdsIn_false hgrows (hgood.holds hno f hf)

/-- Clearing leaves what holds no chunks, at every depth. -/
theorem Cleared.none (hs : w.Sound) (hgrows : w.compiler.Grows c) (n : Nat) :
    (Cleared w n).KeepsNone c := by
  induction n with
  | zero => exact fun _ _ _ _ _ h => h.elim
  | succ n ih =>
    intro p v b b₀ H h hno
    cases h with
    | cleared hleaf hplaced =>
      -- a placement that leads to a chunk is known to hold references
      cases hplaced with
      | inlineRecord _ | fixedRecord _ | wrapped _ | choice _ _ _ _ _ | typed _ _ _ _ _ => cases hleaf
      | _ => cases hno
    | handle _ _ => cases hno
    | inlineRecord hrecord => exact hrecord.none hs hgrows ih hno
    | fixedRecord hrecord => exact hrecord.none hs hgrows ih hno
    | wrapped hrecord => exact hrecord.none hs hgrows ih hno
    | @choice choice tag id r b c c₀ H _ _ hvariant hrecord _ =>
      -- a choice holds none if none of its variants does
      rw [Placement.holdsIn, hgrows.catalog] at hno
      obtain ⟨l, hl, hnone⟩ :=
        Compiler.variantHoldsIn_false hno id (Choice.mem_of_variant? hvariant)
      obtain ⟨rfl, rfl⟩ := hrecord.none hs hgrows ih (by rw [hl]; exact hnone)
      exact ⟨rfl, rfl⟩
    | typed _ _ _ _ _ => cases hno
    | _ => exact ⟨rfl, rfl⟩

end

/-! ## What cleared bytes read as -/

/-- Eight zeros spell the null identifier. -/
theorem spelled_zeros : ChunkId.null.Spelled (List.replicate ChunkId.fixedBytes 0) := ⟨rfl, rfl⟩

/-- Zeros spell the absent tagged reference. -/
theorem spellsTagged_zeros : SpellsTagged (List.replicate Placement.taggedBytes 0) 0 .null :=
  ⟨rfl, rfl, rfl, rfl⟩

/-- A padded zero is a varint of zero. -/
theorem spells_paddedZero {n : Nat} (hpos : 0 < n) (hle : n ≤ Varint.maxLength) :
    Varint.Spells (paddedZero n) 0 := by
  -- so many padding bytes are still to come, with nothing read before them but zeros
  have hgen (k more shift : Nat) (hshift : shift + 7 * k ≤ 63) (hmore : k < more) :
      Varint.Decoder.Spells more ⟨0, shift⟩ (List.replicate k 0x80 ++ [0]) 0 := by
    induction k generalizing more shift with
    | zero =>
      obtain ⟨more, rfl⟩ : ∃ m, more = m + 1 := ⟨more - 1, by omega⟩
      refine .last ?_
      simp [Varint.Decoder.push]
    | succ k ih =>
      obtain ⟨more, rfl⟩ : ∃ m, more = m + 1 := ⟨more - 1, by omega⟩
      rw [List.replicate_succ, List.cons_append]
      have hlast : ¬63 < shift + 7 := by omega
      have hpush : Varint.Decoder.push ⟨0, shift⟩ 0x80 = .more ⟨0, shift + 7⟩ := by
        simp [Varint.Decoder.push, hlast]
      exact .more hpush (ih more (shift + 7) (by omega) (by omega))
  have hlen : n ≤ 10 := hle
  exact hgen (n - 1) 10 0 (by omega) (by omega)

section

variable {w : Workspace} {form : Parse} {clearing : Clearing} {b b₀ : Bytes} {F : List ChunkId}
  {H : List Handle}

/-- Slots that decide sizes may be taken from elsewhere. -/
theorem SlotParse.congr {slots slots' : Nat → Value} {e : Encoding} {v : Value}
    {o : Option ChunkId} (h : SlotParse form w slots e v o b F)
    (hslots : ∀ g, e.governor? = some g → slots' g = slots g) :
    SlotParse form w slots' e v o b F := by
  cases h with
  | scalar hlen hdecode => exact .scalar hlen hdecode
  | ordinal hbyte => exact .ordinal hbyte
  | sized hwidth hlen => exact .sized ((hslots _ rfl).trans hwidth) hlen
  | forced hlen => exact .forced hlen
  | varint hspell => exact .varint hspell
  | array hcount hitems => exact .array (by rw [hslots _ rfl]; exact hcount) hitems
  | absent hset hlen => exact .absent hset hlen
  | present hplaced => exact .present hplaced
  | plain hplaced => exact .plain hplaced

/-- A row parses to any record that agrees with it at its fields and their governors. -/
theorem RowParse.congr {r r' : Record} {fields : List BoundField}
    (h : RowParse form w r fields b F) (hsame : ∀ f ∈ fields, r'.slotAt f.slot = r.slotAt f.slot)
    (hgovernor : ∀ f ∈ fields, ∀ g, f.encoding.governor? = some g → r'.slot g = r.slot g) :
    RowParse form w r' fields b F := by
  induction h with
  | nil => exact .nil
  | @cons f fields o b c F G first behind _ ih =>
    have hslot := hsame f List.mem_cons_self
    have hvalue : r'.slot f.slot = r.slot f.slot := congrArg Slot.value hslot
    have hchunk : r'.chunk f.slot = r.chunk f.slot := congrArg Slot.chunk hslot
    refine .cons (o := o) ?_ (hchunk.trans behind) (ih
      (fun g hg => hsame g (List.mem_cons_of_mem _ hg))
      fun g hg => hgovernor g (List.mem_cons_of_mem _ hg))
    rw [hvalue]
    exact first.congr (hgovernor f List.mem_cons_self)

/-- Cleared bytes are read as some value, and lead to no chunks. -/
def Clearing.LeavesNone (clearing : Clearing) (form : Parse) : Prop :=
  ∀ p v b b₀ H, clearing p v b b₀ H → ∃ v₀ o₀, form p v₀ o₀ b₀ []

/-- What is left of an encoding parses, and names no chunk. -/
theorem SlotCleared.parsed (hclear : clearing.LeavesNone form)
    (hkeeps : clearing.KeepsNone w.compiler) (hform : HoldsNone w.compiler form)
    {slots : Nat → Value} {e : Encoding} {v : Value} {o : Option ChunkId}
    (h : SlotCleared clearing e v b b₀ H) (hslot : SlotParse form w slots e v o b F) :
    ∃ v₀ o₀, SlotParse form w slots e v₀ o₀ b₀ [] ∧ (e.holdsIn w.compiler = false → v₀ = v) := by
  -- what holds no references is read as it was, and so is what decides sizes
  cases hholds : e.holdsIn w.compiler with
  | false =>
    obtain ⟨rfl, -⟩ := h.none hkeeps hholds
    obtain rfl := hslot.holds_none hform hholds
    exact ⟨v, o, hslot, fun _ => rfl⟩
  | true =>
    cases h with
    | plain hplain =>
      cases e with
      | placed p marker => exact absurd rfl (hplain p marker)
      | _ => cases hholds
    | absent =>
      cases hslot with
      | absent hset hlen => exact ⟨_, _, .absent hset hlen, nofun⟩
    | present hplaced =>
      obtain ⟨v₀, o₀, h₀⟩ := hclear _ _ _ _ _ hplaced
      exact ⟨v₀, o₀, .present h₀, nofun⟩
    | unmarked hplaced =>
      obtain ⟨v₀, o₀, h₀⟩ := hclear _ _ _ _ _ hplaced
      exact ⟨v₀, o₀, .plain h₀, nofun⟩

/-- By induction along the row: the record that is read has what decides sizes as it was. -/
theorem RowCleared.parsed (hclear : clearing.LeavesNone form)
    (hkeeps : clearing.KeepsNone w.compiler) (hform : HoldsNone w.compiler form) {r : Record}
    {fields : List BoundField} (h : RowCleared form clearing w r fields b b₀ H)
    (hnodup : (fields.map (·.slot)).Nodup) (hlt : ∀ f ∈ fields, f.slot < r.slots.length)
    (hboth : r.chunks.length = r.slots.length) (governs : Nat → Prop)
    (hplain : ∀ f ∈ fields, governs f.slot → f.encoding.holdsIn w.compiler = false)
    (hgovernor : ∀ f ∈ fields, ∀ g, f.encoding.governor? = some g → governs g) :
    ∃ r₀ : Record, RowParse form w r₀ fields b₀ [] ∧ r₀.schema = r.schema ∧
      r₀.slots.length = r.slots.length ∧ r₀.chunks.length = r.chunks.length ∧
      (∀ i ∉ fields.map (·.slot), r₀.slotAt i = r.slotAt i) ∧
      ∀ i, governs i → r₀.slot i = r.slot i := by
  induction h with
  | nil => exact ⟨r, .nil, rfl, rfl, rfl, fun _ _ => rfl, fun _ _ => rfl⟩
  | @cons f fields o b c b₀ c₀ F H K first behind cleared _ ih =>
    rw [List.map_cons, List.nodup_cons] at hnodup
    obtain ⟨r₁, hrow, hschema, hslots, hchunks, hothers, hgoverning⟩ := ih hnodup.2
      (fun g hg => hlt g (List.mem_cons_of_mem _ hg))
      (fun g hg => hplain g (List.mem_cons_of_mem _ hg))
      fun g hg => hgovernor g (List.mem_cons_of_mem _ hg)
    obtain ⟨v₀, o₀, hslot, hsame⟩ := cleared.parsed hclear hkeeps hform first
    -- the record that the rest reads as, with what the first field reads as in its slot
    let r₀ := r₁.setSlotAt f.slot ⟨v₀, o₀.getD .null⟩
    have hown : r₀.slotAt f.slot = ⟨v₀, o₀.getD .null⟩ :=
      RecordOf.slotAt_setSlotAt_self (by rw [hslots]; exact hlt f List.mem_cons_self)
        (by rw [hchunks, hslots, hboth]) _
    have hother {i : Nat} (hi : i ≠ f.slot) : r₀.slotAt i = r₁.slotAt i :=
      RecordOf.slotAt_setSlotAt_of_ne hi _
    have hgoverns (i : Nat) (hi : governs i) : r₀.slot i = r.slot i := by
      by_cases heq : i = f.slot
      · subst heq
        rw [← hsame (hplain f List.mem_cons_self hi)]
        exact congrArg Slot.value hown
      · exact (congrArg Slot.value (hother heq)).trans (hgoverning i hi)
    refine ⟨r₀, .cons (o := o₀) (F := []) ?_ (congrArg Slot.chunk hown) (hrow.congr (fun g hg => ?_)
      fun g hg i hi => ?_), hschema, List.length_set.trans hslots, List.length_set.trans hchunks,
      fun i hi => ?_, hgoverns⟩
    · rw [show r₀.slot f.slot = v₀ from congrArg Slot.value hown]
      exact hslot.congr fun i hi => hgoverns i (hgovernor f List.mem_cons_self i hi)
    · exact hother fun heq => hnodup.1 (heq ▸ List.mem_map_of_mem hg)
    · have huses := hgovernor g (List.mem_cons_of_mem _ hg) i hi
      rw [hgoverns i huses, hgoverning i huses]
    · rw [List.map_cons, List.mem_cons, not_or] at hi
      rw [hother hi.1, hothers i hi.2]

/-- What is left of a record parses, and names no chunk. -/
theorem RecordCleared.parsed (hs : w.Sound) (hchecked : w.catalog.Checked)
    (hclear : clearing.LeavesNone form) (hkeeps : clearing.KeepsNone w.compiler)
    (hform : HoldsNone w.compiler form) {key : LayoutKey} {r : Record}
    (h : RecordCleared form clearing w key r b b₀ H) : ∃ r₀, RecordParse form w key r₀ b₀ [] := by
  obtain ⟨l, hl, hrow⟩ := h.fields
  obtain ⟨hknows, rfl⟩ := hs.knows hl
  have hfields := (hknows.good hs).fields
  obtain ⟨r₀, hparse, hschema, hslots, hchunks, -⟩ := hrow.parsed hclear hkeeps hform
    hfields.slots_nodup (fun f hf => by
      rw [h.slots]
      exact hfields.mem_slots.mp (List.mem_map_of_mem hf)) h.chunks
    (fun i => ∃ f ∈ l.fields, f.encoding.governor? = some i)
    (fun f hf huse => hfields.governor_holds hs.compiler.good hchecked hf
      ((hfields.governs_iff hf).mpr huse) _)
    fun f hf i hi => ⟨f, hf, hi⟩
  exact ⟨r₀, hschema.trans h.schema, hslots.trans h.slots, by rw [hchunks, hslots, h.chunks], l, hl,
    hparse⟩

end

/-- Cleared bytes are read again, and lead to no chunks. -/
theorem Cleared.leavesNone {w : Workspace} (hs : w.Sound) (hchecked : w.catalog.Checked) (n : Nat) :
    (Cleared w n).LeavesNone (Parses w n) := by
  induction n with
  | zero => exact fun _ _ _ _ _ h => h.elim
  | succ n ih =>
    have hform := Parses.holds_none hs (.refl _) n
    have hkeeps := Cleared.none hs (.refl _) n
    intro p v b b₀ H h
    cases h with
    | kept _ h => exact ⟨_, _, h⟩
    | cleared hleaf h =>
      cases h with
      | inlineRecord _ | fixedRecord _ | wrapped _ | choice _ _ _ _ _ | typed _ _ _ _ _ => cases hleaf
      | chunkText hchunk _ _ _ => exact ⟨_, _, .noChunkText (hchunk.1 ▸ spelled_zeros)⟩
      | chunkRecord hchunk _ _ _ => exact ⟨_, _, .noChunkRecord (hchunk.1 ▸ spelled_zeros)⟩
      | chunkChoice h _ _ _ _ _ => exact ⟨_, _, .noChunkChoice (h.length ▸ spellsTagged_zeros)⟩
      | chunkTyped h _ _ _ _ _ _ => exact ⟨_, _, .noChunkOpen (h.length ▸ spellsTagged_zeros)⟩
    | noHandle hchunk => exact ⟨_, _, .noHandle hchunk⟩
    | @handle id fixed chunk b hchunk hne =>
      obtain ⟨hpos, hle⟩ := hchunk.length
      cases fixed with
      | true =>
        -- eight bytes of padding are no null
        have hlen : b.length = ChunkId.fixedBytes := hchunk.1
        rw [hlen]
        have hspelled : SpellsHandle true (paddedZero ChunkId.fixedBytes)
            ⟨leValue (paddedZero ChunkId.fixedBytes)⟩ := ⟨rfl, rfl⟩
        exact ⟨_, _, .handle hspelled (by decide)⟩
      | false => exact ⟨_, _, .noHandle ⟨0, spells_paddedZero hpos hle, rfl⟩⟩
    | inlineRecord hrecord =>
      obtain ⟨r₀, h₀⟩ := hrecord.parsed hs hchecked ih hkeeps hform
      exact ⟨_, _, .inlineRecord h₀⟩
    | fixedRecord hrecord =>
      obtain ⟨r₀, h₀⟩ := hrecord.parsed hs hchecked ih hkeeps hform
      exact ⟨_, _, .fixedRecord h₀⟩
    | wrapped hrecord =>
      obtain ⟨r₀, h₀⟩ := hrecord.parsed hs hchecked ih hkeeps hform
      exact ⟨_, _, .wrapped h₀⟩
    | noChoice htag hsize => exact ⟨_, _, .noChoice htag hsize⟩
    | choice htag hne hvariant hrecord hsize =>
      obtain ⟨r₀, h₀⟩ := hrecord.parsed hs hchecked ih hkeeps hform
      -- a size that is seen as fixed is kept, as the bytes are as many
      refine ⟨_, _, .choice htag hne hvariant h₀ fun m hm => ?_⟩
      rw [List.length_append, hrecord.length (Cleared.inPlace w n), ← List.length_append]
      exact hsize m hm
    | noOpen hid => exact ⟨_, _, .noOpen hid⟩
    | typed hid hne htype hplace hplaced =>
      obtain ⟨v₀, o₀, h₀⟩ := ih _ _ _ _ _ hplaced
      exact ⟨_, _, .typed hid hne htype hplace h₀⟩

end RecordLayout
