import Mathlib
import RecordLayout.Proofs.Format.Basic

/-!
# How deep stored values go

Values may be nested without bound, but not without bytes: a marker, a tag, a type id or a reference
stands before every value whose schema may come again inside. Between two such bytes the layouts that
stand in each other are all different, so there are no more of them than there are layouts.

Main results:

* `Stands.acc` — layouts that have bytes do not stand inside themselves;
* `Stands.shallow` — the bytes of a value and of its chunks bound how deep it goes;
* `RecordForm.shallow` — a record stands at the depth to which readers go.
-/

namespace RecordLayout

open Relation (TransGen)

/-! ## Layouts that stand in each other -/

/-- The layout of the record that a placed value is, if no byte stands before it. -/
def Placement.layout? : Placement → Option LayoutKey
  | .inlineRecord id => some (id, .standard)
  | .fixedRecord id => some (id, .fixed)
  | .wrapped _ carrier kind => some (carrier, kind)
  | _ => none

/-- Records in the second layout have records in the first one standing in them, without a byte
before these. -/
def Below (c : Compiler) (inner outer : LayoutKey) : Prop :=
  ∃ l, c.answer outer = some l ∧ ∃ f ∈ l.fields, ∃ p, f.encoding = .placed p false ∧
    p.layout? = some inner

/-- The layouts that stand in others. -/
def Catalog.inner (c : Catalog) : Finset LayoutKey := everyLayout c (⟨0, 0⟩, .standard)

theorem Placement.mem_asks {p : Placement} {key : LayoutKey} (h : p.layout? = some key)
    (c : Catalog) : key ∈ p.asks c := by
  cases p <;> cases h <;> exact List.mem_singleton.mpr rfl

/-- What stands in a good layout is a layout of a declared schema. -/
theorem Compiler.Good.mem_inner {c : Compiler} (h : c.Good) {outer key : LayoutKey} {l : Layout}
    (hl : c.answer outer = some l) {f : BoundField} (hf : f ∈ l.fields) {p : Placement}
    {marker : Bool} (he : f.encoding = .placed p marker) (hkey : p.layout? = some key) :
    key ∈ c.catalog.inner := by
  obtain ⟨id, kind⟩ := outer
  obtain ⟨decl, hgood⟩ := (h.layouts id kind l hl).fields.declared hf
  have hbound : boundEncoding? c (c.catalog.schema id) kind decl = some (.placed p marker) := by
    rcases hgood.encoding with hsame | ⟨w, w', -, hforced⟩
    · rwa [he] at hsame
    · rw [he] at hforced
      cases hforced
  obtain ⟨hschema, hkind⟩ := h.asks (List.mem_of_getElem? hgood.declared) hbound key
    (Placement.mem_asks hkey c.catalog)
  refine mem_everyLayout.mpr (Or.inr (Or.inr ⟨hschema, ?_⟩))
  rcases hkind with ⟨hfixed, -⟩ | ⟨hstandard, -⟩
  · exact Or.inr hfixed
  · exact Or.inl hstandard

/-- Nothing that has only finitely much in it stands in itself. -/
theorem Below.not_self {c : Compiler} {key : LayoutKey} (h : Acc (Below c) key) :
    ¬TransGen (Below c) key key :=
  not_rel_self_of_acc h.transGen

/-! ## Fields one by one -/

section

variable {form form' : Form} {w : Workspace} {slots : Nat → Value} {fields : List BoundField}
  {b : Bytes} {F : List ChunkId}

theorem FieldsForm.mem (h : FieldsForm form w slots fields b F) {f : BoundField}
    (hf : f ∈ fields) : ∃ b' F', Encodes form w slots f.encoding (slots f.slot) b' F' := by
  induction h with
  | nil => cases hf
  | cons first rest ih =>
    rcases List.mem_cons.mp hf with rfl | hmem
    · exact ⟨_, _, first⟩
    · exact ih hmem

/-- What holds for the parts holds for the row. -/
theorem FieldsForm.imp (h : FieldsForm form w slots fields b F)
    (hform : ∀ f ∈ fields, ∀ b' F', b'.Sublist b → F'.Sublist F →
      Encodes form w slots f.encoding (slots f.slot) b' F' →
      Encodes form' w slots f.encoding (slots f.slot) b' F') :
    FieldsForm form' w slots fields b F := by
  induction h with
  | nil => exact .nil
  | @cons f fields b c F G first rest ih =>
    refine .cons (hform f List.mem_cons_self _ _ (List.sublist_append_left _ _)
      (List.sublist_append_left _ _) first) (ih fun g hg b' F' hb hF => ?_)
    exact hform g (List.mem_cons_of_mem _ hg) b' F' (hb.trans (List.sublist_append_right _ _))
      (hF.trans (List.sublist_append_right _ _))

/-- If everything that stands in a record is well-founded, so is its layout. -/
theorem RecordForm.acc (hform : ∀ p v b F, form p v b F → ∀ key, p.layout? = some key →
    Acc (Below w.compiler) key) {key : LayoutKey} {r : Record}
    (h : RecordForm form w key r b F) : Acc (Below w.compiler) key := by
  obtain ⟨l, hl, hfields⟩ := h.fields
  refine ⟨_, fun inner hbelow => ?_⟩
  obtain ⟨l', hl', f, hf, p, he, hp⟩ := hbelow
  rw [hl] at hl'
  cases hl'
  obtain ⟨b', F', henc⟩ := hfields.mem hf
  rw [he] at henc
  cases henc with
  | plain hplaced => exact hform _ _ _ _ hplaced _ hp

end

/-- Layouts that have bytes do not stand inside themselves. -/
theorem Stands.acc {w : Workspace} {n : Nat} {p : Placement} {v : Value} {b : Bytes}
    {F : List ChunkId} (h : Stands w n p v b F) {key : LayoutKey} (hkey : p.layout? = some key) :
    Acc (Below w.compiler) key := by
  induction n generalizing p v b F key with
  | zero => exact h.elim
  | succ n ih =>
    have hrecord {key : LayoutKey} {r : Record} {b : Bytes} {F : List ChunkId}
        (hr : RecordForm (Stands w n) w key r b F) : Acc (Below w.compiler) key :=
      hr.acc fun _ _ _ _ hp _ hkey => ih hp hkey
    cases h with
    | inlineRecord hr => cases hkey; exact hrecord hr
    | fixedRecord hr => cases hkey; exact hrecord hr
    | wrapped hr => cases hkey; exact hrecord hr
    | _ => cases hkey

/-! ## Bytes and depth -/

/-- The number of bytes in some chunks, each counted as often as it is listed. -/
def ChunkStore.bytesIn (store : ChunkStore) (F : List ChunkId) : Nat :=
  (F.map fun c => ((store.content? c).getD []).length).sum

namespace Workspace

variable {w : Workspace}

/-- The bytes of a value and of its chunks. -/
def weight (w : Workspace) (b : Bytes) (F : List ChunkId) : Nat :=
  b.length + w.store.bytesIn F

/-- How deep values can go before the next byte. -/
def stride (w : Workspace) : Nat := w.catalog.inner.card + 3

/-- Layouts that are not among `keys` have this one standing in them. -/
def Room (w : Workspace) (keys : Finset LayoutKey) (key : LayoutKey) : Prop :=
  ∀ k ∈ w.catalog.inner, k ∉ keys → TransGen (Below w.compiler) key k

/-- How deep a value goes if only the layouts `keys` can stand in it before the next byte. -/
def depthIn (w : Workspace) (keys : Finset LayoutKey) (b : Bytes) (F : List ChunkId) : Nat :=
  w.weight b F * w.stride + keys.card + 1

theorem weight_sublist {b c : Bytes} {F G : List ChunkId} (hb : b.Sublist c)
    (hF : F.Sublist G) : w.weight b F ≤ w.weight c G :=
  Nat.add_le_add hb.length_le
    ((hF.map _).sum_le_sum fun _ _ => Nat.zero_le _)

theorem weight_chunk {chunk : ChunkId} {content b : Bytes} {F : List ChunkId}
    (hcontent : w.store.content? chunk = some content) :
    w.weight b (chunk :: F) = b.length + w.weight content F := by
  simp only [weight, ChunkStore.bytesIn, List.map_cons, List.sum_cons, hcontent, Option.getD_some]

/-- A byte pays for every layout that can stand in a value before the next one. -/
theorem depthIn_le {keys : Finset LayoutKey} {b c : Bytes} {F G : List ChunkId}
    (hlt : w.weight b F < w.weight c G) (hcard : keys.card ≤ w.catalog.inner.card + 1) :
    w.depthIn keys b F ≤ w.weight c G * w.stride := by
  have hstep : (w.weight b F + 1) * w.stride ≤ w.weight c G * w.stride :=
    Nat.mul_le_mul_right _ hlt
  have hstride : w.stride = w.catalog.inner.card + 3 := rfl
  rw [Nat.add_mul, Nat.one_mul] at hstep
  rw [depthIn]
  omega

theorem room_inner (w : Workspace) (key : LayoutKey) : w.Room w.catalog.inner key :=
  fun _ hk hnot => absurd hk hnot

/-- What stands in a record has more layouts around it. -/
theorem Room.below {keys : Finset LayoutKey} {inner outer : LayoutKey} (h : w.Room keys outer)
    (hbelow : Below w.compiler inner outer) : w.Room (keys.erase outer) inner := by
  intro k hk hnot
  by_cases heq : k = outer
  · rw [heq]
    exact .single hbelow
  · exact .head hbelow (h k hk fun hmem => hnot (Finset.mem_erase.mpr ⟨heq, hmem⟩))

/-- There is room for every layout that does not stand in itself. -/
theorem Room.mem {keys : Finset LayoutKey} {key : LayoutKey} (h : w.Room keys key)
    (hkey : key ∈ w.catalog.inner) (hacc : Acc (Below w.compiler) key) : key ∈ keys := by
  by_contra hnot
  exact Below.not_self hacc (h key hkey hnot)

end Workspace

/-- Values with only so many layouts standing in each other go no deeper than these and their bytes
let them. -/
def Shallow (w : Workspace) (n : Nat) : Prop :=
  ∀ keys p v b F, Stands w n p v b F →
    (∀ key, p.layout? = some key → key ∈ keys ∧ w.Room keys key) →
      Stands w (w.depthIn keys b F) p v b F

section

variable {w : Workspace} {n : Nat} {key : LayoutKey} {r : Record} {b c : Bytes}
  {F G : List ChunkId}

theorem RecordForm.mono (hs : w.Sound) {m : Nat} (hle : n ≤ m)
    (h : RecordForm (Stands w n) w key r b F) : RecordForm (Stands w m) w key r b F :=
  h.transfer hs (.refl w) fun _ _ _ _ _ hp => hp.mono hs hle

theorem Encodes.mono (hs : w.Sound) {m : Nat} (hle : n ≤ m) {slots : Nat → Value} {e : Encoding}
    {v : Value} (h : Encodes (Stands w n) w slots e v b F) :
    Encodes (Stands w m) w slots e v b F :=
  h.transfer hs (.refl w) (fun _ _ _ hp => hp.mono hs hle) fun _ _ => rfl

/-- A field of a record whose values go no deeper than they need to. -/
theorem Encodes.shallow_of (hs : w.Sound) (hin : Shallow w n) {keys : Finset LayoutKey}
    (hroom : ∀ inner, Below w.compiler inner key → w.Room keys inner) {l : Layout}
    (hl : w.compiler.answer key = some l) {f : BoundField} (hf : f ∈ l.fields)
    {slots : Nat → Value} {v : Value} {b' : Bytes} {F' : List ChunkId}
    (h : Encodes (Stands w n) w slots f.encoding v b' F') (hb : b'.Sublist b)
    (hF : F'.Sublist F) :
    Encodes (Stands w (w.depthIn keys b F)) w slots f.encoding v b' F' := by
  have hinner {p : Placement} {marker : Bool} {k : LayoutKey} (he : f.encoding = .placed p marker)
      (hk : p.layout? = some k) : k ∈ w.catalog.inner := hs.compiler.good.mem_inner hl hf he hk
  have hweight := Workspace.weight_sublist (w := w) hb hF
  generalize he : f.encoding = e at h ⊢
  cases h with
  | scalar s => exact .scalar s
  | ordinal width => exact .ordinal width
  | sized hwidth hfit => exact .sized hwidth hfit
  | forced hfit => exact .forced hfit
  | varint n => exact .varint n
  | array hcount hkind => exact .array hcount hkind
  | absent hset => exact .absent hset
  | @present p v b'' _ hplaced =>
    -- the marker is a byte of the value's own
    have hin' := hin w.catalog.inner p v b'' F' hplaced fun k hk =>
      ⟨hinner he hk, w.room_inner k⟩
    have hlt : w.weight b'' F' < w.weight b F :=
      Nat.lt_of_lt_of_le (Nat.add_lt_add_right (Nat.lt_succ_self _) _) hweight
    refine .present (hin'.mono hs ((Workspace.depthIn_le hlt (Nat.le_succ _)).trans ?_))
    exact Nat.le_add_right _ (keys.card + 1)
  | @plain p v _ _ hplaced =>
    have hin' := hin keys p v b' F' hplaced fun k hk => by
      have hk' := hroom k ⟨l, hl, f, hf, p, he, hk⟩
      exact ⟨hk'.mem (hinner he hk) (hplaced.acc hk), hk'⟩
    exact .plain (hin'.mono hs
      (Nat.add_le_add_right (Nat.add_le_add_right (Nat.mul_le_mul_right _ hweight) _) _))

/-- A record whose values go no deeper than they need to. -/
theorem RecordForm.shallow_of (hs : w.Sound) (hin : Shallow w n) {keys : Finset LayoutKey}
    (hroom : ∀ inner, Below w.compiler inner key → w.Room keys inner)
    (h : RecordForm (Stands w n) w key r b F) :
    RecordForm (Stands w (w.depthIn keys b F)) w key r b F := by
  obtain ⟨l, hl, hfields⟩ := h.fields
  exact ⟨h.schema, h.slots, h.chunks, l, hl,
    hfields.imp fun f hf _ _ hb hF hfield => hfield.shallow_of hs hin hroom hl hf hb hF⟩

/-- A record after a byte of its own. -/
theorem RecordForm.shallow_after (hs : w.Sound) (hin : Shallow w n)
    (h : RecordForm (Stands w n) w key r b F) (hlt : w.weight b F < w.weight c G) (m : Nat) :
    RecordForm (Stands w (w.weight c G * w.stride + m)) w key r b F := by
  refine (h.shallow_of hs hin fun inner _ => w.room_inner inner).mono hs ?_
  exact (Workspace.depthIn_le hlt (Nat.le_succ _)).trans (Nat.le_add_right _ m)

/-- A value after a byte of its own. -/
theorem Stands.shallow_after (hs : w.Sound) (hin : Shallow w n) {p : Placement} {v : Value}
    (h : Stands w n p v b F) (hlt : w.weight b F < w.weight c G) (m : Nat) :
    Stands w (w.weight c G * w.stride + m) p v b F := by
  have hcard : (p.layout?.toFinset ∪ w.catalog.inner).card ≤ w.catalog.inner.card + 1 := by
    refine (Finset.card_union_le _ _).trans ?_
    rw [Nat.add_comm]
    refine Nat.add_le_add_left ?_ _
    cases p.layout? <;> simp
  refine (hin (p.layout?.toFinset ∪ w.catalog.inner) p v b F h fun k hk => ⟨?_, ?_⟩).mono hs ?_
  · exact Finset.mem_union_left _ (by simpa using hk)
  · exact fun k' hk' hnot => absurd (Finset.mem_union_right _ hk') hnot
  · exact (Workspace.depthIn_le hlt hcard).trans (Nat.le_add_right _ m)

end

theorem Varint.length_encode_pos (v : UInt64) : 0 < (Varint.encode v).length := by
  rw [Varint.encode, Varint.groups]
  split <;> exact Nat.succ_pos _

/-- The bytes of a value and of its chunks bound how deep it goes. -/
theorem Stands.shallow {w : Workspace} (hs : w.Sound) (n : Nat) : Shallow w n := by
  induction n with
  | zero => exact fun _ _ _ _ _ h => h.elim
  | succ n ih =>
    intro keys p v b F h hroom
    -- a record without a byte before it uses up its own layout
    have hrecord {key : LayoutKey} {r : Record} (hkey : p.layout? = some key)
        (hr : RecordForm (Stands w n) w key r b F) :
        RecordForm (Stands w (w.weight b F * w.stride + keys.card)) w key r b F := by
      obtain ⟨hmem, hk⟩ := hroom key hkey
      have hin := hr.shallow_of hs ih fun inner hbelow => hk.below hbelow
      have hcard := Finset.card_pos.mpr ⟨key, hmem⟩
      have hdepth : w.depthIn (keys.erase key) b F = w.weight b F * w.stride + keys.card := by
        rw [Workspace.depthIn, Finset.card_erase_of_mem hmem]
        omega
      rwa [hdepth] at hin
    -- bytes before those of a value count
    have hafter {c b' : Bytes} {F' : List ChunkId} (hc : 0 < c.length) :
        w.weight b' F' < w.weight (c ++ b') F' := by
      rw [Workspace.weight, Workspace.weight, List.length_append]
      omega
    have hbehind {c b' : Bytes} {chunk : ChunkId} {F' : List ChunkId} (hc : 0 < c.length)
        (hcontent : w.store.content? chunk = some b') :
        w.weight b' F' < w.weight c (chunk :: F') := by
      rw [Workspace.weight_chunk hcontent]
      omega
    have hid (chunk : ChunkId) : 0 < chunk.encode.length := by
      rw [ChunkId.encode, length_leBytes]
      decide
    have hframe (tag : Nat) (chunk : ChunkId) : 0 < (leBytes 4 tag ++ chunk.encode).length := by
      rw [List.length_append, length_leBytes]
      omega
    show Placed (Stands w (w.weight b F * w.stride + keys.card)) w p v b F
    cases h with
    | scalar s => exact .scalar s
    | noText => exact .noText
    | text hlen => exact .text hlen
    | inlineRecord hr => exact .inlineRecord (hrecord rfl hr)
    | fixedRecord hr => exact .fixedRecord (hrecord rfl hr)
    | wrapped hr => exact .wrapped (hrecord rfl hr)
    | noHandle => exact .noHandle
    | handle hchunk hfit => exact .handle hchunk hfit
    | noChoice => exact .noChoice
    | choice htag hr =>
      exact .choice htag (hr.shallow_after hs ih (hafter (Varint.length_encode_pos _)) _)
    | noOpen => exact .noOpen
    | typed htype hplace hp =>
      exact .typed htype hplace (hp.shallow_after hs ih (hafter (Varint.length_encode_pos _)) _)
    | noChunkText => exact .noChunkText
    | chunkText hcontent => exact .chunkText hcontent
    | noChunkRecord => exact .noChunkRecord
    | chunkRecord hcontent hr =>
      exact .chunkRecord hcontent (hr.shallow_after hs ih (hbehind (hid _) hcontent) _)
    | noChunkChoice => exact .noChunkChoice
    | chunkChoice htag hcontent hr =>
      exact .chunkChoice htag hcontent (hr.shallow_after hs ih (hbehind (hframe _ _) hcontent) _)
    | noChunkOpen => exact .noChunkOpen
    | chunkTyped htype hplace hcontent hp =>
      exact .chunkTyped htype hplace hcontent
        (hp.shallow_after hs ih (hbehind (hframe _ _) hcontent) _)

/-! ## Enough depth for readers -/

/-- Chunks hold no more than the store. -/
theorem ChunkStore.bytesIn_le {store : ChunkStore} (hs : store.Sound) {F : List ChunkId}
    (hF : F.Nodup) : store.bytesIn F ≤ store.totalBytes := by
  have hall : store.bytesIn store.live = store.totalBytes := by
    rw [bytesIn, totalBytes, live, List.map_map]
    refine congrArg List.sum (List.map_congr_left fun entry hentry => ?_)
    rw [Function.comp_apply, hs.content?_of_mem hentry, Option.getD_some]
  rw [← hall, bytesIn, bytesIn, ← List.sum_toFinset _ hF, ← List.sum_toFinset _ hs.nodup]
  refine Finset.sum_le_sum_of_ne_zero fun c _ hne => ?_
  rw [List.mem_toFinset, mem_live_iff]
  cases hc : store.content? c with
  | some content => rfl
  | none =>
    rw [hc] at hne
    exact absurd rfl hne

/-- How deep readers go with some bytes ahead of them. -/
def Workspace.readerDepth (w : Workspace) (remaining : Nat) : Nat :=
  (remaining + w.store.totalBytes + 1) * (8 * (w.catalog.size + 2))

theorem Workspace.depthIn_le_readerDepth {w : Workspace} (hs : w.Sound) {b : Bytes}
    {F : List ChunkId} (hF : F.Nodup) {remaining : Nat} (hb : b.length ≤ remaining) :
    w.depthIn w.catalog.inner b F ≤ w.readerDepth remaining := by
  have hcard : w.catalog.inner.card < 4 * w.catalog.size + 4 :=
    card_everyLayout w.catalog (⟨0, 0⟩, .standard)
  have hbytes := ChunkStore.bytesIn_le hs.store hF
  have hweight : w.weight b F ≤ remaining + w.store.totalBytes := Nat.add_le_add hb hbytes
  have hstride : w.stride ≤ 8 * (w.catalog.size + 2) := by
    rw [stride]
    omega
  have hmul := Nat.mul_le_mul hweight hstride
  rw [readerDepth, Nat.add_mul, Nat.one_mul, depthIn]
  omega

/-- A field of a record stands at the depth to which readers go. -/
theorem Encodes.shallow {w : Workspace} (hs : w.Sound) {n : Nat} {key : LayoutKey} {l : Layout}
    (hl : w.compiler.answer key = some l) {f : BoundField} (hf : f ∈ l.fields)
    {slots : Nat → Value} {v : Value} {b : Bytes} {F : List ChunkId} (hF : F.Nodup)
    {remaining : Nat} (hb : b.length ≤ remaining)
    (h : Encodes (Stands w n) w slots f.encoding v b F) :
    Encodes (Stands w (w.readerDepth remaining)) w slots f.encoding v b F :=
  (h.shallow_of hs (Stands.shallow hs n) (fun inner _ => w.room_inner inner) hl hf (.refl b)
    (.refl F)).mono hs (Workspace.depthIn_le_readerDepth hs hF hb)

/-- A record stands at the depth to which readers go. -/
theorem RecordForm.shallow {w : Workspace} (hs : w.Sound) {n : Nat} {key : LayoutKey} {r : Record}
    {b : Bytes} {F : List ChunkId} (hF : F.Nodup) {remaining : Nat} (hb : b.length ≤ remaining)
    (h : RecordForm (Stands w n) w key r b F) :
    RecordForm (Stands w (w.readerDepth remaining)) w key r b F :=
  (h.shallow_of hs (Stands.shallow hs n) fun inner _ => w.room_inner inner).mono hs
    (Workspace.depthIn_le_readerDepth hs hF hb)

end RecordLayout
