import Mathlib
import RecordLayout.Proofs.Codec.Tidy

/-!
# Chunks in use are stored in

A tidy value names no chunk besides those that it stands in: each chunk behind one of its slots is the
one that its bytes refer to. As a write names every chunk that it stores in, and names none twice, the
two lists are the same up to their order.

Main results:

* `Stands.length_companions_le` — values, by induction on how deep they are nested;
* `RecordForm.length_companions_le` — records;
* `RecordWritten.companions_perm` — records that have been written.
-/

namespace RecordLayout

/-- Tidy values name at most as many chunks as they are stored in. -/
def NamesAtMost (w : Workspace) (form : Form) : Prop :=
  ∀ (p : Placement) (slot : Slot) (b : Bytes) (F : List ChunkId), form p slot.value b F →
    slot.Tidy w.compiler p → slot.companions.length ≤ F.length

section

variable {w : Workspace} {form : Form} {r : Record} {b : Bytes} {F : List ChunkId}

theorem length_ownChunk_le (chunk : ChunkId) : (ownChunk chunk).length ≤ 1 := by
  rw [ownChunk]
  split
  · exact Nat.zero_le 1
  · exact Nat.le_refl 1

/-- There is no chunk behind a value that is kept in place, or is absent. -/
theorem Slot.Backed.ownChunk_eq_nil {p : Placement} {slot : Slot} (h : slot.Backed p)
    (hnone : p.isBehind = true → slot.value = .null) : ownChunk slot.chunk = [] := by
  rcases h with hnull | ⟨hbehind, hne⟩
  · rw [hnull]
    rfl
  · exact absurd (hnone hbehind) hne

/-! ## Fields -/

/-- One field of a record. -/
theorem Encodes.length_companions_le (hform : NamesAtMost w form) {f : BoundField}
    (h : Encodes form w r.slot f.encoding (r.slot f.slot) b F)
    (hallows : f.Allows (r.slotAt f.slot))
    (hplaced : ∀ p marker, f.encoding = .placed p marker → (r.slotAt f.slot).Tidy w.compiler p) :
    (r.slotAt f.slot).companions.length ≤ F.length := by
  cases he : f.encoding with
  | placed p marker =>
    rw [he] at h
    have htidy := hplaced p marker he
    generalize hv : r.slot f.slot = v at h
    cases h with
    | absent _ =>
      -- an absent value is backed by no chunk
      have hown : ownChunk (r.slotAt f.slot).chunk = [] := htidy.backed.ownChunk_eq_nil fun _ => hv
      rw [Slot.companions, hown, show (r.slotAt f.slot).value = .null from hv]
      exact Nat.le_refl 0
    | present hstands => exact hform p _ _ F (hv ▸ hstands) htidy
    | plain hstands => exact hform p _ _ F (hv ▸ hstands) htidy
  | _ =>
    -- whatever is not placed names no chunk
    have hplain (p : Placement) (marker : Bool) : f.encoding ≠ .placed p marker := by
      rw [he]
      intro heq
      cases heq
    rw [hallows.plain hplain]
    exact Nat.zero_le _

/-- Fields in a row. -/
theorem FieldsForm.length_companions_le (hform : NamesAtMost w form) {fields : List BoundField}
    (h : FieldsForm form w r.slot fields b F)
    (hallows : ∀ f ∈ fields, f.Allows (r.slotAt f.slot))
    (hplaced : ∀ f ∈ fields, ∀ p marker, f.encoding = .placed p marker →
      (r.slotAt f.slot).Tidy w.compiler p) :
    (fields.flatMap fun f => (r.slotAt f.slot).companions).length ≤ F.length := by
  induction h with
  | nil => exact Nat.le_refl 0
  | @cons f rest b c F G first _ ih =>
    rw [List.flatMap_cons, List.length_append, List.length_append]
    exact Nat.add_le_add
      (first.length_companions_le hform (hallows f List.mem_cons_self)
        (hplaced f List.mem_cons_self))
      (ih (fun g hg => hallows g (List.mem_cons_of_mem _ hg))
        fun g hg => hplaced g (List.mem_cons_of_mem _ hg))

/-! ## Records -/

/-- A tidy record names at most as many chunks as it is stored in. -/
theorem RecordForm.length_companions_le (hs : w.Sound) (hform : NamesAtMost w form) {l : Layout}
    {key : LayoutKey} (h : RecordForm form w key r b F) (hl : w.compiler.answer key = some l)
    (ht : r.Tidy w.compiler l) : r.companions.length ≤ F.length := by
  obtain ⟨l', hl', hfields⟩ := h.fields
  rw [hl] at hl'
  obtain rfl := Option.some.inj hl'
  have hgood := (hs.compiler.good.layouts key.1 key.2 l hl).fields
  rw [← h.schema] at hgood
  rw [← (companions_perm_fields hgood h.slots h.chunks).length_eq]
  exact hfields.length_companions_le hform ht.allows ht.placed

/-- The record inside a tidy value. -/
theorem RecordForm.length_inner_le (hs : w.Sound) (hform : NamesAtMost w form) {p : Placement}
    {v : Value} (ht : v.Tidy w.compiler p) {key : LayoutKey}
    (h : RecordForm form w key v.innerRecord b F) (hkey : p.innerKey? w.catalog v = some key) :
    v.innerRecord.companions.length ≤ F.length := by
  obtain ⟨l, hl, -⟩ := h.fields
  exact h.length_companions_le hs hform hl (ht.inner hkey hl)

/-! ## Values -/

/-- The record inside a value of open type stands as the placement of the type says. -/
theorem Stands.innerKey?_typed (hs : w.Sound) {n : Nat} {type : ValueType} {p : Placement}
    {v : Value} (hplace : w.compiler.placementAnswer (type.key, .flexible) = some p)
    (h : Stands w n p v b F) :
    p.innerKey? w.catalog v = Placement.inlineOpen.innerKey? w.catalog v := by
  cases n with
  | zero => exact h.elim
  | succ n =>
    have hp := hs.openPlacement hplace
    cases h with
    | fixedRecord _ => exact absurd hp.symm (Placement.flexible_ne_fixed _ _ _)
    | wrapped _ =>
      obtain ⟨rfl, rfl⟩ := Placement.flexible_wrapped hp
      rfl
    | chunkTyped _ _ _ _ => cases v <;> rfl
    | _ => rfl

/-- Values, by induction on how deep they are nested. A chunk behind a slot is the one that comes first
in the list of those that the value stands in. -/
theorem Stands.length_companions_le (hs : w.Sound) (n : Nat) : NamesAtMost w (Stands w n) := by
  induction n with
  | zero => exact fun _ _ _ _ h => h.elim
  | succ n ih =>
    rintro p ⟨v, chunk⟩ b F h ht
    have hinside := ht.inside
    have hown := length_ownChunk_le chunk
    -- a slot owns a chunk only if its value stands behind it
    have hnone (hnot : p.isBehind = true → v = .null) : ownChunk chunk = [] :=
      ht.backed.ownChunk_eq_nil hnot
    have hinline (hp : p.isBehind = false) : ownChunk chunk = [] :=
      hnone fun hbehind => absurd (hp.symm.trans hbehind) Bool.false_ne_true
    rw [Slot.companions, List.length_append]
    dsimp only at h hinside ⊢
    cases h with
    | inlineRecord hrecord =>
      rw [hinline rfl]
      exact (Nat.zero_add _).trans_le (hrecord.length_inner_le (v := .record _) hs ih hinside
        (congrArg (fun id => some (id, LayoutKind.standard)) hrecord.schema))
    | fixedRecord hrecord =>
      rw [hinline rfl]
      exact (Nat.zero_add _).trans_le (hrecord.length_inner_le (v := .record _) hs ih hinside
        (congrArg (fun id => some (id, LayoutKind.fixed)) hrecord.schema))
    | wrapped hrecord =>
      rw [hinline rfl]
      exact (Nat.zero_add _).trans_le (hrecord.length_inner_le (v := .wrapped _ _) hs ih hinside rfl)
    | choice _ hrecord =>
      rw [hinline rfl]
      exact (Nat.zero_add _).trans_le (hrecord.length_inner_le (v := .record _) hs ih hinside rfl)
    | typed _ hplace hplaced =>
      rw [hinline rfl]
      have hkey := hplaced.innerKey?_typed hs hplace
      exact (Nat.zero_add _).trans_le
        (ih _ ⟨v, .null⟩ _ _ hplaced ⟨.inl rfl, hinside.congr hkey⟩)
    | chunkText _ => exact hown
    | chunkRecord _ hrecord =>
      have hrest := hrecord.length_inner_le (v := .record _) hs ih hinside
        (congrArg (fun id => some (id, LayoutKind.standard)) hrecord.schema)
      rw [List.length_cons, Nat.add_comm]
      exact Nat.add_le_add hrest hown
    | chunkChoice _ _ hrecord =>
      have hrest := hrecord.length_inner_le (v := .record _) hs ih hinside rfl
      rw [List.length_cons, Nat.add_comm]
      exact Nat.add_le_add hrest hown
    | chunkTyped _ hplace _ hplaced =>
      have hkey := hplaced.innerKey?_typed hs hplace
      have hopen : Placement.inlineOpen.innerKey? w.catalog v =
          Placement.chunkOpen.innerKey? w.catalog v := by cases v <;> rfl
      have hrest := ih _ ⟨v, .null⟩ _ _ hplaced ⟨.inl rfl, hinside.congr (hkey.trans hopen)⟩
      rw [List.length_cons, Nat.add_comm]
      exact Nat.add_le_add hrest hown
    | _ =>
      rw [hnone fun hbehind => by first | rfl | cases hbehind]
      exact Nat.le_refl 0

end

/-- A write of a record all of whose chunks are in use leaves it naming the chunks that it is stored
in, and no others. -/
theorem RecordWritten.companions_perm {n : Nat} {l : Layout} {s s' : Scene Record} {b : Bytes}
    {F : List ChunkId} (h : RecordWritten n l.key s s' b F) (hl : s'.space.Knows l)
    (ht : s'.subject.Tidy s'.space.compiler l) : F.Perm s'.subject.companions :=
  (List.subperm_of_subset h.laid.nodup h.laid.sub).perm_of_length_le
    (h.form.length_companions_le h.laid.sound (Stands.length_companions_le h.laid.sound n) hl ht)

end RecordLayout
