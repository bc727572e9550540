import Mathlib
import RecordLayout.Proofs.Codec.Read
import RecordLayout.Proofs.Codec.Write
import RecordLayout.Proofs.Format.Depth
import RecordLayout.Proofs.Format.Readable

/-!
# Reading what was written

A record that has been written reads back: over its bytes, with anything after them, a new record of
the same content is read, and no byte more.

Main results:

* `RecordForm.parses_ahead` — what a record is read as where it stands;
* `Workspace.sound_fresh`, `SpaceM.layout_sound` — workspaces that operations start from;
* `readNew_writeRecord` — a record that has just been written.
-/

namespace RecordLayout

/-! ## Sound workspaces -/

/-- A workspace in which nothing has been done with the types that are declared. -/
def Workspace.fresh (catalog : Catalog) (config : Config) (refused : Option Nat) : Workspace :=
  { Workspace.new config refused with compiler := .ofCatalog catalog }

/-- Nothing has been compiled or stored yet. -/
theorem Workspace.sound_fresh {catalog : Catalog} (hc : catalog.Closed) (config : Config)
    (refused : Option Nat) : (Workspace.fresh catalog config refused).Sound :=
  ⟨Compiler.resting_ofCatalog hc, ChunkStore.sound_empty⟩

/-- Asking for a layout leads to a sound workspace that knows it. -/
theorem SpaceM.layout_sound {w w' : Workspace} {id : SchemaId} {kind : LayoutKind} {l : Layout}
    (hs : w.Sound) (h : SpaceM.layout id kind w = .ok l w') :
    w'.Sound ∧ w.Learns w' ∧ w'.Knows l := by
  obtain ⟨hs', hlearns, hknows, -⟩ := layout_knows hs id kind l w' h
  exact ⟨hs', hlearns, hknows⟩

/-! ## Reading back -/

/-- What a record is read as where it stands, with any bytes after it. -/
theorem RecordForm.parses_ahead {w : Workspace} (hs : w.Sound) (hfit : w.Fits) {n : Nat}
    {key : LayoutKey} {r : Record} {b : Bytes} {F : List ChunkId}
    (h : RecordForm (Stands w n) w key r b F) (hF : F.Nodup) {remaining : Nat}
    (hb : b.length ≤ remaining) : ∃ r',
      RecordParse (Parses w (w.readerDepth remaining)) w key r' b F ∧ r'.detached = r.detached :=
  (h.shallow hs hF hb).parses hs (Stands.parses hs hfit _)

/-! ## A record that has been written -/

/-- A record is at hand that can be written in a layout, and a stream to write it to. -/
structure Prepared (l : Layout) (s : Scene Record) : Prop where
  space : s.space.Sound
  layout : s.space.Knows l
  stream : s.stream.Writable
  subject : s.subject.Ready s.space.catalog

/-- The record has been written, and the build checks accept it as it is now. -/
structure Completed (l : Layout) (s s' : Scene Record) : Prop where
  run : writeRecord l s = .ok () s'
  accepted : s'.subject.Accepted s'.space.catalog
  fits : s'.space.Fits

/-- Over the bytes that have been written, with anything after them, a new record of the content of
the written one is read, and no byte more. -/
def RoundTrips (l : Layout) (s s' : Scene Record) : Prop :=
  ∃ b, s.stream.Puts b s'.stream ∧ ∀ suffix : Bytes, ∃ r t,
    readNew l (⟨s'.space, .ofBytes (b ++ suffix), ()⟩ : Scene Unit) = .ok r t ∧
      r.detached = s'.subject.detached ∧ t.stream = .memory (b ++ suffix) b.length

/-- What a write of a record has left behind reads back. -/
theorem RecordWritten.roundTrips {n : Nat} {l : Layout} {s s' : Scene Record} {b : Bytes}
    {F : List ChunkId} (h : RecordWritten n l.key s s' b F) (hl : s.space.Knows l)
    (haccepted : s'.subject.Accepted s'.space.catalog) (hfits : s'.space.Fits) :
    RoundTrips l s s' := by
  refine ⟨b, h.laid.puts, fun suffix => ?_⟩
  obtain ⟨r, hparse, hr⟩ := h.form.parses_ahead h.laid.sound hfits h.laid.nodup
    (ByteStream.shows_ofBytes b suffix).length_le
  obtain ⟨v, hrun, -, -⟩ := readNew_runs h.laid.sound (hl.mono h.laid.le) hparse
    (haccepted.built hr) (ByteStream.shows_ofBytes b suffix) (z := ()) s'.space (.refl h.laid.sound)
  exact ⟨r, _, hrun, hr, ByteStream.ahead_ofBytes _ _⟩

/-- A record whose chunks are its own reads back after it has been written. -/
theorem readNew_writeRecord {l : Layout} {s s' : Scene Record} (hs : Prepared l s)
    (hown : Owns s.space s.subject.companions) (h : Completed l s s') : RoundTrips l s s' := by
  obtain ⟨n, b, F, hwritten⟩ := writeRecord_written h.run hs.space hs.stream hs.layout hs.subject hown
  exact hwritten.roundTrips hs.layout h.accepted h.fits

/-! ## Runs on fixed inputs -/

/-- The state that a run leaves behind. Only the kernel works it out. -/
@[irreducible]
def after {ε σ α : Type} (act : EStateM ε σ α) (s : σ) : σ := (outcome act s).2

/-- The result of a run, if it does not fail. Only the kernel works it out. -/
@[irreducible]
def answer? {ε σ α : Type} (act : EStateM ε σ α) (s : σ) : Option α := (outcome act s).1.toOption

theorem answer?_of_ok {ε σ α : Type} {act : EStateM ε σ α} {s t : σ} {a : α}
    (h : act s = .ok a t) : answer? act s = some a := by
  rw [answer?, outcome, h]
  rfl

theorem runs_to_after {ε σ α : Type} {act : EStateM ε σ α} {s : σ}
    (h : (answer? act s).isSome = true) : ∃ a, act s = .ok a (after act s) ∧
      answer? act s = some a := by
  rw [answer?, outcome] at h
  rw [after, outcome]
  cases hrun : act s with
  | ok a t => exact ⟨a, rfl, answer?_of_ok hrun⟩
  | error e t =>
    rw [hrun] at h
    cases h

theorem fails_to_after {ε σ α : Type} {act : EStateM ε σ α} {s : σ}
    (h : (answer? act s).isNone = true) : ∃ e, act s = .error e (after act s) := by
  rw [answer?, outcome] at h
  rw [after, outcome]
  cases hrun : act s with
  | ok a t =>
    rw [hrun] at h
    cases h
  | error e t => exact ⟨e, rfl⟩

/-- Texts are their own content. -/
theorem RecordOf.texts_congr {slots slots' : List Value}
    (h : slots.map Value.detached = slots'.map Value.detached) :
    slots.map Value.text? = slots'.map Value.text? := by
  have htext (v : Value) : v.detached.text? = v.text? := by cases v <;> rfl
  have hboth := congrArg (List.map Value.text?) h
  simpa only [List.map_map, Function.comp_def, htext] using hboth

/-- A schema without a build check accepts every record of texts that may be absent. -/
theorem RecordOf.accepted_of_texts {cat : Catalog} {r : Record}
    (hkind : (cat.schema r.schema).isImmutable = false)
    (htexts : ∀ v ∈ r.slots, (v.isNull || (v.text?).isSome) = true) : r.Accepted cat := by
  refine RecordOf.accepted_iff.mpr ⟨fun slots' _ => ?_, fun v hv => ?_⟩
  · rw [Schema.checkBuild]
    rw [Schema.isImmutable] at hkind
    split at hkind
    · cases hkind
    · rfl
  · cases v with
    | null => trivial
    | text s => trivial
    | _ => cases htexts _ hv

/-- A record without scalars is well made if its values are. -/
theorem RecordOf.ready_of_no_scalars {cat : Catalog} {r : Record}
    (hslots : r.slots.length = (cat.schema r.schema).fields.length)
    (hchunks : r.chunks.length = r.slots.length)
    (hvalues : ∀ v ∈ r.slots, v.Ready cat ∧ ∀ x, v ≠ .scalar x) : r.Ready cat :=
  RecordOf.ready_iff.mpr ⟨hslots, hchunks,
    fun _ _ _ _ x hx => absurd rfl ((hvalues _ (List.mem_of_getElem? hx)).2 x),
    fun v hv => (hvalues v hv).1⟩

/-- Work on a record that succeeds and leaves texts, and room in the workspace. All of this can be
computed. -/
def Op.StoresTexts {α : Type} (act : Op Record α) (s : Scene Record) : Prop :=
  (answer? act s).isSome = true ∧
    ((after act s).space.catalog.schema (after act s).subject.schema).isImmutable = false ∧
    (∀ v ∈ (after act s).subject.slots, (v.isNull || (v.text?).isSome) = true) ∧
    (after act s).space.Roomy

instance {α : Type} (act : Op Record α) (s : Scene Record) : Decidable (act.StoresTexts s) :=
  inferInstanceAs (Decidable (_ ∧ _ ∧ _ ∧ _))

/-- What such work leaves is in order. -/
theorem Op.StoresTexts.accepted {α : Type} {act : Op Record α} {s : Scene Record}
    (h : act.StoresTexts s) : (after act s).subject.Accepted (after act s).space.catalog :=
  RecordOf.accepted_of_texts h.2.1 h.2.2.1

theorem Op.StoresTexts.fits {α : Type} {act : Op Record α} {s : Scene Record}
    (h : act.StoresTexts s) : (after act s).space.Fits :=
  h.2.2.2.fits

theorem Op.StoresTexts.run {act : Op Record Unit} {s : Scene Record} (h : act.StoresTexts s) :
    act s = .ok () (after act s) := by
  obtain ⟨u, hrun, -⟩ := runs_to_after h.1
  exact hrun

theorem Op.StoresTexts.completed {l : Layout} {s : Scene Record} (h : (writeRecord l).StoresTexts s) :
    Completed l s (after (writeRecord l) s) :=
  ⟨h.run, h.accepted, h.fits⟩

/-! ## Two texts -/

/-- A schema with two texts in slots of fixed width. -/
def twoTexts : Catalog :=
  ⟨[⟨⟨"Pair", .managed, [⟨"a", .value .text .fixed, false, [], none⟩,
    ⟨"b", .value .text .fixed, false, [], none⟩]⟩, true⟩], [], []⟩

/-- The question for its layout. -/
def askTwoTexts : SpaceM Layout := SpaceM.layout ⟨0, 0⟩ .standard

/-- Its layout. -/
def twoTextsLayout : Layout := (answer? askTwoTexts (.fresh twoTexts .standard none)).getD default

/-- Two texts that are to be written to an empty stream. The second one is backed by `chunk`. -/
def twoTextsScene (chunk : ChunkId) : Scene Record :=
  ⟨after askTwoTexts (.fresh twoTexts .standard none), .empty,
    ⟨⟨0, 0⟩, [.text "left", .text "right"], [.null, chunk]⟩⟩

/-- What is left after writing them. -/
def twoTextsWritten (chunk : ChunkId) : Scene Record :=
  after (writeRecord twoTextsLayout) (twoTextsScene chunk)

theorem twoTexts_closed : twoTexts.Closed := by decide

/-- The layout can be had, and both records can be written. The texts are read back as they were only
if the second slot names no chunk that is handed out to the first. -/
theorem twoTexts_runs : (answer? askTwoTexts (.fresh twoTexts .standard none)).isSome = true ∧
    (∀ chunk ∈ [ChunkId.null, ⟨1⟩],
      (writeRecord twoTextsLayout).StoresTexts (twoTextsScene chunk)) ∧
    (answer? (readNew twoTextsLayout) (⟨(twoTextsWritten ⟨1⟩).space,
      .ofBytes ((twoTextsWritten ⟨1⟩).stream.shown ++ []), ()⟩ : Scene Unit)).map
        (fun r => r.slots.map Value.text?) = some [some "right", some "right"] ∧
    (twoTextsWritten ⟨1⟩).subject.slots.map Value.text? = [some "left", some "right"] := by
  decide +kernel

theorem twoTexts_prepared (chunk : ChunkId) : Prepared twoTextsLayout (twoTextsScene chunk) := by
  obtain ⟨l, hask, hl⟩ := runs_to_after twoTexts_runs.1
  have hlayout : twoTextsLayout = l := by rw [twoTextsLayout, hl, Option.getD_some]
  obtain ⟨hs, hlearns, hknows⟩ :=
    SpaceM.layout_sound (Workspace.sound_fresh twoTexts_closed _ _) hask
  have hcatalog : (twoTextsScene chunk).space.catalog = twoTexts := hlearns.catalog
  refine ⟨hs, by rw [hlayout]; exact hknows, ⟨trivial, Nat.le_refl _⟩, ?_⟩
  rw [hcatalog]
  refine RecordOf.ready_of_no_scalars rfl rfl fun v hv => ?_
  rcases List.mem_cons.mp hv with rfl | hmem
  · refine ⟨?_, fun _ => nofun⟩
    show (Utf8.encode "left").length + 1 < 2 ^ 64
    decide
  · rw [List.mem_singleton.mp hmem]
    refine ⟨?_, fun _ => nofun⟩
    show (Utf8.encode "right").length + 1 < 2 ^ 64
    decide

theorem twoTexts_completed {chunk : ChunkId} (h : chunk = .null ∨ chunk = ⟨1⟩) :
    Completed twoTextsLayout (twoTextsScene chunk) (twoTextsWritten chunk) := by
  have hmem : chunk ∈ [ChunkId.null, ⟨1⟩] := by rcases h with rfl | rfl <;> simp
  exact (twoTexts_runs.2.1 chunk hmem).completed

theorem readNew_writeRecord_two_texts :
    Prepared twoTextsLayout (twoTextsScene .null) ∧
      RoundTrips twoTextsLayout (twoTextsScene .null) (twoTextsWritten .null) := by
  have hown : Owns (twoTextsScene .null).space (twoTextsScene .null).subject.companions :=
    ⟨List.nodup_nil, fun c hc => nomatch hc⟩
  exact ⟨twoTexts_prepared .null, readNew_writeRecord (twoTexts_prepared .null) hown
    (twoTexts_completed (Or.inl rfl))⟩

/-- A chunk behind a slot that the store has not handed out yet is handed out to another slot in the
course of the write, and then overwritten. So it is not enough that chunks are distinct. -/
theorem readNew_writeRecord_not_of_nodup :
    ¬∀ (l : Layout) (s s' : Scene Record), Prepared l s → s.subject.companions.Nodup →
      Completed l s s' → RoundTrips l s s' := by
  intro hall
  obtain ⟨b, hputs, hread⟩ := hall _ _ _ (twoTexts_prepared ⟨1⟩) (List.nodup_singleton _)
    (twoTexts_completed (Or.inr rfl))
  obtain ⟨r, t, hrun, hr, -⟩ := hread []
  have hb : b = (twoTextsWritten ⟨1⟩).stream.shown := by
    rw [hputs.shown]
    exact (spliced_length [] b).symm
  rw [hb] at hrun
  obtain ⟨-, -, hgot, hwritten⟩ := twoTexts_runs
  rw [answer?_of_ok hrun, Option.map_some, Option.some.injEq,
    RecordOf.texts_congr (RecordOf.detached_eq_iff.mp hr).2.1, hwritten] at hgot
  exact absurd hgot (by decide)

end RecordLayout
