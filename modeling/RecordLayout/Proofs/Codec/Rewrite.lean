import Mathlib
import RecordLayout.Proofs.Codec.Collect
import RecordLayout.Proofs.Codec.CountedWrite
import RecordLayout.Proofs.Codec.Exact
import RecordLayout.Proofs.Codec.Replace
import RecordLayout.Proofs.Codec.RoundTrip

/-!
# Rewriting in place

A record is written over and over to the same place, and slots are replaced between the writes. Chunks
that are in use are written over, and what a replaced value named stays behind for the caller to collect
beforehand. So of the chunks that the run has made, those that a walk over the latest bytes does not
find are those that the replaced values named, and no others.

Main results:

* `RecordWritten.collects` — a walk over what has just been written;
* `Accounted.written` — what a step writes, and in which chunks;
* `Accounted.step`, `Rewritten.accounted` — the account of the chunks, for one step and for a run;
* `collectRecord_rewritten` — what is found after every step of a run.
-/

namespace RecordLayout

open ChunkStore

/-! ## Walking over what has been written -/

/-- The bytes that have been put into a stream stand where they were put. -/
theorem ByteStream.Puts.shows {s s' : ByteStream} {b : Bytes} (h : s.Puts b s') :
    (s'.setPosition s.position).Shows b := by
  refine ⟨coherent_setPosition h.coherent _, ?_⟩
  rw [shown_setPosition, position_setPosition, h.shown, spliced, List.append_assoc, List.drop_left']
  · exact List.prefix_append _ _
  · rw [List.length_append, List.length_take, List.length_replicate]
    omega

/-- A walk over what has just been written finds the chunks that it was stored in. -/
theorem RecordWritten.collects {n : Nat} {l : Layout} {s s' : Scene Record} {b : Bytes}
    {F : List ChunkId} (h : RecordWritten n l.key s s' b F) (hl : s'.space.Knows l)
    (hw : s'.space.Walkable) (hfit : s'.space.Fits) (hfree : s'.subject.HandleFree)
    (hlt : s'.stream.shown.length < 2 ^ 64) {clear : Bool}
    (hclear : clear = true → s'.stream.Buffered) {τ : Type} (x : τ) :
    ∃ t, collectRecord clear l ⟨s'.space, s'.stream.setPosition s.stream.position, x⟩ = .ok F t := by
  have hshows := h.laid.puts.shows
  obtain ⟨r, hparse, hr⟩ := h.form.parses_ahead hw.sound hfit h.laid.nodup hshows.length_le
  have hroom := hshows.length_le
  rw [ByteStream.remaining_shown hshows.coherent, ByteStream.shown_setPosition] at hroom
  obtain ⟨t, hruns, -⟩ := collectRecord_runs (x := x) hw hl hparse
    (RecordOf.handleFree_of_detached hfree hr) hshows (by omega)
    fun hyes => (ByteStream.staysOn_setPosition _ _).buffered (hclear hyes)
  obtain ⟨v, hrun, -, -⟩ := hruns s'.space (.refl hw.sound)
  exact ⟨_, hrun⟩

/-! ## Runs -/

/-- A record without handles and without chunks is at hand, and a place to write it to. -/
structure Blank (l : Layout) (s : Scene Record) : Prop where
  space : s.space.Sound
  layout : s.space.Knows l
  stream : s.stream.Writable
  unnamed : s.subject.companions = []
  free : s.subject.HandleFree

/-- Slots have been replaced, and the record has been written at a position. The chunks in `gone` are
those that the replaced values named. -/
structure Rewrites (l : Layout) (position : Nat) (t : Scene Record) (r : Record)
    (gone : List ChunkId) (t' : Scene Record) : Prop where
  edited : t.subject.Edited r gone
  /-- The record is well made if its numbers are read as counts. -/
  ready : (r.counted t.space.catalog).Ready t.space.catalog
  run : writeRecord l ⟨t.space, t.stream.setPosition position, r⟩ = .ok () t'

/-- Runs that write a record over and over to the place where the stream of `s` stands, with slots
replaced before each write. The chunks in `lost` are those that the replaced values named. -/
inductive Rewritten (l : Layout) (s : Scene Record) : Scene Record → List ChunkId → Prop
  | start : Rewritten l s s []
  | step {t t' : Scene Record} {r : Record} {lost gone : List ChunkId} (h : Rewritten l s t lost)
    (hstep : Rewrites l s.stream.position t r gone t') : Rewritten l s t' (lost ++ gone)

/-- Every chunk that has been made since `s` is named by the record or has been lost, and is so once. -/
structure Accounted (l : Layout) (s t : Scene Record) (lost : List ChunkId) : Prop where
  sound : t.space.Sound
  knows : t.space.Knows l
  writable : (t.stream.setPosition s.stream.position).Writable
  tidy : t.subject.Tidy t.space.compiler l
  free : t.subject.HandleFree
  writes : ∃ owned, Writes owned s.space.store t.space.store
  account : (t.subject.companions ++ lost).Perm (handedOut s.space.store t.space.store)

section

variable {l : Layout} {s t t' : Scene Record} {r : Record} {lost gone : List ChunkId}

theorem Blank.accounted (h : Blank l s) : Accounted l s s [] := by
  refine ⟨h.space, h.layout, ?_, .bare h.unnamed, h.free, ⟨[], .refl _ _⟩, ?_⟩
  · rw [ByteStream.setPosition_position]
    exact h.stream
  · rw [h.unnamed, handedOut, Nat.sub_self]
    exact .refl _

/-- What the record names after replacements is its own. -/
theorem Accounted.owns (h : Accounted l s t lost) (hedit : t.subject.Edited r gone) :
    Owns t.space r.companions ∧ r.companions ⊆ t.space.store.live := by
  obtain ⟨owned, hwrites⟩ := h.writes
  have hperm := (hedit.companions_perm.append_right lost).symm.trans h.account
  have hsub : r.companions ⊆ handedOut s.space.store t.space.store := fun x hx =>
    hperm.subset (List.mem_append_left _ (List.mem_append_left _ hx))
  refine ⟨⟨?_, fun x hx => (mem_handedOut.mp (hsub hx)).2⟩, fun x hx => ?_⟩
  · have hnodup := hperm.nodup_iff.mpr (nodup_handedOut _ _)
    exact (List.nodup_append'.mp (List.nodup_append'.mp hnodup).1).1
  · rw [hwrites.live]
    exact List.mem_append_right _ (hsub hx)

/-- What a step writes: the bytes are those of the counted copy, and they are stored in the chunks that
the record names. -/
structure StepWritten (l : Layout) (position : Nat) (t : Scene Record) (r : Record)
    (t' : Scene Record) (n : Nat) (b : Bytes) (F : List ChunkId) : Prop where
  written : RecordWritten n l.key
    ⟨t.space, t.stream.setPosition position, r.counted t.space.catalog⟩
    (t'.image (RecordOf.counted t.space.catalog)) b F
  laid : Laid t.space (t.stream.setPosition position) t'.space t'.stream r.companions
    t'.subject.companions b F
  kept : RecordKept l ⟨t.space, t.stream.setPosition position, r⟩ t'
  names : F.Perm t'.subject.companions

theorem Accounted.written (h : Accounted l s t lost)
    (hstep : Rewrites l s.stream.position t r gone t') :
    ∃ n b F, StepWritten l s.stream.position t r t' n b F := by
  obtain ⟨hown, hlive⟩ := h.owns hstep.edited
  have hcopy := writeRecord_counted hstep.run h.sound h.knows
  obtain ⟨n, b, F, hwritten⟩ := writeRecord_written hcopy h.sound h.writable h.knows hstep.ready
    (by rw [RecordOf.companions_counted]; exact hown)
  have hkept := writeRecord_kept hstep.run h.sound h.knows (hstep.edited.tidy h.tidy) hlive
  have hlaid : Laid t.space (t.stream.setPosition s.stream.position) t'.space t'.stream
      (r.counted t.space.catalog).companions (t'.subject.counted t.space.catalog).companions b F :=
    hwritten.laid
  have hnames : F.Perm (t'.subject.counted t.space.catalog).companions :=
    hwritten.companions_perm (h.knows.mono hlaid.le) hkept.tidy.counted
  rw [RecordOf.companions_counted] at hnames
  rw [RecordOf.companions_counted, RecordOf.companions_counted] at hlaid
  exact ⟨n, b, F, hwritten, hlaid, hkept, hnames⟩

/-- The account holds after a step. -/
theorem Accounted.step (h : Accounted l s t lost)
    (hstep : Rewrites l s.stream.position t r gone t') : Accounted l s t' (lost ++ gone) := by
  have hedit := hstep.edited
  obtain ⟨hown, -⟩ := h.owns hedit
  obtain ⟨n, b, F, -, hlaid, hkept, -⟩ := h.written hstep
  obtain ⟨owned, hwrites⟩ := h.writes
  have hall := hwrites.trans hlaid.writes
  -- the chunks after the write are those before it and those that it has made
  have hnew : t'.subject.companions.Perm
      (r.companions ++ handedOut t.space.store t'.space.store) := by
    refine (List.perm_ext_iff_of_nodup hlaid.kept_nodup ?_).mpr fun x =>
      ⟨fun hx => hlaid.kept_sub hx, ?_⟩
    · refine List.nodup_append'.mpr ⟨hown.nodup, nodup_handedOut _ _, fun x hx hx' => ?_⟩
      exact absurd (hown.known x hx) (Nat.not_lt.mpr (mem_handedOut.mp hx').1)
    · intro hx
      rcases List.mem_append.mp hx with hold | hnew
      · exact hkept.names hold
      · exact hlaid.sub (hlaid.fresh hnew)
  have hsplit : handedOut s.space.store t'.space.store =
      handedOut s.space.store t.space.store ++ handedOut t.space.store t'.space.store := by
    have hboth := hall.live
    rw [hlaid.writes.live, hwrites.live, List.append_assoc] at hboth
    exact (List.append_cancel_left hboth).symm
  refine ⟨hlaid.sound, h.knows.mono hlaid.le, ?_, hkept.tidy,
    hkept.free (hedit.handleFree h.free), ⟨_, hall⟩, ?_⟩
  · have hputs := hlaid.puts
    refine ⟨ByteStream.coherent_setPosition hputs.coherent _, ?_⟩
    have hend := hputs.writable.inside
    rw [hputs.position] at hend
    rw [ByteStream.position_setPosition] at hend ⊢
    rw [ByteStream.shown_setPosition]
    omega
  · rw [hsplit]
    have hbefore := (hedit.companions_perm.append_right lost).symm.trans h.account
    refine (hnew.append_right _).trans (.trans ?_ (hbefore.append_right _))
    rw [List.append_assoc, List.append_assoc, List.append_assoc]
    refine .append_left _ (List.perm_append_comm.trans ?_)
    rw [← List.append_assoc]
    exact List.perm_append_comm.append_right _

/-- What has been made since `s` and is still live, is named or has been lost. -/
theorem Accounted.mem_iff (h : Accounted l s t lost) (hs : s.space.store.Sound) {c : ChunkId} :
    c ∈ t.subject.companions ++ lost ↔ c ∈ t.space.store.live ∧ c ∉ s.space.store.live := by
  obtain ⟨owned, hwrites⟩ := h.writes
  rw [h.account.mem_iff, hwrites.live, List.mem_append]
  constructor
  · intro hnew
    refine ⟨.inr hnew, fun hold => ?_⟩
    have hlt := (hs.bounds c hold).2
    have hge := (mem_handedOut.mp hnew).1
    omega
  · rintro ⟨hold | hnew, hnot⟩
    · exact absurd hold hnot
    · exact hnew

/-- By induction on the run. -/
theorem Rewritten.accounted (h : Rewritten l s t lost) (hs : Blank l s) :
    Accounted l s t lost := by
  induction h with
  | start => exact hs.accounted
  | step _ hstep ih => exact ih.step hstep

/-! ## What is found after every step -/

/-- What has been stored can be walked over. -/
structure Searchable (clear : Bool) (t : Scene Record) : Prop where
  space : t.space.Walkable
  fits : t.space.Fits
  short : t.stream.shown.length < 2 ^ 64
  buffered : clear = true → t.stream.Buffered

/-- A walk over the latest bytes finds chunks, each of them once, and the chunks that have been made
since `s` and are still live are those that it finds and those that have been lost. -/
def FindsAll (clear : Bool) (l : Layout) (s t : Scene Record) (lost : List ChunkId) : Prop :=
  ∃ found u, collectRecord clear l
      (⟨t.space, t.stream.setPosition s.stream.position, ()⟩ : Scene Unit) = .ok found u ∧
    (found ++ lost).Nodup ∧
      ∀ c, c ∈ found ++ lost ↔ c ∈ t.space.store.live ∧ c ∉ s.space.store.live

/-- After every step of a run, the chunks that it has made and that are still live are those that a walk
over the latest bytes finds and those that the replaced values named. -/
theorem collectRecord_rewritten (hs : Blank l s) (hrun : Rewritten l s t lost)
    (hstep : Rewrites l s.stream.position t r gone t') {clear : Bool}
    (hsearch : Searchable clear t') : FindsAll clear l s t' (lost ++ gone) := by
  have hbefore := hrun.accounted hs
  have hafter := hbefore.step hstep
  obtain ⟨n, b, F, hwritten, -, -, hF⟩ := hbefore.written hstep
  obtain ⟨u, hcollect⟩ := hwritten.collects hafter.knows hsearch.space hsearch.fits
    (hafter.free.counted _) hsearch.short hsearch.buffered ()
  rw [ByteStream.position_setPosition] at hcollect
  have hall := hF.append_right (lost ++ gone)
  exact ⟨F, u, hcollect, (hall.trans hafter.account).nodup_iff.mpr (nodup_handedOut _ _), fun c =>
    hall.mem_iff.trans (hafter.mem_iff hs.space.store)⟩

end

/-! ## A text inside a record that is replaced -/

/-- A schema with a record inline, in which a text stands in a slot of fixed width. -/
def boxedText : Catalog :=
  ⟨[⟨⟨"Inner", .managed, [⟨"t", .value .text .fixed, false, [], none⟩]⟩, true⟩,
    ⟨⟨"Outer", .managed, [⟨"a", .value (.record ⟨0, 0⟩) .flexible, false, [], none⟩]⟩, true⟩],
    [], []⟩

/-- The question for its layout. -/
def askBoxedText : SpaceM Layout := SpaceM.layout ⟨1, 0⟩ .standard

/-- Its layout. -/
def boxedTextLayout : Layout :=
  (answer? askBoxedText (.fresh boxedText .standard none)).getD default

/-- A record with a text that has not been stored yet. -/
def innerText (text : String) : Value := .record ⟨⟨0, 0⟩, [.text text], [.null]⟩

/-- A record that is to be written to an empty stream. -/
def boxedTextScene : Scene Record :=
  ⟨after askBoxedText (.fresh boxedText .standard none), .empty,
    ⟨⟨1, 0⟩, [innerText "x"], [.null]⟩⟩

/-- What is left after writing it. -/
def boxedTextWritten : Scene Record := after (writeRecord boxedTextLayout) boxedTextScene

/-- The same record with another one inside. -/
def boxedTextReplaced : Record := boxedTextWritten.subject.setSlot 0 (innerText "y")

/-- The scene in which that is to be written to the same place. -/
def boxedTextAgain : Scene Record :=
  ⟨boxedTextWritten.space, boxedTextWritten.stream.setPosition 0, boxedTextReplaced⟩

/-- What is left after writing it. -/
def boxedTextRewritten : Scene Record := after (writeRecord boxedTextLayout) boxedTextAgain

theorem boxedText_closed : boxedText.Closed := by decide

/-- What the kernel works out. -/
theorem boxedText_runs :
    ((answer? askBoxedText (.fresh boxedText .standard none)).isSome = true ∧
      (answer? (writeRecord boxedTextLayout) boxedTextScene).isSome = true ∧
      (answer? (writeRecord boxedTextLayout) boxedTextAgain).isSome = true) ∧
    (boxedTextWritten.subject.schema = ⟨1, 0⟩ ∧ boxedTextWritten.subject.slots.length = 1 ∧
      boxedTextWritten.subject.chunks.length = 1) ∧
    (boxedTextRewritten.space.store.next ≤ 2 ^ 64 ∧ boxedTextRewritten.space.types.size < 2 ^ 32 ∧
      boxedTextRewritten.stream.shown.length < 2 ^ 64) ∧
    boxedTextRewritten.space.store.chunks = [(⟨1⟩, [120]), (⟨2⟩, [121])] ∧
    boxedTextRewritten.space.compiler.layouts.values.flatMap (·.fields.map (·.encoding)) =
      [.placed (.inlineRecord ⟨0, 0⟩) false, .placed .chunkText false] ∧
    answer? (collectRecord false boxedTextLayout) (⟨boxedTextRewritten.space,
      boxedTextRewritten.stream.setPosition 0, ()⟩ : Scene Unit) = some [⟨2⟩] := by
  decide +kernel

theorem boxedText_known : boxedTextScene.space.Sound ∧
    boxedTextScene.space.Knows boxedTextLayout ∧ boxedTextScene.space.catalog = boxedText ∧
      boxedTextScene.space.store.live = [] := by
  obtain ⟨l, hask, hl⟩ := runs_to_after boxedText_runs.1.1
  obtain ⟨hs, hlearns, hknows⟩ :=
    SpaceM.layout_sound (Workspace.sound_fresh boxedText_closed _ _) hask
  rw [boxedTextLayout, hl, Option.getD_some]
  exact ⟨hs, hknows, hlearns.catalog, congrArg (fun heap => heap.store.live) hlearns.heap⟩

theorem innerText_ready {text : String} (h : (Utf8.encode text).length + 1 < 2 ^ 64) :
    (innerText text).Ready boxedText ∧ ∀ x, innerText text ≠ .scalar x := by
  refine ⟨RecordOf.ready_of_no_scalars rfl rfl fun v hv => ?_, fun _ => nofun⟩
  rw [List.mem_singleton.mp hv]
  exact ⟨h, fun _ => nofun⟩

theorem boxedText_blank : Blank boxedTextLayout boxedTextScene :=
  ⟨boxedText_known.1, boxedText_known.2.1, ⟨trivial, Nat.le_refl _⟩, rfl,
    ⟨⟨trivial, trivial⟩, trivial⟩⟩

theorem boxedText_first :
    Rewrites boxedTextLayout 0 boxedTextScene boxedTextScene.subject [] boxedTextWritten := by
  refine ⟨.refl, ?_, ?_⟩
  · rw [boxedText_known.2.2.1]
    refine RecordOf.ready_of_no_scalars rfl rfl fun v hv => ?_
    rw [List.mem_singleton.mp hv]
    exact innerText_ready (by decide)
  · obtain ⟨_, hrun, -⟩ := runs_to_after boxedText_runs.1.2.1
    exact hrun

/-- What is known after the first write. -/
theorem boxedText_after_first :
    Accounted boxedTextLayout boxedTextScene boxedTextWritten ([] ++ []) ∧
      boxedTextWritten.space.catalog = boxedText := by
  obtain ⟨_, _, _, -, hlaid, -, -⟩ := boxedText_blank.accounted.written boxedText_first
  exact ⟨boxedText_blank.accounted.step boxedText_first,
    hlaid.le.catalog.trans boxedText_known.2.2.1⟩

/-- The text that was stored first is lost. -/
theorem boxedText_second : Rewrites boxedTextLayout 0 boxedTextWritten boxedTextReplaced
    (boxedTextWritten.subject.slot 0).companions boxedTextRewritten := by
  obtain ⟨hschema, hslots, hchunks⟩ := boxedText_runs.2.1
  -- the written record has one slot, which is the one replaced
  obtain ⟨v, hv⟩ := List.length_eq_one_iff.mp hslots
  refine ⟨.step .refl (.here (by omega) nofun rfl ⟨trivial, trivial⟩), ?_, ?_⟩
  · rw [boxedText_after_first.2]
    refine RecordOf.Ready.counted_ready (RecordOf.ready_of_no_scalars ?_ ?_ fun u hu => ?_)
    · show (boxedTextWritten.subject.slots.set 0 _).length =
        (boxedText.schema boxedTextWritten.subject.schema).fields.length
      rw [hschema, List.length_set, hslots]
      rfl
    · show boxedTextWritten.subject.chunks.length = (boxedTextWritten.subject.slots.set 0 _).length
      rw [List.length_set, hslots, hchunks]
    · have hset : boxedTextReplaced.slots = [innerText "y"] := by
        show boxedTextWritten.subject.slots.set 0 _ = _
        rw [hv, List.set_cons_zero]
      rw [hset] at hu
      rw [List.mem_singleton.mp hu]
      exact innerText_ready (by decide)
  · obtain ⟨_, hrun, -⟩ := runs_to_after boxedText_runs.1.2.2
    exact hrun

theorem boxedText_searchable : Searchable false boxedTextRewritten := by
  obtain ⟨-, -, ⟨hnext, htypes, hshort⟩, hchunks, hencodings, -⟩ := boxedText_runs
  obtain ⟨hfirst, hcat⟩ := boxedText_after_first
  obtain ⟨_, _, _, -, hlaid, -, -⟩ := hfirst.written boxedText_second
  have hcatalog := hlaid.le.catalog.trans hcat
  -- what remains is a check of the texts' catalog, of the two chunks and of the encodings that were
  -- compiled
  refine ⟨⟨hlaid.sound, ?_, fun chunk content hstored => ?_, fun key l f p marker hl hf he => ?_⟩,
    Workspace.Roomy.fits ⟨hnext, htypes, by rw [hcatalog]; rfl⟩, hshort, nofun⟩
  · rw [hcatalog]
    intro d hd
    rcases List.mem_cons.mp hd with rfl | hd
    · exact .inr rfl
    · rw [List.mem_singleton.mp hd]
      exact .inr rfl
  · obtain ⟨before, later, hsplit, -⟩ := List.lookup_eq_some_iff.mp hstored
    have hmem : (chunk, content) ∈ boxedTextRewritten.space.store.chunks := by
      rw [hsplit]
      exact List.mem_append_right _ List.mem_cons_self
    rw [hchunks, List.mem_cons, List.mem_singleton] at hmem
    rcases hmem with h | h <;> cases h <;> decide
  · -- no record is kept behind a reference
    have hmem : .placed p marker ∈ boxedTextRewritten.space.compiler.layouts.values.flatMap
        (·.fields.map (·.encoding)) :=
      List.mem_flatMap.mpr ⟨l, Compiler.mem_values_of_answer hl, List.mem_map.mpr ⟨f, hf, he⟩⟩
    rw [hencodings, List.mem_cons, List.mem_singleton] at hmem
    rcases hmem with h | h <;> cases h <;> exact fun id hid => nomatch hid

theorem collectRecord_rewritten_boxed_text : Blank boxedTextLayout boxedTextScene ∧
    FindsAll false boxedTextLayout boxedTextScene boxedTextRewritten
      (boxedTextWritten.subject.slot 0).companions :=
  ⟨boxedText_blank, collectRecord_rewritten boxedText_blank (.step .start boxedText_first)
    boxedText_second boxedText_searchable⟩

/-- The chunks of a value that is replaced stay in use, and no walk finds them any more. So not all
that a run has made is found. -/
theorem collectRecord_rewritten_not_of_lost :
    ¬∀ (l : Layout) (s t t' : Scene Record) (r : Record) (lost gone : List ChunkId) (clear : Bool),
      Blank l s → Rewritten l s t lost → Rewrites l s.stream.position t r gone t' →
        Searchable clear t' → FindsAll clear l s t' [] := by
  intro hall
  obtain ⟨found, u, hcollect, -, hlive⟩ := hall _ _ _ _ _ _ _ _ boxedText_blank
    (.step .start boxedText_first) boxedText_second boxedText_searchable
  obtain ⟨-, -, -, hchunks, -, hfound⟩ := boxedText_runs
  have hlost : ⟨1⟩ ∈ found ++ [] := (hlive ⟨1⟩).mpr ⟨?_, ?_⟩
  · rw [Option.some.inj ((answer?_of_ok hcollect).symm.trans hfound)] at hlost
    exact absurd hlost (by decide)
  · rw [live, hchunks]
    decide
  · rw [boxedText_known.2.2.2]
    exact List.not_mem_nil

end RecordLayout
