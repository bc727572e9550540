import Mathlib
import RecordLayout.Proofs.Codec.Advance
import RecordLayout.Proofs.Codec.Rollback

/-!
# The record behind a handle

A record behind a handle is replaced in place: its bytes go straight into the chunk of the handle, which
is cut to their length at the end. An attempt that fails half-way may therefore leave the chunk with
bytes of both records. But every attempt leaves a workspace in which the next one can do its work, and
one that succeeds makes up for all that went wrong before.

Main results:

* `storeUnmanaged_livesBehind`, `storeHandle_livesBehind` — the record is behind the handle;
* `Attempt.keeps` — it stays there until an attempt reaches its bytes;
* `loadHandle_lastStored` — what is loaded after any attempts.
-/

namespace RecordLayout

open ChunkStore Op

/-! ## Records behind handles -/

/-- The chunk of a handle holds the bytes of a record and no others, and what these refer to is kept in
chunks that the record names. -/
structure LivesBehind (w : Workspace) (h : Handle) (r : Record) : Prop where
  stands : ∃ n b F, w.store.content? h.chunk = some b ∧
    RecordForm (Stands w n) w (h.schema, .standard) r b F ∧ F.Nodup ∧ F ⊆ r.companions
  accepted : r.Accepted w.catalog

namespace LivesBehind

variable {w w' : Workspace} {h : Handle} {r : Record}

/-- The record stays as long as the chunks are left as they are that hold it. -/
theorem stable (hr : LivesBehind w h r) (hs : w.Sound) (hle : w.Le w')
    (hsame : ∀ c ∈ w.store.live, c = h.chunk ∨ c ∈ r.companions →
      w'.store.content? c = w.store.content? c) : LivesBehind w' h r := by
  obtain ⟨n, b, F, hcontent, hform, hnodup, hsub⟩ := hr.stands
  have hchunk : h.chunk ∈ w.store.live := mem_live_iff.mpr (by rw [hcontent]; rfl)
  have hlive : F ⊆ w.store.live := hform.live fun _ _ _ _ => Stands.live
  refine ⟨⟨n, b, F, ?_, ?_, hnodup, hsub⟩, ?_⟩
  · rw [hsame _ hchunk (.inl rfl), hcontent]
  · exact hform.stable hs hle fun c hc => hsame c (hlive hc) (.inr (hsub hc))
  · rw [hle.catalog]
    exact hr.accepted

end LivesBehind

/-- The bytes of the record, and no others, are in the chunk of the handle, and loading gives a record
of the same content. -/
structure Loads (w : Workspace) (h : Handle) (r : Record) : Prop where
  bytes : ∃ n b F, w.store.content? h.chunk = some b ∧
    RecordForm (Stands w n) w (h.schema, .standard) r b F
  loaded : ∀ {τ : Type} (t : ByteStream) (x : τ), ∃ r' v,
    loadHandle h ⟨w, t, x⟩ = .ok r' ⟨v, t, x⟩ ∧ r'.detached = r.detached

theorem LivesBehind.loads {w : Workspace} {h : Handle} {r : Record} (hr : LivesBehind w h r)
    (hs : w.Sound) (hfit : w.Fits) : Loads w h r := by
  obtain ⟨n, b, F, hcontent, hform, hnodup, -⟩ := hr.stands
  refine ⟨⟨n, b, F, hcontent, hform⟩, fun {τ} t x => ?_⟩
  have hshows := shows_ofBytes_self b
  obtain ⟨r', hparse, hsame⟩ := hform.parses_ahead hs hfit hnodup hshows.length_le
  obtain ⟨l, hl, hknows, hparse⟩ := hparse.layout hs
  have hruns : w.Runs (loadHandle h) t x r' t x :=
    (Workspace.Runs.space (Workspace.layout_steady hl)).bind
      (.withChunk hcontent (readNew_runs hs hknows hparse (hr.accepted.built hsame) hshows))
  obtain ⟨v, hrun, -, -⟩ := hruns w (.refl hs)
  exact ⟨r', v, hrun, hsame⟩

/-! ## Storing -/

/-- A record that has been written into a chunk lives there once the chunk is closed. -/
theorem RecordWritten.close {n : Nat} {h : Handle} {s t : Scene Record} {b : Bytes}
    {F : List ChunkId} (hwritten : RecordWritten n (h.schema, .standard) s t b F) {content : Bytes}
    (hcontent : s.space.store.content? h.chunk = some content) (hs : s.space.Sound)
    (hown : Owns s.space (h.chunk :: s.subject.companions))
    (hacc : t.subject.Accepted t.space.catalog) :
    (t.space.setStore (t.space.store.setContent h.chunk b)).Sound ∧
      LivesBehind (t.space.setStore (t.space.store.setContent h.chunk b)) h t.subject := by
  have hlaid := hwritten.laid
  have hempty : ByteStream.empty.Writable := ⟨trivial, Nat.le_refl _⟩
  obtain ⟨hclosed, hheld, hframe⟩ := laid_close hlaid hs hcontent hown hempty
  have hle : t.space.Le (t.space.setStore (t.space.store.setContent h.chunk b)) :=
    ⟨.refl _, .refl _, rfl⟩
  exact ⟨hclosed.sound, ⟨n, b, F, hheld, hwritten.form.stable hlaid.sound hle hframe, hlaid.nodup,
    hlaid.sub⟩, hacc⟩

/-- A record that has been written into a new chunk. -/
theorem allocateWith_livesBehind {s s' : Scene Record} {l : Layout} {id : SchemaId} {hint : Nat}
    {chunk : ChunkId} (hrun : allocateWith hint (writeRecord l) s = .ok chunk s')
    (hs : s.space.Sound) (hl : s.space.Knows l) (hkey : l.key = (id, .standard))
    (hready : s.subject.Ready s.space.catalog) (hown : Owns s.space s.subject.companions)
    (hacc : s'.subject.Accepted s'.space.catalog) :
    s'.space.Sound ∧ LivesBehind s'.space ⟨id, chunk⟩ s'.subject := by
  obtain ⟨heap, t, hstore, rfl, hscope, rfl⟩ := allocateWith_ok hrun
  obtain ⟨t₁, hfill, rfl⟩ := rollback_ok.mp hscope
  obtain ⟨content, t₂, hcontent, hwrite, rfl⟩ := withChunk_ok.mp hfill
  -- the new chunk is empty, so what is written is all it holds
  have hle : s.space.Le { s.space with heap }.openScope := ⟨.refl _, .refl _, rfl⟩
  obtain ⟨hs₁, hnew, hown₁⟩ := hs.allocated hstore hown
  obtain rfl : content = [] := Option.some.inj (hcontent.symm.trans hnew)
  obtain ⟨n, b, F, hwritten⟩ := writeRecord_written hwrite hs₁ ⟨trivial, Nat.zero_le _⟩
    (hl.mono hle) hready (hown₁.sublist (List.sublist_cons_self _ _))
  rw [hkey] at hwritten
  have hafter : t₂.stream.content = b := hwritten.laid.puts.content_new
  obtain ⟨journal, hend⟩ := (t₂.space.setStore (t₂.space.store.close ⟨s.space.store.next⟩
    t₂.stream)).keepScope_note_eq ⟨s.space.store.next⟩
  -- the frame's journal is all that closing and noting change
  rw [hend, ChunkStore.close, hafter] at hacc ⊢
  obtain ⟨hsound, hlives⟩ := hwritten.close (h := ⟨id, ⟨s.space.store.next⟩⟩) hnew hs₁ hown₁ hacc
  exact ⟨⟨hsound.compiler, hsound.store⟩,
    hlives.stable hsound ⟨.refl _, .refl _, rfl⟩ fun _ _ _ => rfl⟩

/-- A record of an unmanaged schema that has been put into a chunk of its own. -/
theorem storeUnmanaged_livesBehind {s s' : Scene Record} {h : Handle}
    (hrun : storeUnmanaged s = .ok h s') (hs : s.space.Sound)
    (hready : s.subject.Ready s.space.catalog) (hown : Owns s.space s.subject.companions)
    (hacc : s'.subject.Accepted s'.space.catalog) :
    s'.space.Sound ∧ LivesBehind s'.space h s'.subject := by
  rw [storeUnmanaged] at hrun
  simp only [bind_ok, Op.subject_ok, Op.catalog_ok] at hrun
  obtain ⟨r, s, ⟨rfl, rfl⟩, c, s, ⟨rfl, rfl⟩, hrun⟩ := hrun
  rcases ite_ok.mp hrun with ⟨-, hrun⟩ | ⟨-, hfail⟩
  · obtain ⟨l, s₁, hask, hrun⟩ := bind_ok.mp hrun
    obtain ⟨hint, s₂, hsize, hrun⟩ := bind_ok.mp hrun
    obtain ⟨chunk, s₃, hput, hdone⟩ := bind_ok.mp hrun
    obtain ⟨rfl, rfl⟩ := pure_ok.mp hdone
    -- the layout and the size are asked for before the chunk is allocated
    obtain ⟨hstudied, hsubject, hl, hkey⟩ :=
      space_studied (layout_knows hs s.subject.schema .standard) hask
    obtain ⟨hstudied', hsubject', -⟩ :=
      space_studied (studies.recordSize l s.subject _ hstudied.sound) hsize
    have hall := hstudied.trans hstudied'
    rw [← hsubject, ← hsubject'] at hready hown
    rw [← hall.learns.catalog] at hready
    exact allocateWith_livesBehind hput hall.sound (hl.mono hstudied'.learns.toLe) hkey hready
      (hown.mono (by rw [hall.learns.store])) hacc
  · exact (throw_ok.mp hfail).elim

/-- A record that has replaced the one behind a handle. -/
theorem storeHandle_livesBehind {s s' : Scene Record} {h : Handle} {u : Unit}
    (hrun : storeHandle h s = .ok u s') (hs : s.space.Sound)
    (hready : s.subject.Ready s.space.catalog)
    (hown : Owns s.space (h.chunk :: s.subject.companions))
    (hacc : s'.subject.Accepted s'.space.catalog) :
    s'.space.Sound ∧ LivesBehind s'.space h s'.subject := by
  rw [storeHandle] at hrun
  simp only [bind_ok, Op.subject_ok, Op.catalog_ok] at hrun
  obtain ⟨r, s, ⟨rfl, rfl⟩, c, s, ⟨rfl, rfl⟩, hrun⟩ := hrun
  rcases ite_ok.mp hrun with ⟨-, hrun⟩ | ⟨-, hfail⟩
  · obtain ⟨l, s₁, hask, hput⟩ := bind_ok.mp hrun
    obtain ⟨hstudied, hsubject, hl, hkey⟩ := space_studied (layout_knows hs h.schema .standard) hask
    obtain ⟨content, t, hcontent, hwork, rfl⟩ := withChunk_ok.mp hput
    obtain ⟨_, t₁, hwrite, hcut⟩ := bind_ok.mp hwork
    rw [Op.cutHere_ok] at hcut
    subst hcut
    rw [← hsubject, ← hstudied.learns.catalog] at hready
    rw [← hsubject] at hown
    have hown₁ : Owns s₁.space (h.chunk :: s₁.subject.companions) :=
      hown.mono (by rw [hstudied.learns.store])
    obtain ⟨n, b, F, hwritten⟩ := writeRecord_written hwrite hstudied.sound ⟨trivial, Nat.zero_le _⟩
      hl hready (hown₁.sublist (List.sublist_cons_self _ _))
    rw [hkey] at hwritten
    -- the chunk is cut behind the record
    have hafter : (t₁.stream.setSize t₁.stream.position).content = b :=
      hwritten.laid.puts.content_cut
    show Workspace.Sound (t₁.space.setStore (t₁.space.store.setContent h.chunk _)) ∧
      LivesBehind (t₁.space.setStore (t₁.space.store.setContent h.chunk _)) h t₁.subject
    rw [hafter]
    exact hwritten.close hcontent hstudied.sound hown₁ hacc
  · exact (throw_ok.mp hfail).elim

/-! ## Attempts that fail -/

theorem storeHandle_leaves (h : Handle) : (storeHandle h).Leaves [h.chunk] := by
  have hput (l : Layout) : (withChunk h.chunk (do
      writeRecord l
      Op.cutHere) : Op Record Unit).Leaves [h.chunk] :=
    ((leaves.writeRecord l).bind fun _ => .cutHere).withChunk
  exact Leaves.subject.bind fun r => Leaves.catalog.bind fun c =>
    .ite ((Leaves.space (idle.layout _ _)).bind fun l => hput l) (.throw _)

theorem storeHandle_advances (h : Handle) : (storeHandle h).Advances :=
  Advances.subject.bind fun _ => (advances.catalog).bind fun _ =>
    .ite ((Advances.space (questionsAdvance.layout _ _)).bind fun l =>
      ((advances.writeRecord l).bind fun _ => .cutHere).withChunk) (.throw _)

/-- Whatever comes of an attempt, the workspace is sound afterwards, and no less is known. -/
theorem storeHandle_outcome (h : Handle) {s : Scene Record} (hs : s.space.Sound) :
    (outcome (storeHandle h) s).2.space.Sound ∧ s.space.Le (outcome (storeHandle h) s).2.space := by
  obtain ⟨hrest, hle⟩ := storeHandle_advances h s hs.compiler
  obtain ⟨fresh, hmade⟩ := (storeHandle_leaves h).tracks s hs.store
  exact ⟨⟨hrest, hmade.store.sound⟩, hle⟩

/-! ## Attempts one after another -/

/-- A workspace, and the record that was last stored behind a handle, if no attempt since then has
reached its bytes. -/
structure Shelf where
  space : Workspace
  last : Option Record

/-- An attempt to store a record behind a handle: it succeeds, or it fails and leaves the chunk of the
handle and the chunks that the two records share as they were, or it fails and may spoil the record
that was there. -/
inductive Attempt (h : Handle) : Shelf → Shelf → Prop
  | stored {w w' : Workspace} {t t' : ByteStream} {r r' : Record} {last : Option Record}
    (hready : r.Ready w.catalog) (hown : Owns w (h.chunk :: r.companions))
    (hrun : storeHandle h ⟨w, t, r⟩ = .ok () ⟨w', t', r'⟩) (hacc : r'.Accepted w'.catalog) :
    Attempt h ⟨w, last⟩ ⟨w', some r'⟩
  | missed {w w' : Workspace} {t t' : ByteStream} {r r' last : Record} {e : FormatError}
    (hrun : storeHandle h ⟨w, t, r⟩ = .error e ⟨w', t', r'⟩)
    (hchunk : w'.store.content? h.chunk = w.store.content? h.chunk)
    (hshared : ∀ c ∈ last.companions, c ∈ r.companions →
      w'.store.content? c = w.store.content? c) :
    Attempt h ⟨w, some last⟩ ⟨w', some last⟩
  | spoiled {w w' : Workspace} {t t' : ByteStream} {r r' : Record} {last : Option Record}
    {e : FormatError} (hrun : storeHandle h ⟨w, t, r⟩ = .error e ⟨w', t', r'⟩) :
    Attempt h ⟨w, last⟩ ⟨w', none⟩

/-- The workspace is sound, and the record that was last stored is behind the handle. -/
structure Shelf.Keeps (h : Handle) (x : Shelf) : Prop where
  sound : x.space.Sound
  lives : ∀ r, x.last = some r → LivesBehind x.space h r

theorem Attempt.keeps {h : Handle} {x y : Shelf} (hstep : Attempt h x y) (hx : x.Keeps h) :
    y.Keeps h := by
  cases hstep with
  | stored hready hown hrun hacc =>
    -- a stored attempt leaves its own record behind the handle
    obtain ⟨hsound, hlives⟩ := storeHandle_livesBehind hrun hx.sound hready hown hacc
    exact ⟨hsound, fun r hr => Option.some.inj hr ▸ hlives⟩
  | @missed w w' t t' r r' last e hrun hchunk hshared =>
    -- a missed one leaves what the last stored one left, since the frame around it is undone
    obtain ⟨hsound, hle⟩ := storeHandle_outcome h (s := ⟨w, t, r⟩) hx.sound
    have hframe := (storeHandle_leaves h).frame ⟨w, t, r⟩ hx.sound.store
    rw [outcome_of_error hrun] at hsound hle hframe
    refine ⟨hsound, fun x hlast => ?_⟩
    obtain rfl := Option.some.inj hlast
    refine (hx.lives last rfl).stable hx.sound hle fun c hlive hc => ?_
    rcases hc with rfl | hc
    · exact hchunk
    · -- a chunk of the last record that the new one does not name is none of its business
      by_cases hboth : c = h.chunk ∨ c ∈ r.companions
      · rcases hboth with rfl | hmem
        · exact hchunk
        · exact hshared c hc hmem
      · refine hframe.kept c hlive ?_
        rw [List.mem_append, List.mem_singleton]
        exact hboth
  | @spoiled w w' t t' r r' last e hrun =>
    -- a spoiled one leaves no record at all
    obtain ⟨hsound, -⟩ := storeHandle_outcome h (s := ⟨w, t, r⟩) hx.sound
    rw [outcome_of_error hrun] at hsound
    exact ⟨hsound, fun r hr => by cases hr⟩

theorem Shelf.Keeps.run {h : Handle} {x y : Shelf} (hx : x.Keeps h)
    (hruns : Relation.ReflTransGen (Attempt h) x y) : y.Keeps h := by
  induction hruns with
  | refl => exact hx
  | tail _ hstep ih => exact hstep.keeps ih

/-- After any attempts on a handle, successful or not, it is the record last stored that is loaded,
unless an attempt that failed since then has reached its bytes. -/
theorem loadHandle_lastStored {s s' : Scene Record} {h : Handle} (hs : s.space.Sound)
    (hready : s.subject.Ready s.space.catalog) (hown : Owns s.space s.subject.companions)
    (hnew : storeUnmanaged s = .ok h s') (hacc : s'.subject.Accepted s'.space.catalog)
    {w : Workspace} {last : Record}
    (hruns : Relation.ReflTransGen (Attempt h) ⟨s'.space, some s'.subject⟩ ⟨w, some last⟩)
    (hfit : w.Fits) : Loads w h last := by
  obtain ⟨hsound, hlives⟩ := storeUnmanaged_livesBehind hnew hs hready hown hacc
  have hstart : Shelf.Keeps h ⟨s'.space, some s'.subject⟩ :=
    ⟨hsound, fun r hr => Option.some.inj hr ▸ hlives⟩
  have hend := hstart.run hruns
  exact (hend.lives last rfl).loads hend.sound hfit

/-! ## Notes -/

/-- A schema of records that live behind handles, with a text in line before one in a chunk. -/
def notes : Catalog :=
  ⟨[⟨⟨"Note", .unmanaged, [⟨"title", .value .text .flexible, false, [], none⟩,
    ⟨"body", .value .text .fixed, false, ["title"], none⟩]⟩, true⟩], [], []⟩

/-- A note that has no chunks yet. -/
def note (title body : Value) : Record := ⟨⟨0, 0⟩, [title, body], [.null, .null]⟩

/-- A note that is to be stored, where the store refuses the third chunk. -/
def firstNote : Scene Record :=
  ⟨.fresh notes .standard (some 3), .empty, note (.text "a") (.text "x")⟩

/-- The handle that it gets. -/
def noteHandle : Handle := ⟨⟨0, 0⟩, ⟨1⟩⟩

/-- What is left after an attempt on the handle. -/
def noteStored (w : Workspace) (r : Record) : Scene Record :=
  after (storeHandle noteHandle) ⟨w, .empty, r⟩

/-- The first note is stored. -/
def noteCreated : Scene Record := after storeUnmanaged firstNote

/-- Another one does not get a chunk for its body. -/
def noteRefused : Scene Record := noteStored noteCreated.space (note (.text "b") (.text "y"))

/-- A third one is stored. -/
def noteReplaced : Scene Record := noteStored noteRefused.space (note (.text "c") (.text "z"))

/-- The last one has no text for its title. -/
def noteMisfit : Scene Record := noteStored noteReplaced.space (note (.width .byte) (.text "z"))

theorem notes_closed : notes.Closed := by decide

theorem note_ready {cat : Catalog} {title body : String}
    (hfields : (cat.schema ⟨0, 0⟩).fields.length = 2)
    (htitle : (Utf8.encode title).length + 1 < 2 ^ 64)
    (hbody : (Utf8.encode body).length + 1 < 2 ^ 64) :
    (note (.text title) (.text body)).Ready cat := by
  refine RecordOf.ready_of_no_scalars hfields.symm rfl fun v hv => ?_
  rcases List.mem_cons.mp hv with rfl | hmem
  · exact ⟨htitle, fun _ => nofun⟩
  · rw [List.mem_singleton.mp hmem]
    exact ⟨hbody, fun _ => nofun⟩

/-- The runs. The first note is stored, the second is refused a chunk after its title has been written,
the third is stored, and the last fails before anything is written. -/
theorem notes_runs :
    (answer? storeUnmanaged firstNote = some noteHandle ∧ storeUnmanaged.StoresTexts firstNote ∧
      noteCreated.subject.companions = [⟨2⟩] ∧ noteCreated.space.store.next = 3 ∧
      noteCreated.subject.slots.map Value.text? = [some "a", some "x"] ∧
      (noteCreated.space.catalog.schema ⟨0, 0⟩).fields.length = 2) ∧
    ((answer? (storeHandle noteHandle)
        ⟨noteCreated.space, .empty, note (.text "b") (.text "y")⟩).isNone = true ∧
      noteRefused.space.Roomy ∧ 1 < noteRefused.space.store.next ∧
      (noteRefused.space.catalog.schema ⟨0, 0⟩).fields.length = 2 ∧
      (answer? (loadHandle noteHandle) (⟨noteRefused.space, .empty, ()⟩ : Scene Unit)).map
        (fun r => r.slots.map Value.text?) = some [some "b", some "x"]) ∧
    (storeHandle noteHandle).StoresTexts
      ⟨noteRefused.space, .empty, note (.text "c") (.text "z")⟩ ∧
    (answer? (storeHandle noteHandle)
        ⟨noteReplaced.space, .empty, note (.width .byte) (.text "z")⟩).isNone = true ∧
      noteMisfit.space.store.content? ⟨1⟩ = noteReplaced.space.store.content? ⟨1⟩ ∧
      noteMisfit.space.Roomy := by
  decide +kernel

theorem firstNote_sound : firstNote.space.Sound := Workspace.sound_fresh notes_closed _ _

theorem firstNote_ready : firstNote.subject.Ready firstNote.space.catalog :=
  note_ready rfl (by decide) (by decide)

theorem firstNote_owns : Owns firstNote.space firstNote.subject.companions :=
  ⟨List.nodup_nil, fun _ hc => (nomatch hc)⟩

theorem noteCreated_run : storeUnmanaged firstNote = .ok noteHandle noteCreated := by
  obtain ⟨h, hrun, hsome⟩ := runs_to_after notes_runs.1.2.1.1
  rw [notes_runs.1.1] at hsome
  cases hsome
  exact hrun

theorem noteCreated_accepted : noteCreated.subject.Accepted noteCreated.space.catalog :=
  notes_runs.1.2.1.accepted

theorem noteRefused_attempt (last : Option Record) :
    Attempt noteHandle ⟨noteCreated.space, last⟩ ⟨noteRefused.space, none⟩ := by
  obtain ⟨e, hrun⟩ := fails_to_after notes_runs.2.1.1
  exact .spoiled hrun

theorem noteReplaced_attempt : Attempt noteHandle ⟨noteRefused.space, none⟩
    ⟨noteReplaced.space, some noteReplaced.subject⟩ := by
  obtain ⟨-, ⟨-, -, hknown, hfields, -⟩, hstores, -⟩ := notes_runs
  have hready : (note (.text "c") (.text "z")).Ready noteRefused.space.catalog :=
    note_ready hfields (by decide) (by decide)
  refine .stored hready ⟨List.nodup_singleton _, fun c hc => ?_⟩ hstores.run hstores.accepted
  rw [List.mem_singleton.mp hc]
  exact hknown

theorem noteMisfit_attempt : Attempt noteHandle ⟨noteReplaced.space, some noteReplaced.subject⟩
    ⟨noteMisfit.space, some noteReplaced.subject⟩ := by
  obtain ⟨-, -, -, hnone, hchunk, -⟩ := notes_runs
  obtain ⟨e, hrun⟩ := fails_to_after hnone
  exact .missed hrun hchunk fun c _ hc => (nomatch hc)

/-- The third note is loaded: it was stored after an attempt that had failed, and the last attempt has
not come as far as its bytes. -/
theorem loadHandle_lastStored_notes :
    storeUnmanaged firstNote = .ok noteHandle noteCreated ∧
      Loads noteMisfit.space noteHandle noteReplaced.subject := by
  have hruns : Relation.ReflTransGen (Attempt noteHandle)
      ⟨noteCreated.space, some noteCreated.subject⟩ ⟨noteMisfit.space, some noteReplaced.subject⟩ :=
    .tail (.tail (.single (noteRefused_attempt _)) noteReplaced_attempt) noteMisfit_attempt
  have hfit : noteMisfit.space.Fits := notes_runs.2.2.2.2.2.fits
  exact ⟨noteCreated_run, loadHandle_lastStored firstNote_sound firstNote_ready firstNote_owns
    noteCreated_run noteCreated_accepted hruns hfit⟩

/-- An attempt that fails may spoil the record that was there, even if the two share no chunk: the title
of the second note has been written when its body is refused a chunk. -/
theorem loadHandle_not_lastStored :
    ¬∀ (h : Handle) (w w' : Workspace) (t t' : ByteStream) (r r' last : Record) (e : FormatError),
      w.Sound → LivesBehind w h last → r.Ready w.catalog →
        Owns w (h.chunk :: (last.companions ++ r.companions)) →
          storeHandle h ⟨w, t, r⟩ = .error e ⟨w', t', r'⟩ → w'.Fits → Loads w' h last := by
  intro hall
  -- a first note is stored; storing the second fails, and the last stored one is then read back
  obtain ⟨hsound, hlives⟩ := storeUnmanaged_livesBehind noteCreated_run firstNote_sound
    firstNote_ready firstNote_owns noteCreated_accepted
  obtain ⟨⟨-, -, hchunks, hnext, hwas, hfields⟩, ⟨hnone, hroom, -, -, hgot⟩, -⟩ := notes_runs
  obtain ⟨e, hrun⟩ := fails_to_after hnone
  have hready : (note (.text "b") (.text "y")).Ready noteCreated.space.catalog :=
    note_ready hfields (by decide) (by decide)
  have hown : Owns noteCreated.space (noteHandle.chunk ::
      (noteCreated.subject.companions ++ (note (.text "b") (.text "y")).companions)) := by
    rw [hchunks]
    refine ⟨by decide, fun c hc => ?_⟩
    rw [hnext]
    have hids : ∀ c ∈ [(⟨1⟩ : ChunkId), ⟨2⟩], c.id < 3 := by decide
    exact hids c hc
  -- the statement would have the first note's text read back, but the second one's was written over it
  obtain ⟨r, v, hload, hsame⟩ :=
    (hall _ _ _ _ _ _ _ _ e hsound hlives hready hown hrun hroom.fits).loaded .empty ()
  have hloaded : answer? (loadHandle noteHandle) (⟨noteRefused.space, .empty, ()⟩ : Scene Unit) =
      some r := answer?_of_ok hload
  rw [hloaded, Option.map_some, Option.some.injEq,
    RecordOf.texts_congr (RecordOf.detached_eq_iff.mp hsame).2.1, hwas] at hgot
  exact absurd hgot (by decide)

end RecordLayout
