import RecordLayout.Proofs.Codec.Local
import RecordLayout.Proofs.Codec.Walk

/-!
# Writing side by side

A write that succeeds does the same on any other stream that has room for as much, wherever the cursor
stands there: the two cursors keep their distance. If fewer bytes are put into one of the streams than
into the other, only the distance grows. So two writes that differ in the length of some numbers can be
followed side by side.

Main results:

* `ByteStream.Trails.put` — bytes put into both streams;
* `abreast` — every write.
-/

namespace RecordLayout

/-! ## Room in a stream -/

namespace ByteStream

/-- There is room for `n` more bytes. -/
def Affords : ByteStream → Nat → Prop
  | .memory _ _, _ => True
  | .edited _ _, _ => True
  | .metered left under, n => n ≤ left ∧ under.Affords n
  | .piecewise under, n => under.Affords n

/-- Every stream affords nothing. -/
theorem affords_zero (s : ByteStream) : s.Affords 0 := by
  induction s with
  | memory content cursor => trivial
  | edited under edits ih => trivial
  | metered left under ih => exact ⟨Nat.zero_le _, ih⟩
  | piecewise under ih => exact ih

/-- A stream that affords some bytes affords fewer. -/
theorem Affords.anti {s : ByteStream} {m n : Nat} (h : s.Affords n) (hle : m ≤ n) : s.Affords m := by
  induction s with
  | memory content cursor => trivial
  | edited under edits ih => trivial
  | metered left under ih => exact ⟨hle.trans h.1, ih h.2⟩
  | piecewise under ih => exact ih h

/-- Where there is room, bytes can be put. -/
theorem Affords.put {s : ByteStream} {data : Bytes} (h : s.Affords data.length) :
    ∃ s', s.put data = .ok s' := by
  induction s with
  | memory content cursor => exact ⟨_, rfl⟩
  | edited under edits ih => exact ⟨_, rfl⟩
  | metered left under ih =>
    obtain ⟨hleft, hunder⟩ := h
    obtain ⟨under', hput⟩ := ih hunder
    exact ⟨.metered (left - data.length) under', by
      rw [ByteStream.put, if_neg (Nat.not_lt.mpr hleft), hput]
      rfl⟩
  | piecewise under ih =>
    obtain ⟨under', hput⟩ := ih h
    exact ⟨.piecewise under', by rw [ByteStream.put, hput]; rfl⟩

/-- Bytes that are put take up room. -/
theorem affords_put {s s' : ByteStream} {data : Bytes} (h : s.put data = .ok s') (n : Nat) :
    s'.Affords n ↔ s.Affords (data.length + n) := by
  induction s generalizing s' with
  | memory content cursor =>
    cases h
    exact Iff.rfl
  | edited under edits ih =>
    cases h
    exact Iff.rfl
  | metered left under ih =>
    rw [ByteStream.put] at h
    split at h
    · cases h
    · rename_i hleft
      obtain ⟨under', hput, rfl⟩ := map_ok h
      -- what is put is taken off the bytes left
      have hroom : n ≤ left - data.length ↔ data.length + n ≤ left := by omega
      rw [Affords, Affords, ih hput, hroom]
  | piecewise under ih =>
    rw [ByteStream.put] at h
    obtain ⟨under', hput, rfl⟩ := map_ok h
    rw [Affords, Affords, ih hput]

/-- The cursor of the second stream is `k` bytes behind that of the first one, and there is room for all
that there is room for in the first one. -/
structure Trails (k : Nat) (s t : ByteStream) : Prop where
  position : s.position = t.position + k
  room : ∀ n, s.Affords n → t.Affords n

theorem Trails.refl (s : ByteStream) : s.Trails 0 s := ⟨rfl, fun _ h => h⟩

/-- Bytes are put into both streams; the second one falls behind by those that it gets less. -/
theorem Trails.put {k j : Nat} {s s' t : ByteStream} {data data' : Bytes} (h : s.Trails k t)
    (hput : s.put data = .ok s') (hlen : data.length = data'.length + j) :
    ∃ t', t.put data' = .ok t' ∧ s'.Trails (k + j) t' := by
  have hroom (n : Nat) (hn : s'.Affords n) : t.Affords (data'.length + n) :=
    (h.room _ ((affords_put hput n).mp hn)).anti (by omega)
  obtain ⟨t', hput'⟩ := Affords.put (hroom 0 s'.affords_zero)
  refine ⟨t', hput', ?_, fun n hn => (affords_put hput' n).mpr (hroom n hn)⟩
  rw [position_put hput, position_put hput', h.position, hlen]
  omega

end ByteStream

/-! ## Operations side by side -/

section

variable {τ υ α β : Type} {k : Nat}

/-- The same workspace and subject with two streams, of which the second one trails. -/
structure Scene.Abreast (k : Nat) (s t : Scene τ) : Prop where
  space : t.space = s.space
  subject : t.subject = s.subject
  stream : s.stream.Trails k t.stream

/-- Scenes abreast differ in their streams only. -/
theorem Scene.Abreast.eq {s t : Scene τ} (h : s.Abreast k t) : t = { s with stream := t.stream } := by
  obtain ⟨space, stream, subject⟩ := t
  obtain ⟨rfl, rfl, -⟩ := h
  rfl

namespace Op

/-- What succeeds on one stream does the same on any other one that trails it. -/
def Abreast (act : Op τ α) : Prop :=
  ∀ k s t a s', Scene.Abreast k s t → act s = .ok a s' →
    ∃ t', act t = .ok a t' ∧ Scene.Abreast k s' t'

namespace Streamless

theorem subject : Streamless (Op.subject : Op τ τ) := by
  intro s x s' hrun
  obtain ⟨rfl, rfl⟩ := subject_ok.mp hrun
  exact ⟨rfl, fun _ => rfl⟩

theorem config : Streamless (Op.config : Op τ Config) := by
  intro s c s' hrun
  obtain ⟨rfl, rfl⟩ := config_ok.mp hrun
  exact ⟨rfl, fun _ => rfl⟩

theorem modifySubject (f : τ → τ) : Streamless (Op.modifySubject f : Op τ Unit) := by
  intro s u s' hrun
  obtain rfl := modifySubject_ok.mp hrun
  exact ⟨rfl, fun _ => rfl⟩

/-- A frame does not look at the stream. -/
theorem rollback {act : Op τ α} (h : act.Streamless) : (RecordLayout.rollback act).Streamless := by
  intro s a s' hrun
  obtain ⟨t, hact, rfl⟩ := rollback_ok.mp hrun
  obtain ⟨hstream, hsame⟩ := h _ a t hact
  exact ⟨hstream, fun b => rollback_ok.mpr ⟨_, hsame b, rfl⟩⟩

/-- A new chunk is filled without regard to the stream outside. -/
theorem allocateWith (hint : Nat) (fill : Op τ Unit) :
    (RecordLayout.allocateWith hint fill).Streamless := by
  intro s chunk s' hrun
  rcases hall : s.space.heap.allocate (hint + s.space.config.slack) with ⟨result, heap⟩
  simp only [RecordLayout.allocateWith, hall] at hrun ⊢
  cases result with
  | error e => cases hrun
  | ok found =>
    simp only at hrun ⊢
    cases hfill : RecordLayout.rollback (RecordLayout.withChunk found fill)
        { s with space := { s.space with heap } } with
    | error e t =>
      rw [hfill] at hrun
      -- a failed filling is no success to be repeated
      cases hrun
    | ok u t =>
      rw [hfill] at hrun
      cases hrun
      obtain ⟨hstream, hsame⟩ := (withChunk chunk fill).rollback _ u t hfill
      refine ⟨hstream, fun b => ?_⟩
      simp only [hsame b]

/-- What is stored goes to a chunk's own stream. -/
theorem storeBehind (hint : Nat) (body : Op Slot Unit) :
    (RecordLayout.storeBehind hint body).Streamless := by
  refine subject.bind fun slot => (space _).bind fun live => ?_
  split
  · exact (withChunk _ _).bind fun _ => pure _
  · exact (allocateWith _ _).bind fun chunk => (modifySubject _).bind fun _ => pure _

/-- Deriving does not look at the stream. -/
theorem deriveField (f : BoundField) : (RecordLayout.deriveField f).Streamless := by
  rw [RecordLayout.deriveField]
  split
  · exact pure _
  · exact subject.bind fun r => (space _).bind fun v => modifySubject fun _ => r.setSlot f.slot v

end Streamless

namespace Abreast

/-- What does not look at the stream runs abreast. -/
theorem streamless {act : Op τ α} (h : act.Streamless) : act.Abreast := by
  intro k s t a s' hst hrun
  obtain ⟨hstream, hsame⟩ := h s a s' hrun
  rw [hst.eq]
  exact ⟨_, hsame t.stream, rfl, rfl, hstream ▸ hst.stream⟩

/-- Acts that run abreast compose. -/
theorem bind {act : Op τ α} {next : α → Op τ β} (h : act.Abreast) (hnext : ∀ a, (next a).Abreast) :
    (act >>= next).Abreast := by
  intro k s t b s'' hst hrun
  obtain ⟨a, s', hact, hthen⟩ := bind_ok.mp hrun
  obtain ⟨t', hact', hst'⟩ := h k s t a s' hst hact
  obtain ⟨t'', hthen', hst''⟩ := hnext a k s' t' b s'' hst' hthen
  exact ⟨t'', bind_ok.mpr ⟨a, t', hact', hthen'⟩, hst''⟩

/-- A write runs abreast as long as the bytes are afforded. -/
theorem write (bytes : Bytes) : Abreast (Op.write bytes : Op τ Unit) := by
  intro k s t u s' hst hrun
  obtain ⟨b, hput, rfl⟩ := write_ok.mp hrun
  obtain ⟨b', hput', htrails⟩ := hst.stream.put hput (show bytes.length = bytes.length + 0 from rfl)
  exact ⟨_, write_ok.mpr ⟨b', hput', rfl⟩, hst.space, hst.subject, htrails⟩

/-- A word runs abreast as long as its bytes are afforded. -/
theorem writeWord (width : Nat) (value : UInt64) :
    Abreast (Op.stream (ByteSink.writeWord width value) : Op τ Unit) := by
  rw [ByteSink.writeWord]
  split
  · intro k s t u s' _ hrun
    obtain ⟨b, hfail, -⟩ := stream_ok.mp hrun
    exact (throw_ok.mp hfail).elim
  · exact write _

/-- Work on a part of the subject runs abreast. -/
theorem on {p : Part τ υ} {act : Op υ α} (h : act.Abreast) : (Op.on p act).Abreast := by
  intro k s t a s' hst hrun
  obtain ⟨u, hact, rfl⟩ := on_ok.mp hrun
  obtain ⟨v, hact', huv⟩ := h k _ ⟨t.space, t.stream, p.get t.subject⟩ a u
    ⟨hst.space, congrArg p.get hst.subject, hst.stream⟩ hact
  refine ⟨_, on_ok.mpr ⟨v, hact', rfl⟩, huv.space, ?_, huv.stream⟩
  show p.set v.subject t.subject = p.set u.subject s.subject
  rw [huv.subject, hst.subject]

/-- Naming the field in the error does not look at the stream. -/
theorem inField {f : BoundField} {act : Op τ α} (h : act.Abreast) : (Op.inField f act).Abreast := by
  intro k s t a s' hst hrun
  obtain ⟨t', hact, hst'⟩ := h k s t a s' hst (inField_ok.mp hrun)
  exact ⟨t', inField_ok.mpr hact, hst'⟩

/-- Both cursors move equally far. -/
theorem movingBy {bytes : Nat} {failure : Nat → FormatError} {act : Op Record Unit}
    (h : act.Abreast) : (Op.movingBy bytes failure act).Abreast := by
  intro k s t u s' hst hrun
  obtain ⟨start, s₀, hstart, hrun⟩ := bind_ok.mp hrun
  obtain ⟨rfl, rfl⟩ := position_ok.mp hstart
  obtain ⟨_, s₁, hact, hrun⟩ := bind_ok.mp hrun
  obtain ⟨stop, s₂, hstop, hrun⟩ := bind_ok.mp hrun
  obtain ⟨rfl, rfl⟩ := position_ok.mp hstop
  obtain ⟨t₁, hact', hst₁⟩ := h k _ t _ _ hst hact
  -- both cursors have moved by the same, so the check comes out alike
  have hsame : t₁.stream.position - t.stream.position =
      s₂.stream.position - s₀.stream.position := by
    have hbefore := hst.stream.position
    have hafter := hst₁.stream.position
    omega
  rcases ite_ok.mp hrun with ⟨-, hrun⟩ | ⟨hmoved, hrun⟩
  · exact (throw_ok.mp hrun).elim
  · obtain ⟨rfl, rfl⟩ := pure_ok.mp hrun
    refine ⟨t₁, bind_ok.mpr ⟨_, t, position_ok.mpr ⟨rfl, rfl⟩, bind_ok.mpr ⟨_, t₁, hact',
      bind_ok.mpr ⟨_, t₁, position_ok.mpr ⟨rfl, rfl⟩, ite_ok.mpr (.inr ⟨?_, rfl⟩)⟩⟩⟩, hst₁⟩
    rwa [hsame]

/-- Freeing the chunks of a failed act does not look at the stream. -/
theorem guardingChunks {act : Op Record Unit} (h : act.Abreast) :
    (RecordLayout.guardingChunks act).Abreast := by
  refine (streamless .subject).bind fun r => ?_
  intro k s t u s' hst hrun
  obtain ⟨v, hact, rfl⟩ := rollback_ok.mp (onFailure_ok.mp hrun)
  obtain ⟨v', hact', hv⟩ := h k { s with space := s.space.openScope }
    { t with space := t.space.openScope } u v
    ⟨congrArg Workspace.openScope hst.space, hst.subject, hst.stream⟩ hact
  exact ⟨_, onFailure_ok.mpr (rollback_ok.mpr ⟨v', hact', rfl⟩),
    congrArg Workspace.keepScope hv.space, hv.subject, hv.stream⟩

end Abreast

end Op

end

/-- No question looks at the stream. -/
theorem questionsAbreast : SpaceM.Modular fun _ => True where
  pure _ := trivial
  throw _ := trivial
  bind _ _ := trivial
  catalog := trivial
  typeId _ := trivial
  layout _ _ := trivial
  openPlacement _ := trivial
  inlineSize _ := trivial

/-- Every write can be followed side by side. -/
theorem abreast : Op.Modular (fun _ => True) fun act => act.Abreast where
  questions := questionsAbreast
  pure a := .streamless (.pure a)
  throw e := .streamless (.throw e)
  bind := .bind
  space _ := .streamless (.space _)
  subject := .streamless .subject
  config := .streamless .config
  movingBy := .movingBy
  write := .write
  writeWord := .writeWord
  on _ := .on
  inField := .inField
  deriveField f := .streamless (.deriveField f)
  guardingChunks := .guardingChunks
  forgetChunk := .streamless ((Op.Streamless.modifySubject _).bind fun _ => .pure _)
  storeBehind _ := .streamless (.storeBehind _ _)

end RecordLayout
