import RecordLayout.Proofs.Codec.Looking
import RecordLayout.Proofs.Codec.Update
import RecordLayout.Proofs.Size.Measured

/-!
# Updates among other records

In a layout of fixed width every field stands at the same distance from the front of every record. So
records can stand one after another, and a partial write of one of them keeps to the fields that it
writes: a field that is written takes as many bytes as it took before, a field that is left alone is
passed by just as many, and the stream is not cut.

Main results:

* `Workspace.Knows.packed` — what is known beforehand of the fields of such a layout;
* `skipFieldWith_passes` — a field is passed by its width, whatever stands there;
* `writeWanted_keeps` — fields in a row, by induction along the row;
* `writePlanned_keeps` — a partial write keeps to the spans of the fields that it writes.
-/

namespace RecordLayout

open ByteStream

/-! ## Where fields stand -/

/-- The bytes that a field of fixed size takes. -/
def BoundField.width (f : BoundField) : Nat := f.size.fixed?.getD 0

/-- The distance from the front of a record to the field at a place: what the fields before it take. -/
def Layout.offset (l : Layout) (place : Nat) : Nat := ((l.fields.take place).map (·.width)).sum

/-- The byte at a position belongs to one of some fields of a record that stands at `front`. -/
def Layout.Spans (l : Layout) (taken : List BoundField) (front i : Nat) : Prop :=
  ∃ place f, l.at? place = some f ∧ f ∈ taken ∧
    front + l.offset place ≤ i ∧ i < front + l.offset place + f.width

theorem Layout.offset_of_split {l : Layout} {before fields : List BoundField}
    (h : l.fields = before ++ fields) : l.offset before.length = (before.map (·.width)).sum := by
  rw [offset, h, List.take_left]

theorem Layout.offset_le {l : Layout} {before fields : List BoundField}
    (h : l.fields = before ++ fields) : l.offset before.length ≤ l.offset l.fields.length := by
  rw [offset_of_split h, offset, List.take_length, h, List.map_append, List.sum_append]
  exact Nat.le_add_right _ _

/-! ## Layouts of fixed width -/

/-- Placements that can be told apart from what follows without looking at what stands there. -/
def Placement.isRigid : Placement → Bool
  | .scalar _ | .chunkText | .chunkRecord _ | .chunkChoice _ | .chunkOpen | .fixedRecord _
  | .handle _ true | .wrapped _ _ .fixed => true
  | _ => false

theorem Placement.FixedFor.isRigid {cat : Catalog} {p : Placement} {key : TypeKey}
    (h : p.FixedFor cat key) : p.isRigid = true := by
  cases key with
  | record id =>
    rw [FixedFor] at h
    split at h
    · rw [h]
      rfl
    · rcases h with rfl | rfl <;> rfl
  | _ =>
    rw [show p = _ from h]
    rfl

/-- What is known beforehand of a field in a layout of fixed width. -/
structure FieldPacked (c : Compiler) (f : BoundField) : Prop where
  size : f.size = .fixed f.width
  seen : f.encoding.sizeIn c = .fixed f.width
  governs : f.governs = false
  rigid : ∀ p marker, f.encoding = .placed p marker → p.isRigid = true

/-- The fields of a layout of fixed width are of fixed size, and none decides the size of another. -/
theorem Workspace.Knows.packed {w : Workspace} {l : Layout} (hl : w.Knows l) (hs : w.Sound)
    (hkind : l.kind.isFixed = true) {f : BoundField} (hf : f ∈ l.fields) :
    FieldPacked w.compiler f := by
  have hgood := hl.good hs
  obtain ⟨decl, hfield⟩ := hgood.fields.declared hf
  have hfixes := hgood.fixed hkind f hf
  have hfixed := (hfield.sized.isFixed_iff hs.compiler.good).mpr hfixes
  obtain ⟨n, hn⟩ := SizeRange.isFixed_iff.mp hfixed
  have hwidth : f.size = .fixed f.width := by rw [BoundField.width, hn]; rfl
  refine ⟨hwidth, by rw [hfield.sized.eq_sizeIn hfixed, hwidth], ?_, fun p marker he => ?_⟩
  · rw [Bool.eq_false_iff]
    intro hgoverns
    -- a field that it decides the size of would not be of fixed size itself
    obtain ⟨g, hg, hgovernor⟩ := (hgood.fields.governs_iff hf).mp hgoverns
    have hfixes' := hgood.fixed hkind g hg
    cases hge : g.encoding with
    | sized governor =>
      rw [hge] at hfixes'
      cases hfixes'
    | array element governor =>
      rw [hge] at hfixes'
      cases hfixes'
    | _ =>
      rw [hge] at hgovernor
      cases hgovernor
  · rcases hfield.encoding with hbound | ⟨width, width', -, hforced⟩
    · -- only values are placed, and at a fixed width they are placed by a fixed rule
      rw [he] at hbound
      unfold boundEncoding? at hbound
      cases hshape : decl.shape with
      | value type rule =>
        rw [hshape] at hbound
        obtain ⟨q, hplace, hq⟩ := Option.map_eq_some_iff.mp hbound
        cases hq
        have hrule : (l.kind.placementRule rule).isFixed = true := by
          cases hk : l.kind with
          | standard =>
            rw [hk] at hkind
            cases hkind
          | _ => rfl
        exact ((hs.compiler.good.placements _ _ _ hplace).fixed hrule).1.isRigid
      | sized size =>
        rw [hshape] at hbound
        simp only [hkind, if_true] at hbound
        cases hbound
      | varint =>
        rw [hshape] at hbound
        simp only [hkind, if_true] at hbound
        cases hbound
      | array element count =>
        rw [hshape] at hbound
        simp only [hkind, if_true] at hbound
        cases hbound
      | _ =>
        rw [hshape] at hbound
        cases hbound
    · rw [he] at hforced
      cases hforced

/-- A layout of fixed width is as long as its fields. -/
theorem Workspace.Knows.size_packed {w : Workspace} {l : Layout} (hl : w.Knows l) (hs : w.Sound)
    (hkind : l.kind.isFixed = true) : l.size = .fixed (l.offset l.fields.length) := by
  have hgood := hl.good hs
  -- every field has a fixed width, and the sum is one of the sizes within the range
  have hcontains : l.size.contains (l.fields.map (·.width)).sum = true := by
    rw [hgood.size]
    refine SizeRange.contains_sum ?_
    rw [List.forall₂_map_left_iff, List.forall₂_map_right_iff, List.forall₂_same]
    intro f hf
    rw [(hl.packed hs hkind hf).size]
    exact SizeRange.contains_fixed.mpr rfl
  have hfixed : l.size.isFixed = true := by
    rw [hgood.size]
    refine SizeRange.isFixed_sum_of_all fun range hrange => ?_
    obtain ⟨f, hf, rfl⟩ := List.mem_map.mp hrange
    rw [(hl.packed hs hkind hf).size]
    rfl
  obtain ⟨n, hn⟩ := SizeRange.isFixed_iff.mp hfixed
  rw [hn, SizeRange.contains_fixed] at hcontains
  rw [hn, Layout.offset, List.take_length, hcontains]

/-! ## Moving past fields -/

section

variable {τ : Type} {s s' : Scene τ} {u : Unit} {l : Layout} {m : Nat}

theorem passBytes_passes (hc : s.stream.Coherent) (h : (passBytes m : Op τ Unit) s = .ok u s') :
    s' = { s with stream := s.stream.ahead m } := by
  obtain ⟨b, hskip, rfl⟩ := Op.stream_ok.mp h
  obtain ⟨-, -, -, rfl⟩ := skip_ok hc hskip
  rfl

/-- The chunk of a handle of fixed width. -/
theorem skipHandle_passes (hc : s.stream.Coherent)
    (h : (readHandleChunk true >>= fun _ => pure () : Op τ Unit) s = .ok u s') :
    s'.stream = s.stream.ahead ChunkId.fixedBytes := by
  obtain ⟨chunk, t, hread, hpure⟩ := bind_ok.mp h
  obtain ⟨-, rfl⟩ := pure_ok.mp hpure
  obtain ⟨n, t, hword, hpure⟩ := bind_ok.mp (show (readChunkId : Op τ ChunkId) s = _ from hread)
  obtain ⟨-, rfl⟩ := pure_ok.mp hpure
  obtain ⟨b, hbytes, rfl⟩ := Op.stream_ok.mp hword
  obtain ⟨c, -, hlen, -, rfl⟩ := readU64_ok hc hbytes
  rw [hlen]
  rfl

theorem readMarker_passes {present : Bool} (hc : s.stream.Coherent)
    (h : (readMarker : Op τ Bool) s = .ok present s') :
    s' = { s with stream := s.stream.ahead 1 } := by
  obtain ⟨byte, t, hread, h⟩ := bind_ok.mp h
  obtain ⟨b, hbyte, rfl⟩ := Op.stream_ok.mp hread
  obtain ⟨-, rfl⟩ := readByte_ok hc hbyte
  rcases ite_ok.mp h with ⟨-, h⟩ | ⟨-, h⟩
  · exact (pure_ok.mp h).2.symm
  · rcases ite_ok.mp h with ⟨-, h⟩ | ⟨-, h⟩
    · exact (pure_ok.mp h).2.symm
    · exact (throw_ok.mp h).elim

/-- Fields of fixed size in a row are passed in one step. -/
theorem skipSteps_packed {fields : List BoundField} (run place : Nat)
    (h : ∀ f ∈ fields, f.governs = false ∧ f.size = .fixed f.width) :
    skipSteps run place fields = skipSteps.flush (run + (fields.map (·.width)).sum) := by
  induction fields generalizing run place with
  | nil => rfl
  | cons f rest ih =>
    obtain ⟨hgoverns, hsize⟩ := h f List.mem_cons_self
    rw [skipSteps, hgoverns, hsize]
    simp only [Bool.false_eq_true, if_false]
    rw [ih _ _ fun g hg => h g (List.mem_cons_of_mem _ hg), List.map_cons, List.sum_cons,
      Nat.add_assoc]

/-- A record in a layout of fixed width is passed by its size. -/
theorem skipRecordWith_passes {readIn : ReadIn} {skipIn : Placement → Op τ Unit}
    (hs : s.space.Sound) (hl : s.space.Knows l) (hkind : l.kind.isFixed = true)
    (hc : s.stream.Coherent) (h : skipRecordWith readIn skipIn l s = .ok u s') :
    s' = { s with stream := s.stream.ahead (l.offset l.fields.length) } := by
  have hsteps : l.skips = skipSteps.flush (l.offset l.fields.length) := by
    rw [(hl.good hs).skips, skipSteps_packed 0 0 fun f hf =>
      ⟨(hl.packed hs hkind hf).governs, (hl.packed hs hkind hf).size⟩, Nat.zero_add, Layout.offset,
      List.take_length]
  rw [skipRecordWith, hsteps, skipSteps.flush] at h
  split at h
  · rename_i hzero
    obtain ⟨-, rfl⟩ := pure_ok.mp h
    rw [hzero, ahead_zero]
  · obtain ⟨_, t, hpass, hrest⟩ := bind_ok.mp h
    obtain ⟨-, rfl⟩ := pure_ok.mp hrest
    exact passBytes_passes hc hpass

/-- A record whose layout of fixed width is asked for first. -/
theorem skipInner_passes {readIn : ReadIn} {skipIn : Placement → Op τ Unit} {id : SchemaId}
    (hs : s.space.Sound) (hc : s.stream.Coherent)
    (hfix : (s.space.compiler.answer (id, .fixed)).elim (SizeRange.atLeast 0) (·.size) = .fixed m)
    (h : skipInner readIn skipIn (SpaceM.layout id .fixed) s = .ok u s') :
    s'.stream = s.stream.ahead m := by
  obtain ⟨l, t, hask, hskip⟩ := bind_ok.mp h
  obtain ⟨w, hlayout, rfl⟩ := Op.space_ok.mp hask
  obtain ⟨hw, hlearns, hl⟩ := layout_learning hs id .fixed l w hlayout
  obtain ⟨hknows, hkey⟩ := hw.knows hl
  have hkind : l.kind.isFixed = true := by
    rw [show l.kind = .fixed from congrArg Prod.snd hkey]
    rfl
  have hpassed := skipRecordWith_passes (s := ⟨w, s.stream, s.subject⟩) hw hknows hkind hc hskip
  rw [hpassed]
  -- the size of the slot is known, so the layout has been answered before
  cases hknown : s.space.compiler.answer (id, .fixed) with
  | none =>
    rw [hknown] at hfix
    cases hfix
  | some l' =>
    rw [hlearns.compiler.answer hknown, Option.some.injEq] at hl
    rw [hknown, Option.elim_some, hl, hknows.size_packed hw hkind] at hfix
    cases hfix
    rfl

/-- A value in a rigid place is passed by the size of the place. -/
theorem skipWithin_passes {depth : Nat} {p : Placement} (hs : s.space.Sound)
    (hc : s.stream.Coherent) (hrigid : p.isRigid = true)
    (hfix : p.sizeIn s.space.compiler = .fixed m) (h : skipWithin depth p s = .ok u s') :
    s'.stream = s.stream.ahead m := by
  cases depth with
  | zero => exact (throw_ok.mp h).elim
  | succ depth =>
    -- the placements that vary in size are excluded by `hrigid`; records in place and handles are
    -- passed by reading
    cases p with
    | fixedRecord id => exact skipInner_passes hs hc hfix h
    | wrapped wrapper carrier kind =>
      cases kind with
      | fixed => exact skipInner_passes hs hc hfix h
      | _ => cases hrigid
    | handle id fixed =>
      cases fixed with
      | true =>
        cases hfix
        exact skipHandle_passes hc h
      | false => cases hrigid
    | inlineText => cases hrigid
    | inlineRecord id => cases hrigid
    | inlineChoice choice => cases hrigid
    | inlineOpen => cases hrigid
    | _ =>
      cases hfix
      rw [passBytes_passes hc h]

/-- A field is passed by its width, whatever stands there. -/
theorem skipFieldWith_passes {depth : Nat} {f : BoundField} {governing : Option Record}
    (hs : s.space.Sound) (hf : FieldPacked s.space.compiler f) (hc : s.stream.Coherent)
    (h : skipFieldWith (skipWithin depth) f governing s = .ok u s') :
    s'.stream = s.stream.ahead f.width := by
  have hseen := hf.seen
  rw [skipFieldWith, Op.inField_ok] at h
  cases he : f.encoding with
  | sized governor =>
    -- such fields are of no fixed size
    rw [he] at hseen
    exact absurd hseen (SizeRange.bounded_ne_fixed (by decide))
  | varint =>
    rw [he] at hseen
    exact absurd hseen (SizeRange.bounded_ne_fixed (by decide))
  | array element governor =>
    rw [he] at hseen
    cases hseen
  | placed p marker =>
    simp only [he] at h
    rw [he] at hseen
    have hrigid := hf.rigid p marker he
    cases marker with
    | false =>
      exact skipWithin_passes hs hc hrigid hseen h
    | true =>
      obtain ⟨j, hj, hwidth⟩ := Encoding.sizeIn_marked hseen
      obtain ⟨present, t, hmarker, h⟩ := bind_ok.mp h
      obtain rfl := readMarker_passes hc hmarker
      have hc₁ : (s.stream.ahead 1).Coherent := coherent_setPosition hc _
      have hend : s'.stream = (s.stream.ahead 1).ahead j := by
        rcases ite_ok.mp h with ⟨-, h⟩ | ⟨-, h⟩
        · exact skipWithin_passes (s := ⟨s.space, s.stream.ahead 1, s.subject⟩) hs hc₁ hrigid hj h
        · -- an absent value leaves the room that it would take
          obtain ⟨size, t, hask, h⟩ := bind_ok.mp h
          obtain ⟨w, hsize, rfl⟩ := Op.space_ok.mp hask
          obtain ⟨-, hlearns, rfl, -⟩ := inlineSize_learning hs p _ _ hsize
          rw [Placement.sizeIn_fixed hlearns.compiler hj] at h
          rw [passBytes_passes (s := ⟨w, s.stream.ahead 1, s.subject⟩) hc₁ h]
          rfl
      rw [hend, ahead_ahead, hwidth]
  | _ =>
    simp only [he] at h
    rw [he] at hseen
    rw [passBytes_passes hc h, Encoding.ownSize, ← SizeRange.fixed.inj hseen]

end

/-! ## Fields in a row -/

/-- Nothing outside of the fields that are taken has changed of what a stream shows, and it is as long
as it was. -/
structure Layout.Keeps (l : Layout) (taken : List BoundField) (front : Nat) (b b' : ByteStream) :
    Prop where
  coherent : b'.Coherent
  length : b'.shown.length = b.shown.length
  others : ∀ i, ¬l.Spans taken front i → byteAt b'.shown i = byteAt b.shown i

section

variable {w : Workspace} {l : Layout} {taken : List BoundField} {front : Nat}
  {b b' b'' : ByteStream} {s s' : Scene Record} {u : Unit}

theorem Layout.Keeps.of_shown (hcoherent : b'.Coherent) (hshown : b'.shown = b.shown) :
    l.Keeps taken front b b' :=
  ⟨hcoherent, by rw [hshown], fun i _ => by rw [hshown]⟩

theorem Layout.Keeps.trans (h : l.Keeps taken front b b') (h' : l.Keeps taken front b' b'') :
    l.Keeps taken front b b'' :=
  ⟨h'.coherent, h'.length.trans h.length, fun i hi => (h'.others i hi).trans (h.others i hi)⟩

/-- Bytes put over a field that is taken. -/
theorem Layout.Keeps.of_puts {before fields : List BoundField} {f : BoundField} {data : Bytes}
    (hfields : l.fields = before ++ f :: fields) (hf : f ∈ taken)
    (hposition : b.position = front + l.offset before.length)
    (hroom : front + l.offset l.fields.length ≤ b.shown.length) (hlength : data.length = f.width)
    (h : b.Puts data b') : l.Keeps taken front b b' := by
  have htotal : l.offset before.length + f.width ≤ l.offset l.fields.length := by
    rw [Layout.offset_of_split hfields, Layout.offset, List.take_length, hfields, List.map_append,
      List.sum_append, List.map_cons, List.sum_cons]
    omega
  refine ⟨h.coherent, ?_, fun i hi => ?_⟩
  · rw [h.shown, length_spliced]
    omega
  · rw [h.shown, byteAt_spliced, if_neg]
    rintro ⟨hlow, hhigh⟩
    refine hi ⟨before.length, f, ?_, hf, by omega, by omega⟩
    rw [Layout.at?_eq_some, hfields, List.getElem?_append_right (Nat.le_refl _), Nat.sub_self]
    rfl

/-- A field that is written takes its width. -/
theorem writeField_keeps {f : BoundField} (hs : w.Sound) (hl : w.Knows l)
    (hkind : l.kind.isFixed = true) (hf : f ∈ l.fields) (hspace : s.space.Sound)
    (hle : w.Le s.space) (hw : s.stream.Writable) (h : writeField f s = .ok u s') :
    s'.space.Sound ∧ s.space.Le s'.space ∧
      ∃ data, data.length = f.width ∧ s.stream.Puts data s'.stream := by
  obtain ⟨r, t, hsubject, hwrite⟩ := bind_ok.mp h
  obtain ⟨rfl, rfl⟩ := Op.subject_ok.mp hsubject
  obtain ⟨k, hsized⟩ := writeFieldWith_sized (writeWithin_sized _) hwrite hspace
  obtain ⟨data, hlength, hputs⟩ := hsized.moved.stream.puts hw
  obtain ⟨decl, hgood⟩ := (hl.good hs).fields.declared hf
  have hlater := hle.trans hsized.moved.le
  have hcontains := hsized.takes.contains (hgood.grows hlater.compiler)
  rw [(hl.packed hs hkind hf).size, SizeRange.contains_fixed] at hcontains
  exact ⟨hsized.moved.sound, hsized.moved.le, data, hlength.trans hcontains, hputs⟩

/-- Fields in a row, of which some are written and the others passed. -/
theorem writeWanted_keeps {depth : Nat} (hs : w.Sound) (hl : w.Knows l)
    (hkind : l.kind.isFixed = true) (htaken : taken ⊆ l.fields) {governing : Option Record}
    {before fields wanted : List BoundField} (hfields : l.fields = before ++ fields)
    (hwanted : wanted ⊆ taken) (h : writeWanted depth l governing fields wanted s = .ok u s')
    (hspace : s.space.Sound) (hle : w.Le s.space) (hw : s.stream.Writable)
    (hposition : s.stream.position = front + l.offset before.length)
    (hroom : front + l.offset l.fields.length ≤ s.stream.shown.length) :
    l.Keeps taken front s.stream s'.stream := by
  have hgood := hl.good hs
  -- the walk is split at the field: what is before it decides the cursor, what is from it on
  -- decides the rest
  induction fields generalizing before wanted governing s with
  | nil =>
    cases wanted with
    | nil =>
      obtain ⟨-, rfl⟩ := pure_ok.mp h
      exact .of_shown hw.coherent rfl
    | cons first wanted => exact (throw_ok.mp h).elim
  | cons f fields ih =>
    cases wanted with
    | nil =>
      obtain ⟨-, rfl⟩ := pure_ok.mp h
      exact .of_shown hw.coherent rfl
    | cons first wanted =>
      have hf : f ∈ l.fields := by rw [hfields]; simp
      have hpacked := hl.packed hs hkind hf
      have hnext : l.fields = (before ++ [f]) ++ fields := by rw [hfields]; simp
      have hoffset : l.offset (before ++ [f]).length = l.offset before.length + f.width := by
        rw [Layout.offset_of_split hnext, Layout.offset_of_split hfields, List.map_append,
          List.sum_append, List.map_singleton, List.sum_singleton]
      rw [writeWanted] at h
      rcases ite_ok.mp h with ⟨hslot, h⟩ | ⟨-, h⟩
      · -- the field is written, and the stream is not cut
        obtain ⟨hmem, hrest⟩ := List.cons_subset.mp hwanted
        obtain rfl := List.inj_on_of_nodup_map hgood.fields.slots_nodup (htaken hmem) hf hslot
        obtain ⟨_, s₁, hwrite, h⟩ := bind_ok.mp h
        rw [hl.size_packed hs hkind] at h
        simp only [SizeRange.isFixed, Bool.not_true, Bool.and_false, Bool.false_eq_true,
          if_false] at h
        obtain ⟨hspace₁, hle₁, data, hlength, hputs⟩ :=
          writeField_keeps hs hl hkind hf hspace hle hw hwrite
        have hkept := Layout.Keeps.of_puts hfields hmem hposition hroom hlength hputs
        refine hkept.trans (ih hnext hrest h hspace₁ (hle.trans hle₁) hputs.writable ?_ ?_)
        · rw [hputs.position, hposition, hlength, hoffset, Nat.add_assoc]
        · rw [hkept.length]
          exact hroom
      · rw [hpacked.governs] at h
        simp only [Bool.false_eq_true, if_false] at h
        obtain ⟨_, s₁, hskip, h⟩ := bind_ok.mp h
        have hreads : (skipFieldWith (skipWithin depth) f governing : Op Record Unit).Reads True :=
          skipFieldWith_reads (skipWithin_reads depth) f governing
        obtain ⟨hspace₁, hlearns⟩ := hreads.learns s _ s₁ hskip hspace
        have hpassed := skipFieldWith_passes hspace
          ((hl.mono hle).packed hspace hkind hf) hw.coherent hskip
        have hshown : s₁.stream.shown = s.stream.shown := by rw [hpassed, shown_ahead]
        have hmoved : s₁.stream.position = front + l.offset (before ++ [f]).length := by
          rw [hpassed, position_ahead, hposition, hoffset, Nat.add_assoc]
        have hcoherent : s₁.stream.Coherent := by
          rw [hpassed]
          exact coherent_setPosition hw.coherent _
        have hinside : s₁.stream.position ≤ s₁.stream.shown.length := by
          have hbefore := Layout.offset_le hnext
          rw [hshown]
          omega
        refine (Layout.Keeps.of_shown hcoherent hshown).trans (ih hnext hwanted h hspace₁
          (hle.trans hlearns.toLe) ⟨hcoherent, hinside⟩ hmoved ?_)
        rw [hshown]
        exact hroom

/-! ## Partial writes -/

/-- A partial write keeps to the fields that it writes wherever there is room for a record. -/
theorem writePlanned_keeps {plan : Plan} (hs : s.space.Sound) (hl : s.space.Knows l)
    (hkind : l.kind.isFixed = true) (hplan : plan.Of l) (hcoherent : s.stream.Coherent)
    (hroom : s.stream.position + l.offset l.fields.length ≤ s.stream.shown.length)
    (h : writePlanned l plan s = .ok u s') :
    l.Keeps plan.write s.stream.position s.stream s'.stream := by
  have hfields := (hl.good hs).fields
  have htaken := (hplan.writes hfields.slots_nodup).sublist.subset
  obtain ⟨y, v, b, t, hwalked⟩ := writePlanned_ok h hs
    (fun f hf => hfields.declared (htaken (List.mem_of_mem_filter hf))) hcoherent
  have hwritable : b.Writable := by
    refine ⟨hwalked.coherent, ?_⟩
    rw [hwalked.position, hwalked.shown]
    omega
  have hkept := writeWanted_keeps hs hl hkind htaken (List.nil_append _).symm (List.Subset.refl _)
    hwalked.run hwalked.sound hwalked.le hwritable
    (show b.position = s.stream.position + l.offset 0 by
      rw [hwalked.position, Layout.offset, List.take_zero]
      rfl)
    (by rw [hwalked.shown]; exact hroom)
  -- what the walk has done, held back or not, is what the stream shows in the end
  obtain ⟨hend, hshown⟩ := hwalked.stream hkept.coherent
  exact ((Layout.Keeps.of_shown hwalked.coherent hwalked.shown).trans hkept).trans
    (.of_shown hend hshown)

/-- A record in a layout stands at the cursor as a write has put it into a stream of its own, with any
bytes before and behind it. -/
def StoredHere (l : Layout) (b : ByteStream) : Prop :=
  ∃ (t t' : Scene Record) (front behind : Bytes), t.space.Sound ∧ t.space.Knows l ∧
    t.stream = .empty ∧ writeRecord l t = .ok () t' ∧
      b.shown = front ++ t'.stream.shown ++ behind ∧ b.position = front.length

/-- Where a record is stored, there is room for one. -/
theorem StoredHere.room (h : StoredHere l b) (hkind : l.kind.isFixed = true) :
    b.position + l.offset l.fields.length ≤ b.shown.length := by
  obtain ⟨t, t', front, behind, hs, hl, hempty, hrun, hshown, hposition⟩ := h
  obtain ⟨k, hsized⟩ := writeRecord_size hs hl hrun
  obtain rfl : l.offset l.fields.length = k :=
    SizeRange.fixed.inj ((hl.size_packed hs hkind).symm.trans (hsized.fixed hkind))
  have hwritable : t.stream.Writable := by
    rw [hempty]
    exact ⟨trivial, Nat.le_refl _⟩
  obtain ⟨data, hlength, hputs⟩ := hsized.written.puts hwritable
  have hlong : data.length ≤ t'.stream.shown.length := by
    rw [hputs.shown, length_spliced]
    omega
  rw [hshown, hposition, List.length_append, List.length_append]
  omega

/-- A partial write of a stored record in a layout of fixed width keeps to the fields that it writes: the
stream is as long as it was, and shows the same bytes everywhere else, before, behind and in between. -/
theorem writePlanned_packed {plan : Plan} (hs : s.space.Sound) (hl : s.space.Knows l)
    (hkind : l.kind.isFixed = true) (hplan : plan.Of l) (hcoherent : s.stream.Coherent)
    (hstored : StoredHere l s.stream) (h : writePlanned l plan s = .ok () s') :
    s'.stream.shown.length = s.stream.shown.length ∧
      ∀ i, ¬l.Spans plan.write s.stream.position i →
        byteAt s'.stream.shown i = byteAt s.stream.shown i := by
  have hkept := writePlanned_keeps hs hl hkind hplan hcoherent (hstored.room hkind) h
  exact ⟨hkept.length, hkept.others⟩

end

/-! ## Readings -/

/-- A number, a level that may be absent and a note. -/
def readings : Catalog :=
  ⟨[⟨⟨"Reading", .managed, [⟨"number", .varint, false, [], none⟩,
    ⟨"level", .value (.scalar .u8) .flexible, true, [], none⟩,
    ⟨"note", .value .text .flexible, true, [], none⟩]⟩, true⟩], [], []⟩

/-- The question for their layout of fixed width. -/
def askReadings : SpaceM Layout := SpaceM.layout ⟨0, 0⟩ .fixed

/-- This layout. -/
def readingLayout : Layout := (answer? askReadings (.fresh readings .standard none)).getD default

/-- A reading. -/
def reading (number : UInt64) (level : Value) : Record :=
  ⟨⟨0, 0⟩, [.scalar (.u64 number), level, .null], [.null, .null, .null]⟩

/-- A reading without a level that is to be written to a stream of its own. -/
def readingScene : Scene Record :=
  ⟨after askReadings (.fresh readings .standard none), .empty, reading 5 .null⟩

/-- What is left after writing it. -/
def readingWritten : Scene Record := after (writeRecord readingLayout) readingScene

/-- The reading stands between other bytes, and has a level now. -/
def readingAssigned : Scene Record :=
  ⟨readingWritten.space, .memory ([1, 2] ++ readingWritten.stream.shown ++ [3]) 2,
    reading 6 (.scalar (.u8 9))⟩

theorem reading_runs : (answer? askReadings (.fresh readings .standard none)).isSome = true ∧
    (answer? (writeRecord readingLayout) readingScene).isSome = true ∧
    (answer? (writePlanned readingLayout (.one readingLayout 0)) readingAssigned).isSome = true ∧
    readingLayout.kind = .fixed ∧
    (readingLayout.fields.map fun f => (f.name, f.width)) =
      [("level", 2), ("note", 8), ("number", 8)] ∧
    (Plan.one readingLayout 0).write.map (·.name) = ["level"] := by decide +kernel

theorem readings_closed : readings.Closed := by decide

/-- The level is written over the one in the stored reading, and nothing else is. -/
theorem writePlanned_packed_reading : ∃ s', writePlanned readingLayout (.one readingLayout 0)
      readingAssigned = .ok () s' ∧
    s'.stream.shown.length = readingAssigned.stream.shown.length ∧
      ∀ i, ¬readingLayout.Spans (Plan.one readingLayout 0).write readingAssigned.stream.position i →
        byteAt s'.stream.shown i = byteAt readingAssigned.stream.shown i := by
  obtain ⟨hasked, hwrites, hupdates, hkind, hfields, -⟩ := reading_runs
  obtain ⟨l, hask, hl⟩ := runs_to_after hasked
  have hlayout : readingLayout = l := by rw [readingLayout, hl, Option.getD_some]
  obtain ⟨hs, -, hknows⟩ := SpaceM.layout_sound (Workspace.sound_fresh readings_closed _ _) hask
  rw [← hlayout] at hknows
  obtain ⟨_, hwrite, -⟩ := runs_to_after hwrites
  obtain ⟨_, hupdate, -⟩ := runs_to_after hupdates
  -- the reading's first field is the one replaced
  have hplaces : 0 < readingLayout.fields.length := by
    have hlength := congrArg List.length hfields
    rw [List.length_map] at hlength
    rw [hlength]
    decide
  obtain ⟨k, ⟨hmoved, -, -⟩⟩ := writeRecord_sized hs hknows hwrite
  exact ⟨_, hupdate, writePlanned_packed hmoved.sound (hknows.mono hmoved.le)
    (by rw [hkind]; rfl) (.one hplaces) trivial
    ⟨readingScene, readingWritten, [1, 2], [3], hs, hknows, rfl, hwrite, rfl, rfl⟩ hupdate⟩

end RecordLayout
