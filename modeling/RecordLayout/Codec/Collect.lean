import RecordLayout.Codec.Skip

/-!
# Collecting chunks

A walk over a stored record finds every chunk that it refers to, directly or through other chunks,
in the order in which the references stand. On request the references of the record itself are
cleared as they are found; those inside other chunks stay.

* `collectRecord` — the chunks of one record;
* `collectField` — the chunks of one field;
* `collectPlaced` — the chunks of one value in its placement.
-/

namespace RecordLayout

/-- A way to find the chunks of a value in its placement, and to clear its references or not. -/
abbrev CollectIn (τ : Type) := Bool → Placement → Op τ (List ChunkId)

section

variable {τ : Type}

/-! ## References -/

/-- Overwrites what was read since `start`. -/
def overwriteSince (start : Nat) (bytes : Bytes) : Op τ Unit := do
  let stop ← Op.position
  Op.setPosition start
  Op.write bytes
  Op.setPosition stop

/-- The number zero in `n` bytes of variable length. -/
def paddedZero (n : Nat) : Bytes := List.replicate (n - 1) 0x80 ++ [0]

/-- The chunk that a reference leads to, with those that a walk over it finds. -/
def chunkAndInner (chunk : ChunkId) (walk : Op τ (List ChunkId)) : Op τ (List ChunkId) := do
  let inner ← withChunk chunk walk
  pure (chunk :: inner)

/-- The chunks behind a reference of fixed width. -/
def collectBehind (clear : Bool) (walk : Op τ (List ChunkId)) : Op τ (List ChunkId) := do
  let start ← Op.position
  let chunk ← readChunkId
  if chunk.isNull then pure []
  else do
    let found ← chunkAndInner chunk walk
    if clear then overwriteSince start (List.replicate ChunkId.fixedBytes 0)
    pure found

/-- The chunks behind a tagged reference. -/
def collectTagged (clear : Bool) (walk : Nat → Op τ (List ChunkId)) : Op τ (List ChunkId) := do
  let start ← Op.position
  let tag ← Op.stream ByteSource.readU32
  let chunk ← readChunkId
  if tag = 0 || chunk.isNull then pure []
  else do
    let found ← chunkAndInner chunk (walk tag)
    if clear then overwriteSince start (List.replicate Placement.taggedBytes 0)
    pure found

/-- The chunks behind a handle to a record. A cleared handle is a padded zero of variable length, so
that everything after it stays where it is. -/
def collectHandle (fixed clear : Bool) (layout : SpaceM Layout)
    (walk : Layout → Op τ (List ChunkId)) : Op τ (List ChunkId) := do
  let start ← Op.position
  let chunk ← readHandleChunk fixed
  if chunk.isNull then pure []
  else do
    let l ← Op.space layout
    let found ← chunkAndInner chunk (walk l)
    let stop ← Op.position
    if clear then overwriteSince start (paddedZero (stop - start))
    pure found

/-! ## Fields and records -/

/-- Moves past a field that holds no references; a field that decides sizes is read into the
subject. Values may be nested `depth` deep. -/
def passField (depth : Nat) (f : BoundField) : Op Record Unit := do
  if f.governs then readFieldWith (readWithin depth) f
  else do
    let r ← Op.subject
    skipFieldWith (skipWithin depth) f (some r)

/-- The chunks of one field, given how to find those of values, which may be nested `depth` deep.
The subject holds the fields read so far. -/
def collectFieldWith (depth : Nat) (collectIn : CollectIn Record) (clear : Bool) (f : BoundField) :
    Op Record (List ChunkId) := do
  let holds ← Op.compile (f.encoding.holdsChunks Compiler.layout)
  match f.encoding, holds with
  | .placed placement marker, true => Op.inField f do
    let present ← if marker then readMarker else pure true
    if present then collectIn clear placement
    else do
      let inline ← Op.compile (placement.inlineSize Compiler.layout)
      passBytes (inline.getD 0)
      pure []
  | _, _ => do
    passField depth f
    pure []

/-- The chunks of fields in a row. -/
def collectFieldsWith (depth : Nat) (collectIn : CollectIn Record) (clear : Bool) :
    List BoundField → Op Record (List ChunkId)
  | [] => pure []
  | f :: rest => do
    let first ← collectFieldWith depth collectIn clear f
    let others ← collectFieldsWith depth collectIn clear rest
    pure (first ++ others)

/-- The chunks of a record, given how to find those of values, which may be nested `depth` deep. -/
def collectRecordWith (depth : Nat) (collectIn : CollectIn Record) (clear : Bool) (l : Layout) :
    Op τ (List ChunkId) :=
  if l.holdsChunks then do
    let c ← Op.catalog
    let (found, _) ← Op.withSubject (c.newRecord l.schema)
      (collectFieldsWith depth collectIn clear l.fields)
    pure found
  else do
    skipRecordWith (readWithin depth) (skipWithin depth) l
    pure []

end

/-! ## Values -/

/-- The chunks of a value in its placement; values may be nested `depth` deep. -/
def collectWithin : Nat → {τ : Type} → CollectIn τ
  | 0, _, _, _ => throw .exhausted
  | depth + 1, _, clear, p =>
    let inside {υ : Type} : CollectIn υ := collectWithin depth
    let record (clear : Bool) (layout : SpaceM Layout) : Op _ (List ChunkId) := do
      let l ← Op.space layout
      collectRecordWith depth inside clear l
    match p with
    | .scalar _ | .inlineText => do
      skipWithin (depth + 1) p
      pure []
    | .chunkText => collectBehind clear (pure [])
    | .inlineRecord schema => record clear (SpaceM.layout schema .standard)
    | .fixedRecord schema => record clear (SpaceM.layout schema .fixed)
    | .wrapped _ carrier kind => record clear (SpaceM.layout carrier kind)
    | .chunkRecord schema => do
      let l ← Op.space (SpaceM.layout schema .standard)
      collectBehind clear (collectRecordWith depth inside false l)
    | .handle schema fixed =>
      collectHandle fixed clear (SpaceM.layout schema .standard)
        (collectRecordWith depth inside false)
    | .inlineChoice choice => do
      let tag ← readTag
      if tag = 0 then pure [] else record clear (SpaceM.variantLayout choice tag)
    | .chunkChoice choice => collectTagged clear fun tag =>
      record false (SpaceM.variantLayout choice tag)
    | .inlineOpen => do
      let id ← readTag
      if id = 0 then pure []
      else do
        let placement ← Op.space (SpaceM.openPlacement id)
        inside clear placement
    | .chunkOpen => collectTagged clear fun id => do
      let placement ← Op.space (SpaceM.openPlacement id)
      inside false placement

section

variable {τ : Type}

/-! ## Whole values -/

/-- The chunks of a value in its placement. -/
def collectPlaced (clear : Bool) (p : Placement) : Op τ (List ChunkId) := do
  let depth ← readDepth
  collectWithin depth clear p

/-- The chunks of one field; the subject holds the fields read so far. -/
def collectField (clear : Bool) (f : BoundField) : Op Record (List ChunkId) := do
  let depth ← readDepth
  collectFieldWith depth (collectWithin depth) clear f

/-- The chunks of a record. -/
def collectRecord (clear : Bool) (l : Layout) : Op τ (List ChunkId) := do
  let depth ← readDepth
  collectRecordWith depth (collectWithin depth) clear l

end

end RecordLayout
