import Mathlib
import RecordLayout.Proofs.Codec.Derive
import RecordLayout.Proofs.Codec.Write
import RecordLayout.Proofs.Format.Readable
import RecordLayout.Proofs.Value.Counted

/-!
# Sizes of counted copies

What an operation reads of a number is its count. So whatever succeeds for a record succeeds for its
counted copy as well, with the same result, and what it leaves is the counted copy of what it leaves
for the record. Here this is shown of the questions that are asked about records.

Main results:

* `Echoes.bind`, `Echoes.on`, `Echoes.rollback` — runs seen through a map of the states;
* `PlacementGood.carries`, `FieldGood.declares` — what compiled fields tell of declared ones;
* `fieldSizeWith_echoes`, `placedSizeWithin_echoes` — sizes, by induction on the depth.
-/

namespace RecordLayout

/-! ## Runs seen through a map -/

/-- Where the first operation succeeds, the second one does so from the image of the state, with the
same result, and ends in the image of the state that the first one leaves. -/
def Echoes {ε σ τ α : Type} (image : σ → τ) (act : EStateM ε σ α) (act' : EStateM ε τ α) (s : σ) :
    Prop :=
  ∀ a t, act s = .ok a t → act' (image s) = .ok a (image t)

/-- The scene around the image of a subject. -/
def Scene.image {τ υ : Type} (g : τ → υ) (s : Scene τ) : Scene υ := ⟨s.space, s.stream, g s.subject⟩

namespace Echoes

section

variable {ε σ τ α β : Type} {image : σ → τ} {s : σ}

/-- Returning a value echoes on every image. -/
theorem pure (a : α) : Echoes image (Pure.pure a : EStateM ε σ α) (Pure.pure a) s := by
  intro b t h
  obtain ⟨rfl, rfl⟩ := pure_ok.mp h
  rfl

/-- There is nothing to show of an operation that does not succeed. -/
theorem fails {act : EStateM ε σ α} {act' : EStateM ε τ α} (h : ∀ a t, ¬act s = .ok a t) :
    Echoes image act act' s :=
  fun a t hrun => absurd hrun (h a t)

/-- A refusal has nothing to echo. -/
theorem throw (e : ε) (act' : EStateM ε τ α) :
    Echoes image (MonadExcept.throw e : EStateM ε σ α) act' s :=
  fails fun _ _ hrun => throw_ok.mp hrun

/-- Echoes compose, each part from where the one before stopped. -/
theorem bind {act : EStateM ε σ α} {act' : EStateM ε τ α} {next : α → EStateM ε σ β}
    {next' : α → EStateM ε τ β} (h : Echoes image act act' s)
    (hnext : ∀ a t, act s = .ok a t → Echoes image (next a) (next' a) t) :
    Echoes image (act >>= next) (act' >>= next') s := by
  intro b u hrun
  obtain ⟨a, t, hact, hrest⟩ := bind_ok.mp hrun
  exact bind_ok.mpr ⟨a, image t, h a t hact, hnext a t hact b u hrest⟩

/-- A choice echoes when the branch taken does. -/
theorem ite {p : Prop} [Decidable p] {act next : EStateM ε σ α} {act' next' : EStateM ε τ α}
    (h : p → Echoes image act act' s) (hnext : ¬p → Echoes image next next' s) :
    Echoes image (if p then act else next) (if p then act' else next') s := by
  by_cases hp : p
  · rw [if_pos hp, if_pos hp]
    exact h hp
  · rw [if_neg hp, if_neg hp]
    exact hnext hp

/-- The same operation in the same state. -/
theorem same (act : EStateM ε σ α) : Echoes id act act s := fun _ _ h => h

end

/-! ## Operations -/

section

variable {τ υ α β : Type} {g : τ → υ} {s : Scene τ}

/-- What follows a question about the workspace. -/
theorem learn {γ : Type} {act act' : SpaceM γ} {w : Workspace} {next next' : γ → SpaceM α}
    {post : γ → Workspace → Prop} (h : Echoes id act act' w) (hlearn : Learning act w post)
    (hnext : ∀ a w', w'.Sound → w.Learns w' → post a w' → Echoes id (next a) (next' a) w') :
    Echoes id (act >>= next) (act' >>= next') w :=
  h.bind fun a w' hrun =>
    let ⟨hs, hlearns, hpost⟩ := hlearn a w' hrun
    hnext a w' hs hlearns hpost

/-- Work on the space echoes in every scene with that space. -/
theorem space {act act' : SpaceM α} (h : Echoes id act act' s.space) :
    Echoes (Scene.image g) (Op.space act) (Op.space act') s := by
  intro a t hrun
  obtain ⟨w, hact, rfl⟩ := Op.space_ok.mp hrun
  exact Op.space_ok.mpr ⟨w, h a w hact, rfl⟩

/-- Work on the stream does not see the subject. -/
theorem stream (act : StreamM ByteStream α) :
    Echoes (Scene.image g) (Op.stream act) (Op.stream act) s := by
  intro a t hrun
  obtain ⟨b, hact, rfl⟩ := Op.stream_ok.mp hrun
  exact Op.stream_ok.mpr ⟨b, hact, rfl⟩

/-- The cursor does not depend on the subject. -/
theorem position : Echoes (Scene.image g) Op.position Op.position s := by
  intro a t hrun
  obtain ⟨rfl, rfl⟩ := Op.position_ok.mp hrun
  rfl

/-- The configuration does not depend on the subject. -/
theorem config : Echoes (Scene.image g) Op.config Op.config s := by
  intro a t hrun
  obtain ⟨rfl, rfl⟩ := Op.config_ok.mp hrun
  rfl

/-- Cutting a stream off does not see the subject. -/
theorem cutHere : Echoes (Scene.image g) Op.cutHere Op.cutHere s := by
  intro a t hrun
  obtain rfl := Op.cutHere_ok.mp hrun
  rfl

/-- Two changes echo when the image of one is the other on the image. -/
theorem modifySubject {f : τ → τ} {f' : υ → υ} (h : f' (g s.subject) = g (f s.subject)) :
    Echoes (Scene.image g) (Op.modifySubject f) (Op.modifySubject f') s := by
  intro a t hrun
  obtain rfl := Op.modifySubject_ok.mp hrun
  exact Op.modifySubject_ok.mpr (by rw [Scene.image, Scene.image, h])

/-- What is done with the subject is done with its image. -/
theorem subject {next : τ → Op τ α} {next' : υ → Op υ α}
    (h : Echoes (Scene.image g) (next s.subject) (next' (g s.subject)) s) :
    Echoes (Scene.image g) (Op.subject >>= next) (Op.subject >>= next') s :=
  fun a t hrun => h a t hrun

/-- What is asked about the declared types. -/
theorem catalog {next : Catalog → Op τ α} {next' : Catalog → Op υ α}
    (h : Echoes (Scene.image g) (next s.space.catalog) (next' s.space.catalog) s) :
    Echoes (Scene.image g) (Op.catalog >>= next) (Op.catalog >>= next') s :=
  fun a t hrun => h a t hrun

/-- Two new subjects echo when one is the image of the other. -/
theorem setSubject {x : τ} {y : υ} (h : y = g x) :
    Echoes (Scene.image g) (Op.setSubject x) (Op.setSubject y) s := by
  intro a t hrun
  obtain rfl := Op.setSubject_ok.mp hrun
  exact Op.setSubject_ok.mpr (by rw [h]; rfl)

/-- What is done with a part of the subject is done with the same part of its image. -/
theorem on {τ' υ' : Type} {g' : τ' → υ'} {p : Part τ τ'} {p' : Part υ υ'} {act : Op τ' α}
    {act' : Op υ' α} (hget : p'.get (g s.subject) = g' (p.get s.subject))
    (hset : ∀ a t, act ⟨s.space, s.stream, p.get s.subject⟩ = .ok a t →
      p'.set (g' t.subject) (g s.subject) = g (p.set t.subject s.subject))
    (h : Echoes (Scene.image g') act act' ⟨s.space, s.stream, p.get s.subject⟩) :
    Echoes (Scene.image g) (Op.on p act) (Op.on p' act') s := by
  intro a t hrun
  obtain ⟨t', hact, rfl⟩ := Op.on_ok.mp hrun
  refine Op.on_ok.mpr ⟨Scene.image g' t', ?_, ?_⟩
  · have himage := h a t' hact
    rwa [Scene.image, ← hget] at himage
  · rw [Scene.image, Scene.image, Scene.image, hset a t' hact]

/-- Naming the field in the error does not touch a success. -/
theorem inField (f : BoundField) {act : Op τ α} {act' : Op υ α}
    (h : Echoes (Scene.image g) act act' s) :
    Echoes (Scene.image g) (Op.inField f act) (Op.inField f act') s :=
  fun a t hrun => Op.inField_ok.mpr (h a t (Op.inField_ok.mp hrun))

/-- What is mended on failure is not part of an echo. -/
theorem onFailure (mend : τ → τ) (mend' : υ → υ) {act : Op τ α} {act' : Op υ α}
    (h : Echoes (Scene.image g) act act' s) :
    Echoes (Scene.image g) (Op.onFailure mend act) (Op.onFailure mend' act') s :=
  fun a t hrun => Op.onFailure_ok.mpr (h a t (Op.onFailure_ok.mp hrun))

/-- A frame echoes when its act does in the opened frame. -/
theorem rollback {act : Op τ α} {act' : Op υ α}
    (h : Echoes (Scene.image g) act act' { s with space := s.space.openScope }) :
    Echoes (Scene.image g) (RecordLayout.rollback act) (RecordLayout.rollback act') s := by
  intro a t hrun
  obtain ⟨u, hact, rfl⟩ := rollback_ok.mp hrun
  exact rollback_ok.mpr ⟨Scene.image g u, h a u hact, rfl⟩

/-- Work within a chunk echoes when it does on the chunk's content. -/
theorem withChunk {chunk : ChunkId} {act : Op τ α} {act' : Op υ α}
    (h : ∀ content, Echoes (Scene.image g) act act' { s with stream := .ofBytes content }) :
    Echoes (Scene.image g) (RecordLayout.withChunk chunk act)
      (RecordLayout.withChunk chunk act') s := by
  intro a t hrun
  obtain ⟨content, u, hcontent, hact, rfl⟩ := withChunk_ok.mp hrun
  exact withChunk_ok.mpr ⟨content, Scene.image g u, hcontent, h content a u hact, rfl⟩

/-- A transaction echoes when its act does on the open stream. -/
theorem inTransaction {act : Op τ α} {act' : Op υ α}
    (h : Echoes (Scene.image g) act act' { s with stream := s.stream.begin }) :
    Echoes (Scene.image g) (RecordLayout.inTransaction act)
      (RecordLayout.inTransaction act') s := by
  intro a t hrun
  obtain ⟨u, b, hact, hcommit, rfl⟩ := inTransaction_ok.mp hrun
  exact inTransaction_ok.mpr ⟨Scene.image g u, b, h a u hact, hcommit, rfl⟩

/-- A fresh chunk's filling echoes from the store with the chunk in it. -/
theorem allocateWith {hint : Nat} {fill : Op τ Unit} {fill' : Op υ Unit}
    (h : ∀ heap content, heap.store = s.space.store.allocate.2 → Echoes (Scene.image g) fill fill'
      ⟨Workspace.openScope { s.space with heap }, .ofBytes content, s.subject⟩) :
    Echoes (Scene.image g) (RecordLayout.allocateWith hint fill)
      (RecordLayout.allocateWith hint fill') s := by
  intro chunk t hrun
  rw [RecordLayout.allocateWith] at hrun
  split at hrun
  · cases hrun
  · rename_i found heap hfound
    -- both sides allocate in the same store, whatever is asked for
    have hstore : heap.store = s.space.store.allocate.2 := by
      rw [Allocator.allocate] at hfound
      split at hfound <;> cases hfound
      rfl
    split at hrun
    · rename_i t hfill
      cases hrun
      have himage := rollback (withChunk fun content => h heap content hstore) _ _ hfill
      have hspace : (Scene.image g s).space = s.space := rfl
      simp only [RecordLayout.allocateWith, hspace, hfound]
      rw [show ({ Scene.image g s with space := { s.space with heap } } : Scene υ) =
        Scene.image g { s with space := { s.space with heap } } from rfl, himage]
      rfl
    · cases hrun

end

end Echoes

/-! ## Declared numbers -/

/-- A wrapped value is placed as the records that its wrapper carries. -/
def Placement.Carries (cat : Catalog) : Placement → Prop
  | .wrapped wrapper carrier _ => carrier = (cat.wrapper wrapper).carrier
  | _ => True

/-- A field that does not count is not declared as a number, and what is placed in it is placed as the
catalog says. -/
structure BoundField.Declared (cat : Catalog) (schema : SchemaId) (f : BoundField) : Prop where
  plain : f.encoding.isCount = false → cat.countsAt schema f.slot = false
  placed : ∀ p marker, f.encoding = .placed p marker → p.Carries cat

section

variable {cat : Catalog} {w : Workspace} {l : Layout} {f : BoundField} {r : Record}

/-- What is placed under a rule is placed as the catalog says. -/
theorem PlacementGood.carries {c : Compiler} {key : TypeKey} {rule : PlacementRule} {p : Placement}
    (h : PlacementGood c key rule p) : p.Carries c.catalog := by
  cases p with
  | wrapped wrapper carrier kind =>
    cases hfixed : rule.isFixed with
    | false => exact (Placement.flexible_wrapped (h.flexible hfixed)).1
    | true =>
      -- at a fixed rule only a wrapper's type is placed as wrapped
      have hp := (h.fixed hfixed).1
      cases key with
      | wrapper id =>
        cases hp
        rfl
      | record id =>
        rw [Placement.FixedFor] at hp
        split at hp
        · cases hp
        · rcases hp with hp | hp <;> cases hp
      | _ => cases hp
  | _ => trivial

/-- What is declared as a number is encoded as a count. -/
theorem boundEncoding?_isCount {c : Compiler} {schema : Schema} {kind : LayoutKind}
    {decl : FieldDecl} {e : Encoding} (h : boundEncoding? c schema kind decl = some e)
    (hnumber : decl.shape.isNumber = true) : e.isCount = true := by
  rw [boundEncoding?] at h
  -- only sized numbers and varints are numbers, and they are bound to counts
  cases hshape : decl.shape with
  | sized size =>
    simp only [hshape] at h
    split at h
    · cases h
      rfl
    · obtain ⟨i, -, rfl⟩ := Option.map_eq_some_iff.mp h
      rfl
  | varint =>
    simp only [hshape] at h
    obtain rfl := Option.some.inj h
    split <;> rfl
  | _ =>
    rw [hshape] at hnumber
    cases hnumber

/-- A value is placed as its type is. -/
theorem boundEncoding?_placed {c : Compiler} {schema : Schema} {kind : LayoutKind}
    {decl : FieldDecl} {p : Placement} {marker : Bool}
    (h : boundEncoding? c schema kind decl = some (.placed p marker)) :
    ∃ key rule, c.placementAnswer (key, rule) = some p := by
  -- only a value of some type is placed; all other shapes are bound to numbers, widths and arrays
  rw [boundEncoding?] at h
  cases hshape : decl.shape with
  | value type rule =>
    simp only [hshape] at h
    obtain ⟨q, hplace, hq⟩ := Option.map_eq_some_iff.mp h
    obtain ⟨rfl, -⟩ := Encoding.placed.inj hq
    exact ⟨_, _, hplace⟩
  | sized size =>
    simp only [hshape] at h
    split at h
    · cases h
    · obtain ⟨i, -, hi⟩ := Option.map_eq_some_iff.mp h
      cases hi
  | varint =>
    simp only [hshape] at h
    split at h <;> cases h
  | array element count =>
    simp only [hshape] at h
    split at h
    · cases h
    · obtain ⟨i, -, hi⟩ := Option.map_eq_some_iff.mp h
      cases hi
  | _ =>
    rw [hshape] at h
    cases h

/-- A good field is declared by the schema it is bound in. -/
theorem FieldGood.declares {kind : LayoutKind} {decl : FieldDecl} (hs : w.Sound)
    {schema : SchemaId} (h : FieldGood w.compiler (w.catalog.schema schema) kind decl f) :
    f.Declared w.catalog schema := by
  refine ⟨fun hplain => ?_, fun p marker he => ?_⟩
  · rw [Catalog.countsAt, h.declared, Option.any_some, Bool.eq_false_iff]
    intro hnumber
    -- a field forced to a width is a number too
    rcases h.encoding with hbound | ⟨_, _, -, hforced⟩
    · rw [boundEncoding?_isCount hbound hnumber] at hplain
      cases hplain
    · rw [hforced] at hplain
      cases hplain
  · rcases h.encoding with hbound | ⟨_, _, -, hforced⟩
    · rw [he] at hbound
      obtain ⟨key, rule, hplace⟩ := boundEncoding?_placed hbound
      exact (hs.compiler.good.placements _ _ _ hplace).carries
    · rw [he] at hforced
      cases hforced

/-- Every field of a known layout is declared by the layout's schema. -/
theorem Workspace.Knows.declares (hl : w.Knows l) (hs : w.Sound) :
    ∀ f ∈ l.fields, f.Declared w.catalog l.schema := by
  intro f hf
  obtain ⟨decl, hgood⟩ := (hl.good hs).fields.declared hf
  exact hgood.declares hs

/-! ## Slots -/

/-- A slot that is not declared as a number. -/
theorem RecordOf.slot_counted_plain (hschema : r.schema = l.schema)
    (hf : f.Declared cat l.schema) (hplain : f.encoding.isCount = false) :
    (r.counted cat).slot f.slot = (r.slot f.slot).counted cat := by
  rw [RecordOf.slot_counted, hschema, hf.plain hplain, Value.countedAs_false]

/-- A count is read the same before and after counting. -/
theorem countOf_echoes (r : Record) (i : Nat) :
    Echoes id (countOf (r.slot i)) (countOf ((r.counted cat).slot i)) w := by
  unfold countOf
  rw [RecordOf.slot_counted, Value.toNat?_countedAs]
  split
  · exact .pure _
  · exact .fails fun _ _ => mismatch_fails

/-- A width is read the same before and after counting. -/
theorem widthIn_echoes (r : Record) (i : Nat) :
    Echoes id (widthIn r i) (widthIn (r.counted cat) i) w := by
  unfold widthIn
  rw [RecordOf.slot_counted]
  cases hv : r.slot i with
  | width width => cases cat.countsAt r.schema i <;> exact .same _
  | _ => exact .fails fun _ _ => mismatch_fails

/-- The items of an array are the same before and after counting. -/
theorem itemsOf_echoes (r : Record) (i : Nat) :
    Echoes id (itemsOf (r.slot i)) (itemsOf ((r.counted cat).slot i)) w := by
  unfold itemsOf
  rw [RecordOf.slot_counted]
  cases hv : r.slot i with
  | list items => cases cat.countsAt r.schema i <;> exact .same _
  | _ => exact .fails fun _ _ => mismatch_fails

/-! ## Sizes -/

/-- Values are measured alike, as long as they are placed as the catalog says. -/
def SizesEcho (cat : Catalog) (sizeOf : SizeOf) : Prop :=
  ∀ p v (w : Workspace), w.Sound → w.catalog = cat → p.Carries cat →
    Echoes id (sizeOf p v) (sizeOf p (v.counted cat)) w

variable {sizeOf : SizeOf}

/-- A field measures the same once its record is counted. -/
theorem fieldSizeWith_echoes (hsize : SizesEcho cat sizeOf) (hf : f.Declared cat l.schema)
    (hschema : r.schema = l.schema) (hs : w.Sound) (hcat : w.catalog = cat) :
    Echoes id (fieldSizeWith sizeOf r f) (fieldSizeWith sizeOf (r.counted cat) f) w := by
  unfold fieldSizeWith
  cases he : f.encoding with
  | sized g => exact (widthIn_echoes r g).bind fun _ _ _ => .pure _
  | varint => exact (countOf_echoes r _).bind fun _ _ _ => .pure _
  | array element g => exact (itemsOf_echoes r _).bind fun _ _ _ => .pure _
  | placed p marker =>
    -- counting leaves a placed value as it is, so both sides measure the same value
    have hslot := RecordOf.slot_counted_plain hschema hf (by rw [he]; rfl)
    have hvalue := hsize p (r.slot f.slot) w hs hcat (hf.placed p marker he)
    cases marker with
    | true =>
      have hnull : ((r.counted cat).slot f.slot).isNull = (r.slot f.slot).isNull := by
        rw [RecordOf.slot_counted, Value.isNull_countedAs]
      dsimp only
      rw [hnull, hslot]
      exact .ite (fun _ => .same _) fun _ => hvalue.bind fun _ _ _ => .pure _
    | false =>
      dsimp only
      rw [hslot]
      exact hvalue
  | _ => exact .pure _

/-- A term of a layout's size measures the same once the record is counted. -/
theorem termSizeWith_echoes (hsize : SizesEcho cat sizeOf)
    (hl : ∀ f ∈ l.fields, f.Declared cat l.schema) (hschema : r.schema = l.schema) (hs : w.Sound)
    (hcat : w.catalog = cat) (term : SizeTerm) :
    Echoes id (termSizeWith sizeOf l r term) (termSizeWith sizeOf l (r.counted cat) term) w := by
  unfold termSizeWith
  cases term with
  | widths g count => exact (widthIn_echoes r g).bind fun _ _ _ => .pure _
  | strides g stride =>
    dsimp only
    rw [RecordOf.slot_counted, Value.toNat?_countedAs]
    split
    · exact .pure _
    · exact .fails fun _ _ => mismatch_fails
  | field place =>
    dsimp only
    by_cases hplace : place < l.fields.length
    · rw [List.getD_eq_getElem _ _ hplace]
      exact fieldSizeWith_echoes hsize (hl _ (List.getElem_mem hplace)) hschema hs hcat
    · -- no field, of a size of its own
      rw [List.getD_eq_default _ _ (by omega)]
      exact .pure _

/-- A record measures the same once it is counted. -/
theorem recordSizeWith_echoes (hsize : SizesEcho cat sizeOf)
    (hstudies : ∀ p v, Studies (sizeOf p v))
    (hl : ∀ f ∈ l.fields, f.Declared cat l.schema) (hschema : r.schema = l.schema) (hs : w.Sound)
    (hcat : w.catalog = cat) :
    Echoes id (recordSizeWith sizeOf l r) (recordSizeWith sizeOf l (r.counted cat)) w := by
  have hsum (terms : List SizeTerm) {w : Workspace} (hs : w.Sound) (hcat : w.catalog = cat) :
      Echoes id (sumOf (termSizeWith sizeOf l r) terms)
        (sumOf (termSizeWith sizeOf l (r.counted cat)) terms) w := by
    induction terms generalizing w with
    | nil => exact .pure _
    | cons term rest ih =>
      refine (termSizeWith_echoes hsize hl hschema hs hcat term).learn
        (studies.termSizeWith hstudies l r term w hs) fun n w₁ hs₁ hlearns _ => ?_
      exact (ih hs₁ (hlearns.catalog.trans hcat)).bind fun _ _ _ => .pure _
  exact (hsum l.terms hs hcat).bind fun _ _ _ => .pure _

/-- A question for a layout, and the size of a record in it. -/
theorem askedSize_echoes (hsize : SizesEcho cat sizeOf)
    (hstudies : ∀ p v, Studies (sizeOf p v)) {layout : SpaceM Layout}
    (hlayout : Learning layout w fun l w' => w'.Knows l ∧ r.schema = l.schema)
    (hcat : w.catalog = cat) :
    Echoes id (do let l ← layout; recordSizeWith sizeOf l r : SpaceM Nat)
      (do let l ← layout; recordSizeWith sizeOf l (r.counted cat)) w := by
  refine (Echoes.same _).learn hlayout fun l w₁ hs₁ hlearns ⟨hl, hschema⟩ => ?_
  have hcat₁ := hlearns.catalog.trans hcat
  refine recordSizeWith_echoes hsize hstudies ?_ hschema hs₁ hcat₁
  rw [← hcat₁]
  exact hl.declares hs₁

/-- A record in a slot measures the same once it is counted. -/
theorem innerSize_echoes (hsize : SizesEcho cat sizeOf) (hstudies : ∀ p v, Studies (sizeOf p v))
    (schema : SchemaId) (kind : LayoutKind) (v : Value) (hs : w.Sound) (hcat : w.catalog = cat) :
    Echoes id (innerSize sizeOf schema kind v) (innerSize sizeOf schema kind (v.counted cat)) w := by
  unfold innerSize
  refine (Echoes.same _).learn (catalog_learning hs) fun c w₁ hs₁ hlearns _ => ?_
  cases v with
  | record r =>
    simp only [Value.counted, RecordOf.schema_counted]
    refine .ite (fun hr => ?_) fun _ => .fails fun _ _ => mismatch_fails
    refine askedSize_echoes hsize hstudies ?_ (hlearns.catalog.trans hcat)
    exact (layout_knows hs₁ schema kind).mono fun l _ _ _ hl =>
      ⟨hl.1, hr.trans (congrArg Prod.fst hl.2).symm⟩
  | _ => exact .fails fun _ _ => mismatch_fails

/-- A value's type number does not depend on its counts. -/
theorem typeId_echoes (v : Value) :
    Echoes id (SpaceM.typeId v) (SpaceM.typeId (v.counted cat)) w := by
  cases v with
  | record r =>
    simp only [SpaceM.typeId, Value.counted, TypeIndex.idOf, RecordOf.schema_counted]
    exact .same _
  | _ => exact .same _

/-- A record's tag does not depend on its counts. -/
theorem tagOf_echoes (choice : ChoiceId) (r : Record) :
    Echoes id (SpaceM.tagOf choice r) (SpaceM.tagOf choice (r.counted cat)) w := by
  unfold SpaceM.tagOf
  rw [RecordOf.schema_counted]
  exact .same _

/-- The record of a variant has the schema that its tag stands for. -/
theorem variantLayout_tagged (hs : w.Sound) {choice : ChoiceId} {tag : Nat} {r : Record}
    (htag : (w.catalog.choice choice).tagOf? r.schema = some tag) :
    Learning (SpaceM.variantLayout choice tag) w fun l w' => w'.Knows l ∧ r.schema = l.schema := by
  refine (variantLayout_knows hs choice tag).mono fun l _ _ _ hl => ⟨hl.1, ?_⟩
  obtain ⟨variant, hvariant, hkey⟩ := hl.2
  rw [(Choice.variant?_of_tagOf? htag).1] at hvariant
  rw [Option.some.inj hvariant]
  exact (congrArg Prod.fst hkey).symm

/-- By induction on the depth. -/
theorem placedSizeWithin_echoes (cat : Catalog) (depth : Nat) :
    SizesEcho cat (placedSizeWithin depth) := by
  induction depth with
  | zero => exact fun p v w _ _ _ => .throw _ _
  | succ depth ih =>
    intro p v w hs hcat hp
    have hstudies := studies.placedSizeWithin depth
    cases p with
    | inlineText =>
      cases v with
      | null => exact .same _
      | text s => exact .same _
      | _ => exact .fails fun _ _ => mismatch_fails
    | inlineRecord schema => exact innerSize_echoes ih hstudies schema _ v hs hcat
    | fixedRecord schema => exact innerSize_echoes ih hstudies schema _ v hs hcat
    | wrapped wrapper carrier kind =>
      unfold placedSizeWithin
      refine (Echoes.same _).learn (catalog_learning hs) fun c w₁ hs₁ hlearns _ => ?_
      cases v with
      | wrapped found r =>
        refine .ite (fun hfound => ?_) fun _ => .fails fun _ _ => mismatch_fails
        subst hfound
        by_cases hr : r.schema = (cat.wrapper found).carrier
        · rw [if_pos hr]
          refine askedSize_echoes ih hstudies ?_ (hlearns.catalog.trans hcat)
          exact (layout_knows hs₁ carrier kind).mono fun l _ _ _ hl =>
            ⟨hl.1, hr.trans (hp.symm.trans (congrArg Prod.fst hl.2).symm)⟩
        · rw [if_neg hr]
          exact .same _
      | _ => exact .fails fun _ _ => mismatch_fails
    | handle schema fixed =>
      cases fixed with
      | true => exact .same _
      | false =>
        cases v with
        | null => exact .same _
        | handle h => exact .same _
        | _ => exact .fails fun _ _ => mismatch_fails
    | inlineChoice choice =>
      unfold placedSizeWithin
      refine (Echoes.same _).learn (catalog_learning hs) fun c w₁ hs₁ hlearns _ => ?_
      have hcat₁ := hlearns.catalog.trans hcat
      cases v with
      | null => exact .same _
      | record r =>
        -- a record is measured in the layout of its variant
        refine (tagOf_echoes choice r).bind fun tag w₂ hrun => ?_
        obtain ⟨htag, rfl⟩ := tagOf_ok.mp hrun
        refine Echoes.bind (Echoes.same _) fun l w₃ hask => ?_
        obtain ⟨hs₃, hlearns', hl, hr⟩ := variantLayout_tagged hs₁ htag l w₃ hask
        have hcat₃ := hlearns'.catalog.trans hcat₁
        refine Echoes.bind ?_ fun _ _ _ => .pure _
        exact recordSizeWith_echoes ih hstudies (hcat₃ ▸ hl.declares hs₃) hr hs₃ hcat₃
      | _ => exact .fails fun _ _ => mismatch_fails
    | inlineOpen =>
      refine (typeId_echoes v).learn (typeId_learning hs v) fun id w₁ hs₁ hlearns _ => ?_
      refine .ite (fun _ => .pure _) fun _ => ?_
      -- what stands in an open slot is measured where its type is placed
      refine (Echoes.same _).learn (openPlacement_learning hs₁ id) fun q w₂ hs₂ hlearns' hq => ?_
      obtain ⟨type, -, hplace⟩ := hq
      have hcat₂ := (hlearns'.catalog.trans hlearns.catalog).trans hcat
      have hcarries := (hs₂.compiler.good.placements _ _ _ hplace).carries
      exact (ih q v w₂ hs₂ hcat₂ (hcat₂ ▸ hcarries)).bind fun _ _ _ => .pure _
    | _ => exact .same _

/-- Counting a record does not change how deep it is walked. -/
theorem RecordOf.walkDepth_counted (r : Record) : (r.counted cat).walkDepth = r.walkDepth := by
  rw [RecordOf.walkDepth, RecordOf.depth_counted, RecordOf.walkDepth]

/-- Counting a value does not change how deep it is walked. -/
theorem Value.walkDepth_counted (v : Value) : (v.counted cat).walkDepth = v.walkDepth := by
  rw [Value.walkDepth, Value.depth_counted, Value.walkDepth]

end

end RecordLayout
