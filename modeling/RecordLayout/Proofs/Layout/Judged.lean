import Mathlib
import RecordLayout.Proofs.Layout.Good

/-!
# Compilations as programs

What compilations do is put together from a few ways to go on after a step. A judgement about two runs
side by side, with a condition on results and one on failures, that is closed under these ways is said
to be `Compatible`. It can be made about a whole compilation as soon as it can be made about the
layouts and placements that the compilation asks for. A judgement about a single run leaves the other
one aside.

Main results:

* `Compatible.bind`, `Compatible.mapM`, `Compatible.whenLaidOut` — steps after steps;
* `Compatible.size`, `Compatible.holdsChunks` — questions about encodings;
* `Compatible.place` — placements;
* `Compatible.compileLayout` — a whole compilation.
-/

namespace RecordLayout

/-- The schemas that a type names: the record itself, the carrier of a wrapper or the variants of a
choice. Schemas and their drafts are not told apart. -/
def Catalog.names (c : Catalog) : TypeKey → List Nat
  | .record id => [id.declared]
  | .wrapper id => [(c.wrapper id).carrier.declared]
  | .choice id => (c.choice id).variants.map (·.declared)
  | _ => []

/-- A step, and what is done after it succeeds or fails. -/
def followed {α β : Type} (act : CompileM α) (next : α → CompileM β)
    (handle : FormatError → CompileM β) : CompileM β := fun c =>
  match act c with
  | .ok a c => next a c
  | .error e c => handle e c

/-- Passing errors on makes following a plain sequence. -/
theorem followed_throw {α β : Type} (act : CompileM α) (next : α → CompileM β) :
    followed act next throw = act >>= next := by
  funext c
  simp only [followed, bind, EStateM.bind]
  cases act c with
  | ok a c => rfl
  | error e c => rfl

/-- Returning what was answered follows nothing. -/
theorem followed_pure {α : Type} (act : CompileM α) : followed act pure throw = act := by
  funext c
  simp only [followed]
  cases act c with
  | ok a c => rfl
  | error e c => rfl

/-- Using a layout if there is one is a way of following its request. -/
theorem followed_whenLaidOut {α : Type} (layoutOf : LayoutOf) (id : SchemaId) (kind : LayoutKind)
    (use : Layout → α) (otherwise : α) :
    followed (layoutOf id kind) (fun l => pure (use l)) (fun _ => pure otherwise) =
      whenLaidOut layoutOf id kind use otherwise := by
  funext c
  simp only [followed, whenLaidOut]
  cases layoutOf id kind c with
  | ok l c => rfl
  | error e c => rfl

/-- Placing a fixed record follows the request for its fixed layout. -/
theorem followed_placeFixedRecord (layoutOf : LayoutOf) (id : SchemaId) :
    followed (layoutOf id .fixed) (fun _ => pure (.fixedRecord id)) (fun e =>
      if e.isLayout || e.isRecursive then pure (.chunkRecord id) else throw e) =
      placeFixedRecord layoutOf id := by
  funext c
  simp only [followed, placeFixedRecord]
  cases layoutOf id .fixed c with
  | ok l c => rfl
  | error e c =>
    dsimp only
    split <;> rfl

/-- Placing a fixed wrapper follows the request for its carrier's fixed layout. -/
theorem followed_placeFixedWrapper (layoutOf : LayoutOf) (id : WrapperId) (w : Wrapper) :
    followed (layoutOf w.carrier .fixed) (fun _ => pure (.wrapped id w.carrier .fixed)) (fun e =>
      throw (if e.isLayout || e.isRecursive then .fixedUnsupported w.name e else e)) =
      placeFixedWrapper layoutOf id w := by
  funext c
  simp only [followed, placeFixedWrapper]
  cases layoutOf w.carrier .fixed c with
  | ok l c => rfl
  | error e c => rfl

/-- Judgements about two runs: what their common results and their common failures satisfy. -/
abbrev Judgement :=
  ∀ {α : Type}, CompileM α → CompileM α → (α → Prop) → (FormatError → Prop) → Prop

/-- A judgement that follows from judgements about the parts. -/
structure Compatible (cat : Catalog) (J : Judgement) : Prop where
  pure : ∀ {α : Type} {a : α} {post : α → Prop} {fail : FormatError → Prop}, post a →
    J (Pure.pure a) (Pure.pure a) post fail
  throw : ∀ {α : Type} {e : FormatError} {post : α → Prop} {fail : FormatError → Prop}, fail e →
    J (MonadExcept.throw e) (MonadExcept.throw e) post fail
  followed : ∀ {α β : Type} {act act' : CompileM α} {next next' : α → CompileM β}
    {handle handle' : FormatError → CompileM β} {post : α → Prop} {post' : β → Prop}
    {fail fail' : FormatError → Prop}, J act act' post fail →
    (∀ a, post a → J (next a) (next' a) post' fail') →
    (∀ e, fail e → J (handle e) (handle' e) post' fail') →
    J (followed act next handle) (followed act' next' handle') post' fail'
  catalog : ∀ {fail : FormatError → Prop}, J theCatalog theCatalog (· = cat) fail

namespace Compatible

variable {cat : Catalog} {J : Judgement} {α β : Type} {post : α → Prop}
  {fail : FormatError → Prop}

/-! ## Steps after steps -/

/-- Judgements compose over a sequence. -/
theorem bind (hJ : Compatible cat J) {act act' : CompileM α} {next next' : α → CompileM β}
    {post' : β → Prop} (h : J act act' post fail)
    (hnext : ∀ a, post a → J (next a) (next' a) post' fail) :
    J (act >>= next) (act' >>= next') post' fail := by
  rw [← followed_throw, ← followed_throw]
  exact hJ.followed h hnext fun e he => hJ.throw he

/-- Nothing comes after a failure. -/
theorem throw_bind (hJ : Compatible cat J) {e : FormatError} (he : fail e)
    (next next' : α → CompileM β) {post' : β → Prop} :
    J (MonadExcept.throw e >>= next) (MonadExcept.throw e >>= next') post' fail := by
  have hthrow : J (MonadExcept.throw e) (MonadExcept.throw e) (fun _ : α => False) fail :=
    hJ.throw he
  exact hJ.bind hthrow fun _ hfalse => hfalse.elim

/-- A judgement may promise less. -/
theorem mono (hJ : Compatible cat J) {act act' : CompileM α} {post' : α → Prop}
    (h : J act act' post fail) (himp : ∀ a, post a → post' a) : J act act' post' fail := by
  rw [← followed_pure act, ← followed_pure act']
  exact hJ.followed h (fun a ha => hJ.pure (himp a ha)) fun e he => hJ.throw he

/-- A judgement of each step is one of the whole list. -/
theorem mapM (hJ : Compatible cat J) {step step' : α → CompileM β} {items : List α}
    (rel : α → β → Prop) (h : ∀ a ∈ items, J (step a) (step' a) (rel a) fail) :
    J (items.mapM step) (items.mapM step') (List.Forall₂ rel items) fail := by
  induction items with
  | nil =>
    rw [List.mapM_nil, List.mapM_nil]
    exact hJ.pure .nil
  | cons a rest ih =>
    rw [List.mapM_cons, List.mapM_cons]
    refine hJ.bind (h a List.mem_cons_self) fun b hb => ?_
    refine hJ.bind (ih fun x hx => h x (List.mem_cons_of_mem _ hx)) fun bs hbs => ?_
    exact hJ.pure (.cons hb hbs)

/-! ## Questions about layouts -/

section

variable (hJ : Compatible cat J) {layoutOf layoutOf' : LayoutOf} {Asked : LayoutKey → Prop}
  (hask : ∀ id kind, Asked (id, kind) →
    J (layoutOf id kind) (layoutOf' id kind) (fun _ => True) (fun _ => True))

include hJ hask

/-- A layout that may be asked for may be used or done without. -/
theorem whenLaidOut {id : SchemaId} {kind : LayoutKind} (h : Asked (id, kind)) (use : Layout → α)
    (otherwise : α) : J (RecordLayout.whenLaidOut layoutOf id kind use otherwise)
      (RecordLayout.whenLaidOut layoutOf' id kind use otherwise) (fun _ => True) fail := by
  rw [← followed_whenLaidOut, ← followed_whenLaidOut]
  exact hJ.followed (hask id kind h) (fun _ _ => hJ.pure trivial) fun _ _ => hJ.pure trivial

/-- The variants' sizes are judged by the requests for their layouts. -/
theorem variantSize {variants : List SchemaId} (h : ∀ v ∈ variants, Asked (v, .standard))
    (tag : Nat) (size : SizeRange) : J (RecordLayout.variantSize layoutOf tag size variants)
      (RecordLayout.variantSize layoutOf' tag size variants) (fun _ => True) fail := by
  induction variants generalizing tag size with
  | nil => exact hJ.pure trivial
  | cons v rest ih =>
    rw [RecordLayout.variantSize, RecordLayout.variantSize]
    refine hJ.bind (whenLaidOut hJ hask (h v List.mem_cons_self) _ _) fun body _ => ?_
    cases body with
    | none => exact hJ.pure trivial
    | some body => exact ih (fun w hw => h w (List.mem_cons_of_mem _ hw)) _ _

/-- Whether a variant holds chunks is judged by the requests for their layouts. -/
theorem variantHoldsChunks {variants : List SchemaId} (h : ∀ v ∈ variants, Asked (v, .standard)) :
    J (RecordLayout.variantHoldsChunks layoutOf variants)
      (RecordLayout.variantHoldsChunks layoutOf' variants) (fun _ => True) fail := by
  induction variants with
  | nil => exact hJ.pure trivial
  | cons v rest ih =>
    rw [RecordLayout.variantHoldsChunks, RecordLayout.variantHoldsChunks]
    refine hJ.bind (whenLaidOut hJ hask (h v List.mem_cons_self) _ _) fun holds _ => ?_
    split
    · exact hJ.pure trivial
    · exact ih fun w hw => h w (List.mem_cons_of_mem _ hw)

/-- A placement's size is judged by the layouts it asks for. -/
theorem placementSize {p : Placement} (h : ∀ key ∈ p.asks cat, Asked key) :
    J (p.size layoutOf) (p.size layoutOf') (fun _ => True) fail := by
  cases p with
  | inlineRecord id => exact whenLaidOut hJ hask (h _ (List.mem_singleton.mpr rfl)) _ _
  | fixedRecord id => exact whenLaidOut hJ hask (h _ (List.mem_singleton.mpr rfl)) _ _
  | wrapped id carrier kind => exact whenLaidOut hJ hask (h _ (List.mem_singleton.mpr rfl)) _ _
  | inlineChoice id =>
    refine hJ.bind hJ.catalog fun c hc => ?_
    subst hc
    exact variantSize hJ hask (fun v hv => h _ (List.mem_map.mpr ⟨v, hv, rfl⟩)) _ _
  | handle id fixed => cases fixed <;> exact hJ.pure trivial
  | _ => exact hJ.pure trivial

/-- Whether a placement holds chunks is judged by the layouts it asks for. -/
theorem placementHoldsChunks {p : Placement} (h : ∀ key ∈ p.asks cat, Asked key) :
    J (p.holdsChunks layoutOf) (p.holdsChunks layoutOf') (fun _ => True) fail := by
  cases p with
  | inlineRecord id => exact whenLaidOut hJ hask (h _ (List.mem_singleton.mpr rfl)) _ _
  | fixedRecord id => exact whenLaidOut hJ hask (h _ (List.mem_singleton.mpr rfl)) _ _
  | wrapped id carrier kind => exact whenLaidOut hJ hask (h _ (List.mem_singleton.mpr rfl)) _ _
  | inlineChoice id =>
    refine hJ.bind hJ.catalog fun c hc => ?_
    subst hc
    exact variantHoldsChunks hJ hask fun v hv => h _ (List.mem_map.mpr ⟨v, hv, rfl⟩)
  | _ => exact hJ.pure trivial

/-- An encoding's size is judged by the layouts it asks for. -/
theorem size {e : Encoding} (h : ∀ key ∈ e.asks cat, Asked key) :
    J (e.size layoutOf) (e.size layoutOf') (fun _ => True) fail := by
  cases e with
  | placed p marker =>
    cases marker with
    | false => exact placementSize hJ hask h
    | true => exact hJ.bind (placementSize hJ hask h) fun _ _ => hJ.pure trivial
  | _ => exact hJ.pure trivial

/-- Whether an encoding holds chunks is judged by the layouts it asks for. -/
theorem holdsChunks {e : Encoding} (h : ∀ key ∈ e.asks cat, Asked key) :
    J (e.holdsChunks layoutOf) (e.holdsChunks layoutOf') (fun _ => True) fail := by
  cases e with
  | placed p marker => exact placementHoldsChunks hJ hask h
  | _ => exact hJ.pure trivial

/-! ## Canonical order -/

/-- A binding's rank is judged by the size of its encoding. -/
theorem rankOf {b : Binding} (h : ∀ key ∈ b.encoding.asks cat, Asked key) :
    J (RecordLayout.rankOf layoutOf b) (RecordLayout.rankOf layoutOf' b) (fun _ => True) fail :=
  hJ.bind (size hJ hask h) fun _ _ => hJ.pure trivial

section

variable {bindings : List Binding} (hb : ∀ b ∈ bindings, ∀ key ∈ b.encoding.asks cat, Asked key)

include hb

/-- Counting off what has become ready is judged by the ranks of the bindings. -/
theorem countOff (pending : List Nat) (ready : List Rank) (slots : List Nat) :
    J (RecordLayout.countOff layoutOf bindings pending ready slots)
      (RecordLayout.countOff layoutOf' bindings pending ready slots) (fun _ => True) fail := by
  -- every slot that becomes ready is ranked once, in the order of the list
  induction slots generalizing pending ready with
  | nil => exact hJ.pure trivial
  | cons slot rest ih =>
    rw [RecordLayout.countOff, RecordLayout.countOff]
    split
    · refine hJ.bind (rankOf hJ hask fun key hkey => ?_) fun rank _ => ih _ _
      -- what is not there asks for nothing
      rw [List.getD_eq_getElem?_getD] at hkey
      cases hslot : bindings[slot]? with
      | none =>
        rw [hslot] at hkey
        cases hkey
      | some b =>
        rw [hslot] at hkey
        exact hb b (List.mem_of_getElem? hslot) key hkey
    · exact ih _ _

/-- The loop that takes ready bindings is judged step by step. -/
theorem takeReady (steps : Nat) (pending : List Nat) (ready : List Rank) :
    J (RecordLayout.takeReady layoutOf bindings steps pending ready)
      (RecordLayout.takeReady layoutOf' bindings steps pending ready) (fun _ => True) fail := by
  induction steps generalizing pending ready with
  | zero => exact hJ.pure trivial
  | succ steps ih =>
    cases ready with
    | nil => exact hJ.pure trivial
    | cons first ready =>
      rw [RecordLayout.takeReady, RecordLayout.takeReady]
      refine hJ.bind (countOff hJ hask hb _ _ _) fun counted _ => ?_
      exact hJ.bind (ih _ _) fun _ _ => hJ.pure trivial

/-- What is ready from the start is judged by the ranks of the bindings. -/
theorem initiallyReady (ready : List Rank) {some : List Binding} (hsome : some ⊆ bindings) :
    J (RecordLayout.initiallyReady layoutOf ready some)
      (RecordLayout.initiallyReady layoutOf' ready some) (fun _ => True) fail := by
  induction some generalizing ready with
  | nil => exact hJ.pure trivial
  | cons b rest ih =>
    have hrest : rest ⊆ bindings := fun b hb => hsome (List.mem_cons_of_mem _ hb)
    rw [RecordLayout.initiallyReady, RecordLayout.initiallyReady]
    split
    · exact hJ.bind (rankOf hJ hask (hb b (hsome List.mem_cons_self))) fun _ _ => ih _ hrest
    · exact ih _ hrest

/-- The canonical order is judged by the ranks and by its refusal of cycles. -/
theorem canonicalOrder (s : Schema) (hfail : ∀ e, e.isRecursive = false → fail e) :
    J (RecordLayout.canonicalOrder layoutOf s bindings)
      (RecordLayout.canonicalOrder layoutOf' s bindings) (fun _ => True) fail := by
  rw [RecordLayout.canonicalOrder, RecordLayout.canonicalOrder]
  refine hJ.bind (initiallyReady hJ hask hb _ fun b hb => hb) fun ready _ => ?_
  refine hJ.bind (takeReady hJ hask hb _ _ ready) fun order _ => ?_
  split
  · exact hJ.pure trivial
  · exact hJ.throw (hfail _ rfl)

end

/-- Whether a layout holds chunks is judged field by field. -/
theorem anyHoldsChunks {fields : List BoundField}
    (h : ∀ f ∈ fields, ∀ key ∈ f.encoding.asks cat, Asked key) :
    J (RecordLayout.anyHoldsChunks layoutOf fields)
      (RecordLayout.anyHoldsChunks layoutOf' fields) (fun _ => True) fail := by
  induction fields with
  | nil => exact hJ.pure trivial
  | cons f rest ih =>
    rw [RecordLayout.anyHoldsChunks, RecordLayout.anyHoldsChunks]
    refine hJ.bind (holdsChunks hJ hask (h f List.mem_cons_self)) fun holds _ => ?_
    split
    · exact hJ.pure trivial
    · exact ih fun g hg => h g (List.mem_cons_of_mem _ hg)

/-- Finishing a field is judged by its encoding and keeps the encoding. -/
theorem finishField (s : Schema) (governors : List Nat) {b : Binding}
    (h : ∀ key ∈ b.encoding.asks cat, Asked key) :
    J (RecordLayout.finishField layoutOf s governors b)
      (RecordLayout.finishField layoutOf' s governors b) (fun f => f.encoding = b.encoding)
      fail := by
  rw [RecordLayout.finishField, RecordLayout.finishField]
  refine hJ.bind hJ.catalog fun _ _ => ?_
  exact hJ.bind (size hJ hask h) fun _ _ => hJ.pure rfl

/-- Once bound and ordered, fields are completed. -/
theorem finishFields (s : Schema) (governors order : List Nat) {bindings : List Binding}
    (h : ∀ b ∈ bindings, ∀ key ∈ b.encoding.asks cat, Asked key) :
    J (do
      let fields ← bindings.mapM (RecordLayout.finishField layoutOf s governors)
      Pure.pure (order.map fun slot => fields.getD slot default)) (do
      let fields ← bindings.mapM (RecordLayout.finishField layoutOf' s governors)
      Pure.pure (order.map fun slot => fields.getD slot default))
      (fun fields => ∀ f ∈ fields, ∀ key ∈ f.encoding.asks cat, Asked key) fail := by
  refine hJ.bind (hJ.mapM (fun b f => f.encoding = b.encoding) fun b hb =>
    finishField hJ hask s _ (h b hb)) fun finished hall => hJ.pure fun f hf key hkey => ?_
  obtain ⟨slot, -, rfl⟩ := List.mem_map.mp hf
  by_cases hslot : slot < finished.length
  · have hb : slot < bindings.length := by rwa [hall.length_eq]
    have hsame := (List.forall₂_iff_get.mp hall).2 slot hb hslot
    simp only [List.get_eq_getElem] at hsame
    rw [List.getD_eq_getElem _ _ hslot, hsame] at hkey
    exact h _ (List.getElem_mem hb) key hkey
  · rw [List.getD_eq_default _ _ (by omega)] at hkey
    cases hkey

/-- Widths that are chosen do not change how fields are completed. -/
theorem finishWidened (s : Schema) (order : List Nat) {bindings wide : List Binding}
    (h : ∀ b ∈ bindings, ∀ key ∈ b.encoding.asks cat, Asked key)
    (hwide : List.Forall₂ Widens bindings wide) :
    J (do
      let fields ← wide.mapM (RecordLayout.finishField layoutOf s
        (wide.filterMap (·.encoding.governor?)))
      Pure.pure (order.map fun slot => fields.getD slot default)) (do
      let fields ← wide.mapM (RecordLayout.finishField layoutOf' s
        (wide.filterMap (·.encoding.governor?)))
      Pure.pure (order.map fun slot => fields.getD slot default))
      (fun fields => ∀ f ∈ fields, ∀ key ∈ f.encoding.asks cat, Asked key) fail := by
  refine finishFields hJ hask s _ order fun b hb key hkey => ?_
  obtain ⟨i, hi, rfl⟩ := List.getElem_of_mem hb
  have hi' : i < bindings.length := by rwa [hwide.length_eq]
  have hwidens := (List.forall₂_iff_get.mp hwide).2 i hi' hi
  simp only [List.get_eq_getElem] at hwidens
  rcases hwidens with heq | ⟨w, w', -, heq⟩
  · rw [heq] at hkey
    exact h _ (List.getElem_mem hi') key hkey
  · rw [heq] at hkey
    cases hkey

/-- A compilation, given what is said of its fields and of the draft. -/
theorem compileLayout_of_fields {id : SchemaId} {kind : LayoutKind} {P Q : Prop}
    (hflex : (kind.isFixed && cat.standsInItself id) = false)
    (hfields : J (compileFields layoutOf (cat.schema id) kind)
      (compileFields layoutOf' (cat.schema id) kind)
      (fun fields => P ∧ ∀ f ∈ fields, ∀ key ∈ f.encoding.asks cat, Asked key) fail)
    (hdraft : P → (cat.schema id).isImmutable = true →
      J (layoutOf id.toDraft kind) (layoutOf' id.toDraft kind) (fun _ => Q) fail) :
    J (RecordLayout.compileLayout layoutOf id kind) (RecordLayout.compileLayout layoutOf' id kind)
      (fun _ => P ∧ ((cat.schema id).isImmutable = true → Q)) fail := by
  rw [RecordLayout.compileLayout, RecordLayout.compileLayout]
  refine hJ.bind hJ.catalog fun c hc => ?_
  subst hc
  simp only [hflex]
  refine hJ.bind hfields fun fields hpost => ?_
  obtain ⟨hP, hasks⟩ := hpost
  -- the draft of an immutable schema is compiled too
  by_cases himm : (c.schema id).isImmutable = true
  · simp only [himm, if_true, pure_bind]
    refine hJ.bind (hdraft hP himm) fun draft hQ => ?_
    exact hJ.bind (anyHoldsChunks hJ hask hasks) fun holds _ => hJ.pure ⟨hP, fun _ => hQ⟩
  · simp only [himm, pure_bind]
    exact hJ.bind (anyHoldsChunks hJ hask hasks) fun holds _ => hJ.pure ⟨hP, fun h => by cases h⟩

end

/-! ## Choosing placements -/

/-- Only at a fixed width does choosing a placement ask for a layout, and only for that of a schema
that the type names. -/
theorem place (hJ : Compatible cat J) (hcat : cat.Closed) {layoutOf layoutOf' : LayoutOf}
    {type : ValueType} (hask : ∀ id, cat.HasSchema id → id.declared ∈ cat.names type.key →
      J (layoutOf id .fixed) (layoutOf' id .fixed) (fun _ => True) (fun _ => True))
    (href : cat.Refers type) (rule : PlacementRule) :
    J (RecordLayout.place layoutOf type rule) (RecordLayout.place layoutOf' type rule)
      (fun _ => True) (fun _ => True) := by
  have hfixedRecord {id : SchemaId} (hid : cat.HasSchema id)
      (hname : id.declared ∈ cat.names type.key) :
      J (placeFixedRecord layoutOf id) (placeFixedRecord layoutOf' id) (fun _ => True)
        (fun _ => True) := by
    rw [← followed_placeFixedRecord, ← followed_placeFixedRecord]
    refine hJ.followed (hask id hid hname) (fun _ _ => hJ.pure trivial) fun e _ => ?_
    split
    · exact hJ.pure trivial
    · exact hJ.throw trivial
  have hfixedWrapper {id : WrapperId} {w : Wrapper} (hid : cat.HasSchema w.carrier)
      (hname : w.carrier.declared ∈ cat.names type.key) :
      J (placeFixedWrapper layoutOf id w) (placeFixedWrapper layoutOf' id w) (fun _ => True)
        (fun _ => True) := by
    rw [← followed_placeFixedWrapper, ← followed_placeFixedWrapper]
    exact hJ.followed (hask _ hid hname) (fun _ _ => hJ.pure trivial) fun e _ => hJ.throw trivial
  have hrecord {id : SchemaId} (hid : cat.HasSchema id) (hname : id.declared ∈ cat.names type.key) :
      J (if (cat.schema id).isUnmanaged then Pure.pure (.handle id rule.isFixed)
          else if rule.isFixed then placeFixedRecord layoutOf id else Pure.pure (.inlineRecord id))
        (if (cat.schema id).isUnmanaged then Pure.pure (.handle id rule.isFixed)
          else if rule.isFixed then placeFixedRecord layoutOf' id else Pure.pure (.inlineRecord id))
        (fun _ => True) (fun _ => True) := by
    split
    · exact hJ.pure trivial
    · split
      · exact hfixedRecord hid hname
      · exact hJ.pure trivial
  rw [RecordLayout.place, RecordLayout.place]
  refine hJ.bind hJ.catalog fun c hc => ?_
  subst hc
  cases type with
  | wrapper id =>
    show J (if rule.isFixed then placeFixedWrapper layoutOf id (c.wrapper id) else _)
      (if rule.isFixed then placeFixedWrapper layoutOf' id (c.wrapper id) else _) _ _
    split
    · -- the carrier is there, as the catalog is closed
      refine hfixedWrapper (hcat.wrappers _ ?_) (List.mem_singleton.mpr rfl)
      rw [Catalog.wrapper, List.getD_eq_getElem _ _ href]
      exact List.getElem_mem href
    · exact hJ.pure trivial
  | record id => exact hrecord href (List.mem_singleton.mpr rfl)
  | back id name => exact hrecord href (List.mem_singleton.mpr rfl)
  | _ => exact hJ.pure trivial

/-! ## Binding fields -/

section

variable (hJ : Compatible cat J) (hfail : ∀ e, e.isRecursive = false → fail e)

include hJ hfail

/-- A name is looked up without compiling. -/
theorem slotOf (s : Schema) (name : String) :
    J (RecordLayout.slotOf s name) (RecordLayout.slotOf s name) (fun _ => True) fail := by
  rw [RecordLayout.slotOf]
  split
  · exact hJ.pure trivial
  · exact hJ.throw (hfail _ rfl)

/-- Names are looked up without compiling. -/
theorem slotsOf (s : Schema) (names : List String) :
    J (names.mapM (RecordLayout.slotOf s)) (names.mapM (RecordLayout.slotOf s)) (fun _ => True)
      fail :=
  hJ.mono (hJ.mapM (fun _ _ => True) fun name _ => slotOf hJ hfail s name) fun _ _ => trivial

/-- Binding a derivation looks names up and compiles nothing. -/
theorem bindDerivation (s : Schema) (d : Option Derivation) :
    J (RecordLayout.bindDerivation s d) (RecordLayout.bindDerivation s d) (fun _ => True) fail := by
  cases d with
  | none => exact hJ.pure trivial
  | some d =>
    cases d with
    | lengthOf array => exact hJ.bind (slotOf hJ hfail s array) fun _ _ => hJ.pure trivial
    | widthOf numbers => exact hJ.bind (slotsOf hJ hfail s numbers) fun _ _ => hJ.pure trivial

/-- Assigning widths compiles nothing and only widens. -/
theorem assignWidths (s : Schema) (bindings : List Binding) (order : List Nat)
    (widths : List Width) :
    J (RecordLayout.assignWidths s bindings order widths)
      (RecordLayout.assignWidths s bindings order widths) (List.Forall₂ Widens bindings) fail := by
  rw [RecordLayout.assignWidths]
  split
  · exact hJ.pure (assigned_widens bindings order widths)
  · exact hJ.throw (hfail _ rfl)

variable {layoutOf layoutOf' : LayoutOf} {Asked : LayoutKey → Prop}

/-- Apart from the rules for placements, kinds of fixed width bind fields in the same way. -/
theorem bindEncoding (s : Schema) {kind kind' : LayoutKind} (hsame : kind'.isFixed = kind.isFixed)
    {f : FieldDecl} (hplace : ∀ type rule, f.shape = .value type rule →
      J (placementWith layoutOf type (kind.placementRule rule))
        (placementWith layoutOf' type (kind'.placementRule rule))
        (fun p => ∀ key ∈ p.asks cat, Asked key) fail) :
    J (RecordLayout.bindEncoding layoutOf s kind f) (RecordLayout.bindEncoding layoutOf' s kind' f)
      (fun e => ∀ key ∈ e.asks cat, Asked key) fail := by
  unfold RecordLayout.bindEncoding
  rw [hsame]
  cases hshape : f.shape with
  | scalar k => exact hJ.pure fun key hkey => absurd hkey List.not_mem_nil
  | width => exact hJ.pure fun key hkey => absurd hkey List.not_mem_nil
  | varint =>
    refine hJ.pure fun key hkey => ?_
    split at hkey <;> cases hkey
  | sized size =>
    dsimp only
    split
    · exact hJ.pure fun key hkey => absurd hkey List.not_mem_nil
    · exact hJ.bind (slotOf hJ hfail s size) fun i _ =>
        hJ.pure fun key hkey => absurd hkey List.not_mem_nil
  | array element count =>
    dsimp only
    split
    · -- no array stands at a fixed width
      exact hJ.throw (hfail _ rfl)
    · exact hJ.bind (slotOf hJ hfail s count) fun i _ =>
        hJ.pure fun key hkey => absurd hkey List.not_mem_nil
  | value type rule => exact hJ.bind (hplace type rule hshape) fun p hp => hJ.pure hp

/-- Only at a fixed width are sizes asked for while fields are bound. -/
theorem bindField (s : Schema) {kind kind' : LayoutKind} (hsame : kind'.isFixed = kind.isFixed)
    (slot : Nat) {f : FieldDecl}
    (hask : kind.isFixed = true → ∀ id k, Asked (id, k) →
      J (layoutOf id k) (layoutOf' id k) (fun _ => True) (fun _ => True))
    (hplace : ∀ type rule, f.shape = .value type rule →
      J (placementWith layoutOf type (kind.placementRule rule))
        (placementWith layoutOf' type (kind'.placementRule rule))
        (fun p => ∀ key ∈ p.asks cat, Asked key) fail) :
    J (RecordLayout.bindField layoutOf s kind slot f)
      (RecordLayout.bindField layoutOf' s kind' slot f)
      (fun b => ∀ key ∈ b.encoding.asks cat, Asked key) fail := by
  rw [RecordLayout.bindField, RecordLayout.bindField]
  refine hJ.bind hJ.catalog fun c _ => ?_
  refine hJ.bind (bindEncoding hJ hfail s hsame hplace) fun e he => ?_
  -- the rest, whether or not the size was checked
  have hrest : J (do
      let needs ← f.requirements.mapM (RecordLayout.slotOf s)
      let derivation ← RecordLayout.bindDerivation s f.derivation
      Pure.pure (Binding.mk f slot e needs derivation)) (do
      let needs ← f.requirements.mapM (RecordLayout.slotOf s)
      let derivation ← RecordLayout.bindDerivation s f.derivation
      Pure.pure (Binding.mk f slot e needs derivation))
      (fun b => ∀ key ∈ b.encoding.asks cat, Asked key) fail := by
    refine hJ.bind (slotsOf hJ hfail s _) fun needs _ => ?_
    exact hJ.bind (bindDerivation hJ hfail s _) fun d _ => hJ.pure he
  show J (if kind.isFixed then _ else _) (if kind'.isFixed then _ else _) _ _
  rw [hsame]
  split
  · rename_i hfixed
    refine hJ.bind (size hJ (hask hfixed) he) fun size _ => ?_
    dsimp only
    split
    · exact throw_bind hJ (hfail _ rfl) _ _
    · exact hrest
  · exact hrest

/-- The fields are bound one by one, each by its own judgement. -/
theorem bindFields (s : Schema) {kind kind' : LayoutKind} (hsame : kind'.isFixed = kind.isFixed)
    (slot : Nat) {fields : List FieldDecl}
    (hask : kind.isFixed = true → ∀ id k, Asked (id, k) →
      J (layoutOf id k) (layoutOf' id k) (fun _ => True) (fun _ => True))
    (hplace : ∀ f ∈ fields, ∀ type rule, f.shape = .value type rule →
      J (placementWith layoutOf type (kind.placementRule rule))
        (placementWith layoutOf' type (kind'.placementRule rule))
        (fun p => ∀ key ∈ p.asks cat, Asked key) fail) :
    J (RecordLayout.bindFields layoutOf s kind slot fields)
      (RecordLayout.bindFields layoutOf' s kind' slot fields)
      (fun bs => ∀ b ∈ bs, ∀ key ∈ b.encoding.asks cat, Asked key) fail := by
  -- the slot number rises with the fields, so it is generalized
  induction fields generalizing slot with
  | nil => exact hJ.pure fun b hb => absurd hb List.not_mem_nil
  | cons f rest ih =>
    rw [RecordLayout.bindFields, RecordLayout.bindFields]
    refine hJ.bind (bindField hJ hfail s hsame slot hask (hplace f List.mem_cons_self))
      fun b hb => ?_
    refine hJ.bind (ih (slot + 1) fun g hg => hplace g (List.mem_cons_of_mem _ hg))
      fun bs hbs => hJ.pure fun b' hb' => ?_
    rcases List.mem_cons.mp hb' with rfl | hmem
    · exact hb
    · exact hbs b' hmem

/-! ## Layouts -/

variable (hask : ∀ id kind, Asked (id, kind) →
    J (layoutOf id kind) (layoutOf' id kind) (fun _ => True) (fun _ => True))

include hask

/-- Compiling the fields binds them, orders them and assigns the widths. -/
theorem compileFields (s : Schema) (kind : LayoutKind)
    (hplace : ∀ f ∈ s.fields, ∀ type rule, f.shape = .value type rule →
      J (placementWith layoutOf type (kind.placementRule rule))
        (placementWith layoutOf' type (kind.placementRule rule))
        (fun p => ∀ key ∈ p.asks cat, Asked key) fail) :
    J (RecordLayout.compileFields layoutOf s kind) (RecordLayout.compileFields layoutOf' s kind)
      (fun fields => ∀ f ∈ fields, ∀ key ∈ f.encoding.asks cat, Asked key) fail := by
  rw [RecordLayout.compileFields, RecordLayout.compileFields]
  -- each part is judged on its own; the order and the widths then need only the bound encodings
  refine hJ.bind (bindFields hJ hfail s rfl 0 (fun _ => hask) hplace) fun bindings hbindings => ?_
  refine hJ.bind (canonicalOrder hJ hask hbindings s hfail) fun order _ => ?_
  -- whatever widths are chosen, the fields are completed in the same way
  cases kind with
  | varying widths =>
    exact hJ.bind (assignWidths hJ hfail s bindings order widths) fun wide hwide =>
      finishWidened hJ hask s order hbindings hwide
  | standard =>
    exact finishWidened hJ hask s order hbindings (List.forall₂_same.mpr fun b _ => Or.inl rfl)
  | fixed =>
    exact finishWidened hJ hask s order hbindings (List.forall₂_same.mpr fun b _ => Or.inl rfl)

/-- A whole compilation. It fails at once if records would stand inside themselves. -/
theorem compileLayout {id : SchemaId} {kind : LayoutKind}
    (hcircle : kind.isFixed = true → cat.standsInItself id = true →
      fail (.recursiveCompile (.inlineCycle (cat.schema id).name)))
    (hplace : ¬(kind.isFixed = true ∧ cat.standsInItself id = true) →
      ∀ f ∈ (cat.schema id).fields, ∀ type rule, f.shape = .value type rule →
      J (placementWith layoutOf type (kind.placementRule rule))
        (placementWith layoutOf' type (kind.placementRule rule))
        (fun p => ∀ key ∈ p.asks cat, Asked key) fail)
    (hdraft : ¬(kind.isFixed = true ∧ cat.standsInItself id = true) →
      (cat.schema id).isImmutable = true →
      J (layoutOf id.toDraft kind) (layoutOf' id.toDraft kind) (fun _ => True) fail) :
    J (RecordLayout.compileLayout layoutOf id kind) (RecordLayout.compileLayout layoutOf' id kind)
      (fun _ => True) fail := by
  by_cases hin : kind.isFixed = true ∧ cat.standsInItself id = true
  · -- both fail before anything is asked for
    have htest : (kind.isFixed && cat.standsInItself id) = true := by
      rw [hin.1, hin.2]
      rfl
    rw [RecordLayout.compileLayout, RecordLayout.compileLayout]
    refine hJ.bind hJ.catalog fun c hc => ?_
    subst hc
    simp only [htest, if_true]
    exact throw_bind hJ (hcircle hin.1 hin.2) _ _
  · have htest : (kind.isFixed && cat.standsInItself id) = false := by
      rw [Bool.eq_false_iff, ne_eq, Bool.and_eq_true]
      exact hin
    have hfields := compileFields hJ hfail hask (cat.schema id) kind (hplace hin)
    exact hJ.mono (compileLayout_of_fields hJ hask htest
      (hJ.mono hfields fun _ h => ⟨trivial, h⟩) fun _ => hdraft hin) fun _ _ => trivial

end

end Compatible

end RecordLayout
