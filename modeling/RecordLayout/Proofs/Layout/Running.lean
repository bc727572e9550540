import Mathlib
import RecordLayout.Proofs.Layout.Good

/-!
# Compilations that are running

What a compilation may assume while it runs, and what it must leave behind. `Leads` is the contract
of one step: whether it succeeds or fails, it keeps what is known and ends with the same
compilations running. `Within` is the state inside a compilation: the compiler is good, compilations
can still go deep enough, and the standard layouts that are being compiled stand in each other.

Main results:

* `Leads.bind`, `Leads.fetch_layout`, `Leads.fetch_placement` — the contract, step by step;
* `Within.enter` — a compilation may ask for another one;
* `Within.sized` — what a compilation sees of the size of its own fields stays true.
-/

namespace RecordLayout

/-! ## Contracts of steps -/

/-- A step that starts in a state keeps what is known, ends in a state of the same sort, and
succeeds only with a result that `post` accepts. -/
def Leads {α : Type} (good : Compiler → Prop) (act : CompileM α) (c : Compiler)
    (post : α → Compiler → Prop) : Prop :=
  match act c with
  | .ok a c' => good c' ∧ c.Returns c' ∧ post a c'
  | .error _ c' => good c' ∧ c.Returns c'

namespace Leads

variable {α β : Type} {good : Compiler → Prop} {c : Compiler} {post : α → Compiler → Prop}

/-- A success leads where it ends. -/
theorem of_ok {act : CompileM α} {a : α} {c' : Compiler} (hrun : act c = .ok a c')
    (hgood : good c') (hret : c.Returns c') (hpost : post a c') : Leads good act c post := by
  rw [Leads, hrun]
  exact ⟨hgood, hret, hpost⟩

/-- A failure leads to a good compiler, with nothing promised of an answer. -/
theorem of_error {act : CompileM α} {e : FormatError} {c' : Compiler}
    (hrun : act c = .error e c') (hgood : good c') (hret : c.Returns c') :
    Leads good act c post := by
  rw [Leads, hrun]
  exact ⟨hgood, hret⟩

theorem pure {a : α} (hgood : good c) (hpost : post a c) : Leads good (Pure.pure a) c post :=
  of_ok rfl hgood (.refl c) hpost

theorem throw {e : FormatError} (hgood : good c) :
    Leads good (MonadExcept.throw e : CompileM α) c post :=
  of_error rfl hgood (.refl c)

theorem throw_bind {e : FormatError} {next : β → CompileM α} (hgood : good c) :
    Leads good (MonadExcept.throw e >>= next) c post :=
  of_error rfl hgood (.refl c)

/-- The contract of a successful run. -/
theorem ok {act : CompileM α} (h : Leads good act c post) {a : α} {c' : Compiler}
    (hrun : act c = .ok a c') : good c' ∧ c.Returns c' ∧ post a c' := by
  rw [Leads, hrun] at h
  exact h

/-- What leads and fails has kept the compiler good. -/
theorem error {act : CompileM α} (h : Leads good act c post) {e : FormatError} {c' : Compiler}
    (hrun : act c = .error e c') : good c' ∧ c.Returns c' := by
  rw [Leads, hrun] at h
  exact h

/-- A run that keeps the contract keeps a stronger one if its last state does. -/
theorem strengthen {act : CompileM α} {good' : Compiler → Prop} (h : Leads good act c post)
    (hmore : good (outcome act c).2 → c.Returns (outcome act c).2 → good' (outcome act c).2) :
    Leads good' act c post := by
  cases hrun : act c with
  | ok a c' =>
    rw [outcome_of_ok hrun] at hmore
    obtain ⟨hgood, hret, hpost⟩ := h.ok hrun
    exact of_ok hrun (hmore hgood hret) hret hpost
  | error e c' =>
    rw [outcome_of_error hrun] at hmore
    obtain ⟨hgood, hret⟩ := h.error hrun
    exact of_error hrun (hmore hgood hret) hret

/-- Less may be promised of an answer. -/
theorem mono {act : CompileM α} {post' : α → Compiler → Prop} (h : Leads good act c post)
    (himp : ∀ a c', good c' → c.Returns c' → post a c' → post' a c') :
    Leads good act c post' := by
  cases hrun : act c with
  | ok a c' =>
    obtain ⟨hgood, hret, hpost⟩ := h.ok hrun
    exact of_ok hrun hgood hret (himp a c' hgood hret hpost)
  | error e c' =>
    obtain ⟨hgood, hret⟩ := h.error hrun
    exact of_error hrun hgood hret

/-- One step after another. -/
theorem bind {act : CompileM α} {next : α → CompileM β} {post' : β → Compiler → Prop}
    (h : Leads good act c post)
    (hnext : ∀ a c', good c' → c.Returns c' → post a c' → Leads good (next a) c' post') :
    Leads good (act >>= next) c post' := by
  cases hrun : act c with
  | ok a c' =>
    obtain ⟨hgood, hret, hpost⟩ := h.ok hrun
    have hthen := hnext a c' hgood hret hpost
    have hboth : (act >>= next) c = next a c' := by
      simp only [Bind.bind, EStateM.bind, hrun]
    cases hrest : next a c' with
    | ok b c'' =>
      obtain ⟨hgood', hret', hpost'⟩ := hthen.ok hrest
      exact of_ok (hboth.trans hrest) hgood' (hret.trans hret') hpost'
    | error e c'' =>
      obtain ⟨hgood', hret'⟩ := hthen.error hrest
      exact of_error (hboth.trans hrest) hgood' (hret.trans hret')
  | error e c' =>
    obtain ⟨hgood, hret⟩ := h.error hrun
    have hboth : (act >>= next) c = .error e c' := by
      simp only [Bind.bind, EStateM.bind, hrun]
    exact of_error hboth hgood hret

theorem theCatalog (hgood : good c) :
    Leads good RecordLayout.theCatalog c fun cat c' => c = c' ∧ cat = c.catalog :=
  of_ok rfl hgood (.refl c) ⟨rfl, rfl⟩

theorem ofExcept {outcome : Except FormatError α} (hgood : good c) :
    Leads good (RecordLayout.ofExcept outcome) c fun a c' => c = c' ∧ outcome = .ok a := by
  cases outcome with
  | ok a => exact pure hgood ⟨rfl, rfl⟩
  | error e => exact throw hgood

/-- A step for each of some things in a row. -/
theorem mapM {step : α → CompileM β} {items : List α} (rel : α → β → Compiler → Prop)
    (hgrows : ∀ a b c c', c.Grows c' → rel a b c → rel a b c') (hgood : good c)
    (hstep : ∀ a ∈ items, ∀ c', good c' → c.Returns c' → Leads good (step a) c' (rel a)) :
    Leads good (items.mapM step) c fun out c' => List.Forall₂ (fun a b => rel a b c') items out := by
  induction items generalizing c with
  | nil =>
    rw [List.mapM_nil]
    exact pure hgood .nil
  | cons a rest ih =>
    rw [List.mapM_cons]
    refine bind (hstep a List.mem_cons_self c hgood (.refl c)) fun b c₁ hgood₁ hret₁ hb => ?_
    refine bind (ih hgood₁ fun a' ha' c' hgood' hret' =>
      hstep a' (List.mem_cons_of_mem _ ha') c' hgood' (hret₁.trans hret')) ?_
    intro bs c₂ hgood₂ hret₂ hbs
    exact pure hgood₂ (.cons (hgrows a b c₁ c₂ hret₂.toGrows hb) hbs)

end Leads

/-! ## Keeping results -/

namespace Compiler

/-- Replaces what is known of a layout. -/
def putLayout (c : Compiler) (key : LayoutKey) (slot : MemoSlot FormatError Layout) : Compiler :=
  { c with layouts := c.layouts.insert key slot }

/-- Replaces what is known of a placement. -/
def putPlacement (c : Compiler) (key : TypeKey × PlacementRule)
    (slot : MemoSlot FormatError Placement) : Compiler :=
  { c with placements := c.placements.insert key slot }

/-- No result is kept for a layout yet. -/
def Open (c : Compiler) (key : LayoutKey) : Prop :=
  ∀ result, c.layouts.find? key ≠ some (.done result)

/-- No result is kept for a placement yet. -/
def OpenPlacement (c : Compiler) (key : TypeKey × PlacementRule) : Prop :=
  ∀ result, c.placements.find? key ≠ some (.done result)

section

variable {c : Compiler} {key : LayoutKey} {slot : MemoSlot FormatError Layout}
  {pkey : TypeKey × PlacementRule} {pslot : MemoSlot FormatError Placement}

/-- A layout put under a key is found there. -/
@[simp] theorem find?_putLayout_self : (c.putLayout key slot).layouts.find? key = some slot :=
  Memo.find?_insert_self _ _ _

/-- Putting a layout leaves the other keys. -/
theorem find?_putLayout_of_ne {other : LayoutKey} (h : other ≠ key) :
    (c.putLayout key slot).layouts.find? other = c.layouts.find? other :=
  Memo.find?_insert_of_ne _ h _

/-- A placement put under a key is found there. -/
@[simp] theorem find?_putPlacement_self :
    (c.putPlacement pkey pslot).placements.find? pkey = some pslot :=
  Memo.find?_insert_self _ _ _

/-- Putting a placement leaves the other keys. -/
theorem find?_putPlacement_of_ne {other : TypeKey × PlacementRule} (h : other ≠ pkey) :
    (c.putPlacement pkey pslot).placements.find? other = c.placements.find? other :=
  Memo.find?_insert_of_ne _ h _

/-- Putting a layout under an open key only adds to the compiler. -/
theorem grows_putLayout (h : c.Open key) : c.Grows (c.putLayout key slot) := by
  refine ⟨rfl, fun other result hdone => ?_, fun _ _ hdone => hdone⟩
  have hne : other ≠ key := by
    rintro rfl
    exact h _ hdone
  rwa [find?_putLayout_of_ne hne]

/-- Putting a placement under an open key only adds to the compiler. -/
theorem grows_putPlacement (h : c.OpenPlacement pkey) : c.Grows (c.putPlacement pkey pslot) := by
  refine ⟨rfl, fun _ _ hdone => hdone, fun other result hdone => ?_⟩
  have hne : other ≠ pkey := by
    rintro rfl
    exact h _ hdone
  rwa [find?_putPlacement_of_ne hne]

/-- The round trip of a compilation: it runs, and its result is kept. -/
theorem returns_putLayout {c' : Compiler} (result : Except FormatError Layout)
    (hnew : c.layouts.find? key = none) (hret : (c.putLayout key .running).Returns c') :
    c.Returns (c'.putLayout key (.done result)) := by
  have hrun : c'.layouts.find? key = some .running :=
    (hret.running key).mpr find?_putLayout_self
  have hopen : c.Open key := fun r h => by
    rw [hnew] at h
    cases h
  have hopen' : c'.Open key := fun r h => by
    rw [hrun] at h
    cases h
  refine ⟨(grows_putLayout hopen).trans (hret.toGrows.trans (grows_putLayout hopen')), fun other => ?_,
    fun other => hret.placing other⟩
  by_cases heq : other = key
  · subst heq
    simp [hnew]
  · rw [find?_putLayout_of_ne heq, hret.running, find?_putLayout_of_ne heq]

/-- A placement's request returns once its answer is put in place of the mark. -/
theorem returns_putPlacement {c' : Compiler} (result : Except FormatError Placement)
    (hnew : c.placements.find? pkey = none) (hret : (c.putPlacement pkey .running).Returns c') :
    c.Returns (c'.putPlacement pkey (.done result)) := by
  have hrun : c'.placements.find? pkey = some .running :=
    (hret.placing pkey).mpr find?_putPlacement_self
  have hopen : c.OpenPlacement pkey := fun r h => by
    rw [hnew] at h
    cases h
  have hopen' : c'.OpenPlacement pkey := fun r h => by
    rw [hrun] at h
    cases h
  refine ⟨(grows_putPlacement hopen).trans (hret.toGrows.trans (grows_putPlacement hopen')),
    fun other => hret.running other, fun other => ?_⟩
  by_cases heq : other = pkey
  · subst heq
    simp [hnew]
  · rw [find?_putPlacement_of_ne heq, hret.placing, find?_putPlacement_of_ne heq]

/-- What fits stays, and a layout that is kept must fit. -/
theorem Good.putLayout (h : c.Good) (hopen : c.Open key)
    (hslot : ∀ l, slot = .done (.ok l) → LayoutGood c key.1 key.2 l ∧
      (key.2 = .standard → l.size.isFixed = true → Acc c.catalog.StandsIn key.1.declared)) :
    (c.putLayout key slot).Good := by
  have hgrows : c.Grows (c.putLayout key slot) := grows_putLayout hopen
  have hanswer {other : LayoutKey} {l : Layout}
      (hl : (c.putLayout key slot).answer other = some l) :
      c.answer other = some l ∨ other = key ∧ slot = .done (.ok l) := by
    rw [answer_eq_some] at hl
    by_cases heq : other = key
    · subst heq
      rw [find?_putLayout_self] at hl
      exact Or.inr ⟨rfl, Option.some.inj hl⟩
    · rw [find?_putLayout_of_ne heq] at hl
      exact Or.inl (answer_eq_some.mpr hl)
  refine ⟨h.closed, fun id kind l hl => ?_, fun pk rule p hp => ?_, fun id l hl hsize => ?_⟩
  · rcases hanswer hl with hold | ⟨rfl, hnew⟩
    · exact (h.layouts id kind l hold).grows hgrows
    · exact (hslot l hnew).1.grows hgrows
  · exact (h.placements pk rule p hp).grows hgrows
  · rcases hanswer hl with hold | ⟨rfl, hnew⟩
    · exact h.founded id l hold hsize
    · exact (hslot l hnew).2 rfl hsize

/-- A compiler stays good when a good placement is put. -/
theorem Good.putPlacement (h : c.Good) (hopen : c.OpenPlacement pkey)
    (hslot : ∀ p, pslot = .done (.ok p) → PlacementGood c pkey.1 pkey.2 p) :
    (c.putPlacement pkey pslot).Good := by
  have hgrows : c.Grows (c.putPlacement pkey pslot) := grows_putPlacement hopen
  refine ⟨h.closed, fun id kind l hl => (h.layouts id kind l hl).grows hgrows,
    fun pk rule p hp => ?_, h.founded⟩
  rw [placementAnswer_eq_some] at hp
  by_cases heq : (pk, rule) = pkey
  · subst heq
    rw [find?_putPlacement_self] at hp
    exact (hslot p (Option.some.inj hp)).grows hgrows
  · rw [find?_putPlacement_of_ne heq] at hp
    exact (h.placements pk rule p (placementAnswer_eq_some.mpr hp)).grows hgrows

end

end Compiler

/-! ## Inside a compilation -/

/-- The layouts that compilations may ask for. -/
structure Covers (cat : Catalog) (keys : Finset LayoutKey) : Prop where
  declared : ∀ id, cat.HasSchema id → (id, .standard) ∈ keys ∧ (id, .fixed) ∈ keys
  drafts : ∀ id kind, (id, kind) ∈ keys → (cat.schema id).isImmutable = true →
    (id.toDraft, kind) ∈ keys

/-- A compilation may ask for another one: a standard layout only for what stands in its records. -/
structure Allows (cat : Catalog) (keys : Finset LayoutKey) (cur key : LayoutKey) : Prop where
  mem : key ∈ keys
  inside : key.2 = .standard → cur.2 = .standard ∧
    Relation.ReflTransGen cat.Inlines cur.1.declared key.1.declared

namespace Compiler

/-- Whether the compilation of a layout is running. -/
def runs (c : Compiler) (key : LayoutKey) : Bool :=
  match c.layouts.find? key with
  | some .running => true
  | _ => false

/-- A key runs when it is marked so. -/
theorem runs_iff {c : Compiler} {key : LayoutKey} :
    c.runs key = true ↔ c.layouts.find? key = some .running := by
  rw [runs]
  split
  · rename_i hrun
    exact ⟨fun _ => hrun, fun _ => rfl⟩
  · rename_i hother
    exact ⟨fun h => (Bool.false_ne_true h).elim, fun h => (hother h).elim⟩

end Compiler

/-- The state inside the compilation of a layout, from which compilations may go `depth` deeper. -/
structure Within (cat : Catalog) (keys : Finset LayoutKey) (depth : Nat) (cur : LayoutKey)
    (c : Compiler) : Prop where
  catalog : c.catalog = cat
  good : c.Good
  covers : Covers cat keys
  mem : cur ∈ keys
  room : keys.card < depth + (keys.filter (c.runs ·)).card
  chain : cur.2 = .standard → ∀ key, c.layouts.find? key = some .running → key.2 = .standard →
    Relation.ReflTransGen cat.Inlines key.1.declared cur.1.declared

namespace Within

variable {cat : Catalog} {keys : Finset LayoutKey} {depth : Nat} {cur key : LayoutKey}
  {c c' : Compiler}

/-- Being within a request lasts until the request returns. -/
theorem returns (h : Within cat keys depth cur c) (hret : c.Returns c') (hgood : c'.Good) :
    Within cat keys depth cur c' := by
  refine ⟨hret.catalog.trans h.catalog, hgood, h.covers, h.mem, ?_, fun hcur key hrun => ?_⟩
  · have hsame : keys.filter (c'.runs ·) = keys.filter (c.runs ·) :=
      Finset.filter_congr fun key _ => by
        rw [Compiler.runs_iff, Compiler.runs_iff]
        exact hret.running key
    rw [hsame]
    exact h.room
  · exact h.chain hcur key ((hret.running key).mp hrun)

/-- There is always room for one more compilation. -/
theorem depth_pos (h : Within cat keys depth cur c) : 0 < depth := by
  have hle := Finset.card_filter_le keys (c.runs ·)
  have hroom := h.room
  omega

/-- A compilation asks for another one. -/
theorem enter (h : Within cat keys (depth + 1) cur c) (hallow : Allows cat keys cur key)
    (hnew : c.layouts.find? key = none) :
    Within cat keys depth key (c.putLayout key .running) := by
  have hopen : c.Open key := fun r hr => by
    rw [hnew] at hr
    cases hr
  have hgood : (c.putLayout key .running).Good :=
    h.good.putLayout hopen (fun l hl => nomatch hl)
  refine ⟨h.catalog, hgood, h.covers, hallow.mem, ?_, ?_⟩
  · -- one compilation more is running
    have hfresh : key ∉ keys.filter (c.runs ·) := by
      rw [Finset.mem_filter, Compiler.runs_iff, hnew]
      simp
    have hmore : keys.filter ((c.putLayout key .running).runs ·) =
        insert key (keys.filter (c.runs ·)) := by
      ext other
      simp only [Finset.mem_filter, Finset.mem_insert, Compiler.runs_iff]
      by_cases heq : other = key
      · subst heq
        simp [hallow.mem]
      · simp [heq, Compiler.find?_putLayout_of_ne heq]
    have hroom := h.room
    rw [hmore, Finset.card_insert_of_notMem hfresh]
    omega
  · intro hstandard other hrun hother
    obtain ⟨hcur, hpath⟩ := hallow.inside hstandard
    by_cases heq : other = key
    · rw [heq]
    · rw [Compiler.find?_putLayout_of_ne heq] at hrun
      exact (h.chain hcur other hrun hother).trans hpath

/-- While a placement is chosen, the same layouts are running. -/
theorem enterPlacement (h : Within cat keys depth cur c) {pkey : TypeKey × PlacementRule}
    (hnew : c.placements.find? pkey = none) :
    Within cat keys depth cur (c.putPlacement pkey .running) := by
  have hopen : c.OpenPlacement pkey := fun r hr => by
    rw [hnew] at hr
    cases hr
  exact ⟨h.catalog, h.good.putPlacement hopen (fun p hp => by cases hp), h.covers, h.mem, h.room,
    h.chain⟩

end Within

/-! ## What the fields of a layout ask for -/

/-- The layouts that a field asks for while the layout `cur` is compiled: known ones of fixed width,
and standard ones of what stands in the records. -/
def Asks (c : Compiler) (cur : LayoutKey) (e : Encoding) : Prop :=
  ∀ key ∈ e.asks c.catalog, c.catalog.HasSchema key.1 ∧
    (key.2 = .fixed ∧ (c.answer key).isSome ∨
      key.2 = .standard ∧ cur.2 = .standard ∧
        c.catalog.Inlines cur.1.declared key.1.declared)

/-- What an encoding may ask for it may ask for later. -/
theorem Asks.grows {c c' : Compiler} (h : c.Grows c') {cur : LayoutKey} {e : Encoding}
    (ha : Asks c cur e) : Asks c' cur e := by
  intro key hkey
  rw [h.catalog] at hkey ⊢
  obtain ⟨hschema, hfixed | hstandard⟩ := ha key hkey
  · refine ⟨hschema, Or.inl ⟨hfixed.1, ?_⟩⟩
    rw [h.answered hfixed.2]
    exact hfixed.2
  · exact ⟨hschema, Or.inr hstandard⟩

namespace Catalog

variable {cat : Catalog}

/-- The layouts that a type asks for belong to declared schemas. -/
theorem Closed.flexible_asks (h : cat.Closed) {type : ValueType} (href : cat.Refers type)
    {key : LayoutKey} (hkey : key ∈ (Placement.flexible cat type.key).asks cat) :
    cat.HasSchema key.1 ∧ key.2 = .standard := by
  -- an unmanaged record is held by a handle and asks for nothing
  have hrecord {id : SchemaId} (hid : cat.HasSchema id)
      (hmem : key ∈ (Placement.flexible cat (.record id)).asks cat) :
      cat.HasSchema key.1 ∧ key.2 = .standard := by
    rw [Placement.flexible] at hmem
    split at hmem
    · cases hmem
    · rw [List.mem_singleton.mp hmem]
      exact ⟨hid, rfl⟩
  cases type with
  | wrapper id =>
    rw [List.mem_singleton.mp hkey]
    refine ⟨h.wrappers _ ?_, rfl⟩
    rw [wrapper, List.getD_eq_getElem _ _ href]
    exact List.getElem_mem href
  | choice id =>
    obtain ⟨v, hv, rfl⟩ := List.mem_map.mp hkey
    refine ⟨h.choices _ ?_ v hv, rfl⟩
    rw [choice, List.getD_eq_getElem _ _ href]
    exact List.getElem_mem href
  | record id => exact hrecord href hkey
  | back id name => exact hrecord href hkey
  | _ => cases hkey

/-- A fixed placement asks for fixed layouts of declared schemas. -/
theorem Closed.fixed_asks (h : cat.Closed) {type : ValueType} (href : cat.Refers type)
    {p : Placement} (hp : p.FixedFor cat type.key) {key : LayoutKey} (hkey : key ∈ p.asks cat) :
    cat.HasSchema key.1 ∧ key.2 = .fixed := by
  -- a fixed record asks for its own fixed layout only where it is placed inline
  have hrecord {id : SchemaId} (hid : cat.HasSchema id) (hfor : p.FixedFor cat (.record id)) :
      cat.HasSchema key.1 ∧ key.2 = .fixed := by
    rw [Placement.FixedFor] at hfor
    split at hfor
    · rw [hfor] at hkey
      cases hkey
    · rcases hfor with rfl | rfl
      · rw [List.mem_singleton.mp hkey]
        exact ⟨hid, rfl⟩
      · cases hkey
  cases type with
  | wrapper id =>
    cases hp
    rw [List.mem_singleton.mp hkey]
    refine ⟨h.wrappers _ ?_, rfl⟩
    rw [wrapper, List.getD_eq_getElem _ _ href]
    exact List.getElem_mem href
  | record id => exact hrecord href hp
  | back id name => exact hrecord href hp
  | _ =>
    cases hp
    cases hkey

end Catalog

/-- What a field asks for, from its encoding. -/
theorem Compiler.Good.asks {c : Compiler} (h : c.Good) {id : SchemaId} {kind : LayoutKind}
    {f : FieldDecl} (hf : f ∈ (c.catalog.schema id).fields) {e : Encoding}
    (he : boundEncoding? c (c.catalog.schema id) kind f = some e) : Asks c (id, kind) e := by
  intro key hkey
  rw [boundEncoding?] at he
  cases hshape : f.shape with
  | value type rule =>
    simp only [hshape, Option.map_eq_some_iff] at he
    obtain ⟨p, hp, rfl⟩ := he
    have hgood := h.placements _ _ _ hp
    have href : c.catalog.Refers type := by
      rw [Catalog.fields_schema] at hf
      by_cases hid : id.declared < c.catalog.schemas.length
      · rw [List.getD_eq_getElem _ _ hid] at hf
        exact h.closed.schemas _ (List.getElem_mem hid) f hf type rule hshape
      · rw [List.getD_eq_default _ _ (by omega)] at hf
        cases hf
    cases hrule : (kind.placementRule rule).isFixed with
    | true =>
      obtain ⟨hfor, hknown⟩ := hgood.fixed hrule
      obtain ⟨hschema, hfixed⟩ := h.closed.fixed_asks href hfor hkey
      exact ⟨hschema, Or.inl ⟨hfixed, hknown key hkey⟩⟩
    | false =>
      have hflex := hgood.flexible hrule
      -- only a standard layout leaves a field its flexible rule
      have hboth : kind = .standard ∧ rule = .flexible := by
        cases kind <;> cases rule <;> first | exact ⟨rfl, rfl⟩ | cases hrule
      obtain ⟨rfl, rfl⟩ := hboth
      have hmem : key ∈ (Placement.flexible c.catalog type.key).asks c.catalog := by
        rw [← hflex]
        exact hkey
      obtain ⟨hschema, hstandard⟩ := h.closed.flexible_asks href hmem
      rw [Catalog.fields_schema] at hf
      exact ⟨hschema, Or.inr ⟨hstandard, rfl, f, hf, type, hshape, key, hmem, rfl⟩⟩
  | scalar k =>
    simp only [hshape, Option.some.injEq] at he
    rw [← he] at hkey
    cases hkey
  | width =>
    simp only [hshape, Option.some.injEq] at he
    rw [← he] at hkey
    cases hkey
  | varint =>
    simp only [hshape, Option.some.injEq] at he
    rw [← he] at hkey
    split at hkey <;> cases hkey
  | sized size =>
    simp only [hshape] at he
    split at he
    · rw [← Option.some.inj he] at hkey
      cases hkey
    · obtain ⟨i, -, rfl⟩ := Option.map_eq_some_iff.mp he
      cases hkey
  | array element count =>
    simp only [hshape] at he
    split at he
    · cases he
    · obtain ⟨i, -, rfl⟩ := Option.map_eq_some_iff.mp he
      cases hkey

/-- The encodings that are bound ask only for declared schemas. -/
theorem Compiler.Good.asks_bound {c : Compiler} (h : c.Good) {id : SchemaId} {kind : LayoutKind}
    {bindings : List Binding} (hbound : boundFields? c (c.catalog.schema id) kind 0
      (c.catalog.schema id).fields = some bindings) :
    ∀ b ∈ bindings, Asks c (id, kind) b.encoding := by
  intro b hb
  obtain ⟨i, hi, rfl⟩ := List.getElem_of_mem hb
  obtain ⟨f, hf, hfield⟩ := boundFields?_getElem hbound hi
  exact h.asks (List.mem_of_getElem? hf) (boundField?_eq_some.mp hfield).2.2.1

/-- Where there is no infinite descent, nothing is below itself. -/
theorem not_rel_self_of_acc {α : Type} {r : α → α → Prop} {a : α} (h : Acc r a) : ¬r a a := by
  induction h with
  | intro x _ ih => exact fun hx => ih x hx hx

namespace Within

variable {cat : Catalog} {keys : Finset LayoutKey} {depth : Nat} {cur key : LayoutKey}
  {c c' : Compiler} {e : Encoding}

/-- A compilation may ask what its fields ask. -/
theorem allows (h : Within cat keys depth cur c) (ha : Asks c cur e)
    (hkey : key ∈ e.asks c.catalog) : Allows cat keys cur key := by
  obtain ⟨hschema, hkind⟩ := ha key hkey
  rw [h.catalog] at hschema hkind
  obtain ⟨id, kind⟩ := key
  rcases hkind with ⟨hfixed, -⟩ | ⟨hstandard, hcur, hinside⟩
  · cases hfixed
    exact ⟨(h.covers.declared id hschema).2, fun h => nomatch h⟩
  · cases hstandard
    exact ⟨(h.covers.declared id hschema).1, fun _ => ⟨hcur, .single hinside⟩⟩

/-- A compilation may ask what the placement of a field asks. -/
theorem allows_placed {id : SchemaId} {kind : LayoutKind} (h : Within cat keys depth (id, kind) c)
    {f : FieldDecl} (hf : f ∈ (cat.schema id).fields) {type : ValueType} {rule : PlacementRule}
    (hshape : f.shape = .value type rule) {p : Placement}
    (hp : c.placementAnswer (type.key, kind.placementRule rule) = some p) :
    ∀ key ∈ p.asks cat, Allows cat keys (id, kind) key := by
  have hcat := h.catalog
  subst hcat
  have hbound : boundEncoding? c (c.catalog.schema id) kind f =
      some (.placed p (f.nullable && !p.encodesNull)) := by
    simp only [boundEncoding?, hshape, hp, Option.map_some]
  exact fun key hkey => h.allows (h.good.asks hf hbound) hkey

/-- Once the layouts that a field asks for are settled, its size stays fixed or stays unknown. A
layout that is still running stands inside itself. -/
theorem sized (h : Within cat keys depth cur c) (ha : Asks c cur e)
    (hset : c.Settles (e.asks c.catalog)) : c.Sized e (e.sizeIn c) := by
  by_cases hfix : c.Fixes e
  · exact Or.inl ⟨hfix, rfl⟩
  · refine Or.inr ⟨?_, Bool.eq_false_iff.mpr hfix, c, .refl c, rfl⟩
    rcases hset with hall | ⟨key, hkey, hrun | hfailed⟩
    · exact Or.inr ⟨hall, hfix⟩
    · refine Or.inl ⟨key, hkey, Or.inr (Or.inr ?_)⟩
      obtain ⟨-, ⟨-, hknown⟩ | ⟨hstandard, hcur, hinside⟩⟩ := ha key hkey
      · rw [Compiler.answer, hrun] at hknown
        cases hknown
      · rw [h.catalog] at hinside ⊢
        refine ⟨hstandard, fun hacc => ?_⟩
        have hcycle : Relation.TransGen cat.Inlines key.1.declared key.1.declared :=
          Relation.TransGen.tail' (h.chain hcur key hrun hstandard) hinside
        have hback : Relation.TransGen cat.StandsIn key.1.declared key.1.declared :=
          Relation.transGen_swap.mp hcycle
        exact not_rel_self_of_acc hacc.transGen hback
    · exact Or.inl ⟨key, hkey, Or.inl hfailed⟩

end Within

end RecordLayout
