import Mathlib
import RecordLayout.Proofs.Layout.Embeds
import RecordLayout.Proofs.Layout.Judged
import RecordLayout.Proofs.Layout.Resting

/-!
# Layouts of fixed width

What a new compiler answers when it is asked for a layout of fixed width is what every compiler
answers, whatever else it has compiled or is compiling: `Catalog.fixedLayout`. While such a layout is
being compiled, the layouts and placements that are ahead of it are not running, so no answer that is
needed is cut short. All this is about schemas from which only types in use are named; what is found
about others may depend on where it is asked for first.

Main results:

* `compileLayout_alike` — two compilations of a layout end alike, however much is known in each;
* `settled` — the answer that a compilation gets when it asks for a layout of fixed width;
* `placementWith_tells` — the answer for a placement;
* `Catalog.LiveFrom.fixedLayout_of_circle`, `Catalog.LiveFrom.fixedLayout_of_draft`,
  `Catalog.LiveFrom.circle_of_recursive` — when the answer is that the layout is recursive.
-/

namespace RecordLayout

/-- The declaration of a type in its own name. -/
def TypeKey.type : TypeKey → ValueType
  | .any => .any
  | .scalar kind => .scalar kind
  | .text => .text
  | .wrapper id => .wrapper id
  | .choice id => .choice id
  | .record id => .record id

namespace Catalog

/-- What a new compiler answers when it is asked for a layout of fixed width. -/
def fixedLayout (c : Catalog) (id : SchemaId) : Except FormatError Layout :=
  (outcome (Compiler.layout id .fixed) (.ofCatalog c)).1

/-- Two more levels of depth do not change a fixed layout. -/
theorem fixedLayout_eq (c : Catalog) (id : SchemaId) : c.fixedLayout id =
    (outcome (layoutWithin (4 * c.size + 3 + 1) id .fixed) (.ofCatalog c)).1 := by
  have hask : Compiler.layout id .fixed (.ofCatalog c) =
      layoutWithin c.compileDepth id .fixed (.ofCatalog c) := rfl
  rw [fixedLayout, outcome, outcome, hask, compileDepth]

/-- What a new compiler makes of the fields of a schema at fixed widths. -/
def fixedFields (c : Catalog) (id : SchemaId) : Except FormatError (List BoundField) :=
  (outcome (compileFields (layoutWithin c.compileDepth) (c.schema id) .fixed) (.ofCatalog c)).1

/-- The placement that follows from these answers at a fixed width. -/
def fixedPlacement (c : Catalog) (key : TypeKey) : Except FormatError Placement :=
  (outcome (place (fun id _ => ofExcept (c.fixedLayout id)) key.type .fixed) (.ofCatalog c)).1

end Catalog

/-! ## Answers -/

section

variable {ε σ α : Type} {act : EStateM ε σ α} {s t : σ}

/-- An outcome is a success when the run is. -/
theorem outcome_eq_ok {a : α} : outcome act s = (.ok a, t) ↔ act s = .ok a t := by
  simp only [outcome]
  cases act s with
  | ok b u => simp
  | error e u => simp

/-- An outcome is a failure when the run is. -/
theorem outcome_eq_error {e : ε} : outcome act s = (.error e, t) ↔ act s = .error e t := by
  simp only [outcome]
  cases act s with
  | ok b u => simp
  | error e u => simp

end

/-- A step has a result in a state, and leads to a state of some sort in which the same compilations
are running. -/
def Tells {α : Type} (good : Compiler → Prop) (act : CompileM α) (c : Compiler)
    (result : Except FormatError α) : Prop :=
  ∃ c', outcome act c = (result, c') ∧ good c' ∧ c.Returns c'

/-! ## Placements -/

namespace Catalog

variable {c : Catalog}

/-- A wrapper is placed with its carrier's fixed layout, or not at all. -/
theorem fixedPlacement_wrapper (id : WrapperId) : c.fixedPlacement (.wrapper id) =
    match c.fixedLayout (c.wrapper id).carrier with
    | .ok _ => .ok (.wrapped id (c.wrapper id).carrier .fixed)
    | .error e => .error (if e.isLayout || e.isRecursive then
        .fixedUnsupported (c.wrapper id).name e else e) := by
  show (outcome (placeFixedWrapper (fun id _ => ofExcept (c.fixedLayout id)) id (c.wrapper id))
    (.ofCatalog c)).1 = _
  simp only [outcome, placeFixedWrapper]
  cases c.fixedLayout (c.wrapper id).carrier <;> rfl

/-- An unmanaged record is placed as a handle of fixed width. -/
theorem fixedPlacement_handle {id : SchemaId} (h : (c.schema id).isUnmanaged = true) :
    c.fixedPlacement (.record id) = .ok (.handle id true) := by
  show (outcome (if (c.schema id).isUnmanaged then _ else _ : CompileM _) (.ofCatalog c)).1 = _
  rw [h]
  rfl

/-- A record is placed inline where its fixed layout exists and behind a reference where it does
not. -/
theorem fixedPlacement_record {id : SchemaId} (h : (c.schema id).isUnmanaged = false) :
    c.fixedPlacement (.record id) =
      match c.fixedLayout id with
      | .ok _ => .ok (.fixedRecord id)
      | .error e => if e.isLayout || e.isRecursive then .ok (.chunkRecord id) else .error e := by
  show (outcome (if (c.schema id).isUnmanaged then _ else _ : CompileM _) (.ofCatalog c)).1 = _
  rw [h]
  show (outcome (placeFixedRecord (fun id _ => ofExcept (c.fixedLayout id)) id)
    (.ofCatalog c)).1 = _
  simp only [outcome, placeFixedRecord]
  cases c.fixedLayout id with
  | ok l => rfl
  | error e =>
    show _ = if (e.isLayout || e.isRecursive) = true then _ else _
    cases hsoft : e.isLayout || e.isRecursive <;>
      simp [ofExcept, throw, throwThe, MonadExceptOf.throw, EStateM.throw, hsoft]

/-- A placement of fixed width asks for the fixed layout of what the type holds. -/
theorem fixedPlacement_asks {key : TypeKey} {p : Placement} (h : c.fixedPlacement key = .ok p) :
    ∀ k ∈ p.asks c, k.2 = .fixed ∧ c.Holds key k.1 := by
  -- wrappers and managed records ask for their own fixed layout, all other types for none
  cases key with
  | wrapper id =>
    rw [fixedPlacement_wrapper] at h
    split at h
    · cases h
      intro k hk
      rw [List.mem_singleton.mp hk]
      exact ⟨rfl, rfl⟩
    · cases h
  | record id =>
    cases hmanaged : (c.schema id).isUnmanaged with
    | true =>
      rw [fixedPlacement_handle hmanaged] at h
      cases h
      exact fun k hk => absurd hk List.not_mem_nil
    | false =>
      rw [fixedPlacement_record hmanaged] at h
      split at h
      · cases h
        intro k hk
        rw [List.mem_singleton.mp hk]
        exact ⟨rfl, rfl, hmanaged⟩
      · split at h
        · cases h
          exact fun k hk => absurd hk List.not_mem_nil
        · cases h
  | _ =>
    cases h
    exact fun k hk => absurd hk List.not_mem_nil

/-- That a layout is recursive shows in no placement. -/
theorem fixedPlacement_error {key : TypeKey} {e : FormatError} (h : c.fixedPlacement key = .error e) :
    e.isRecursive = false := by
  -- refusals of a layout and of a cycle are turned into a reference or into the wrapper's own
  -- refusal, so only others come through
  cases key with
  | wrapper id =>
    rw [fixedPlacement_wrapper] at h
    split at h
    · cases h
    · rename_i e' _
      have he := Except.error.inj h
      rw [← he]
      split
      · rfl
      · rename_i hsoft
        rw [Bool.not_eq_true, Bool.or_eq_false_iff] at hsoft
        exact hsoft.2
  | record id =>
    cases hmanaged : (c.schema id).isUnmanaged with
    | true =>
      rw [fixedPlacement_handle hmanaged] at h
      cases h
    | false =>
      rw [fixedPlacement_record hmanaged] at h
      split at h
      · cases h
      · split at h
        · cases h
        · rename_i e' _ hsoft
          cases h
          rw [Bool.not_eq_true, Bool.or_eq_false_iff] at hsoft
          exact hsoft.2
  | _ => cases h

end Catalog

section

variable {layoutOf : LayoutOf} {c c' : Compiler}

/-- The compiler places a wrapper as specified once its carrier's layout is. -/
theorem placeFixedWrapper_fixed {id : WrapperId}
    (hask : outcome (layoutOf (c.catalog.wrapper id).carrier .fixed) c =
      (c.catalog.fixedLayout (c.catalog.wrapper id).carrier, c')) :
    outcome (placeFixedWrapper layoutOf id (c.catalog.wrapper id)) c =
      (c.catalog.fixedPlacement (.wrapper id), c') := by
  rw [Catalog.fixedPlacement_wrapper]
  cases hlayout : c.catalog.fixedLayout (c.catalog.wrapper id).carrier with
  | ok l =>
    rw [hlayout, outcome_eq_ok] at hask
    simp only [outcome, placeFixedWrapper, hask]
  | error e =>
    rw [hlayout, outcome_eq_error] at hask
    simp only [outcome, placeFixedWrapper, hask]

/-- The compiler places a managed record as specified once its fixed layout is. -/
theorem placeFixedRecord_fixed {id : SchemaId} (hmanaged : (c.catalog.schema id).isUnmanaged = false)
    (hask : outcome (layoutOf id .fixed) c = (c.catalog.fixedLayout id, c')) :
    outcome (placeFixedRecord layoutOf id) c = (c.catalog.fixedPlacement (.record id), c') := by
  rw [Catalog.fixedPlacement_record hmanaged]
  cases hlayout : c.catalog.fixedLayout id with
  | ok l =>
    rw [hlayout, outcome_eq_ok] at hask
    simp only [outcome, placeFixedRecord, hask]
  | error e =>
    rw [hlayout, outcome_eq_error] at hask
    simp only [outcome, placeFixedRecord, hask]
    cases e.isLayout || e.isRecursive <;> rfl

/-- At a fixed width, a placement follows from the answer for what the type holds. -/
theorem place_fixed {type : ValueType} {rule : PlacementRule} (hrule : rule.isFixed = true)
    (hask : ∀ id, c.catalog.Holds type.key id →
      outcome (layoutOf id .fixed) c = (c.catalog.fixedLayout id, c'))
    (hsame : (∀ id, ¬c.catalog.Holds type.key id) → c' = c) :
    outcome (place layoutOf type rule) c = (c.catalog.fixedPlacement type.key, c') := by
  have hrecord {id : SchemaId}
      (hask : c.catalog.Holds (.record id) id →
        outcome (layoutOf id .fixed) c = (c.catalog.fixedLayout id, c'))
      (hsame : (∀ t, ¬c.catalog.Holds (.record id) t) → c' = c) :
      outcome (if (c.catalog.schema id).isUnmanaged then pure (.handle id true)
        else placeFixedRecord layoutOf id) c = (c.catalog.fixedPlacement (.record id), c') := by
    cases hmanaged : (c.catalog.schema id).isUnmanaged with
    | true =>
      -- a handle holds no layout
      obtain rfl := hsame fun t ht => by
        rw [ht.2] at hmanaged
        cases hmanaged
      rw [Catalog.fixedPlacement_handle hmanaged]
      rfl
    | false => exact placeFixedRecord_fixed hmanaged (hask ⟨rfl, hmanaged⟩)
  have hrun : outcome (place layoutOf type rule) c = outcome (place layoutOf type .fixed) c := by
    unfold place
    rw [hrule]
    rfl
  rw [hrun]
  cases type with
  | wrapper id => exact placeFixedWrapper_fixed (hask _ rfl)
  | record id => exact hrecord (hask id) hsame
  | back id name => exact hrecord (hask id) hsame
  | _ =>
    obtain rfl := hsame fun _ => id
    rfl

end

/-! ## Compilers that know what a new one would find -/

namespace Compiler

/-- What is known of live layouts of fixed width, and of live placements, is what a new compiler
answers. -/
structure Faithful (c : Compiler) : Prop where
  layouts : ∀ id result, c.catalog.LiveFrom id →
    c.layouts.find? (id, .fixed) = some (.done result) → result = c.catalog.fixedLayout id
  placements : ∀ key rule result, rule.isFixed = true → c.catalog.LiveType key →
    c.placements.find? (key, rule) = some (.done result) → result = c.catalog.fixedPlacement key

/-- Neither the layout of fixed width of a schema nor anything that it leans on is being compiled. -/
structure Clear (c : Compiler) (id : SchemaId) : Prop where
  layout : c.layouts.find? (id, .fixed) ≠ some .running
  ahead : ∀ t, Relation.TransGen c.catalog.LeansOn id t →
    c.layouts.find? (t, .fixed) ≠ some .running
  placing : ∀ key rule, rule.isFixed = true → c.catalog.LiveType key →
    (∀ t, c.catalog.Holds key t → Relation.TransGen c.catalog.LeansOn id t) →
    c.placements.find? (key, rule) ≠ some .running

section

variable {c c' : Compiler}

/-- A compiler that has answered nothing is faithful. -/
theorem faithful_ofCatalog (cat : Catalog) : (ofCatalog cat).Faithful :=
  ⟨fun _ _ _ h => absurd h (by rintro ⟨⟩), fun _ _ _ _ _ h => absurd h (by rintro ⟨⟩)⟩

/-- A compiler that has answered nothing is clear. -/
theorem clear_ofCatalog (cat : Catalog) (id : SchemaId) : (ofCatalog cat).Clear id :=
  ⟨by rintro ⟨⟩, fun _ _ => by rintro ⟨⟩, fun _ _ _ _ _ => by rintro ⟨⟩⟩

/-- A compiler stays faithful when a faithful layout is put. -/
theorem Faithful.putLayout (h : c.Faithful) {key : LayoutKey} {slot : MemoSlot FormatError Layout}
    (hslot : ∀ result, slot = .done result → key.2 = .fixed → c.catalog.LiveFrom key.1 →
      result = c.catalog.fixedLayout key.1) : (c.putLayout key slot).Faithful := by
  refine ⟨fun id result hlive hdone => ?_, h.placements⟩
  by_cases heq : (id, LayoutKind.fixed) = key
  · subst heq
    rw [find?_putLayout_self] at hdone
    exact hslot result (Option.some.inj hdone) rfl hlive
  · rw [find?_putLayout_of_ne heq] at hdone
    exact h.layouts id result hlive hdone

/-- A compiler stays faithful when a faithful placement is put. -/
theorem Faithful.putPlacement (h : c.Faithful) {key : TypeKey × PlacementRule}
    {slot : MemoSlot FormatError Placement}
    (hslot : ∀ result, slot = .done result → key.2.isFixed = true → c.catalog.LiveType key.1 →
      result = c.catalog.fixedPlacement key.1) : (c.putPlacement key slot).Faithful := by
  refine ⟨h.layouts, fun pk rule result hrule hlive hdone => ?_⟩
  by_cases heq : (pk, rule) = key
  · subst heq
    rw [find?_putPlacement_self] at hdone
    exact hslot result (Option.some.inj hdone) hrule hlive
  · rw [find?_putPlacement_of_ne heq] at hdone
    exact h.placements pk rule result hrule hlive hdone

/-- What is clear stays so after a request. -/
theorem Clear.returns {id : SchemaId} (h : c.Clear id) (hret : c.Returns c') : c'.Clear id := by
  refine ⟨?_, ?_, ?_⟩
  · exact mt (hret.running _).mp h.layout
  · intro t ht
    rw [hret.catalog] at ht
    exact mt (hret.running _).mp (h.ahead t ht)
  · intro key rule hrule hlive hahead
    rw [hret.catalog] at hlive hahead
    exact mt (hret.placing _).mp (h.placing key rule hrule hlive hahead)

/-- While a layout is compiled, nothing of what it leans on is running. -/
theorem Clear.enter {s t : SchemaId} (h : c.Clear s) (hst : c.catalog.LeansOn s t) :
    (c.putLayout (s, .fixed) .running).Clear t := by
  have hother {u : SchemaId} (hu : Relation.TransGen c.catalog.LeansOn s u) :
      (u, LayoutKind.fixed) ≠ (s, .fixed) := by
    rintro heq
    cases heq
    exact Catalog.LeansOn.irrefl hu
  refine ⟨?_, fun u hu => ?_, fun key rule hrule hlive hahead => ?_⟩
  · rw [find?_putLayout_of_ne (hother (.single hst))]
    exact h.ahead t (.single hst)
  · rw [find?_putLayout_of_ne (hother (.head hst hu))]
    exact h.ahead u (.head hst hu)
  · exact h.placing key rule hrule hlive fun u hu => .head hst (hahead u hu)

/-- While a type is placed, nothing is running of what the layout of its records leans on. -/
theorem Clear.enterPlacement {id : SchemaId} (h : c.Clear id) {key : TypeKey}
    (hholds : c.catalog.Holds key id) (rule : PlacementRule) :
    (c.putPlacement (key, rule) .running).Clear id := by
  refine ⟨h.layout, h.ahead, fun other rule' hrule hlive hahead => ?_⟩
  by_cases heq : (other, rule') = (key, rule)
  · cases heq
    exact (Catalog.LeansOn.irrefl (hahead id hholds)).elim
  · rw [find?_putPlacement_of_ne heq]
    exact h.placing other rule' hrule hlive hahead

end

end Compiler

/-! ## Fetching -/

section

variable {depth : Nat} {c : Compiler}

/-- A layout that is not known is compiled, and the result is kept. -/
theorem layoutWithin_new {id : SchemaId} {kind : LayoutKind}
    (hnew : c.layouts.find? (id, kind) = none) {result : Except FormatError Layout} {c' : Compiler}
    (hrun : outcome (compileLayout (layoutWithin depth) id kind) (c.putLayout (id, kind) .running) =
      (result, c')) :
    outcome (layoutWithin (depth + 1) id kind) c =
      (result, c'.putLayout (id, kind) (.done result)) :=
  Memo.outcome_fetch_new hnew hrun

/-- A layout that was answered is answered the same. -/
theorem layoutWithin_done {id : SchemaId} {kind : LayoutKind} {result : Except FormatError Layout}
    (hdone : c.layouts.find? (id, kind) = some (.done result)) :
    outcome (layoutWithin (depth + 1) id kind) c = (result, c) :=
  Memo.outcome_fetch_done hdone

/-- A layout that is being compiled is a cycle. -/
theorem layoutWithin_running {id : SchemaId} {kind : LayoutKind}
    (hrun : c.layouts.find? (id, kind) = some .running) :
    outcome (layoutWithin (depth + 1) id kind) c = (.error (.recursiveCompile (.layout id kind)), c) :=
  Memo.outcome_fetch_running hrun

/-- A placement that is not known is chosen, and the result is kept. -/
theorem placementWith_new {layoutOf : LayoutOf} {type resolved : ValueType} {rule : PlacementRule}
    (hnew : c.placements.find? (type.key, rule) = none) (hresolve : c.catalog.resolve type = .ok resolved)
    {result : Except FormatError Placement} {c' : Compiler}
    (hrun : outcome (place layoutOf resolved rule) (c.putPlacement (type.key, rule) .running) =
      (result, c')) :
    outcome (placementWith layoutOf type rule) c =
      (result, c'.putPlacement (type.key, rule) (.done result)) := by
  have hbody : (do
      let c ← theCatalog
      let resolved ← ofExcept (c.resolve type)
      place layoutOf resolved rule) (c.putPlacement (type.key, rule) .running) =
        place layoutOf resolved rule (c.putPlacement (type.key, rule) .running) := by
    show (ofExcept (c.catalog.resolve type) >>= _ : CompileM Placement) _ = _
    rw [hresolve]
    rfl
  refine Memo.outcome_fetch_new hnew (Eq.trans ?_ hrun)
  unfold outcome
  rw [← hbody]
  rfl

/-- A placement that was answered is answered the same. -/
theorem placementWith_done {layoutOf : LayoutOf} {type : ValueType} {rule : PlacementRule}
    {result : Except FormatError Placement}
    (hdone : c.placements.find? (type.key, rule) = some (.done result)) :
    outcome (placementWith layoutOf type rule) c = (result, c) :=
  Memo.outcome_fetch_done hdone

/-- A placement that is being compiled is a cycle. -/
theorem placementWith_running {layoutOf : LayoutOf} {type : ValueType} {rule : PlacementRule}
    (hrun : c.placements.find? (type.key, rule) = some .running) :
    outcome (placementWith layoutOf type rule) c =
      (.error (.recursiveCompile (.placement type.key rule)), c) :=
  Memo.outcome_fetch_running hrun

/-- A placement that cannot be chosen, because the type is not to be had any more. -/
theorem placementWith_unresolved {layoutOf : LayoutOf} {type : ValueType} {rule : PlacementRule}
    {e : FormatError} (hnew : c.placements.find? (type.key, rule) = none)
    (hresolve : c.catalog.resolve type = .error e) :
    outcome (placementWith layoutOf type rule) c =
      (.error e, (c.putPlacement (type.key, rule) .running).putPlacement (type.key, rule)
        (.done (.error e))) := by
  have hmemo : Compiler.placementMemo.get c = c.placements := rfl
  have hbody : (do
      let c ← theCatalog
      let resolved ← ofExcept (c.resolve type)
      place layoutOf resolved rule) (c.putPlacement (type.key, rule) .running) =
        .error e (c.putPlacement (type.key, rule) .running) := by
    show (ofExcept (c.catalog.resolve type) >>= _ : CompileM Placement) _ = _
    rw [hresolve]
    rfl
  have hstart : Compiler.placementMemo.set (c.placements.insert (type.key, rule) .running) c =
    c.putPlacement (type.key, rule) .running := rfl
  simp only [outcome, placementWith, Memo.fetch, hmemo, hnew, hstart, hbody]
  rfl

/-- What holds of the compiler, and holds again once a layout that was not known is compiled and put,
holds after the layout has been asked for. -/
theorem layoutWithin_leaves {P : Compiler → Prop} {id : SchemaId} {kind : LayoutKind} (hc : P c)
    (hnew : c.layouts.find? (id, kind) = none → ∀ result c',
      outcome (compileLayout (layoutWithin depth) id kind) (c.putLayout (id, kind) .running) =
        (result, c') → P (c'.putLayout (id, kind) (.done result))) :
    P (outcome (layoutWithin (depth + 1) id kind) c).2 := by
  cases hfind : c.layouts.find? (id, kind) with
  | some slot =>
    cases slot with
    | running => rwa [layoutWithin_running hfind]
    | done result => rwa [layoutWithin_done hfind]
  | none =>
    rw [layoutWithin_new hfind rfl]
    exact hnew hfind _ _ rfl

/-- What holds of the compiler, and holds again once a placement that was not known is chosen or
refused, holds after it has been asked for. -/
theorem placementWith_leaves {P : Compiler → Prop} {layoutOf : LayoutOf} {type : ValueType}
    {rule : PlacementRule} (hc : P c)
    (hrefused : c.placements.find? (type.key, rule) = none → ∀ e, c.catalog.resolve type = .error e →
      P ((c.putPlacement (type.key, rule) .running).putPlacement (type.key, rule) (.done (.error e))))
    (hchosen : c.placements.find? (type.key, rule) = none → ∀ resolved result c',
      c.catalog.resolve type = .ok resolved →
      outcome (place layoutOf resolved rule) (c.putPlacement (type.key, rule) .running) =
        (result, c') → P (c'.putPlacement (type.key, rule) (.done result))) :
    P (outcome (placementWith layoutOf type rule) c).2 := by
  cases hfind : c.placements.find? (type.key, rule) with
  | some slot =>
    cases slot with
    | running => rwa [placementWith_running hfind]
    | done result => rwa [placementWith_done hfind]
  | none =>
    cases hresolve : c.catalog.resolve type with
    | error e =>
      rw [placementWith_unresolved hfind hresolve]
      exact hrefused hfind e hresolve
    | ok resolved =>
      rw [placementWith_new hfind hresolve rfl]
      exact hchosen hfind _ _ _ hresolve rfl

end

/-- What leads ends in a good compiler, whatever the outcome. -/
theorem Leads.of_outcome {α : Type} {good : Compiler → Prop} {act : CompileM α} {c c' : Compiler}
    {post : α → Compiler → Prop} (h : Leads good act c post) {result : Except FormatError α}
    (hrun : outcome act c = (result, c')) : good c' ∧ c.Returns c' := by
  cases result with
  | ok a =>
    obtain ⟨hgood, hret, -⟩ := h.ok (outcome_eq_ok.mp hrun)
    exact ⟨hgood, hret⟩
  | error e => exact h.error (outcome_eq_error.mp hrun)

/-- A request that is answered leads to its layout. -/
theorem Answers.leads {good : Compiler → Prop} {layoutOf : LayoutOf} {key : LayoutKey}
    (h : Answers good layoutOf key) {c : Compiler} (hc : good c) :
    Leads good (layoutOf key.1 key.2) c fun l c' => c'.answer key = some l := by
  obtain ⟨d, hd, hret, ⟨l, hok, hl⟩ | ⟨e, herror, -⟩⟩ := h c hc
  · exact .of_ok hok hd hret hl
  · exact .of_error herror hd hret

/-! ## Two runs -/

/-- Two steps, each in its own state, have the same result. -/
def Alike (good good' : Compiler → Prop) {α : Type} (act act' : CompileM α) (post : α → Prop)
    (fail : FormatError → Prop) : Prop :=
  ∀ c c', good c → good' c' → ∃ result, Tells good act c result ∧ Tells good' act' c' result ∧
    (∀ a, result = .ok a → post a) ∧ ∀ e, result = .error e → fail e

/-- A success goes on to what follows. -/
theorem outcome_followed_ok {α β : Type} {act : CompileM α} {c d : Compiler} {a : α}
    (h : outcome act c = (.ok a, d)) (next : α → CompileM β) (handle : FormatError → CompileM β) :
    outcome (followed act next handle) c = outcome (next a) d := by
  simp only [outcome, followed, outcome_eq_ok.mp h]

/-- A failure goes on to what handles it. -/
theorem outcome_followed_error {α β : Type} {act : CompileM α} {c d : Compiler} {e : FormatError}
    (h : outcome act c = (.error e, d)) (next : α → CompileM β)
    (handle : FormatError → CompileM β) :
    outcome (followed act next handle) c = outcome (handle e) d := by
  simp only [outcome, followed, outcome_eq_error.mp h]

/-- Two runs that tell the same are alike. -/
theorem Alike.of_tells {α : Type} {good good' : Compiler → Prop} {act act' : CompileM α}
    {post : α → Prop} {fail : FormatError → Prop} {result : Except FormatError α}
    (h : ∀ c, good c → Tells good act c result) (h' : ∀ c, good' c → Tells good' act' c result)
    (hpost : ∀ a, result = .ok a → post a) (hfail : ∀ e, result = .error e → fail e) :
    Alike good good' act act' post fail :=
  fun c c' hc hc' => ⟨result, h c hc, h' c' hc', hpost, hfail⟩

/-- Being alike is a judgement. -/
theorem Alike.compatible {cat : Catalog} {good good' : Compiler → Prop}
    (hcat : ∀ c, good c → c.catalog = cat) (hcat' : ∀ c, good' c → c.catalog = cat) :
    Compatible cat fun act act' post fail => Alike good good' act act' post fail where
  pure hpost := Alike.of_tells (fun c hc => ⟨c, rfl, hc, .refl c⟩)
    (fun c hc => ⟨c, rfl, hc, .refl c⟩) (fun b hb => by cases hb; exact hpost)
    fun e he => by cases he
  throw hfail := Alike.of_tells (fun c hc => ⟨c, rfl, hc, .refl c⟩)
    (fun c hc => ⟨c, rfl, hc, .refl c⟩) (fun b hb => by cases hb)
    fun e he => by cases he; exact hfail
  followed h hnext hhandle := by
    intro c c' hc hc'
    -- both runs go on from states in which the same compilations are running
    obtain ⟨result, ⟨d, hrun, hd, hret⟩, ⟨d', hrun', hd', hret'⟩, hpost, hfail⟩ := h c c' hc hc'
    cases result with
    | ok a =>
      obtain ⟨last, ⟨e, hlast, he, hret₂⟩, ⟨e', hlast', he', hret₂'⟩, hboth⟩ :=
        hnext a (hpost a rfl) d d' hd hd'
      exact ⟨last, ⟨e, (outcome_followed_ok hrun _ _).trans hlast, he, hret.trans hret₂⟩,
        ⟨e', (outcome_followed_ok hrun' _ _).trans hlast', he', hret'.trans hret₂'⟩, hboth⟩
    | error err =>
      obtain ⟨last, ⟨e, hlast, he, hret₂⟩, ⟨e', hlast', he', hret₂'⟩, hboth⟩ :=
        hhandle err (hfail err rfl) d d' hd hd'
      exact ⟨last, ⟨e, (outcome_followed_error hrun _ _).trans hlast, he, hret.trans hret₂⟩,
        ⟨e', (outcome_followed_error hrun' _ _).trans hlast', he', hret'.trans hret₂'⟩, hboth⟩
  catalog := by
    intro fail c c' hc hc'
    refine ⟨.ok cat, ⟨c, ?_, hc, .refl c⟩, ⟨c', ?_, hc', .refl c'⟩, fun a ha => ?_, fun e he => ?_⟩
    · rw [← hcat c hc]
      rfl
    · rw [← hcat' c' hc']
      rfl
    · cases ha
      rfl
    · cases he

/-! ## The answer for a layout of fixed width -/

/-- A compiler inside the compilation of a layout that knows what a new one would find. -/
structure Honest (cat : Catalog) (keys : Finset LayoutKey) (depth : Nat) (cur : LayoutKey)
    (c : Compiler) : Prop extends Within cat keys depth cur c where
  faithful : c.Faithful

/-- A compiler inside the compilation of a layout of fixed width. Nothing that the layout leans on is
running. -/
structure Underway (cat : Catalog) (keys : Finset LayoutKey) (depth : Nat) (id : SchemaId)
    (c : Compiler) : Prop extends Honest cat keys depth (id, .fixed) c where
  clear : ∀ t, cat.LeansOn id t → c.Clear t
  placing : ∀ key rule, rule.isFixed = true → cat.LiveType key →
    (∀ t, cat.Holds key t → cat.LeansOn id t) → c.placements.find? (key, rule) ≠ some .running

/-- Compilations that ask for the layout of fixed width of a schema are told what a new compiler
answers. -/
def Settled (cat : Catalog) (id : SchemaId) : Prop :=
  ∀ keys depth cur c, Honest cat keys depth cur c → Allows cat keys cur (id, .fixed) → c.Clear id →
    Tells (Honest cat keys depth cur) (layoutWithin depth id .fixed) c (cat.fixedLayout id)

section

variable {cat : Catalog} {keys keys' : Finset LayoutKey} {depth depth' : Nat} {cur : LayoutKey}
  {id : SchemaId} {c : Compiler}

/-- What is told between requests is told underway. -/
theorem Underway.tells {α : Type} (h : Underway cat keys depth id c) {act : CompileM α}
    {result : Except FormatError α}
    (ht : Tells (Honest cat keys depth (id, .fixed)) act c result) :
    Tells (Underway cat keys depth id) act c result := by
  obtain ⟨c', hrun, hgood, hret⟩ := ht
  exact ⟨c', hrun, ⟨hgood, fun t hst => (h.clear t hst).returns hret,
    fun key rule hrule hlive hall => mt (hret.placing _).mp (h.placing key rule hrule hlive hall)⟩,
    hret⟩

/-- A request for a new fixed layout is underway once its key is marked. -/
theorem Honest.enter (h : Honest cat keys (depth + 1) cur c)
    (hallow : Allows cat keys cur (id, .fixed)) (hclear : c.Clear id)
    (hnew : c.layouts.find? (id, .fixed) = none) :
    Underway cat keys depth id (c.putLayout (id, .fixed) .running) := by
  have hcat := h.catalog
  subst hcat
  refine ⟨⟨h.enter hallow hnew, h.faithful.putLayout fun result hslot => ?_⟩,
    fun t hst => hclear.enter hst, fun key rule hrule hlive hall => ?_⟩
  · cases hslot
  · exact hclear.placing key rule hrule hlive fun t ht => .single (hall t ht)

/-- The answer for a placement of fixed width, given those for what it holds. -/
theorem placementWith_tells {type : ValueType} (hlive : cat.LiveType type.key)
    (h : Honest cat keys depth cur c) {rule : PlacementRule} (hrule : rule.isFixed = true)
    (href : cat.Refers type)
    (hsettled : ∀ id, cat.Holds type.key id → Settled cat id ∧ c.Clear id)
    (hplacing : c.placements.find? (type.key, rule) ≠ some .running) :
    Tells (Honest cat keys depth cur) (placementWith (layoutWithin depth) type rule) c
      (cat.fixedPlacement type.key) := by
  have hcat := h.catalog
  subst hcat
  cases hfind : c.placements.find? (type.key, rule) with
  | some slot =>
    cases slot with
    | running => exact absurd hfind hplacing
    | done result =>
      obtain rfl := h.faithful.placements _ _ _ hrule hlive hfind
      exact ⟨c, placementWith_done hfind, h, .refl c⟩
  | none =>
    obtain ⟨resolved, hresolve, hkey⟩ := hlive.alive.resolve
    have hin : Honest c.catalog keys depth cur (c.putPlacement (type.key, rule) .running) :=
      ⟨h.toWithin.enterPlacement hfind, h.faithful.putPlacement fun result hslot => by cases hslot⟩
    -- what is asked for while the placement is chosen
    obtain ⟨d, hplace, hd⟩ : ∃ d, outcome (place (layoutWithin depth) resolved rule)
        (c.putPlacement (type.key, rule) .running) = (c.catalog.fixedPlacement resolved.key, d) ∧
          d.Faithful := by
      by_cases hholds : ∃ id, c.catalog.Holds type.key id
      · obtain ⟨id, hid⟩ := hholds
        obtain ⟨hset, hclear⟩ := hsettled id hid
        have hallow : Allows c.catalog keys cur (id, .fixed) :=
          ⟨(h.covers.declared id (h.good.closed.hasSchema_of_holds href hid)).2,
            fun hkind => by cases hkind⟩
        obtain ⟨d, hrun, hd, -⟩ := hset keys depth cur _ hin hallow (hclear.enterPlacement hid rule)
        refine ⟨d, place_fixed hrule (fun t ht => ?_) fun hnone => ?_, hd.faithful⟩
        · rw [hkey] at ht
          obtain rfl := Catalog.Holds.unique hid ht
          exact hrun
        · rw [hkey] at hnone
          exact (hnone id hid).elim
      · refine ⟨_, place_fixed hrule (fun t ht => ?_) fun _ => rfl, hin.faithful⟩
        rw [hkey] at ht
        exact (hholds ⟨t, ht⟩).elim
    rw [hkey] at hplace
    have hrun := placementWith_new hfind hresolve hplace
    obtain ⟨hwithin, hret⟩ := (placementWith_leads (layoutWithin_serves _ _ _ _) h.toWithin
      fun _ => href).of_outcome hrun
    refine ⟨_, hrun, ⟨hwithin, hd.putPlacement fun result hslot _ _ => ?_⟩, hret⟩
    cases hslot
    rw [← hret.catalog]
    rfl

/-- The layouts that the layout of fixed width of a schema asks for. -/
def AsksFixed (cat : Catalog) (id : SchemaId) (key : LayoutKey) : Prop :=
  key.2 = .fixed ∧ cat.LeansOn id key.1

/-- The answer for a layout that the one being compiled leans on. -/
theorem Underway.layout (hlive : cat.LiveFrom id) (h : Underway cat keys depth id c) {t : SchemaId}
    (hst : cat.LeansOn id t) (hsettled : Settled cat t) :
    Tells (Underway cat keys depth id) (layoutWithin depth t .fixed) c (cat.fixedLayout t) := by
  have hallow : Allows cat keys (id, .fixed) (t, .fixed) :=
    ⟨(h.covers.declared t (hlive.hasSchema_of_leansOn hst)).2, fun hkind => by cases hkind⟩
  exact h.tells (hsettled keys depth _ c h.toHonest hallow (h.clear t hst))

/-- The layout of a schema leans on what stands in its fields. -/
theorem Catalog.leansOn_of_field (hacyclic : ¬Relation.TransGen cat.Embeds id id) {f : FieldDecl}
    (hf : f ∈ (cat.schema id).fields) {type : ValueType} {rule : PlacementRule}
    (hshape : f.shape = .value type rule) {t : SchemaId} (ht : cat.Holds type.key t) :
    cat.LeansOn id t :=
  ⟨hacyclic, Or.inl ⟨f, hf, type, rule, hshape, ht⟩⟩

/-- The answer for the placement of a field. -/
theorem Underway.placement (h : Underway cat keys depth id c) {type : ValueType}
    (hlive : cat.LiveType type.key) (href : cat.Refers type)
    (hleans : ∀ t, cat.Holds type.key t → cat.LeansOn id t)
    (hsettled : ∀ t, cat.LeansOn id t → Settled cat t) (rule : PlacementRule) :
    Tells (Underway cat keys depth id)
      (placementWith (layoutWithin depth) type (LayoutKind.fixed.placementRule rule)) c
      (cat.fixedPlacement type.key) :=
  h.tells (placementWith_tells hlive h.toHonest rfl href
    (fun t ht => ⟨hsettled t (hleans t ht), h.clear t (hleans t ht)⟩)
    (h.placing _ _ rfl hlive hleans))

/-- The state in which a new compiler compiles a layout. -/
theorem underway_ofCatalog (hcat : cat.Closed) (id : SchemaId) :
    Underway cat (everyLayout cat (id, .fixed)) (4 * cat.size + 3) id
      ((Compiler.ofCatalog cat).putLayout (id, .fixed) .running) := by
  have hallow : Allows cat (everyLayout cat (id, .fixed)) (id, .fixed) (id, .fixed) :=
    ⟨mem_everyLayout.mpr (Or.inl rfl), fun hkind => by cases hkind⟩
  exact Honest.enter ⟨(Compiler.resting_ofCatalog hcat).within (id, .fixed),
    Compiler.faithful_ofCatalog cat⟩ hallow (Compiler.clear_ofCatalog cat id) rfl

/-- The state in which a new compiler lays out fields only. -/
theorem underway_new (hcat : cat.Closed) (id : SchemaId) :
    Underway cat (everyLayout cat (id, .fixed)) cat.compileDepth id (.ofCatalog cat) :=
  ⟨⟨(Compiler.resting_ofCatalog hcat).within (id, .fixed), Compiler.faithful_ofCatalog cat⟩,
    fun t _ => Compiler.clear_ofCatalog cat t, fun _ _ _ _ _ => by rintro ⟨⟩⟩

/-- What two compilations ask for while they lay out the fields of a schema that does not reach
itself, they are told alike. -/
theorem Underway.asks (hlive : cat.LiveFrom id) (hsettled : ∀ t, cat.LeansOn id t → Settled cat t)
    (t : SchemaId) (kind : LayoutKind) (h : AsksFixed cat id (t, kind)) :
    Alike (Underway cat keys depth id) (Underway cat keys' depth' id) (layoutWithin depth t kind)
      (layoutWithin depth' t kind) (fun _ => True) fun _ => True := by
  obtain ⟨rfl, hst⟩ := h
  exact .of_tells (fun c h => h.layout hlive hst (hsettled t hst))
    (fun c h => h.layout hlive hst (hsettled t hst)) (fun _ _ => trivial) fun _ _ => trivial

/-- The fields of a schema that does not reach itself are laid out alike, and a failure is never that
a layout is recursive. -/
theorem compileFields_alike (hlive : cat.LiveFrom id)
    (hsettled : ∀ t, cat.LeansOn id t → Settled cat t)
    (hacyclic : ¬Relation.TransGen cat.Embeds id id) :
    Alike (Underway cat keys depth id) (Underway cat keys' depth' id)
      (compileFields (layoutWithin depth) (cat.schema id) .fixed)
      (compileFields (layoutWithin depth') (cat.schema id) .fixed)
      (fun fields => ∀ f ∈ fields, ∀ key ∈ f.encoding.asks cat, AsksFixed cat id key)
      fun e => e.isRecursive = false := by
  refine (Alike.compatible (fun c h => h.catalog) fun c h => h.catalog).compileFields
    (fun e he => he) (Underway.asks hlive hsettled) (cat.schema id) .fixed ?_
  -- the types of the fields are placed
  intro f hf type rule hshape
  have href := hlive.refers hf hshape
  have hleans (t : SchemaId) (ht : cat.Holds type.key t) : cat.LeansOn id t :=
    Catalog.leansOn_of_field hacyclic hf hshape ht
  have htype := hlive.liveType hf hshape
  refine .of_tells (fun c h => h.placement htype href hleans hsettled rule)
    (fun c h => h.placement htype href hleans hsettled rule) (fun p hp key hkey => ?_)
    fun e he => Catalog.fixedPlacement_error he
  obtain ⟨hkind, hholds⟩ := Catalog.fixedPlacement_asks hp key hkey
  exact ⟨hkind, hleans _ hholds⟩

/-- Every compilation makes of the fields what a new compiler makes of them. This asks for layouts
that the schema leans on, and does not fail because one of them is recursive. -/
theorem compileFields_tells (hlive : cat.LiveFrom id)
    (hsettled : ∀ t, cat.LeansOn id t → Settled cat t)
    (hacyclic : ¬Relation.TransGen cat.Embeds id id) :
    (∀ keys depth c, Underway cat keys depth id c → Tells (Underway cat keys depth id)
      (compileFields (layoutWithin depth) (cat.schema id) .fixed) c (cat.fixedFields id)) ∧
      (∀ fields, cat.fixedFields id = .ok fields →
        ∀ f ∈ fields, ∀ key ∈ f.encoding.asks cat, AsksFixed cat id key) ∧
      ∀ e, cat.fixedFields id = .error e → e.isRecursive = false := by
  have hnew := underway_new hlive.toClosed id
  have hrun {keys depth c} (h : Underway cat keys depth id c) :=
    compileFields_alike hlive hsettled hacyclic c _ h hnew
  refine ⟨fun keys depth c h => ?_, ?_⟩
  · obtain ⟨result, htells, ⟨d, hfields, -⟩, -⟩ := hrun h
    rwa [Catalog.fixedFields, hfields]
  · obtain ⟨result, -, ⟨d, hfields, -⟩, hends⟩ := hrun hnew
    rwa [Catalog.fixedFields, hfields]

/-- Two compilations of a layout of fixed width end alike. They fail as recursive only if the schema
reaches itself, or if its fields can be laid out but its draft has a recursive layout. -/
theorem compileLayout_alike (hlive : cat.LiveFrom id)
    (hsettled : ∀ t, cat.LeansOn id t → Settled cat t) :
    Alike (Underway cat keys depth id) (Underway cat keys' depth' id)
      (compileLayout (layoutWithin depth) id .fixed) (compileLayout (layoutWithin depth') id .fixed)
      (fun _ => True) fun e => e.isRecursive = true → Relation.TransGen cat.Embeds id id ∨
        (cat.schema id).isImmutable = true ∧ (∃ fields, cat.fixedFields id = .ok fields) ∧
          cat.fixedLayout id.toDraft = .error e := by
  have hcompat := @Alike.compatible cat (Underway cat keys depth id) (Underway cat keys' depth' id)
    (fun c h => h.catalog) fun c h => h.catalog
  by_cases hcircle : Relation.TransGen cat.Embeds id id
  · -- both fail at once
    have hin := hlive.standsInItself_iff.mpr hcircle
    exact hcompat.compileLayout (fun e he hrec => Or.inl hcircle) (Underway.asks hlive hsettled)
      (fun _ _ _ => Or.inl hcircle) (fun hno => absurd ⟨rfl, hin⟩ hno)
      fun hno => absurd ⟨rfl, hin⟩ hno
  · have hout : (LayoutKind.fixed.isFixed && cat.standsInItself id) = false := by
      rw [Bool.and_eq_false_iff, Bool.eq_false_iff (b := cat.standsInItself id), ne_eq,
        hlive.standsInItself_iff]
      exact Or.inr hcircle
    obtain ⟨htells, hasks, herror⟩ := compileFields_tells hlive hsettled hcircle
    refine hcompat.mono (hcompat.compileLayout_of_fields (Q := True)
      (P := ∃ fields, cat.fixedFields id = .ok fields) (Underway.asks hlive hsettled) hout
      (.of_tells (htells keys depth) (htells keys' depth')
        (fun fields hfields => ⟨⟨fields, hfields⟩, hasks fields hfields⟩) fun e he hrec => ?_) ?_)
      fun _ _ => trivial
    · rw [herror e he] at hrec
      cases hrec
    · intro hfields himm
      have hst : cat.LeansOn id id.toDraft := ⟨hcircle, Or.inr ⟨himm, rfl⟩⟩
      exact .of_tells (fun c h => h.layout hlive hst (hsettled _ hst))
        (fun c h => h.layout hlive hst (hsettled _ hst)) (fun _ _ => trivial)
        fun e he _ => Or.inr ⟨himm, hfields, he⟩

/-- Whatever has been compiled or is being compiled, asking for a live layout of fixed width gives what
a new compiler answers. -/
theorem settled (hlive : cat.LiveFrom id) : Settled cat id := by
  have hwf := hlive.leansOn_wf
  induction id using hwf.induction with
  | _ id ih =>
    replace ih (t : SchemaId) (hst : cat.LeansOn id t) : Settled cat t := ih t hst (hlive.leansOn hst)
    intro keys depth cur c h hallow hclear
    cases depth with
    | zero => exact absurd h.depth_pos (Nat.lt_irrefl 0)
    | succ depth =>
      have hcat := h.catalog
      subst hcat
      cases hfind : c.layouts.find? (id, .fixed) with
      | some slot =>
        cases slot with
        | running => exact absurd hfind hclear.layout
        | done result =>
          obtain rfl := h.faithful.layouts _ _ hlive hfind
          exact ⟨c, layoutWithin_done hfind, h, .refl c⟩
      | none =>
        -- the compilation ends like that of a new compiler
        obtain ⟨result, ⟨d, hrun, hd, -⟩, ⟨d', hrun', -⟩, -⟩ := compileLayout_alike hlive ih _ _
          (h.enter hallow hclear hfind) (underway_ofCatalog hlive.toClosed id)
        have hfixed : c.catalog.fixedLayout id = result := by
          have hnew := layoutWithin_new (by rfl) hrun'
          rw [Catalog.fixedLayout_eq, hnew]
        have hout := layoutWithin_new hfind hrun
        obtain ⟨hwithin, hret⟩ :=
          ((layoutWithin_serves _ _ _ cur _ hallow).leads h.toWithin).of_outcome hout
        rw [hfixed]
        refine ⟨_, hout, ⟨hwithin, hd.faithful.putLayout fun r hr _ _ => ?_⟩, hret⟩
        cases hr
        rw [hd.catalog]
        exact hfixed.symm

end

/-! ## Recursive layouts -/

namespace Catalog

variable {cat : Catalog}

/-- A schema that reaches itself has no layout of fixed width. -/
theorem LiveFrom.fixedLayout_of_circle {id : SchemaId} (hlive : cat.LiveFrom id)
    (h : Relation.TransGen cat.Embeds id id) :
    cat.fixedLayout id = .error (.recursiveCompile (.inlineCycle (cat.schema id).name)) := by
  have hin := hlive.standsInItself_iff.mpr h
  have hrun : outcome (compileLayout (layoutWithin (4 * cat.size + 3)) id .fixed)
      ((Compiler.ofCatalog cat).putLayout (id, .fixed) .running) =
        (.error (.recursiveCompile (.inlineCycle (cat.schema id).name)),
          (Compiler.ofCatalog cat).putLayout (id, .fixed) .running) := by
    rw [outcome_eq_error, compileLayout]
    refine bind_error.mpr (Or.inr ⟨cat, _, rfl, ?_⟩)
    simp only [LayoutKind.isFixed, hin]
    rfl
  rw [fixedLayout_eq, layoutWithin_new (by rfl) hrun]

/-- Neither has an immutable schema whose draft reaches itself. If nothing is wrong with its own
fields, the draft is what the failure names. -/
theorem LiveFrom.fixedLayout_of_draft {id : SchemaId} (hlive : cat.LiveFrom id)
    (hacyclic : ¬Relation.TransGen cat.Embeds id id) (himm : (cat.schema id).isImmutable = true)
    {fields : List BoundField} (hfields : cat.fixedFields id = .ok fields)
    (hcircle : Relation.TransGen cat.Embeds id.toDraft id.toDraft) :
    cat.fixedLayout id =
      .error (.recursiveCompile (.inlineCycle (cat.schema id.toDraft).name)) := by
  have hout : cat.standsInItself id = false := by
    rw [Bool.eq_false_iff, ne_eq, hlive.standsInItself_iff]
    exact hacyclic
  have hst : cat.LeansOn id id.toDraft := ⟨hacyclic, Or.inr ⟨himm, rfl⟩⟩
  -- the fields are laid out, then the draft is asked for
  obtain ⟨htells, -⟩ :=
    compileFields_tells hlive (fun t ht => settled (hlive.leansOn ht)) hacyclic
  obtain ⟨d, hrun, hd, -⟩ := htells _ _ _ (underway_ofCatalog hlive.toClosed id)
  obtain ⟨d', hdraft, -⟩ := hd.layout hlive hst (settled hlive.toDraft)
  rw [hfields, outcome_eq_ok] at hrun
  rw [hlive.toDraft.fixedLayout_of_circle hcircle, outcome_eq_error] at hdraft
  have hcompile : outcome (compileLayout (layoutWithin (4 * cat.size + 3)) id .fixed)
      ((Compiler.ofCatalog cat).putLayout (id, .fixed) .running) =
        (.error (.recursiveCompile (.inlineCycle (cat.schema id.toDraft).name)), d') := by
    rw [outcome_eq_error, compileLayout]
    refine bind_error.mpr (Or.inr ⟨cat, _, rfl, ?_⟩)
    simp only [hout, Bool.and_false]
    refine bind_error.mpr (Or.inr ⟨fields, d, hrun, ?_⟩)
    simp only [himm, if_true]
    exact bind_error.mpr (Or.inl hdraft)
  rw [fixedLayout_eq, layoutWithin_new (by rfl) hcompile]

/-- A recursive layout is that of a schema that reaches itself, or of an immutable one whose draft
does. The fields of the schema can then be laid out, and the draft is what the failure names. -/
theorem LiveFrom.circle_of_recursive {id : SchemaId} (hlive : cat.LiveFrom id) {e : FormatError}
    (h : cat.fixedLayout id = .error e) (hrec : e.isRecursive = true) :
    Relation.TransGen cat.Embeds id id ∨ (cat.schema id).isImmutable = true ∧
      (∃ fields, cat.fixedFields id = .ok fields) ∧
        Relation.TransGen cat.Embeds id.toDraft id.toDraft ∧
          e = .recursiveCompile (.inlineCycle (cat.schema id.toDraft).name) := by
  -- why a layout failed as recursive
  have hwhy {id : SchemaId} (hlive : cat.LiveFrom id) (h : cat.fixedLayout id = .error e) :
      Relation.TransGen cat.Embeds id id ∨ (cat.schema id).isImmutable = true ∧
        (∃ fields, cat.fixedFields id = .ok fields) ∧ cat.fixedLayout id.toDraft = .error e := by
    have hnew := underway_ofCatalog hlive.toClosed id
    obtain ⟨result, ⟨d, hrun, -⟩, -, -, hfail⟩ :=
      compileLayout_alike hlive (fun t ht => settled (hlive.leansOn ht)) _ _ hnew hnew
    rw [fixedLayout_eq, layoutWithin_new (by rfl) hrun] at h
    exact hfail e h hrec
  rcases hwhy hlive h with hcircle | ⟨himm, hfields, hdraft⟩
  · exact Or.inl hcircle
  · rcases hwhy hlive.toDraft hdraft with hcircle | ⟨himm', -⟩
    · rw [hlive.toDraft.fixedLayout_of_circle hcircle] at hdraft
      exact Or.inr ⟨himm, hfields, hcircle, (Except.error.inj hdraft).symm⟩
    · have hzero := draft_eq_zero himm'
      cases hzero

end Catalog

end RecordLayout
