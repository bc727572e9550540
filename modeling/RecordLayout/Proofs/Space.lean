import Mathlib
import RecordLayout.Codec.Partial
import RecordLayout.Proofs.Chunk.Store
import RecordLayout.Proofs.Layout.Resting
import RecordLayout.Proofs.Question
import RecordLayout.Proofs.Value.Content

/-!
# Workspaces

A workspace learns: it compiles layouts, chooses placements and gives ids to types, and forgets
nothing of it (`Workspace.Le`). Questions about layouts, types and sizes do nothing else
(`Workspace.Learns`), so an answer that was given once is given ever after (`Workspace.Steady`).

Main results:

* `Learning.bind` — questions one after another;
* `layout_learning`, `openPlacement_learning`, `typeId_learning` — questions;
* `studies` — all the questions that a write asks;
* `Workspace.layout_steady`, `Workspace.openPlacement_steady` — answers that stay.
-/

namespace RecordLayout

namespace TypeIndex

variable {x x' x'' : TypeIndex} {c : Catalog} {type : ValueType} {name : String} {id : Nat}

/-! ## Types under ids -/

/-- Ids count from one. -/
theorem resolve_ok : x.resolve id = .ok type ↔ ∃ i, id = i + 1 ∧ x.types[i]? = some type := by
  unfold resolve
  cases id with
  | zero => simp
  | succ i =>
    simp only [Nat.succ_ne_zero, if_false, Nat.add_sub_cancel]
    constructor
    · intro h
      split at h
      · rename_i found hfind
        cases h
        exact ⟨i, rfl, hfind⟩
      · cases h
    · rintro ⟨j, heq, hfind⟩
      cases heq
      rw [hfind]

/-- What the first index knows, the second one knows too. -/
structure Extends (x x' : TypeIndex) : Prop where
  ids : ∀ name id, x.ids.lookup name = some id → x'.ids.lookup name = some id
  types : x.types <+: x'.types

/-- Nothing is forgotten where nothing was done. -/
theorem Extends.refl (x : TypeIndex) : x.Extends x := ⟨fun _ _ h => h, List.prefix_rfl⟩

/-- What is known stays known. -/
theorem Extends.trans (h : x.Extends x') (h' : x'.Extends x'') : x.Extends x'' :=
  ⟨fun name id hid => h'.ids name id (h.ids name id hid), h.types.trans h'.types⟩

/-- A new type has the next id, and other names what they had. -/
theorem lookup_extend (name' : String) : (x.extend name type).ids.lookup name' =
    if name' = name then some (x.size + 1) else x.ids.lookup name' := by
  rw [extend, List.lookup_cons]
  by_cases h : name' = name
  · simp [h]
  · rw [if_neg h, beq_false_of_ne h]

/-- A new name takes nothing from the others. -/
theorem extends_extend (hnew : x.ids.lookup name = none) : x.Extends (x.extend name type) := by
  refine ⟨fun name' id hid => ?_, List.prefix_append _ _⟩
  rw [lookup_extend, if_neg]
  · exact hid
  · rintro rfl
    rw [hnew] at hid
    cases hid

/-- What an id stands for stays where more types are registered. -/
theorem resolve_grows (h : x.Extends x') (hid : x.resolve id = .ok type) :
    x'.resolve id = .ok type := by
  obtain ⟨i, rfl, hfind⟩ := resolve_ok.mp hid
  obtain ⟨more, hmore⟩ := h.types
  have hlt := (List.getElem?_eq_some_iff.mp hfind).1
  refine resolve_ok.mpr ⟨i, rfl, ?_⟩
  rw [← hmore, List.getElem?_append_left hlt, hfind]

/-- The id of a name is given out only for the type that it was given to. -/
theorem sameOrClash_ok {n : Nat} : x.sameOrClash name type id = .ok n ↔
    n = id ∧ ∃ known, x.resolve id = .ok known ∧ known.key = type.key := by
  rw [sameOrClash]
  cases x.resolve id with
  | error e => simp [bind, Except.bind]
  | ok known =>
    by_cases hkey : known.key = type.key
    · simp [bind, Except.bind, pure, Except.pure, hkey, eq_comm]
    · simp [bind, Except.bind, throw, throwThe, MonadExceptOf.throw, hkey]

/-- The id is new, or it was given to a type with that name and key. -/
inductive Registers (c : Catalog) (x : TypeIndex) (found : ValueType) (id : Nat) :
    TypeIndex → Prop where
  | known {known : ValueType} (hname : x.ids.lookup (c.typeName found) = some id)
      (hknown : x.resolve id = .ok known) (hkey : known.key = found.key) : Registers c x found id x
  | new (hname : x.ids.lookup (c.typeName found) = none) (hid : id = x.size + 1)
      (hroom : id < 2 ^ 32) : Registers c x found id (x.extend (c.typeName found) found)

/-- What a registration comes to, once the type is followed. -/
theorem register_ok : register c type x = .ok id x' ↔
    type ≠ .any ∧ ∃ found, c.resolve type = .ok found ∧ Registers c x found id x' := by
  rw [register]
  split
  -- a type that is not in use is refused before the index is looked at
  · rename_i hany
    simp [hany, throw_ok]
  · rename_i hany
    simp only [ne_eq, hany, not_false_eq_true, true_and, bind_ok, ofExcept_ok]
    constructor
    · rintro ⟨found, _, ⟨hfound, rfl⟩, y, _, hget, h⟩
      cases hget
      refine ⟨found, hfound, ?_⟩
      -- a name that is known keeps its id if the types agree; a new name gets the next id while
      -- there is room
      cases hname : x.ids.lookup (c.typeName found) with
      | some given =>
        rw [hname] at h
        obtain ⟨hsame, rfl⟩ := ofExcept_ok.mp h
        obtain ⟨rfl, known, hknown, hkey⟩ := sameOrClash_ok.mp hsame
        exact .known hname hknown hkey
      | none =>
        rw [hname] at h
        obtain ⟨y, _, hget, h⟩ := bind_ok.mp h
        cases hget
        rcases ite_ok.mp h with ⟨hroom, h⟩ | ⟨-, h⟩
        · obtain ⟨_, y, hset, hpure⟩ := bind_ok.mp h
          cases hset
          obtain ⟨rfl, rfl⟩ := pure_ok.mp hpure
          exact .new hname rfl hroom
        · exact (throw_ok.mp h).elim
    · rintro ⟨found, hfound, hreg⟩
      refine ⟨found, x, ⟨hfound, rfl⟩, x, x, rfl, ?_⟩
      cases hreg with
      | known hname hknown hkey =>
        rw [hname]
        exact ofExcept_ok.mpr ⟨sameOrClash_ok.mpr ⟨rfl, _, hknown, hkey⟩, rfl⟩
      | new hname hid hroom =>
        subst hid
        rw [hname]
        refine bind_ok.mpr ⟨x, x, rfl, ?_⟩
        rw [if_pos hroom]
        rfl

/-- If there is no room, the index is as it was. -/
theorem insert_error {e : FormatError} (h : insert name type x = .error e x') : x' = x := by
  rcases bind_error.mp h with hget | ⟨y, z, hget, h⟩
  · cases hget
  · cases hget
    split at h
    · rcases bind_error.mp h with hset | ⟨_, y, hset, hpure⟩
      · cases hset
      · cases hpure
    · cases h
      rfl

/-- A registration that fails leaves the index as it is. -/
theorem register_error {e : FormatError} (h : register c type x = .error e x') : x' = x := by
  rw [register] at h
  split at h
  · cases h
    rfl
  · rcases bind_error.mp h with hfound | ⟨found, y, hfound, h⟩
    · exact (ofExcept_error.mp hfound).2.symm
    · obtain ⟨-, rfl⟩ := ofExcept_ok.mp hfound
      rcases bind_error.mp h with hget | ⟨y, z, hget, h⟩
      · cases hget
      · cases hget
        cases hname : x.ids.lookup (c.typeName found) with
        | some given =>
          rw [hname] at h
          exact (ofExcept_error.mp h).2.symm
        | none =>
          rw [hname] at h
          exact insert_error h

/-- Neither way of registering takes anything back. -/
theorem Registers.extends {found : ValueType} (h : Registers c x found id x') : x.Extends x' := by
  cases h with
  | known => exact .refl x
  | new hname => exact extends_extend hname

/-- A type that is registered gets an id other than zero, and the others keep theirs. -/
theorem register_grows (h : register c type x = .ok id x') : id ≠ 0 ∧ x.Extends x' := by
  obtain ⟨-, found, -, hreg⟩ := register_ok.mp h
  refine ⟨?_, hreg.extends⟩
  cases hreg with
  | known _ hknown =>
    obtain ⟨i, rfl, -⟩ := resolve_ok.mp hknown
    exact Nat.succ_ne_zero i
  | new _ hid =>
    rw [hid]
    exact Nat.succ_ne_zero _

/-- Only null has the id zero, and no id is given up. -/
theorem idOf_grows {v : Value} (h : idOf c v x = .ok id x') :
    (id = 0 ↔ v.isNull = true) ∧ x.Extends x' := by
  have hreal {type : ValueType} (hnull : v.isNull = false) (hreg : register c type x = .ok id x') :
      (id = 0 ↔ v.isNull = true) ∧ x.Extends x' := by
    obtain ⟨hne, hextends⟩ := register_grows hreg
    rw [hnull]
    exact ⟨iff_of_false hne Bool.false_ne_true, hextends⟩
  cases v with
  | null =>
    cases h
    exact ⟨iff_of_true rfl rfl, .refl x⟩
  | scalar s => exact hreal rfl h
  | text s => exact hreal rfl h
  | record r => exact hreal rfl h
  | handle hd => exact hreal rfl h
  | wrapped wrapper r => exact hreal rfl h
  | width width => cases h
  | list items => cases h

/-- A value without an id leaves the index as it is. -/
theorem idOf_error {v : Value} {e : FormatError} (h : idOf c v x = .error e x') : x' = x := by
  cases v with
  | null => cases h
  | scalar s => exact register_error h
  | text s => exact register_error h
  | record r => exact register_error h
  | handle hd => exact register_error h
  | wrapped wrapper r => exact register_error h
  | width width =>
    cases h
    rfl
  | list items =>
    cases h
    rfl

/-- Whatever comes of the question for an id, nothing that was known is forgotten. -/
theorem outcome_idOf_extends (c : Catalog) (v : Value) (x : TypeIndex) :
    x.Extends (outcome (idOf c v) x).2 := by
  cases hrun : idOf c v x with
  | ok id x' =>
    rw [outcome_of_ok hrun]
    exact (idOf_grows hrun).2
  | error e x' =>
    rw [outcome_of_error hrun, idOf_error hrun]
    exact .refl x

end TypeIndex

namespace Workspace

/-! ## Sound workspaces -/

/-- A workspace between operations. -/
structure Sound (w : Workspace) : Prop where
  compiler : w.compiler.Resting
  store : w.store.Sound

/-- Nothing that was known is forgotten, and the settings are the same. -/
structure Le (w w' : Workspace) : Prop where
  compiler : w.compiler.Grows w'.compiler
  types : w.types.Extends w'.types
  config : w'.config = w.config

/-- More is known, and nothing else has changed. -/
structure Learns (w w' : Workspace) : Prop extends Le w w' where
  plans : w'.plans = w.plans
  heap : w'.heap = w.heap
  journal : w'.journal = w.journal

/-- Nothing is forgotten where nothing was done. -/
theorem Le.refl (w : Workspace) : w.Le w := ⟨.refl _, .refl _, rfl⟩

/-- What is known stays known. -/
theorem Le.trans {w w' w'' : Workspace} (h : w.Le w') (h' : w'.Le w'') : w.Le w'' :=
  ⟨h.compiler.trans h'.compiler, h.types.trans h'.types, h'.config.trans h.config⟩

/-- Declarations do not change. -/
theorem Le.catalog {w w' : Workspace} (h : w.Le w') : w'.catalog = w.catalog := h.compiler.catalog

/-- There was nothing to learn. -/
theorem Learns.refl (w : Workspace) : w.Learns w := ⟨.refl w, rfl, rfl, rfl⟩

/-- One question after another. -/
theorem Learns.trans {w w' w'' : Workspace} (h : w.Learns w') (h' : w'.Learns w'') : w.Learns w'' :=
  ⟨h.toLe.trans h'.toLe, h'.plans.trans h.plans, h'.heap.trans h.heap, h'.journal.trans h.journal⟩

/-- Questions leave the chunks alone. -/
theorem Learns.store {w w' : Workspace} (h : w.Learns w') : w'.store = w.store := by
  rw [Workspace.store, h.heap]
  rfl

/-- A type that an id stands for. -/
theorem Le.resolve {w w' : Workspace} (h : w.Le w') {id : Nat} {type : ValueType}
    (hid : w.types.resolve id = .ok type) : w'.types.resolve id = .ok type :=
  TypeIndex.resolve_grows h.types hid

/-- At any later time, the question has this answer. -/
def Steady {α : Type} (w : Workspace) (act : SpaceM α) (a : α) : Prop :=
  ∀ w', w.Le w' → w'.Sound → ∃ w'', act w' = .ok a w'' ∧ w''.Sound ∧ w'.Learns w''

/-- An answer that stays from now on stays from later on. -/
theorem Steady.mono {α : Type} {w w' : Workspace} {act : SpaceM α} {a : α} (h : w.Steady act a)
    (hle : w.Le w') : w'.Steady act a :=
  fun w'' hle' => h w'' (hle.trans hle')

end Workspace

/-! ## Questions -/

/-- If a question is answered, the workspace has learnt and nothing else has changed. -/
def Learning {α : Type} (act : SpaceM α) (w : Workspace) (post : α → Workspace → Prop) : Prop :=
  ∀ a w', act w = .ok a w' → w'.Sound ∧ w.Learns w' ∧ post a w'

/-- If a question is answered at all, nothing but what is known has changed. -/
def Studies {α : Type} (act : SpaceM α) : Prop :=
  ∀ w, w.Sound → Learning act w fun _ _ => True

namespace Learning

variable {α β : Type} {w : Workspace} {post : α → Workspace → Prop}

/-- What is known is no question. -/
theorem pure {a : α} (h : w.Sound) (hpost : post a w) : Learning (Pure.pure a) w post := by
  intro b w' hrun
  obtain ⟨rfl, rfl⟩ := pure_ok.mp hrun
  exact ⟨h, .refl w, hpost⟩

/-- There is no answer. -/
theorem throw {e : FormatError} : Learning (MonadExcept.throw e : SpaceM α) w post :=
  fun _ _ hrun => (throw_ok.mp hrun).elim

/-- An answer of which more is known. -/
theorem mono {act : SpaceM α} {post' : α → Workspace → Prop} (h : Learning act w post)
    (himp : ∀ a w', w'.Sound → w.Learns w' → post a w' → post' a w') : Learning act w post' :=
  fun a w' hrun =>
    let ⟨hs, hlearn, hpost⟩ := h a w' hrun
    ⟨hs, hlearn, himp a w' hs hlearn hpost⟩

/-- Questions one after another. The second may use what is known of the first answer. -/
theorem bind {act : SpaceM α} {next : α → SpaceM β} {post' : β → Workspace → Prop}
    (h : Learning act w post)
    (hnext : ∀ a w', w'.Sound → w.Learns w' → post a w' → Learning (next a) w' post') :
    Learning (act >>= next) w post' := by
  intro b w'' hrun
  obtain ⟨a, w', hact, hthen⟩ := bind_ok.mp hrun
  obtain ⟨hs, hlearn, hpost⟩ := h a w' hact
  obtain ⟨hs', hlearn', hpost'⟩ := hnext a w' hs hlearn hpost b w'' hthen
  exact ⟨hs', hlearn.trans hlearn', hpost'⟩

end Learning

namespace Studies

variable {α β : Type}

/-- What is known is no question. -/
theorem pure (a : α) : Studies (Pure.pure a) := fun _ h => .pure h trivial

/-- There is no answer. -/
theorem throw (e : FormatError) : Studies (MonadExcept.throw e : SpaceM α) := fun _ _ => .throw

/-- Questions one after another. -/
theorem bind {act : SpaceM α} {next : α → SpaceM β} (h : Studies act)
    (hnext : ∀ a, Studies (next a)) : Studies (act >>= next) :=
  fun w hw => (h w hw).bind fun a w' hw' _ _ => hnext a w' hw'

end Studies

section

variable {w w' : Workspace}

/-! ## Types and tags -/

/-- The declared types are known beforehand. -/
theorem catalog_learning (h : w.Sound) :
    Learning SpaceM.catalog w fun c w' => w = w' ∧ c = w.catalog := by
  intro c w' hrun
  cases hrun
  exact ⟨h, .refl w, rfl, rfl⟩

/-- Some other type is never the right one. -/
theorem mismatch_fails {α : Type} {expected : String} {found : Value} {a : α} :
    ¬@SpaceM.mismatch α expected found w = .ok a w' := by
  intro hrun
  rw [SpaceM.mismatch, bind_ok] at hrun
  obtain ⟨_, _, -, hthrow⟩ := hrun
  exact throw_ok.mp hthrow

/-- A count is a number that is there, and asking for it changes nothing. -/
theorem countOf_ok {v : Value} {n : Nat} :
    countOf v w = .ok n w' ↔ v.toNat? = some n ∧ w = w' := by
  cases hv : v.toNat? with
  | some m => simp [countOf, hv]
  | none => simp [countOf, hv, mismatch_fails]

/-- A width is a slot, and asking for it changes nothing. -/
theorem widthIn_ok {r : Record} {slot : Nat} {width : Width} :
    widthIn r slot w = .ok width w' ↔ r.slot slot = .width width ∧ w = w' := by
  cases hslot : r.slot slot <;> simp [widthIn, hslot, mismatch_fails]

/-- The elements of a list, and nothing else has any. -/
theorem itemsOf_ok {v : Value} {items : List Value} :
    itemsOf v w = .ok items w' ↔ v = .list items ∧ w = w' := by
  cases v <;> simp [itemsOf, mismatch_fails]

/-- The tag of a variant that the choice has. -/
theorem tagOf_ok {choice : ChoiceId} {r : Record} {tag : Nat} :
    SpaceM.tagOf choice r w = .ok tag w' ↔
      (w.catalog.choice choice).tagOf? r.schema = some tag ∧ w = w' := by
  rw [SpaceM.tagOf, bind_ok]
  constructor
  · rintro ⟨c, w₁, hcat, hrun⟩
    cases hcat
    cases htag : (w.catalog.choice choice).tagOf? r.schema with
    | some found =>
      rw [htag] at hrun
      obtain ⟨rfl, rfl⟩ := pure_ok.mp hrun
      exact ⟨rfl, rfl⟩
    | none =>
      rw [htag] at hrun
      exact (throw_ok.mp hrun).elim
  · rintro ⟨htag, rfl⟩
    refine ⟨_, _, rfl, ?_⟩
    rw [htag]
    rfl

/-- Ids of types are asked of the index only. -/
theorem typeId_ok {v : Value} {id : Nat} : SpaceM.typeId v w = .ok id w' ↔
    ∃ x, TypeIndex.idOf w.catalog v w.types = .ok id x ∧ w' = { w with types := x } := within_ok

/-- The id of the type of a value; only null has the id zero. -/
theorem typeId_learning (h : w.Sound) (v : Value) :
    Learning (SpaceM.typeId v) w fun id _ => id = 0 ↔ v.isNull = true := by
  intro id w' hrun
  obtain ⟨x, hid, rfl⟩ := typeId_ok.mp hrun
  obtain ⟨hzero, hextends⟩ := TypeIndex.idOf_grows hid
  exact ⟨⟨h.compiler, h.store⟩, ⟨⟨.refl _, hextends, rfl⟩, rfl, rfl, rfl⟩, hzero⟩

/-! ## Layouts and placements -/

/-- What is compiled is asked of the compiler only. -/
theorem compile_ok {α : Type} {act : CompileM α} {a : α} :
    SpaceM.compile act w = .ok a w' ↔
      ∃ c, act w.compiler = .ok a c ∧ w' = { w with compiler := c } :=
  within_ok

/-- A compiler at rest that has grown is all that has changed. -/
theorem learns_compiler (h : w.Sound) {c : Compiler} (hrest : c.Resting)
    (hgrows : w.compiler.Grows c) :
    Workspace.Sound { w with compiler := c } ∧ w.Learns { w with compiler := c } :=
  ⟨⟨hrest, h.store⟩, ⟨hgrows, .refl _, rfl⟩, rfl, rfl, rfl⟩

/-- A layout that is asked for is known from then on. -/
theorem layout_learning (h : w.Sound) (id : SchemaId) (kind : LayoutKind) :
    Learning (SpaceM.layout id kind) w fun l w' => w'.compiler.answer (id, kind) = some l := by
  intro l w' hrun
  obtain ⟨c, hact, rfl⟩ := compile_ok.mp hrun
  obtain ⟨hrest, hgrows, hl⟩ := h.compiler.layout hact
  obtain ⟨hs, hlearns⟩ := learns_compiler h hrest hgrows
  exact ⟨hs, hlearns, hl⟩

/-- The layout behind a tag is the standard layout of the variant. -/
theorem variantLayout_learning (h : w.Sound) (choice : ChoiceId) (tag : Nat) :
    Learning (SpaceM.variantLayout choice tag) w fun l w' =>
      ∃ v, (w.catalog.choice choice).variant? tag = some v ∧
        w'.compiler.answer (v, .standard) = some l := by
  rw [SpaceM.variantLayout]
  refine (catalog_learning h).bind fun _ w₁ h₁ _ hcat => ?_
  obtain ⟨rfl, rfl⟩ := hcat
  split
  · rename_i v hv
    exact (layout_learning h₁ v .standard).mono fun l w₂ _ _ hl => ⟨v, hv, hl⟩
  · exact .throw

/-- The type behind an id. -/
theorem typeOf_ok {id : Nat} {type : ValueType} :
    SpaceM.typeOf id w = .ok type w' ↔ w.types.resolve id = .ok type ∧ w = w' := by
  rw [SpaceM.typeOf]
  cases w.types.resolve id with
  | ok found => simp
  | error e => simp

/-- The placement behind a type id is the flexible one of the type. -/
theorem openPlacement_learning (h : w.Sound) (id : Nat) :
    Learning (SpaceM.openPlacement id) w fun p w' =>
      ∃ type, w.types.resolve id = .ok type ∧
        w'.compiler.placementAnswer (type.key, .flexible) = some p := by
  intro p w' hrun
  rw [SpaceM.openPlacement, bind_ok] at hrun
  obtain ⟨type, w₁, htype, hplace⟩ := hrun
  obtain ⟨hresolve, rfl⟩ := typeOf_ok.mp htype
  obtain ⟨c, hact, rfl⟩ := compile_ok.mp hplace
  have hflex : PlacementRule.flexible.isFixed = true → w.compiler.catalog.Refers type :=
    fun hfixed => absurd hfixed Bool.false_ne_true
  obtain ⟨hrest, hgrows, hp⟩ := h.compiler.placement hflex hact
  obtain ⟨hs, hlearns⟩ := learns_compiler h hrest hgrows
  exact ⟨hs, hlearns, type, hresolve, hp⟩

/-- The size of absent values, which are as long as present ones if these have one length. -/
theorem inlineSize_learning (h : w.Sound) (p : Placement) :
    Learning (SpaceM.compile (p.inlineSize Compiler.layout)) w fun size w' =>
      size = (p.sizeIn w'.compiler).fixed? ∧ w'.compiler.Settles (p.asks w'.catalog) := by
  intro size w' hrun
  obtain ⟨c, hact, rfl⟩ := compile_ok.mp hrun
  -- the compiler always answers this question, so the run is the one at hand
  obtain ⟨c', hrun', hrest, hgrows, hset⟩ := h.compiler.inlineSize p
  rw [hrun'] at hact
  cases hact
  obtain ⟨hs, hlearns⟩ := learns_compiler h hrest hgrows
  refine ⟨hs, hlearns, rfl, ?_⟩
  rw [hlearns.catalog]
  exact hset

theorem studies : SpaceM.Modular Studies where
  pure := .pure
  throw := .throw
  bind := .bind
  catalog := fun _ hw => (catalog_learning hw).mono fun _ _ _ _ _ => trivial
  typeId v := fun _ hw => (typeId_learning hw v).mono fun _ _ _ _ _ => trivial
  layout id kind := fun _ hw => (layout_learning hw id kind).mono fun _ _ _ _ _ => trivial
  openPlacement id := fun _ hw => (openPlacement_learning hw id).mono fun _ _ _ _ _ => trivial
  inlineSize p := fun _ hw => (inlineSize_learning hw p).mono fun _ _ _ _ _ => trivial

/-! ## Checks -/

/-- A disagreement is no answer. -/
theorem disagreement_fails {α : Type} {f : BoundField} {fault : DerivationFault} {a : α} :
    ¬@disagreement α f fault w = .ok a w' :=
  fun hrun => throw_ok.mp hrun

/-- A record is written and read only in a layout of its schema. -/
theorem requireSchema_ok {l : Layout} {r : Record} {u : Unit} :
    requireSchema l r w = .ok u w' ↔ r.schema = l.schema ∧ w = w' := by
  rw [requireSchema, bind_ok]
  constructor
  · rintro ⟨c, w₁, hcat, hrun⟩
    cases hcat
    split at hrun
    · rename_i heq
      exact ⟨heq, (pure_ok.mp hrun).2⟩
    · exact (throw_ok.mp hrun).elim
  · rintro ⟨heq, rfl⟩
    refine ⟨_, _, rfl, ?_⟩
    rw [if_pos heq]
    rfl

end

/-! ## Questions in the course of an operation -/

section

variable {τ : Type} {s s' : Scene τ}

/-- A question that leaves the workspace as it was. -/
theorem space_same_ok {α : Type} {act : SpaceM α} {a : α} {answer : Workspace → Prop}
    (h : ∀ {w w'}, act w = .ok a w' ↔ answer w ∧ w = w') :
    (Op.space act : Op τ α) s = .ok a s' ↔ answer s.space ∧ s' = s := by
  rw [Op.space_ok]
  constructor
  · rintro ⟨w, hrun, rfl⟩
    obtain ⟨hanswer, rfl⟩ := h.mp hrun
    exact ⟨hanswer, rfl⟩
  · rintro ⟨hanswer, rfl⟩
    exact ⟨_, h.mpr ⟨hanswer, rfl⟩, rfl⟩

theorem space_countOf_ok {v : Value} {n : Nat} :
    (Op.space (countOf v) : Op τ Nat) s = .ok n s' ↔ v.toNat? = some n ∧ s' = s :=
  space_same_ok countOf_ok

theorem space_widthIn_ok {r : Record} {slot : Nat} {width : Width} :
    (Op.space (widthIn r slot) : Op τ Width) s = .ok width s' ↔
      r.slot slot = .width width ∧ s' = s :=
  space_same_ok widthIn_ok

theorem space_itemsOf_ok {v : Value} {items : List Value} :
    (Op.space (itemsOf v) : Op τ (List Value)) s = .ok items s' ↔ v = .list items ∧ s' = s :=
  space_same_ok itemsOf_ok

theorem space_requireSchema_ok {l : Layout} {r : Record} {u : Unit} :
    (Op.space (requireSchema l r) : Op τ Unit) s = .ok u s' ↔ r.schema = l.schema ∧ s' = s :=
  space_same_ok requireSchema_ok

theorem space_tagOf_ok {choice : ChoiceId} {r : Record} {tag : Nat} :
    (Op.space (SpaceM.tagOf choice r) : Op τ Nat) s = .ok tag s' ↔
      (s.space.catalog.choice choice).tagOf? r.schema = some tag ∧ s' = s :=
  space_same_ok tagOf_ok

/-- Disagreements end the operation. -/
theorem space_disagreement_fails {α : Type} {f : BoundField} {fault : DerivationFault} {a : α} :
    ¬(Op.space (disagreement f fault) : Op τ α) s = .ok a s' := by
  intro h
  obtain ⟨w, hrun, -⟩ := Op.space_ok.mp h
  exact disagreement_fails hrun

/-- Mismatches end the operation. -/
theorem space_mismatch_fails {α : Type} {expected : String} {found : Value} {a : α} :
    ¬(Op.space (SpaceM.mismatch expected found) : Op τ α) s = .ok a s' := by
  intro h
  obtain ⟨w, hrun, -⟩ := Op.space_ok.mp h
  exact mismatch_fails hrun

end

/-! ## Answers that stay -/

namespace Workspace

variable {w : Workspace} {α β : Type}

/-- What is known has one answer. -/
theorem Steady.pure (a : α) : w.Steady (Pure.pure a) a :=
  fun w' _ hs => ⟨w', rfl, hs, .refl w'⟩

/-- Answers one after another. -/
theorem Steady.bind {act : SpaceM α} {next : α → SpaceM β} {a : α} {b : β} (h : w.Steady act a)
    (hnext : w.Steady (next a) b) : w.Steady (act >>= next) b := by
  intro w₁ hle hs
  -- the first question may have taught something, and the second answer stays beyond that
  obtain ⟨w₂, hact, hs₂, hlearns⟩ := h w₁ hle hs
  obtain ⟨w₃, hthen, hs₃, hlearns'⟩ := hnext w₂ (hle.trans hlearns.toLe) hs₂
  exact ⟨w₃, bind_ok.mpr ⟨a, w₂, hact, hthen⟩, hs₃, hlearns.trans hlearns'⟩

/-- A question that depends on nothing but the declared types. -/
theorem Steady.of_same {act : SpaceM α} {a : α}
    (h : ∀ w', w'.catalog = w.catalog → act w' = .ok a w') : w.Steady act a :=
  fun w' hle hs => ⟨w', h w' hle.catalog, hs, .refl w'⟩

/-- The declared types are the same ever after. -/
theorem catalog_steady (w : Workspace) : w.Steady SpaceM.catalog w.catalog :=
  .of_same fun w' hcat => by
    rw [← hcat]
    rfl

/-- What the compiler answers ever after, the workspace answers ever after. -/
theorem compile_steady {act : CompileM α} {a : α} (h : w.compiler.Steady act a) :
    w.Steady (SpaceM.compile act) a := by
  intro w' hle hs
  obtain ⟨c, hrun, hrest, hgrows⟩ := h w'.compiler hle.compiler hs.compiler
  obtain ⟨hs', hlearns⟩ := learns_compiler hs hrest hgrows
  exact ⟨_, compile_ok.mpr ⟨c, hrun, rfl⟩, hs', hlearns⟩

/-- A layout that is known is given again. -/
theorem layout_steady {id : SchemaId} {kind : LayoutKind} {l : Layout}
    (h : w.compiler.answer (id, kind) = some l) : w.Steady (SpaceM.layout id kind) l :=
  compile_steady (Compiler.layout_steady h)

/-- The layout behind a tag, once the variant has been compiled. -/
theorem variantLayout_steady {choice : ChoiceId} {tag : Nat} {v : SchemaId} {l : Layout}
    (hv : (w.catalog.choice choice).variant? tag = some v)
    (h : w.compiler.answer (v, .standard) = some l) :
    w.Steady (SpaceM.variantLayout choice tag) l := by
  intro w' hle hs
  obtain ⟨w'', hrun, hs'', hlearns⟩ := layout_steady h w' hle hs
  refine ⟨w'', ?_, hs'', hlearns⟩
  rw [SpaceM.variantLayout, bind_ok]
  refine ⟨_, _, rfl, ?_⟩
  rw [hle.catalog, hv]
  exact hrun

/-- The placement behind a type id, once it has been chosen. -/
theorem openPlacement_steady {id : Nat} {type : ValueType} {p : Placement}
    (htype : w.types.resolve id = .ok type)
    (h : w.compiler.placementAnswer (type.key, .flexible) = some p) :
    w.Steady (SpaceM.openPlacement id) p := by
  intro w' hle hs
  obtain ⟨w'', hrun, hs'', hlearns⟩ := compile_steady (Compiler.placement_steady h) w' hle hs
  refine ⟨w'', ?_, hs'', hlearns⟩
  rw [SpaceM.openPlacement, bind_ok]
  exact ⟨type, w', typeOf_ok.mpr ⟨hle.resolve htype, rfl⟩, hrun⟩

/-- The size of absent values, once what it depends on has been compiled. -/
theorem inlineSize_steady (hs : w.Sound) {p : Placement}
    (hset : w.compiler.Settles (p.asks w.catalog)) :
    w.Steady (SpaceM.compile (p.inlineSize Compiler.layout)) (p.sizeIn w.compiler).fixed? :=
  compile_steady (Compiler.inlineSize_steady hs.compiler hset)

end Workspace

end RecordLayout
