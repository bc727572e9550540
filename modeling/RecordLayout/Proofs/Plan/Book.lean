import Mathlib
import RecordLayout.Plan.Book
import RecordLayout.Proofs.Layout.Good
import RecordLayout.Proofs.Outcome
import RecordLayout.Proofs.Plan.Closure

/-!
# What books of plans keep

A request by name is answered by a plan of the layout, and what is kept stays right. An immutable
schema and its draft have the same fields in the same places, so that a plan and the plan of the
draft that stands for it read the same slots. The plans of a draft are kept by the slots that were
asked for; they stand for the layout's own plans only as long as nothing but these has been carried
over.

Main results:

* `Plan.Of.read_slots` — which slots are read follows from those that are asked for;
* `planNames_ok` — a request by name;
* `draftPlan_ok` — the plan of a draft that stands for an own one.
-/

namespace RecordLayout

/-- Two layouts have the same fields in the same places. -/
def SameFields (l d : Layout) : Prop := List.Forall₂ SameField l.fields d.fields

namespace SameFields

variable {l d : Layout}

theorem refl (l : Layout) : SameFields l l :=
  List.forall₂_same.mpr fun _ _ => ⟨rfl, rfl, rfl, rfl, rfl, rfl, rfl⟩

/-- Layouts with the same fields have as many. -/
theorem length_eq (h : SameFields l d) : l.fields.length = d.fields.length :=
  List.Forall₂.length_eq h

/-- Layouts with the same fields have the same places. -/
theorem allPlaces (h : SameFields l d) : d.allPlaces = l.allPlaces := by
  rw [Layout.allPlaces, Layout.allPlaces, h.length_eq]

/-- What both layouts have at a place. -/
theorem at? (h : SameFields l d) (p : Nat) :
    (l.at? p = none ∧ d.at? p = none) ∨
      ∃ f f', l.at? p = some f ∧ d.at? p = some f' ∧ SameField f f' := by
  by_cases hp : p < l.fields.length
  · have hp' : p < d.fields.length := h.length_eq ▸ hp
    exact Or.inr ⟨_, _, List.getElem?_eq_getElem hp, List.getElem?_eq_getElem hp',
      (List.forall₂_iff_get.mp h).2 p hp hp'⟩
  · have hp' : ¬p < d.fields.length := h.length_eq ▸ hp
    exact Or.inl ⟨List.getElem?_eq_none (Nat.not_lt.mp hp), List.getElem?_eq_none (Nat.not_lt.mp hp')⟩

/-- A slot stands at the same place. -/
theorem place? (h : SameFields l d) (slot : Nat) : d.place? slot = l.place? slot := by
  have hgen : ∀ {fields fields' : List BoundField}, List.Forall₂ SameField fields fields' →
      fields'.findIdx? (·.slot == slot) = fields.findIdx? (·.slot == slot) := by
    intro fields fields' hall
    induction hall with
    | nil => rfl
    | cons hfield _ ih => rw [List.findIdx?_cons, List.findIdx?_cons, hfield.slot, ih]
  exact hgen h

/-- Slots stand at the same places. -/
theorem places (h : SameFields l d) (slots : List Nat) : d.places slots = l.places slots :=
  List.filterMap_congr fun slot _ => h.place? slot

/-- A place needs the same places. -/
theorem needed (h : SameFields l d) : d.needed = l.needed := by
  funext p
  rw [Layout.needed, Layout.needed]
  rcases h.at? p with ⟨hl, hd⟩ | ⟨f, f', hl, hd, hfield⟩
  · rw [hl, hd]
  · rw [hl, hd]
    simp only [hfield.needs, h.places]

/-- A place has the same governor. -/
theorem governorOf (h : SameFields l d) : d.governorOf = l.governorOf := by
  funext p
  rw [Layout.governorOf, Layout.governorOf]
  rcases h.at? p with ⟨hl, hd⟩ | ⟨f, f', hl, hd, hfield⟩
  · rw [hl, hd]
    rfl
  · rw [hl, hd, Option.bind_some, Option.bind_some, BoundField.governor?, BoundField.governor?,
      hfield.encoding]
    exact Option.bind_congr fun slot _ => h.place? slot

/-- A turn of the reading loop promotes the same places. -/
theorem promote (h : SameFields l d) (seen fresh places : List Nat) :
    d.promote seen fresh places = l.promote seen fresh places := by
  induction places generalizing fresh with
  | nil => rfl
  | cons p rest ih => simp only [Layout.promote, h.governorOf, ih]

/-- The reading loop reads the same places. -/
theorem readTurns (h : SameFields l d) (turns : Nat) (seen queue : List Nat) :
    d.readTurns turns seen queue = l.readTurns turns seen queue := by
  induction turns generalizing seen queue with
  | zero => rfl
  | succ turns ih =>
    simp only [Layout.readTurns, h.needed, ← h.length_eq, h.allPlaces, h.promote, ih]

/-- A field's read closure is the same. -/
theorem readClosure (h : SameFields l d) (p : Nat) : d.readClosure p = l.readClosure p := by
  rw [Layout.readClosure, Layout.readClosure, h.readTurns, h.allPlaces, h.length_eq]

/-- The slots at some places. -/
theorem slots_at? (h : SameFields l d) (places : List Nat) :
    Plan.slots (places.filterMap d.at?) = Plan.slots (places.filterMap l.at?) := by
  rw [Plan.slots, Plan.slots, List.map_filterMap, List.map_filterMap]
  refine List.filterMap_congr fun p _ => ?_
  rcases h.at? p with ⟨hl, hd⟩ | ⟨f, f', hl, hd, hfield⟩
  · rw [hl, hd]
  · rw [hl, hd, Option.map_some, Option.map_some, hfield.slot]

/-- The fields have the same slots. -/
theorem slots_eq (h : SameFields l d) : Plan.slots d.fields = Plan.slots l.fields := by
  have hslots := h.slots_at? l.allPlaces
  rwa [Layout.allPlaces_at?, ← h.allPlaces, Layout.allPlaces_at?] at hslots

/-- The fields have different slots in both layouts or in neither. -/
theorem slots_nodup (h : SameFields l d) (hslots : (l.fields.map (·.slot)).Nodup) :
    (d.fields.map (·.slot)).Nodup := by
  rw [show d.fields.map (·.slot) = l.fields.map (·.slot) from h.slots_eq]
  exact hslots

/-- The first field of a name stands in the same place. -/
theorem field? (h : SameFields l d) {name : String} {f : BoundField} (hf : l.field? name = some f) :
    ∃ f', d.field? name = some f' ∧ SameField f f' := by
  have hgen : ∀ {fields fields' : List BoundField}, List.Forall₂ SameField fields fields' →
      fields.find? (·.name == name) = some f →
        ∃ f', fields'.find? (·.name == name) = some f' ∧ SameField f f' := by
    intro fields fields' hall
    induction hall with
    | nil => exact fun h => nomatch h
    | @cons g g' rest rest' hfield _ ih =>
      rw [List.find?_cons, List.find?_cons, hfield.name]
      split
      · intro hg
        cases hg
        exact ⟨g', rfl, hfield⟩
      · exact ih
  exact hgen h hf

end SameFields

/-! ## What plans read -/

namespace Plan

variable {l d : Layout}

/-- The places of the fields at some places. -/
theorem places_slots (hslots : (l.fields.map (·.slot)).Nodup) {places : List Nat}
    (h : ∀ p ∈ places, p < l.fields.length) :
    l.places (slots (places.filterMap l.at?)) = places := by
  induction places with
  | nil => rfl
  | cons p rest ih =>
    have hlt : p < l.fields.length := h p List.mem_cons_self
    have hp : l.at? p = some l.fields[p] := List.getElem?_eq_getElem hlt
    have hplace := (Layout.place?_eq_some hslots).mpr ⟨_, hp, rfl⟩
    rw [List.filterMap_cons_some hp, slots, List.map_cons, Layout.places,
      List.filterMap_cons_some hplace]
    exact congrArg (p :: ·) (ih fun q hq => h q (List.mem_cons_of_mem _ hq))

/-- The places that are read along with some places. -/
def gathered (l : Layout) (places : List Nat) : List Nat :=
  l.allPlaces.filter fun p => places.any fun a => (l.readClosure a).contains p

/-- What a plan reads follows from what it was asked for. -/
theorem Of.read_eq (hslots : (l.fields.map (·.slot)).Nodup) {plan : Plan} (h : Of l plan) :
    ∃ places, (∀ p ∈ places, p < l.fields.length) ∧
      plan.requested = places.filterMap l.at? ∧
      plan.read = (gathered l places).filterMap l.at? := by
  cases h with
  | full =>
    refine ⟨l.allPlaces, fun p hp => Layout.mem_allPlaces.mp hp, rfl, ?_⟩
    -- every place is read for itself
    have hall : gathered l l.allPlaces = l.allPlaces := by
      refine List.filter_eq_self.mpr fun p hp => List.any_eq_true.mpr ⟨p, hp, ?_⟩
      rw [List.contains_eq_mem, decide_eq_true_eq]
      exact Layout.mem_readClosure_self (Layout.mem_allPlaces.mp hp)
    rw [hall]
    rfl
  | @one place hplace =>
    refine ⟨[place], fun p hp => by rwa [List.mem_singleton.mp hp], rfl, ?_⟩
    have hone : gathered l [place] = l.readClosure place := by
      rw [gathered, Layout.readClosure]
      refine List.filter_congr fun p hp => ?_
      rw [List.any_cons, List.any_nil, Bool.or_false, Layout.readClosure, List.contains_eq_mem]
      refine Bool.eq_iff_iff.mpr ?_
      rw [decide_eq_true_eq, List.mem_filter]
      exact and_iff_right hp
    rw [hone]
    rfl
  | @several places hall _ =>
    refine ⟨places, hall, rfl, ?_⟩
    refine congrArg (List.filterMap l.at?) (List.filter_congr fun p hp => ?_)
    have hunion := mem_union (p := p) (·.read) l.readClosure hslots (fun _ => rfl) places
    rw [List.mem_filter, and_iff_right hp, and_iff_right (Layout.mem_allPlaces.mp hp)] at hunion
    refine Bool.eq_iff_iff.mpr (hunion.trans ?_)
    simp only [List.any_eq_true, List.contains_eq_mem, decide_eq_true_eq]

/-- Plans of the same fields that were asked for the same slots read the same slots. -/
theorem Of.read_slots (hslots : (l.fields.map (·.slot)).Nodup) (hsame : SameFields l d)
    {plan plan' : Plan} (h : Of l plan) (h' : Of d plan')
    (hrequested : ∀ slot, slot ∈ slots plan'.requested ↔ slot ∈ slots plan.requested) :
    slots plan'.read = slots plan.read := by
  obtain ⟨places, hlt, hreq, hread⟩ := h.read_eq hslots
  obtain ⟨places', hlt', hreq', hread'⟩ := h'.read_eq (hsame.slots_nodup hslots)
  -- both were asked for the same places
  have hboth (p : Nat) : p ∈ places' ↔ p ∈ places := by
    rw [← places_slots hslots hlt, ← places_slots (hsame.slots_nodup hslots) hlt', ← hreq, ← hreq',
      hsame.places, Layout.mem_places, Layout.mem_places]
    simp only [hrequested]
  have hgathered : gathered d places' = gathered l places := by
    rw [gathered, gathered, hsame.allPlaces]
    refine List.filter_congr fun p _ => Bool.eq_iff_iff.mpr ?_
    simp only [List.any_eq_true, hboth, hsame.readClosure]
  rw [hread, hread', hgathered, hsame.slots_at?]

end Plan

/-! ## Books -/

namespace PlanBooks

/-- A book that is set is found. -/
theorem book_setBook_self (b : PlanBooks) (key : LayoutKey) (book : PlanBook) :
    (b.setBook key book).book key = book := by
  rw [PlanBooks.book, setBook, List.lookup_cons, beq_self_eq_true]
  rfl

/-- Setting one layout's book leaves the others. -/
theorem book_setBook_of_ne (b : PlanBooks) {key other : LayoutKey} (h : other ≠ key)
    (book : PlanBook) : (b.setBook key book).book other = b.book other := by
  rw [PlanBooks.book, PlanBooks.book, setBook, List.lookup_cons, beq_false_of_ne h]
  exact congrArg (Option.getD · _) (Memo.lookup_filter_ne h b.books)

end PlanBooks

/-- The plans that are kept for a layout are its own. -/
structure PlanBook.Good (l : Layout) (book : PlanBook) : Prop where
  one : ∀ place plan, book.one.lookup place = some plan → plan = .one l place
  several : ∀ places plan, book.several.lookup places = some plan →
    plan = .several l places (places.map (.one l))

/-- Own plans of a layout have been worked out, and nothing else has been done to the books. -/
structure PlanBooks.Adds (l : Layout) (b b' : PlanBooks) : Prop where
  good : (b.book l.key).Good l → (b'.book l.key).Good l
  drafts : (b'.book l.key).drafts = (b.book l.key).drafts
  others : ∀ key, key ≠ l.key → b'.book key = b.book key

namespace PlanBooks.Adds

variable {l : Layout} {b b' b'' : PlanBooks}

theorem refl (l : Layout) (b : PlanBooks) : Adds l b b := ⟨id, rfl, fun _ _ => rfl⟩

/-- Adding plans is transitive. -/
theorem trans (h : Adds l b b') (h' : Adds l b' b'') : Adds l b b'' :=
  ⟨fun hb => h'.good (h.good hb), h'.drafts.trans h.drafts,
    fun key hkey => (h'.others key hkey).trans (h.others key hkey)⟩

/-- A book is replaced by one that keeps as much for the draft. -/
theorem setBook {book : PlanBook} (hgood : (b.book l.key).Good l → book.Good l)
    (hdrafts : book.drafts = (b.book l.key).drafts) : Adds l b (b.setBook l.key book) := by
  refine ⟨fun hb => ?_, ?_, fun key hkey => book_setBook_of_ne b hkey book⟩
  · rw [book_setBook_self]
    exact hgood hb
  · rw [book_setBook_self, hdrafts]

end PlanBooks.Adds

/-- What is found behind a new entry is that entry or was there before. -/
theorem lookup_cons_cases {κ β : Type} [BEq κ] [LawfulBEq κ] {key other : κ} {v found : β}
    {rest : List (κ × β)} (h : ((key, v) :: rest).lookup other = some found) :
    other = key ∧ found = v ∨ rest.lookup other = some found := by
  rw [List.lookup_cons] at h
  split at h
  · rename_i heq
    exact Or.inl ⟨eq_of_beq heq, (Option.some.inj h).symm⟩
  · exact Or.inr h

section

variable {l : Layout} {b : PlanBooks}

/-- A plan for one place is found or made, and the book keeps it. -/
theorem planPlace_ok (hgood : (b.book l.key).Good l) (place : Nat) :
    ∃ b', planPlace l place b = .ok (.one l place) b' ∧ b.Adds l b' := by
  cases hlookup : (b.book l.key).one.lookup place with
  | some plan =>
    refine ⟨b, ?_, .refl l b⟩
    rw [← hgood.one place plan hlookup]
    exact bind_ok.mpr ⟨_, b, rfl, by simp only [hlookup]; rfl⟩
  | none =>
    refine ⟨b.setBook l.key { b.book l.key with one := (place, .one l place) :: (b.book l.key).one },
      ?_, .setBook (fun h => ⟨fun other plan hother => ?_, h.several⟩) rfl⟩
    · exact bind_ok.mpr ⟨_, b, rfl, by simp only [hlookup]; rfl⟩
    · rcases lookup_cons_cases hother with ⟨rfl, rfl⟩ | hold
      · rfl
      · exact h.one other plan hold

/-- Plans for some places are found or made one by one. -/
theorem planPlace_mapM_ok (hgood : (b.book l.key).Good l) (places : List Nat) :
    ∃ b', places.mapM (planPlace l) b = .ok (places.map (.one l)) b' ∧ b.Adds l b' := by
  induction places generalizing b with
  | nil => exact ⟨b, rfl, .refl l b⟩
  | cons p rest ih =>
    obtain ⟨b₁, hfirst, hadds⟩ := planPlace_ok hgood p
    obtain ⟨b₂, hrest, hmore⟩ := ih (hadds.good hgood)
    refine ⟨b₂, ?_, hadds.trans hmore⟩
    rw [List.mapM_cons]
    exact bind_ok.mpr ⟨_, b₁, hfirst, bind_ok.mpr ⟨_, b₂, hrest, rfl⟩⟩

/-- A plan for several places is their union, and the book keeps it. -/
theorem planPlaces_ok (hgood : (b.book l.key).Good l) (places : List Nat) :
    ∃ b', planPlaces l places b = .ok (.several l places (places.map (.one l))) b' ∧
      b.Adds l b' := by
  cases hlookup : (b.book l.key).several.lookup places with
  | some plan =>
    refine ⟨b, ?_, .refl l b⟩
    rw [← hgood.several places plan hlookup]
    exact bind_ok.mpr ⟨_, b, rfl, by simp only [hlookup]; rfl⟩
  | none =>
    obtain ⟨b₁, hplans, hadds⟩ := planPlace_mapM_ok hgood places
    refine ⟨b₁.setBook l.key { b₁.book l.key with several :=
      (places, .several l places (places.map (.one l))) :: (b₁.book l.key).several }, ?_,
      hadds.trans (.setBook (fun h => ⟨h.one, fun other plan hother => ?_⟩) rfl)⟩
    · refine bind_ok.mpr ⟨_, b, rfl, ?_⟩
      simp only [hlookup]
      exact bind_ok.mpr ⟨_, b₁, hplans, rfl⟩
    · rcases lookup_cons_cases hother with ⟨rfl, rfl⟩ | hold
      · rfl
      · exact h.several other plan hold

/-! ## Requests -/

/-- Steps that each succeed give the list of their answers. -/
theorem mapM_except_ok {α β ε : Type} {f : α → Except ε β} {g : α → β} {items : List α}
    (h : ∀ a ∈ items, f a = .ok (g a)) : items.mapM f = .ok (items.map g) := by
  induction items with
  | nil => rfl
  | cons a rest ih =>
    rw [List.mapM_cons, h a List.mem_cons_self, ih fun c hc => h c (List.mem_cons_of_mem _ hc)]
    rfl

/-- A field of the layout has its own place. -/
theorem Layout.placeOf_ok {l : Layout} (hslots : (l.fields.map (·.slot)).Nodup) {p : Nat}
    {f : BoundField} (hf : l.at? p = some f) : l.placeOf f = .ok p := by
  have hplace : l.place? f.slot = some p := (place?_eq_some hslots).mpr ⟨f, hf, rfl⟩
  simp only [placeOf, hplace, Option.filter_some, hf, beq_self_eq_true, if_true]

/-- A request for one field of the layout. -/
theorem planField_ok (hslots : (l.fields.map (·.slot)).Nodup) (hgood : (b.book l.key).Good l)
    {f : BoundField} (hf : f ∈ l.fields) :
    ∃ plan b', planField l f b = .ok plan b' ∧ b.Adds l b' ∧ plan.Of l ∧
      ∀ g, g ∈ plan.requested ↔ g ∈ [f] := by
  obtain ⟨p, hp⟩ := List.getElem?_of_mem hf
  obtain ⟨b', hrun, hadds⟩ := planPlace_ok hgood p
  refine ⟨.one l p, b', ?_, hadds, .one (Layout.at?_lt hp), fun g => ?_⟩
  · rw [planField, Layout.placeOf_ok hslots hp]
    exact hrun
  · have hrequested : (Plan.one l p).requested = [f] := List.filterMap_cons_some hp
    rw [hrequested]

/-- What places a request for fields comes to decides which plan it is. -/
theorem planFields_eq {l : Layout} {fields : List BoundField} {places : List Nat}
    (h : fields.mapM l.placeOf = .ok places) : planFields l fields =
      match l.allPlaces.filter places.contains with
      | [] => throw (l.refuse .noFields)
      | [place] => planPlace l place
      | several => planPlaces l several := by
  rewrite [planFields, h]
  rfl

/-- A request for fields of the layout. -/
theorem planFields_ok (hslots : (l.fields.map (·.slot)).Nodup) (hgood : (b.book l.key).Good l)
    {fields : List BoundField} (hne : fields ≠ []) (hmem : ∀ f ∈ fields, f ∈ l.fields) :
    ∃ plan b', planFields l fields b = .ok plan b' ∧ b.Adds l b' ∧ plan.Of l ∧
      ∀ f, f ∈ plan.requested ↔ f ∈ fields := by
  -- every field has a place of its own
  have hplace {f : BoundField} (hf : f ∈ fields) :
      ∃ p, l.at? p = some f ∧ l.place? f.slot = some p := by
    obtain ⟨p, hp⟩ := List.getElem?_of_mem (hmem f hf)
    exact ⟨p, hp, (Layout.place?_eq_some hslots).mpr ⟨f, hp, rfl⟩⟩
  let placeOf (f : BoundField) : Nat := (l.place? f.slot).getD 0
  have hplaces : fields.mapM l.placeOf = .ok (fields.map placeOf) := by
    refine mapM_except_ok fun f hf => ?_
    obtain ⟨p, hat, hp⟩ := hplace hf
    rw [Layout.placeOf_ok hslots hat]
    show Except.ok p = Except.ok ((l.place? f.slot).getD 0)
    rw [hp, Option.getD_some]
  obtain ⟨chosen, hdef⟩ : ∃ chosen, chosen = l.allPlaces.filter (fields.map placeOf).contains :=
    ⟨_, rfl⟩
  have hchosen {p : Nat} : p ∈ chosen ↔ ∃ f ∈ fields, l.at? p = some f := by
    rw [hdef, List.mem_filter, List.contains_eq_mem, decide_eq_true_eq, List.mem_map]
    constructor
    · rintro ⟨-, f, hf, rfl⟩
      obtain ⟨p, hat, hp⟩ := hplace hf
      refine ⟨f, hf, ?_⟩
      show l.at? ((l.place? f.slot).getD 0) = some f
      rw [hp, Option.getD_some, hat]
    · rintro ⟨f, hf, hat⟩
      refine ⟨Layout.mem_allPlaces.mpr (Layout.at?_lt hat), f, hf, ?_⟩
      show (l.place? f.slot).getD 0 = p
      rw [(Layout.place?_eq_some hslots).mpr ⟨f, hat, rfl⟩, Option.getD_some]
  have hrequested (f : BoundField) : f ∈ chosen.filterMap l.at? ↔ f ∈ fields := by
    rw [List.mem_filterMap]
    constructor
    · rintro ⟨p, hp, hat⟩
      obtain ⟨g, hg, hgat⟩ := hchosen.mp hp
      rwa [Option.some.inj (hat.symm.trans hgat)]
    · intro hf
      obtain ⟨p, hat, -⟩ := hplace hf
      exact ⟨p, hchosen.mpr ⟨f, hf, hat⟩, hat⟩
  have hlt : ∀ p ∈ chosen, p < l.fields.length := fun p hp => by
    obtain ⟨f, -, hat⟩ := hchosen.mp hp
    exact Layout.at?_lt hat
  rw [planFields_eq hplaces, ← hdef]
  rcases chosen with _ | ⟨p, _ | ⟨q, rest⟩⟩
  · obtain ⟨f, hf⟩ := List.exists_mem_of_ne_nil _ hne
    exact absurd ((hrequested f).mpr hf) List.not_mem_nil
  · obtain ⟨b', hplan, hadds⟩ := planPlace_ok hgood p
    exact ⟨_, b', hplan, hadds, .one (hlt p List.mem_cons_self), hrequested⟩
  · obtain ⟨b', hplan, hadds⟩ := planPlaces_ok hgood (p :: q :: rest)
    exact ⟨_, b', hplan, hadds, .several hlt (List.cons_ne_nil _ _), hrequested⟩

/-- Of several fields with one slot one is kept. -/
theorem mem_distinct (fields : List BoundField) :
    (∀ f ∈ Layout.distinct fields, f ∈ fields) ∧
      ∀ f ∈ fields, ∃ g ∈ Layout.distinct fields, g.slot = f.slot := by
  -- in general, with what has been kept so far
  have hgen (fields kept : List BoundField) :
      (∀ f ∈ fields.foldl
        (fun kept f => if kept.any (·.slot == f.slot) then kept else kept ++ [f]) kept,
        f ∈ kept ∨ f ∈ fields) ∧
      (kept ⊆ fields.foldl
        (fun kept f => if kept.any (·.slot == f.slot) then kept else kept ++ [f]) kept) ∧
      ∀ f ∈ fields, ∃ g ∈ fields.foldl
        (fun kept f => if kept.any (·.slot == f.slot) then kept else kept ++ [f]) kept,
        g.slot = f.slot := by
    induction fields generalizing kept with
    | nil => exact ⟨fun f hf => Or.inl hf, List.Subset.refl _, fun f hf => absurd hf List.not_mem_nil⟩
    | cons f rest ih =>
      rw [List.foldl_cons]
      by_cases hsame : kept.any (·.slot == f.slot) = true
      · rw [if_pos hsame]
        obtain ⟨hfrom, hkept, hall⟩ := ih kept
        refine ⟨fun g hg => (hfrom g hg).imp_right (List.mem_cons_of_mem _), hkept, fun g hg => ?_⟩
        rcases List.mem_cons.mp hg with rfl | hlater
        · obtain ⟨other, hother, hslot⟩ := List.any_eq_true.mp hsame
          exact ⟨other, hkept hother, eq_of_beq hslot⟩
        · exact hall g hlater
      · rw [if_neg hsame]
        obtain ⟨hfrom, hkept, hall⟩ := ih (kept ++ [f])
        refine ⟨fun g hg => ?_, fun g hg => hkept (List.mem_append_left _ hg), fun g hg => ?_⟩
        · rcases hfrom g hg with hmem | hlater
          · exact (List.mem_append.mp hmem).imp_right
              fun hnew => List.mem_cons.mpr (Or.inl (List.mem_singleton.mp hnew))
          · exact Or.inr (List.mem_cons_of_mem _ hlater)
        · rcases List.mem_cons.mp hg with rfl | hlater
          · exact ⟨g, hkept (List.mem_append_right _ (List.mem_singleton_self g)), rfl⟩
          · exact hall g hlater
  obtain ⟨hfrom, -, hall⟩ := hgen fields []
  exact ⟨fun f hf => (hfrom f hf).resolve_left List.not_mem_nil, hall⟩

/-- A request by name. -/
theorem planNames_ok (hslots : (l.fields.map (·.slot)).Nodup) (hgood : (b.book l.key).Good l)
    (names : List String) (hne : names ≠ [])
    (hnames : ∀ name ∈ names, (l.field? name).isSome = true) :
    ∃ plan b', planNames l names b = .ok plan b' ∧ b.Adds l b' ∧ plan.Of l ∧
      ∀ f, f ∈ plan.requested ↔ ∃ name ∈ names, l.field? name = some f := by
  let named (name : String) : BoundField := (l.field? name).getD default
  have hnamed {name : String} (h : name ∈ names) : l.field? name = some (named name) := by
    obtain ⟨f, hf⟩ := Option.isSome_iff_exists.mp (hnames name h)
    show l.field? name = some ((l.field? name).getD default)
    rw [hf, Option.getD_some]
  have hfields : names.mapM l.fieldNamed = .ok (names.map named) := by
    refine mapM_except_ok fun name h => ?_
    rw [Layout.fieldNamed, hnamed h]
  have hmem {f : BoundField} (hf : f ∈ names.map named) : f ∈ l.fields := by
    obtain ⟨name, h, rfl⟩ := List.mem_map.mp hf
    exact List.mem_of_find?_eq_some (hnamed h)
  obtain ⟨hfrom, hall⟩ := mem_distinct (names.map named)
  -- fields of one slot are the same
  have hdistinct (f : BoundField) : f ∈ Layout.distinct (names.map named) ↔ f ∈ names.map named := by
    refine ⟨hfrom f, fun hf => ?_⟩
    obtain ⟨g, hg, hslot⟩ := hall f hf
    rwa [← List.inj_on_of_nodup_map hslots (hmem (hfrom g hg)) (hmem hf) hslot]
  obtain ⟨first, hfirst⟩ := List.exists_mem_of_ne_nil _ hne
  obtain ⟨plan, b', hrun, hadds, hof, hrequested⟩ := planFields_ok hslots hgood
    (List.ne_nil_of_mem ((hdistinct _).mpr (List.mem_map_of_mem (f := named) hfirst)))
    fun f hf => hmem (hfrom f hf)
  refine ⟨plan, b', ?_, hadds, hof, fun f => (hrequested f).trans ((hdistinct f).trans ?_)⟩
  · rw [planNames, hfields]
    exact hrun
  · rw [List.mem_map]
    constructor
    · rintro ⟨name, h, rfl⟩
      exact ⟨name, h, hnamed h⟩
    · rintro ⟨name, h, hf⟩
      exact ⟨name, h, Option.some.inj ((hnamed h).symm.trans hf)⟩

end

/-! ## Plans of a draft -/

/-- The plans of a draft that are kept for a layout stand for all of the layout's own plans that
were asked for the same slots. -/
def PlanBook.Faithful (l d : Layout) (book : PlanBook) : Prop :=
  ∀ slots kept, book.drafts.lookup slots = some kept → kept.Of d ∧
    ∀ plan : Plan, plan.Of l → Plan.slots plan.requested = slots →
      Plan.slots kept.read = Plan.slots plan.read

/-- The plans that are kept for a layout and for its draft are their own. -/
structure PlanBooks.Kept (l d : Layout) (b : PlanBooks) : Prop where
  own : (b.book l.key).Good l
  draft : (b.book d.key).Good d
  faithful : (b.book l.key).Faithful l d

section

variable {l d : Layout} {b b' : PlanBooks}

theorem PlanBooks.kept_empty (l d : Layout) : PlanBooks.empty.Kept l d :=
  ⟨⟨fun _ _ h => (nomatch h), fun _ _ h => (nomatch h)⟩,
    ⟨fun _ _ h => (nomatch h), fun _ _ h => (nomatch h)⟩, fun _ _ h => nomatch h⟩

/-- Working out own plans of the layout. -/
theorem PlanBooks.Kept.adds (h : b.Kept l d) (hkeys : d.key ≠ l.key) (hadds : b.Adds l b') :
    b'.Kept l d := by
  refine ⟨hadds.good h.own, ?_, ?_⟩
  · rw [hadds.others _ hkeys]
    exact h.draft
  · rw [PlanBook.Faithful, hadds.drafts]
    exact h.faithful

/-- Working out own plans of the draft. -/
theorem PlanBooks.Kept.adds_draft (h : b.Kept l d) (hkeys : d.key ≠ l.key)
    (hadds : b.Adds d b') : b'.Kept l d := by
  refine ⟨?_, hadds.good h.draft, ?_⟩ <;> rw [hadds.others _ hkeys.symm]
  · exact h.own
  · exact h.faithful

/-- The plan on the draft that answers the request of an own plan. -/
theorem carryOver_ok (hslots : (l.fields.map (·.slot)).Nodup) (hneeds : l.NeedsGovernors)
    (hgoverns : ∀ f ∈ l.fields, f.governs = true → ∃ g ∈ l.fields, g.governor? = some f.slot)
    (hsame : SameFields l d) (hdraft : (b.book d.key).Good d) {plan : Plan} (hof : plan.Of l)
    (hne : plan.requested ≠ []) (hnamed : ∀ f ∈ plan.requested, l.field? f.name = some f) :
    ∃ kept b', carryOver plan d b = .ok kept b' ∧ b.Adds d b' ∧ kept.Of d ∧
      Plan.slots kept.read = Plan.slots plan.read := by
  rw [carryOver]
  split
  · -- the full plan stands for a full one
    rename_i hfull
    refine ⟨_, b, rfl, .refl d b, .full, ?_⟩
    rw [(hof.reads hslots hneeds hgoverns).full (Bool.and_eq_true_iff.mp hfull).1, ← hsame.slots_eq]
    exact congrArg Plan.slots (Layout.allPlaces_at? d)
  · -- any other plan is asked for by the names of its fields
    obtain ⟨kept, b', hrun, hadds, hkept, hrequested⟩ := planNames_ok (hsame.slots_nodup hslots)
      hdraft (Plan.names plan.requested) (by simpa [Plan.names] using hne) fun name h => by
        obtain ⟨f, hf, rfl⟩ := List.mem_map.mp h
        obtain ⟨f', hf', -⟩ := hsame.field? (hnamed f hf)
        rw [hf']
        rfl
    refine ⟨kept, b', hrun, hadds, hkept, hof.read_slots hslots hsame hkept fun slot => ?_⟩
    rw [Plan.slots, Plan.slots, List.mem_map, List.mem_map]
    constructor
    · rintro ⟨f', hf', rfl⟩
      obtain ⟨name, hname, hfield⟩ := (hrequested f').mp hf'
      obtain ⟨f, hf, rfl⟩ := List.mem_map.mp hname
      obtain ⟨f'', hf'', hboth⟩ := hsame.field? (hnamed f hf)
      exact ⟨f, hf, by rw [Option.some.inj (hfield.symm.trans hf''), hboth.slot]⟩
    · rintro ⟨f, hf, rfl⟩
      obtain ⟨f', hf', hboth⟩ := hsame.field? (hnamed f hf)
      exact ⟨f', (hrequested f').mpr ⟨f.name, List.mem_map_of_mem hf, hf'⟩, hboth.slot⟩

/-- The plan of the draft that stands for an own one. -/
theorem draftPlan_ok (hslots : (l.fields.map (·.slot)).Nodup) (hneeds : l.NeedsGovernors)
    (hgoverns : ∀ f ∈ l.fields, f.governs = true → ∃ g ∈ l.fields, g.governor? = some f.slot)
    (hsame : SameFields l d) (hkeys : d.key ≠ l.key) (hbooks : b.Kept l d) {plan : Plan}
    (hof : plan.Of l) (hne : plan.requested ≠ [])
    (hnamed : ∀ f ∈ plan.requested, l.field? f.name = some f) :
    ∃ kept b', draftPlan l d plan b = .ok kept b' ∧ b'.Kept l d ∧ kept.Of d ∧
      Plan.slots kept.read = Plan.slots plan.read := by
  cases hlookup : (b.book l.key).drafts.lookup (Plan.slots plan.requested) with
  | some kept =>
    -- it has been carried over before
    obtain ⟨hkept, hfaithful⟩ := hbooks.faithful _ _ hlookup
    refine ⟨kept, b, ?_, hbooks, hkept, hfaithful plan hof rfl⟩
    exact bind_ok.mpr ⟨_, b, rfl, by simp only [hlookup]; rfl⟩
  | none =>
    obtain ⟨kept, b₁, hrun, hadds, hkept, hread⟩ :=
      carryOver_ok hslots hneeds hgoverns hsame hbooks.draft hof hne hnamed
    have hbooks₁ := hbooks.adds_draft hkeys hadds
    refine ⟨kept, b₁.setBook l.key { b₁.book l.key with
      drafts := (Plan.slots plan.requested, kept) :: (b₁.book l.key).drafts }, ?_, ⟨?_, ?_, ?_⟩,
      hkept, hread⟩
    · refine bind_ok.mpr ⟨_, b, rfl, ?_⟩
      simp only [hlookup]
      exact bind_ok.mpr ⟨kept, b₁, hrun, rfl⟩
    · rw [PlanBooks.book_setBook_self]
      exact ⟨hbooks₁.own.one, hbooks₁.own.several⟩
    · rw [PlanBooks.book_setBook_of_ne _ hkeys]
      exact hbooks₁.draft
    · rw [PlanBooks.book_setBook_self]
      intro slots found hfound
      -- a plan with the same slots reads the same, so the kept one stands for it as well
      rcases lookup_cons_cases hfound with ⟨rfl, rfl⟩ | hold
      · exact ⟨hkept, fun plan' hof' hsame' => hread.trans
          (hof'.read_slots hslots (.refl l) hof fun slot => by rw [hsame'])⟩
      · exact hbooks₁.faithful _ _ hold

end

end RecordLayout
