import Mathlib
import RecordLayout.Proofs.Layout.History
import RecordLayout.Proofs.Plan.Book

/-!
# Plans are the least closed sets

What a plan writes is the least set of fields that includes the requested ones and with every field
all that must be written together with it. What it reads is the least set that includes the requested
fields and every field that decides the size of another one, and with every field those that it
needs. This does not depend on what was asked before: a book of plans answers every request as an
empty one would, whatever other requests it has answered or refused.

Main results:

* `Layout.WriteClosed`, `Layout.ReadClosed` — sets that take with a field what goes with it;
* `Plan.Of.least` — every plan of a layout takes the least such sets;
* `PlanAsk.run_keeps` — no request leaves a wrong plan in a book;
* `PlanAsk.answer_least` — every request is answered by least sets, after any other requests.
-/

namespace RecordLayout

/-! ## Closed sets of fields -/

/-- With every field of the set, all fields of the layout are in it that must be written together with
the field. -/
structure Layout.WriteClosed (l : Layout) (taken : Set BoundField) : Prop where
  needs : ∀ f ∈ taken, ∀ g ∈ l.fields, g.slot ∈ f.needs → g ∈ taken
  dependents : ∀ f ∈ taken, ∀ g ∈ l.fields, f.slot ∈ g.needs → g ∈ taken
  derived : ∀ f ∈ taken, ∀ g ∈ l.fields, ∀ d, g.derivation = some d → f.slot ∈ d.sources → g ∈ taken
  sources : ∀ f ∈ taken, ∀ g ∈ l.fields, ∀ d, f.derivation = some d → g.slot ∈ d.sources → g ∈ taken
  /-- A field of variable size moves all that comes after it. -/
  moved : ∀ before f after, l.fields = before ++ f :: after → f ∈ taken → f.size.isFixed = false →
    ∀ g ∈ after, g ∈ taken

/-- With every field of the set, all fields of the layout are in it that the field needs. -/
def Layout.ReadClosed (l : Layout) (taken : Set BoundField) : Prop :=
  ∀ f ∈ taken, ∀ g ∈ l.fields, g.slot ∈ f.needs → g ∈ taken

/-- A plan takes as little as it can for some fields of a layout, in canonical order. -/
structure Plan.Least (l : Layout) (wanted : List BoundField) (plan : Plan) : Prop where
  write_order : plan.write.Sublist l.fields
  write : IsLeast {taken : Set BoundField | l.WriteClosed taken ∧ ∀ f ∈ wanted, f ∈ taken}
    {f | f ∈ plan.write}
  read_order : plan.read.Sublist l.fields
  read : IsLeast {taken : Set BoundField | l.ReadClosed taken ∧ (∀ f ∈ wanted, f ∈ taken) ∧
    ∀ f ∈ l.fields, (∃ g ∈ l.fields, g.governor? = some f.slot) → f ∈ taken} {f | f ∈ plan.read}
  fullWrite : plan.fullWrite = true ↔ ∀ f ∈ l.fields, f ∈ plan.write
  fullRead : plan.fullRead = true ↔ ∀ f ∈ l.fields, f ∈ plan.read
  derived_order : plan.derived.Sublist plan.write
  derived : ∀ f, f ∈ plan.derived ↔ f ∈ plan.write ∧ ∃ d, f.derivation = some d

/-! ## Closed sets and closures -/

namespace Layout

variable {l : Layout}

/-- A field at a later place comes after. -/
theorem split_at {p q : Nat} {f g : BoundField} (hf : l.at? p = some f) (hg : l.at? q = some g)
    (hlt : p < q) : ∃ before after, l.fields = before ++ f :: after ∧ g ∈ after := by
  obtain ⟨hp, rfl⟩ := List.getElem?_eq_some_iff.mp hf
  refine ⟨l.fields.take p, l.fields.drop (p + 1), ?_, ?_⟩
  · rw [List.getElem_cons_drop, List.take_append_drop]
  · refine List.mem_of_getElem? (i := q - (p + 1)) ?_
    rw [List.getElem?_drop, Nat.add_sub_cancel' hlt]
    exact hg

/-- Writing a field touches no more than a set that is closed takes with it. -/
theorem WriteClosed.touched (hslots : (l.fields.map (·.slot)).Nodup) {taken : Set BoundField}
    (h : l.WriteClosed taken) {p q : Nat} (hq : q ∈ l.touched p) {f g : BoundField}
    (hf : l.at? p = some f) (hg : l.at? q = some g) (htaken : f ∈ taken) : g ∈ taken := by
  have hmem : g ∈ l.fields := List.mem_of_getElem? hg
  rcases mem_touched.mp hq with hneed | hdep | hder | hsource | ⟨hvaries, -, hlt⟩
  · exact h.needs f htaken g hmem ((mem_needed_iff hslots hf hg).mp hneed)
  · exact h.dependents f htaken g hmem ((mem_dependents_iff hslots hf hg).mp hdep)
  · obtain ⟨d, hd, hslot⟩ := (mem_derivedFrom_iff hslots hf hg).mp hder
    exact h.derived f htaken g hmem d hd hslot
  · obtain ⟨d, hd, hslot⟩ := (mem_sourcesOf_iff hslots hf hg).mp hsource
    exact h.sources f htaken g hmem d hd hslot
  · obtain ⟨before, after, hsplit, hafter⟩ := split_at hf hg hlt
    exact h.moved before f after hsplit htaken ((varies_iff hf).mp hvaries) g hafter

variable {next : Nat → List Nat} {starts : List Nat}

/-- What is true of the starts and handed on from place to place is true of the whole closure. -/
theorem closure_induction {P : Nat → Prop} (hstarts : ∀ p ∈ starts, P p)
    (hnext : ∀ p q, P p → q ∈ next p → P q) : ∀ p ∈ l.closure next starts, P p := by
  intro p hp
  have hreached := (List.mem_filter.mp hp).2
  rw [List.contains_eq_mem, decide_eq_true_eq] at hreached
  obtain ⟨start, hstart, hpath⟩ := (reach_sound hreached).resolve_left List.not_mem_nil
  -- by induction on the way that the search took
  clear hreached hp
  induction hpath with
  | refl => exact hstarts start hstart
  | tail _ hstep ih => exact hnext _ _ ih hstep

end Layout

/-! ## Plans are least -/

namespace Plan

variable {l : Layout} {plan : Plan}

/-- The field at a place is picked along with the place. -/
theorem mem_pick (hslots : (l.fields.map (·.slot)).Nodup) {places : List Nat} {p : Nat}
    {f : BoundField} (hf : l.at? p = some f) : f ∈ places.filterMap l.at? ↔ p ∈ places := by
  rw [List.mem_filterMap]
  constructor
  · rintro ⟨q, hq, hqf⟩
    have hsame := (Layout.place?_at? hslots hf).symm.trans (Layout.place?_at? hslots hqf)
    rwa [Option.some.inj hsame]
  · exact fun hp => ⟨p, hp, hf⟩

/-- As many places as fields are all places. -/
theorem all_iff_length {places : List Nat} (hsub : places.Sublist l.allPlaces)
    (hslots : (l.fields.map (·.slot)).Nodup) :
    (places.length == l.fields.length) = true ↔ ∀ f ∈ l.fields, f ∈ places.filterMap l.at? := by
  rw [beq_iff_eq]
  have hlength : l.allPlaces.length = l.fields.length := List.length_range
  constructor
  · intro h f hf
    rw [hsub.eq_of_length (h.trans hlength.symm), Layout.allPlaces_at?]
    exact hf
  · intro h
    have hall : l.allPlaces ⊆ places := fun p hp => by
      have hp : p < l.fields.length := Layout.mem_allPlaces.mp hp
      have hat : l.at? p = some l.fields[p] := List.getElem?_eq_getElem hp
      exact (mem_pick hslots hat).mp (h _ (List.getElem_mem hp))
    have hle : l.allPlaces.length ≤ places.length := (List.nodup_range.subperm hall).length_le
    have hge := hsub.length_le
    omega

/-- What a closure picks belongs to every set that includes the fields at its starts and keeps to its
steps. -/
theorem pick_closure_subset {next : Nat → List Nat} {starts : List Nat} {taken : Set BoundField}
    (hlt : ∀ p q, q ∈ next p → q < l.fields.length)
    (hstarts : ∀ p ∈ starts, ∃ f, l.at? p = some f ∧ f ∈ taken)
    (hnext : ∀ p q f g, q ∈ next p → l.at? p = some f → l.at? q = some g → f ∈ taken → g ∈ taken) :
    ∀ f ∈ (l.closure next starts).filterMap l.at?, f ∈ taken := by
  intro f hf
  obtain ⟨p, hp, hat⟩ := List.mem_filterMap.mp hf
  obtain ⟨g, hg, htaken⟩ := Layout.closure_induction hstarts (fun p q hp hq => by
    obtain ⟨f, hf, htaken⟩ := hp
    have hlt := hlt p q hq
    have hqg : l.at? q = some l.fields[q] := List.getElem?_eq_getElem hlt
    exact ⟨_, hqg, hnext p q f _ hq hf hqg htaken⟩) p hp
  rwa [Option.some.inj (hat.symm.trans hg)]

/-- What is written along with a place belongs to every closed set with its field. -/
theorem writeClosure_subset (hslots : (l.fields.map (·.slot)).Nodup) {a : Nat}
    (ha : a < l.fields.length) {taken : Set BoundField} (hclosed : l.WriteClosed taken)
    (hown : l.fields[a] ∈ taken) : ∀ f ∈ (l.writeClosure a).filterMap l.at?, f ∈ taken :=
  pick_closure_subset (fun _ _ => Layout.touched_lt)
    (fun p hp => by
      rw [List.mem_singleton.mp hp]
      exact ⟨_, List.getElem?_eq_getElem ha, hown⟩)
    fun _ _ _ _ hq hf hg htaken => hclosed.touched hslots hq hf hg htaken

/-- What is read along with a place belongs to every closed set with its field and the governors. -/
theorem readClosure_subset (hslots : (l.fields.map (·.slot)).Nodup) (hneeds : l.NeedsGovernors)
    {a : Nat} (ha : a < l.fields.length) {taken : Set BoundField} (hclosed : l.ReadClosed taken)
    (hgovernors : ∀ f ∈ l.fields, (∃ g ∈ l.fields, g.governor? = some f.slot) → f ∈ taken)
    (hown : l.fields[a] ∈ taken) : ∀ f ∈ (l.readClosure a).filterMap l.at?, f ∈ taken := by
  rw [Layout.readClosure_eq hneeds ha]
  refine pick_closure_subset (fun _ _ => Layout.needed_lt) (fun p hp => ?_)
    fun p q f g hq hf hg htaken => hclosed f htaken g (List.mem_of_getElem? hg)
      ((Layout.mem_needed_iff hslots hf hg).mp hq)
  rcases List.mem_cons.mp hp with rfl | hgovernor
  · exact ⟨_, List.getElem?_eq_getElem ha, hown⟩
  · obtain ⟨slot, hslot, hplace⟩ := Layout.mem_places.mp hgovernor
    obtain ⟨f, hf, rfl⟩ := (Layout.place?_eq_some hslots).mp hplace
    obtain ⟨g, hg, hgoverns⟩ := List.mem_filterMap.mp hslot
    exact ⟨f, hf, hgovernors f (List.mem_of_getElem? hf) ⟨g, hg, hgoverns⟩⟩

/-- The places that a plan of a layout stands for: those asked for, those written, those read. -/
structure Stands (l : Layout) (plan : Plan) (wanted write read : List Nat) : Prop where
  wanted_lt : ∀ a ∈ wanted, a < l.fields.length
  eq : plan = .ofPlaces l plan.request wanted write read
  write_sub : write.Sublist l.allPlaces
  read_sub : read.Sublist l.allPlaces
  write : ∀ p, p ∈ write ↔ ∃ a ∈ wanted, p ∈ l.writeClosure a
  read : ∀ p, p ∈ read ↔ ∃ a ∈ wanted, p ∈ l.readClosure a

theorem mem_writeClosure_self {a : Nat} (ha : a < l.fields.length) : a ∈ l.writeClosure a :=
  Layout.mem_closure_of_start (List.mem_singleton_self a) ha

/-- Every plan takes the closures of the places that it was asked for, and no more. The full plan was
asked for all places. -/
theorem Of.stands (hslots : (l.fields.map (·.slot)).Nodup) (h : Of l plan) :
    ∃ wanted write read, Stands l plan wanted write read := by
  -- a full plan stands for all places, one of a field for its place, one of several for theirs
  cases h with
  | full =>
    have hlt : ∀ a ∈ l.allPlaces, a < l.fields.length := fun a ha => Layout.mem_allPlaces.mp ha
    refine ⟨_, _, _, hlt, rfl, .refl _, .refl _, fun p => ⟨fun hp => ?_, ?_⟩,
      fun p => ⟨fun hp => ?_, ?_⟩⟩
    · exact ⟨p, hp, mem_writeClosure_self (hlt p hp)⟩
    · rintro ⟨a, -, hp⟩
      exact Layout.mem_allPlaces.mpr (Layout.closure_lt hp)
    · exact ⟨p, hp, Layout.mem_readClosure_self (hlt p hp)⟩
    · rintro ⟨a, -, hp⟩
      exact Layout.readClosure_sublist.subset hp
  | @one place hplace =>
    refine ⟨_, _, _, fun a h => by rwa [List.mem_singleton.mp h], rfl, Layout.closure_sublist,
      Layout.readClosure_sublist, fun p => ?_, fun p => ?_⟩
    · exact (exists_eq_left (p := fun a => p ∈ l.writeClosure a)).symm.trans
        (by simp only [List.mem_singleton])
    · exact (exists_eq_left (p := fun a => p ∈ l.readClosure a)).symm.trans
        (by simp only [List.mem_singleton])
  | several hall _ =>
    exact ⟨_, _, _, hall, rfl, List.filter_sublist, List.filter_sublist,
      fun p => (mem_union (·.write) l.writeClosure hslots (fun _ => rfl) _).trans
        (and_iff_right_of_imp fun ⟨_, _, hp⟩ => Layout.closure_lt hp),
      fun p => (mem_union (·.read) l.readClosure hslots (fun _ => rfl) _).trans
        (and_iff_right_of_imp fun ⟨_, _, hp⟩ =>
          Layout.mem_allPlaces.mp (Layout.readClosure_sublist.subset hp))⟩

namespace Stands

variable {wanted write read : List Nat}

theorem mem_requested (h : Stands l plan wanted write read)
    (hslots : (l.fields.map (·.slot)).Nodup) {a : Nat} {f : BoundField} (hf : l.at? a = some f) :
    f ∈ plan.requested ↔ a ∈ wanted := by
  rw [h.eq]
  exact mem_pick hslots hf

/-- What is read has all that it needs. -/
theorem read_closed (h : Stands l plan wanted write read) (hslots : (l.fields.map (·.slot)).Nodup)
    (hneeds : l.NeedsGovernors) : l.ReadClosed {f | f ∈ plan.read} := by
  rw [h.eq]
  intro f hf g hg hslot
  obtain ⟨p, hp, hpf⟩ := List.mem_filterMap.mp hf
  obtain ⟨q, hq⟩ := List.getElem?_of_mem hg
  obtain ⟨a, ha, hmem⟩ := (h.read p).mp hp
  refine (mem_pick hslots hq).mpr ((h.read q).mpr ⟨a, ha, ?_⟩)
  rw [Layout.readClosure_eq hneeds (h.wanted_lt a ha)] at hmem ⊢
  refine Layout.closure_closed (fun _ _ => Layout.needed_lt) (fun b hb => ?_) hmem
    ((Layout.mem_needed_iff hslots hpf hq).mpr hslot)
  rcases List.mem_cons.mp hb with rfl | hgovernor
  · exact h.wanted_lt _ ha
  · exact Layout.lt_of_mem_places hgovernor

/-- What is read has every governor, as long as anything is asked for. -/
theorem read_governors (h : Stands l plan wanted write read)
    (hslots : (l.fields.map (·.slot)).Nodup) (hneeds : l.NeedsGovernors) (hne : wanted ≠ []) :
    ∀ f ∈ l.fields, (∃ g ∈ l.fields, g.governor? = some f.slot) → f ∈ plan.read := by
  rintro f hf ⟨g, hg, hgoverns⟩
  obtain ⟨a, ha⟩ := List.exists_mem_of_ne_nil _ hne
  obtain ⟨p, hp⟩ := List.getElem?_of_mem hf
  have hplace : p ∈ l.governors := Layout.mem_places.mpr
    ⟨f.slot, List.mem_filterMap.mpr ⟨g, hg, hgoverns⟩, Layout.place?_at? hslots hp⟩
  rw [h.eq]
  refine (mem_pick hslots hp).mpr ((h.read p).mpr ⟨a, ha, ?_⟩)
  rw [Layout.readClosure_eq hneeds (h.wanted_lt a ha)]
  exact Layout.mem_closure_of_start (List.mem_cons_of_mem _ hplace) (Layout.lt_of_mem_places hplace)

/-- What a set has that includes the requested fields and takes what goes with them. -/
theorem subset_of_closures (h : Stands l plan wanted write read)
    (hslots : (l.fields.map (·.slot)).Nodup) {closure : Nat → List Nat} {places : List Nat}
    (hplaces : ∀ p, p ∈ places ↔ ∃ a ∈ wanted, p ∈ closure a) {taken : Set BoundField}
    (hrequested : ∀ f ∈ plan.requested, f ∈ taken)
    (hclosure : ∀ a (ha : a < l.fields.length), l.fields[a] ∈ taken →
      ∀ f ∈ (closure a).filterMap l.at?, f ∈ taken) :
    ∀ f ∈ places.filterMap l.at?, f ∈ taken := by
  intro f hf
  obtain ⟨p, hp, hpf⟩ := List.mem_filterMap.mp hf
  obtain ⟨a, ha, hmem⟩ := (hplaces p).mp hp
  have hlt := h.wanted_lt a ha
  have hat : l.at? a = some l.fields[a] := List.getElem?_eq_getElem hlt
  exact hclosure a hlt (hrequested _ ((h.mem_requested hslots hat).mpr ha)) f
    (List.mem_filterMap.mpr ⟨p, hmem, hpf⟩)

end Stands

/-- Every plan takes as little as it can. -/
theorem Of.least (hslots : (l.fields.map (·.slot)).Nodup) (hneeds : l.NeedsGovernors)
    (h : Of l plan) {wanted : List BoundField}
    (hwanted : ∀ f, f ∈ plan.requested ↔ f ∈ wanted) (hne : wanted ≠ []) : plan.Least l wanted := by
  have hwrites := h.writes hslots
  obtain ⟨places, write, read, hs⟩ := h.stands hslots
  have hwrite : plan.write = write.filterMap l.at? := congrArg Plan.write hs.eq
  have hread : plan.read = read.filterMap l.at? := congrArg Plan.read hs.eq
  have hplaces : places ≠ [] := by
    obtain ⟨f, hf⟩ := List.exists_mem_of_ne_nil _ hne
    have hmem := (hwanted f).mpr hf
    rw [hs.eq] at hmem
    obtain ⟨p, hp, -⟩ := List.mem_filterMap.mp hmem
    exact List.ne_nil_of_mem hp
  refine ⟨hwrites.sublist, ⟨⟨⟨hwrites.needs, hwrites.dependents, hwrites.derived, hwrites.sources,
      hwrites.moved⟩, fun f hf => hwrites.requested ((hwanted f).mpr hf)⟩, ?_⟩, ?_,
    ⟨⟨hs.read_closed hslots hneeds, fun f hf => ?_, hs.read_governors hslots hneeds hplaces⟩, ?_⟩, ?_, ?_,
    List.filter_sublist, fun f => ?_⟩
  · rintro taken ⟨hclosed, htaken⟩ f hf
    rw [Set.mem_ofPred_eq, hwrite] at hf
    exact hs.subset_of_closures hslots hs.write (fun g hg => htaken g ((hwanted g).mp hg))
      (fun a ha hown => writeClosure_subset hslots ha hclosed hown) f hf
  · rw [hread]
    exact Layout.at?_sublist hs.read_sub
  · -- a requested field is read along with itself
    have hmem := (hwanted f).mpr hf
    rw [hs.eq] at hmem
    obtain ⟨p, hp, hpf⟩ := List.mem_filterMap.mp hmem
    rw [Set.mem_ofPred_eq, hread]
    exact (mem_pick hslots hpf).mpr
      ((hs.read p).mpr ⟨p, hp, Layout.mem_readClosure_self (hs.wanted_lt p hp)⟩)
  · rintro taken ⟨hclosed, htaken, hgovernors⟩ f hf
    rw [Set.mem_ofPred_eq, hread] at hf
    exact hs.subset_of_closures hslots hs.read (fun g hg => htaken g ((hwanted g).mp hg))
      (fun a ha hown => readClosure_subset hslots hneeds ha hclosed hgovernors hown) f hf
  · rw [hwrite, ← all_iff_length hs.write_sub hslots]
    exact iff_of_eq (congrArg (·.fullWrite = true) hs.eq)
  · rw [hread, ← all_iff_length hs.read_sub hslots]
    exact iff_of_eq (congrArg (·.fullRead = true) hs.eq)
  · rw [Plan.derived, List.mem_filter, Option.isSome_iff_exists]

end Plan

/-! ## Requests -/

/-- A request to the books of plans. -/
inductive PlanAsk where
  | full (l : Layout)
  | field (l : Layout) (f : BoundField)
  | name (l : Layout) (name : String)
  | fields (l : Layout) (fields : List BoundField)
  | names (l : Layout) (names : List String)
  /-- The request of a plan, which may be of any layout, is made to another layout. -/
  | carried (plan : Plan) (target : Layout)
  /-- The request of a plan is made to the draft of a layout. -/
  | draft (l draft : Layout) (plan : Plan)

namespace PlanAsk

/-- How a request is answered. -/
def answer : PlanAsk → PlanM Plan
  | .full l => pure (.full l)
  | .field l f => planField l f
  | .name l text => planName l text
  | .fields l wanted => planFields l wanted
  | .names l texts => planNames l texts
  | .carried plan target => carryOver plan target
  | .draft l other plan => draftPlan l other plan

/-- The layouts whose books a request may write in. -/
def layouts : PlanAsk → List Layout
  | .full l | .field l _ | .name l _ | .fields l _ | .names l _ | .carried _ l => [l]
  | .draft l other _ => [l, other]

/-- A request asks a layout for some of its fields. -/
inductive For (l : Layout) : PlanAsk → List BoundField → Prop
  | full (hne : l.fields ≠ []) : For l (.full l) l.fields
  | field {f : BoundField} (h : f ∈ l.fields) : For l (.field l f) [f]
  | name {name : String} {f : BoundField} (h : l.field? name = some f) : For l (.name l name) [f]
  | fields {fields : List BoundField} (hne : fields ≠ []) (h : ∀ f ∈ fields, f ∈ l.fields) :
    For l (.fields l fields) fields
  | names {names : List String} (hne : names ≠ []) (h : ∀ name ∈ names, (l.field? name).isSome) :
    For l (.names l names) (names.filterMap l.field?)

/-- The books after a request, whether or not it was answered. -/
def run (b : PlanBooks) (q : PlanAsk) : PlanBooks := (outcome q.answer b).2

end PlanAsk

/-- The books after some requests. -/
def planned (asks : List PlanAsk) : PlanBooks := asks.foldl PlanAsk.run .empty

/-- Some layouts are told apart by their keys. -/
def KeysApart (pipes : Layout → Prop) : Prop :=
  ∀ l l', pipes l → pipes l' → l.key = l'.key → l = l'

/-- The books of some layouts have plans of their own only. -/
def PlanBooks.Own (pipes : Layout → Prop) (b : PlanBooks) : Prop :=
  ∀ l, pipes l → (b.book l.key).Good l

section

variable {pipes : Layout → Prop} {l : Layout} {b b' : PlanBooks}

theorem PlanBooks.own_empty (pipes : Layout → Prop) : PlanBooks.empty.Own pipes :=
  fun _ _ => ⟨fun _ _ h => (nomatch h), fun _ _ h => nomatch h⟩

/-- Working out plans of one layout leaves the books of the others alone. -/
theorem PlanBooks.Own.adds (h : b.Own pipes) (hkeys : KeysApart pipes) (hl : pipes l)
    (hadds : b.Adds l b') : b'.Own pipes := by
  intro l' hl'
  by_cases hkey : l'.key = l.key
  · rw [hkeys l' l hl' hl hkey]
    exact hadds.good (h l hl)
  · rw [hadds.others _ hkey]
    exact h l' hl'

theorem planField_adds (hgood : (b.book l.key).Good l) (f : BoundField) :
    b.Adds l (outcome (planField l f) b).2 := by
  rw [planField]
  cases l.placeOf f with
  | error e => exact .refl l b
  | ok place =>
    obtain ⟨b', hrun, hadds⟩ := planPlace_ok hgood place
    rwa [outcome_of_ok hrun]

/-- A request for fields works out own plans only, even if it is refused. -/
theorem planFields_adds (hgood : (b.book l.key).Good l) (fields : List BoundField) :
    b.Adds l (outcome (planFields l fields) b).2 := by
  cases hplaces : fields.mapM l.placeOf with
  | error e =>
    rw [planFields, hplaces]
    exact .refl l b
  | ok places =>
    rw [planFields_eq hplaces]
    rcases l.allPlaces.filter places.contains with _ | ⟨p, _ | ⟨q, rest⟩⟩
    · exact .refl l b
    · obtain ⟨b', hrun, hadds⟩ := planPlace_ok hgood p
      rwa [outcome_of_ok hrun]
    · obtain ⟨b', hrun, hadds⟩ := planPlaces_ok hgood (p :: q :: rest)
      rwa [outcome_of_ok hrun]

theorem planNames_adds (hgood : (b.book l.key).Good l) (names : List String) :
    b.Adds l (outcome (planNames l names) b).2 := by
  rw [planNames]
  cases names.mapM l.fieldNamed with
  | error e => exact .refl l b
  | ok fields => exact planFields_adds hgood _

theorem planName_adds (hgood : (b.book l.key).Good l) (name : String) :
    b.Adds l (outcome (planName l name) b).2 := by
  rw [planName]
  cases l.fieldNamed name with
  | error e => exact .refl l b
  | ok f => exact planField_adds hgood f

theorem carryOver_adds (hgood : (b.book l.key).Good l) (plan : Plan) :
    b.Adds l (outcome (carryOver plan l) b).2 := by
  rw [carryOver]
  split
  · exact .refl l b
  · exact planNames_adds hgood _

/-- What is kept of the plans of a draft does not touch the own plans. -/
theorem PlanBooks.Own.setDrafts (h : b.Own pipes) (hkeys : KeysApart pipes) (hl : pipes l)
    (drafts : List (List Nat × Plan)) :
    (b.setBook l.key { b.book l.key with drafts }).Own pipes := by
  intro l' hl'
  by_cases hkey : l'.key = l.key
  · rw [hkeys l' l hl' hl hkey, PlanBooks.book_setBook_self]
    exact ⟨(h l hl).one, (h l hl).several⟩
  · rw [PlanBooks.book_setBook_of_ne b hkey]
    exact h l' hl'

theorem draftPlan_own {draft : Layout} (h : b.Own pipes) (hkeys : KeysApart pipes) (hl : pipes l)
    (hdraft : pipes draft) (plan : Plan) : (outcome (draftPlan l draft plan) b).2.Own pipes := by
  have hcarried := h.adds hkeys hdraft (carryOver_adds (h draft hdraft) plan)
  rw [draftPlan, outcome_bind]
  simp only [bookOf]
  cases (b.book l.key).drafts.lookup (Plan.slots plan.requested) with
  | some found => exact h
  | none =>
    cases hrun : carryOver plan draft b with
    | error e b₁ =>
      rw [outcome_of_error hrun] at hcarried
      simp only [outcome_bind, hrun]
      exact hcarried
    | ok carried b₁ =>
      rw [outcome_of_ok hrun] at hcarried
      simp only [outcome_bind, hrun]
      exact hcarried.setDrafts hkeys hl _

/-- No request leaves a wrong plan in a book. -/
theorem PlanAsk.run_keeps (hkeys : KeysApart pipes) (h : b.Own pipes) {q : PlanAsk}
    (hq : ∀ l ∈ q.layouts, pipes l) : (q.run b).Own pipes := by
  -- whatever is asked for, the book only gains plans of that layout
  cases q with
  | full l => exact h
  | field l f =>
    have hl := hq l List.mem_cons_self
    exact h.adds hkeys hl (planField_adds (h l hl) f)
  | name l name =>
    have hl := hq l List.mem_cons_self
    exact h.adds hkeys hl (planName_adds (h l hl) name)
  | fields l fields =>
    have hl := hq l List.mem_cons_self
    exact h.adds hkeys hl (planFields_adds (h l hl) fields)
  | names l names =>
    have hl := hq l List.mem_cons_self
    exact h.adds hkeys hl (planNames_adds (h l hl) names)
  | carried plan target =>
    have hl := hq target List.mem_cons_self
    exact h.adds hkeys hl (carryOver_adds (h target hl) plan)
  | draft l draft plan =>
    exact draftPlan_own h hkeys (hq l List.mem_cons_self)
      (hq draft (List.mem_cons_of_mem _ List.mem_cons_self)) plan

theorem planned_own (hkeys : KeysApart pipes) {asks : List PlanAsk}
    (hasks : ∀ q ∈ asks, ∀ l ∈ q.layouts, pipes l) : (planned asks).Own pipes := by
  induction asks using List.reverseRecOn with
  | nil => exact PlanBooks.own_empty pipes
  | append_singleton before q ih =>
    rw [planned, List.foldl_concat]
    exact PlanAsk.run_keeps hkeys (ih fun r hr => hasks r (List.mem_append_left _ hr))
      (hasks q (List.mem_append_right _ (List.mem_singleton_self q)))

/-- A request for fields of a layout is answered by a plan for them. -/
theorem PlanAsk.For.answered (hslots : (l.fields.map (·.slot)).Nodup)
    (hgood : (b.book l.key).Good l) {q : PlanAsk} {wanted : List BoundField} (h : q.For l wanted) :
    wanted ≠ [] ∧ ∃ plan b', q.answer b = .ok plan b' ∧ plan.Of l ∧
      ∀ f, f ∈ plan.requested ↔ f ∈ wanted := by
  cases h with
  | full hne =>
    refine ⟨hne, _, b, rfl, .full, fun f => ?_⟩
    exact iff_of_eq (congrArg (f ∈ ·) (Layout.allPlaces_at? l))
  | field hf =>
    obtain ⟨plan, b', hrun, -, hof, hrequested⟩ := planField_ok hslots hgood hf
    exact ⟨List.cons_ne_nil _ _, plan, b', hrun, hof, hrequested⟩
  | @name name f hf =>
    obtain ⟨plan, b', hrun, -, hof, hrequested⟩ :=
      planField_ok hslots hgood (List.mem_of_find?_eq_some hf)
    refine ⟨List.cons_ne_nil _ _, plan, b', ?_, hof, hrequested⟩
    rw [answer, planName, Layout.fieldNamed, hf]
    exact hrun
  | fields hne hmem =>
    obtain ⟨plan, b', hrun, -, hof, hrequested⟩ := planFields_ok hslots hgood hne hmem
    exact ⟨hne, plan, b', hrun, hof, hrequested⟩
  | @names names hne hnames =>
    obtain ⟨plan, b', hrun, -, hof, hrequested⟩ := planNames_ok hslots hgood names hne hnames
    refine ⟨fun hnone => ?_, plan, b', hrun, hof, fun f => ?_⟩
    · -- the first name is that of a field
      obtain ⟨first, hfirst⟩ := List.exists_mem_of_ne_nil _ hne
      have hmissing := List.filterMap_eq_nil_iff.mp hnone first hfirst
      have hfound := hnames first hfirst
      rw [hmissing] at hfound
      cases hfound
    · rw [hrequested, List.mem_filterMap]

end

/-! ## Requests to compiled layouts -/

/-- The compiler keeps a layout. -/
def Compiler.Keeps (c : Compiler) (l : Layout) : Prop := c.answer l.key = some l

theorem Compiler.keysApart (c : Compiler) : KeysApart c.Keeps := by
  intro l l' hl hl' hkey
  rw [Keeps, hkey, hl'] at hl
  exact (Option.some.inj hl).symm

/-- Whatever was asked before, of this layout or of others, a request for fields of a compiled layout
is answered by the least sets. -/
theorem PlanAsk.answer_least {cat : Catalog} (hclosed : cat.Closed)
    {requests : List Compiler.Request} (hrequests : ∀ r ∈ requests, r.Declared cat) {l : Layout}
    (hl : (Compiler.asked cat requests).Keeps l) {asks : List PlanAsk}
    (hasks : ∀ q ∈ asks, ∀ l' ∈ q.layouts, (Compiler.asked cat requests).Keeps l') {q : PlanAsk}
    {wanted : List BoundField} (hq : q.For l wanted) :
    ∃ plan b, q.answer (planned asks) = .ok plan b ∧ plan.Least l wanted := by
  obtain ⟨-, hrest⟩ := Compiler.asked_resting hclosed hrequests
  have hfields := (hrest.good.layouts _ _ _ hl).fields
  have hslots := hfields.slots_nodup
  have hneeds : l.NeedsGovernors := fun f hf slot hslot => hfields.governor_mem hf hslot
  have hown := planned_own (Compiler.keysApart _) hasks
  obtain ⟨hne, plan, b, hrun, hof, hrequested⟩ := hq.answered hslots (hown l hl)
  exact ⟨plan, b, hrun, hof.least hslots hneeds hrequested hne⟩

/-! ## Two lists of one length -/

/-- A mark and two lists whose length is kept once. -/
def twoLists : Catalog :=
  ⟨[⟨⟨"Lists", .managed, [⟨"mark", .scalar .u8, false, [], none⟩,
    ⟨"xs", .array .u8 "count", false, [], none⟩, ⟨"ys", .array .u8 "count", false, [], none⟩,
    ⟨"count", .varint, false, [], some (.lengthOf "xs")⟩]⟩, true⟩], [], []⟩

/-- The question for its layout. -/
def askTwoLists : List Compiler.Request := [.layout ⟨0, 0⟩ .standard]

/-- Its layout. -/
def twoListsLayout : Layout :=
  ((Compiler.asked twoLists askTwoLists).answer (⟨0, 0⟩, .standard)).getD default

/-- A request for two fields, and one that is refused. -/
def twoListsAsks : List PlanAsk :=
  [.names twoListsLayout ["mark", "xs"], .field twoListsLayout default]

theorem twoLists_closed : twoLists.Closed := by decide

/-- The request for the first list is answered by the least sets, after the other requests. -/
theorem PlanAsk.answer_least_two_lists : twoLists.Closed ∧
    (Compiler.asked twoLists askTwoLists).Keeps twoListsLayout ∧
    ∃ plan b, (PlanAsk.names twoListsLayout ["xs"]).answer (planned twoListsAsks) = .ok plan b ∧
      plan.Least twoListsLayout (["xs"].filterMap twoListsLayout.field?) := by
  have hkeeps : (Compiler.asked twoLists askTwoLists).Keeps twoListsLayout := by
    show (Compiler.asked twoLists askTwoLists).answer _ = some twoListsLayout
    decide +kernel
  have hrequests : ∀ r ∈ askTwoLists, r.Declared twoLists := fun r hr => by
    rw [List.mem_singleton.mp hr]
    trivial
  have hasks : ∀ q ∈ twoListsAsks, ∀ l ∈ q.layouts,
      (Compiler.asked twoLists askTwoLists).Keeps l := fun q hq l hl => by
    have hown : l = twoListsLayout := by
      rcases List.mem_cons.mp hq with rfl | hq
      · exact List.mem_singleton.mp hl
      · rw [List.mem_singleton.mp hq] at hl
        exact List.mem_singleton.mp hl
    rwa [hown]
  have hnames : ∀ name ∈ ["xs"], (twoListsLayout.field? name).isSome = true := by decide +kernel
  exact ⟨twoLists_closed, hkeeps, PlanAsk.answer_least twoLists_closed hrequests hkeeps hasks
    (.names (List.cons_ne_nil _ _) hnames)⟩

end RecordLayout
