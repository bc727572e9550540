import Mathlib
import RecordLayout.Plan.Basic
import RecordLayout.Proofs.Reach

/-!
# What plans take

A plan takes the fields that were asked for, in canonical order, with all that its closure brings
in: for a read every field that decides the size of another one, for a write the fields that are
needed, that need, that are derived and that are moved.

Main results:

* `Layout.readClosure_eq` — the loop over the skipped places ends with what a field and all governors
  need;
* `Plan.Reads` — what is read along with the requested fields;
* `Plan.Writes` — what is written along with them;
* `Plan.Of.reads`, `Plan.Of.writes` — every plan of a layout reads and writes so much.
-/

namespace RecordLayout

/-! ## Places -/

namespace Layout

variable {l : Layout}

/-- The places of a layout are those of its fields. -/
theorem mem_allPlaces {p : Nat} : p ∈ l.allPlaces ↔ p < l.fields.length := List.mem_range

theorem at?_eq_some {p : Nat} {f : BoundField} : l.at? p = some f ↔ l.fields[p]? = some f := Iff.rfl

/-- A place with a field is within the layout. -/
theorem at?_lt {p : Nat} {f : BoundField} (h : l.at? p = some f) : p < l.fields.length :=
  (List.getElem?_eq_some_iff.mp h).1

/-- The field of a slot stands in the place of the slot. -/
theorem place?_eq_some (hslots : (l.fields.map (·.slot)).Nodup) {slot p : Nat} :
    l.place? slot = some p ↔ ∃ f, l.at? p = some f ∧ f.slot = slot := by
  rw [place?, List.findIdx?_eq_some_iff_getElem]
  constructor
  · rintro ⟨hp, hslot, -⟩
    exact ⟨_, List.getElem?_eq_getElem hp, beq_iff_eq.mp hslot⟩
  · rintro ⟨f, hf, rfl⟩
    obtain ⟨hp, rfl⟩ := List.getElem?_eq_some_iff.mp hf
    refine ⟨hp, beq_self_eq_true _, fun j hj heq => ?_⟩
    have hget {i : Nat} (hi : i < l.fields.length) : (l.fields.map (·.slot))[i]? =
        some l.fields[i].slot := by rw [List.getElem?_map, List.getElem?_eq_getElem hi]; rfl
    have hjlt : j < l.fields.length := Nat.lt_trans hj hp
    have hsame := (List.getElem?_inj (by rw [List.length_map]; exact hjlt) hslots).mp
      ((hget hjlt).trans ((congrArg some (beq_iff_eq.mp heq)).trans (hget hp).symm))
    omega

/-- The places of some slots are those where the slots are found. -/
theorem mem_places {slots : List Nat} {p : Nat} :
    p ∈ l.places slots ↔ ∃ slot ∈ slots, l.place? slot = some p := List.mem_filterMap

/-- The places of some slots are within the layout. -/
theorem lt_of_mem_places {slots : List Nat} {p : Nat} (h : p ∈ l.places slots) :
    p < l.fields.length := by
  obtain ⟨slot, -, hp⟩ := mem_places.mp h
  exact (List.findIdx?_eq_some_iff_getElem.mp hp).1

/-- The fields at all places are the fields of the layout. -/
theorem allPlaces_at? (l : Layout) : l.allPlaces.filterMap l.at? = l.fields := by
  have hgen : ∀ fields : List BoundField,
      (List.range fields.length).filterMap (fun p => fields[p]?) = fields := by
    intro fields
    refine List.ext_getElem? fun i => ?_
    induction fields generalizing i with
    | nil => rfl
    | cons f rest ih =>
      rw [List.length_cons, List.range_succ_eq_map, List.filterMap_cons, List.filterMap_map]
      cases i with
      | zero => rfl
      | succ i => exact ih i
  exact hgen l.fields

/-- Places in order have their fields in order. -/
theorem at?_sublist {places : List Nat} (h : places.Sublist l.allPlaces) :
    (places.filterMap l.at?).Sublist l.fields := by
  have hsub := h.filterMap l.at?
  rwa [allPlaces_at?] at hsub

/-- Places within the layout have a field each. -/
theorem length_at? {places : List Nat} (h : ∀ p ∈ places, p < l.fields.length) :
    (places.filterMap l.at?).length = places.length := by
  induction places with
  | nil => rfl
  | cons p rest ih =>
    have hlt : p < l.fields.length := h p List.mem_cons_self
    have hp : l.at? p = some l.fields[p] := List.getElem?_eq_getElem hlt
    rw [List.filterMap_cons_some hp, List.length_cons, List.length_cons,
      ih fun q hq => h q (List.mem_cons_of_mem _ hq)]

/-- What a place needs is within the layout. -/
theorem needed_lt {p q : Nat} (h : q ∈ l.needed p) : q < l.fields.length := by
  rw [needed] at h
  split at h
  · exact lt_of_mem_places h
  · exact absurd h List.not_mem_nil

/-- What a place is derived from is within the layout. -/
theorem sourcesOf_lt {p q : Nat} (h : q ∈ l.sourcesOf p) : q < l.fields.length := by
  rw [sourcesOf] at h
  split at h
  · exact lt_of_mem_places h
  · exact absurd h List.not_mem_nil

/-- What a write of a place touches: what it needs, what depends on it, and what moves with it. -/
theorem mem_touched {p q : Nat} : q ∈ l.touched p ↔ q ∈ l.needed p ∨ q ∈ l.dependents p ∨
    q ∈ l.derivedFrom p ∨ q ∈ l.sourcesOf p ∨ l.varies p = true ∧ q < l.fields.length ∧ p < q := by
  simp only [touched, List.mem_append, or_assoc]
  refine or_congr_right (or_congr_right (or_congr_right (or_congr_right ?_)))
  split
  · rename_i hvaries
    rw [List.mem_filter, mem_allPlaces, decide_eq_true_eq]
    exact ⟨fun h => ⟨hvaries, h⟩, fun h => h.2⟩
  · rename_i hfixed
    exact ⟨fun h => absurd h List.not_mem_nil, fun h => absurd h.1 hfixed⟩

/-- What a write touches is within the layout. -/
theorem touched_lt {p q : Nat} (h : q ∈ l.touched p) : q < l.fields.length := by
  rcases mem_touched.mp h with h | h | h | h | h
  · exact needed_lt h
  · exact mem_allPlaces.mp (List.mem_filter.mp h).1
  · exact mem_allPlaces.mp (List.mem_filter.mp h).1
  · exact sourcesOf_lt h
  · exact h.2.1

/-! ## Neighbours as fields -/

/-- A field is found by its slot, as no slot stands twice. -/
theorem place?_at? (hslots : (l.fields.map (·.slot)).Nodup) {p : Nat} {f : BoundField}
    (hf : l.at? p = some f) : l.place? f.slot = some p :=
  (place?_eq_some hslots).mpr ⟨f, hf, rfl⟩

/-- What is at the places of some slots. -/
theorem mem_places_iff (hslots : (l.fields.map (·.slot)).Nodup) {slots : List Nat} {q : Nat}
    {g : BoundField} (hg : l.at? q = some g) : q ∈ l.places slots ↔ g.slot ∈ slots := by
  rw [mem_places]
  constructor
  · rintro ⟨slot, hslot, hplace⟩
    obtain ⟨g', hg', rfl⟩ := (place?_eq_some hslots).mp hplace
    rwa [Option.some.inj (hg.symm.trans hg')]
  · exact fun hslot => ⟨g.slot, hslot, place?_at? hslots hg⟩

/-- A place is needed when its field's slot is. -/
theorem mem_needed_iff (hslots : (l.fields.map (·.slot)).Nodup) {p q : Nat} {f g : BoundField}
    (hf : l.at? p = some f) (hg : l.at? q = some g) : q ∈ l.needed p ↔ g.slot ∈ f.needs := by
  rw [needed, hf]
  exact mem_places_iff hslots hg

/-- A place is a source when its field's slot is. -/
theorem mem_sourcesOf_iff (hslots : (l.fields.map (·.slot)).Nodup) {p q : Nat} {f g : BoundField}
    (hf : l.at? p = some f) (hg : l.at? q = some g) :
    q ∈ l.sourcesOf p ↔ ∃ d, f.derivation = some d ∧ g.slot ∈ d.sources := by
  rw [sourcesOf, hf, Option.bind_some]
  cases hd : f.derivation with
  | none => simp only [List.not_mem_nil, reduceCtorEq, false_and, exists_false]
  | some d => simp only [Option.some.injEq, exists_eq_left', mem_places_iff hslots hg]

/-- A place depends on another when it needs the other's slot. -/
theorem mem_dependents_iff (hslots : (l.fields.map (·.slot)).Nodup) {p q : Nat} {f g : BoundField}
    (hf : l.at? p = some f) (hg : l.at? q = some g) : q ∈ l.dependents p ↔ f.slot ∈ g.needs := by
  rw [dependents, List.mem_filter, List.contains_eq_mem, decide_eq_true_eq,
    mem_needed_iff hslots hg hf]
  exact and_iff_right (mem_allPlaces.mpr (at?_lt hg))

/-- A place is derived from another when the other's slot is a source. -/
theorem mem_derivedFrom_iff (hslots : (l.fields.map (·.slot)).Nodup) {p q : Nat} {f g : BoundField}
    (hf : l.at? p = some f) (hg : l.at? q = some g) :
    q ∈ l.derivedFrom p ↔ ∃ d, g.derivation = some d ∧ f.slot ∈ d.sources := by
  rw [derivedFrom, List.mem_filter, List.contains_eq_mem, decide_eq_true_eq,
    mem_sourcesOf_iff hslots hg hf]
  exact and_iff_right (mem_allPlaces.mpr (at?_lt hg))

/-- A place varies when its field has no fixed size. -/
theorem varies_iff {p : Nat} {f : BoundField} (hf : l.at? p = some f) :
    l.varies p = true ↔ f.size.isFixed = false := by
  rw [varies, hf, Bool.not_eq_true']

/-! ## Closures -/

variable {next : Nat → List Nat} {starts : List Nat}

theorem closure_sublist : (l.closure next starts).Sublist l.allPlaces := List.filter_sublist

/-- A closure stays within the layout. -/
theorem closure_lt {p : Nat} (h : p ∈ l.closure next starts) : p < l.fields.length :=
  mem_allPlaces.mp (List.mem_filter.mp h).1

/-- A closure holds the places it starts from. -/
theorem mem_closure_of_start {p : Nat} (h : p ∈ starts) (hlt : p < l.fields.length) :
    p ∈ l.closure next starts := by
  refine List.mem_filter.mpr ⟨mem_allPlaces.mpr hlt, ?_⟩
  rw [List.contains_eq_mem, decide_eq_true_eq]
  exact mem_reach_of_frontier (Nat.succ_pos _) h

/-- A closure holds what its members lead to. -/
theorem closure_closed (hnext : ∀ p q, q ∈ next p → q < l.fields.length)
    (hstarts : ∀ p ∈ starts, p < l.fields.length) {p q : Nat} (hp : p ∈ l.closure next starts)
    (hq : q ∈ next p) : q ∈ l.closure next starts := by
  rw [closure, List.mem_filter, List.contains_eq_mem, decide_eq_true_eq] at hp ⊢
  refine ⟨mem_allPlaces.mpr (hnext p q hq), ?_⟩
  refine reach_closed (Finset.range l.fields.length) (fun a _ b hb => Finset.mem_range.mpr (hnext a b hb))
    (fun a ha => Finset.mem_range.mpr (hstarts a ha)) (fun a ha => absurd ha List.not_mem_nil) ?_
    hp.2 hq
  rw [List.toFinset_nil, Finset.sdiff_empty, Finset.card_range]
  exact Nat.lt_succ_self _

/-! ## The places that are read -/

/-- The places of the fields that decide the size of another. -/
def governors (l : Layout) : List Nat :=
  l.places (l.fields.filterMap BoundField.governor?)

/-- Every field needs the one that decides its size. -/
def NeedsGovernors (l : Layout) : Prop :=
  ∀ f ∈ l.fields, ∀ slot, f.governor? = some slot → slot ∈ f.needs

/-- The governor of a place stands at the place of the slot that governs its field. -/
theorem governorOf_eq_some {p q : Nat} : l.governorOf p = some q ↔
    ∃ f slot, l.at? p = some f ∧ f.governor? = some slot ∧ l.place? slot = some q := by
  simp only [governorOf, Option.bind_eq_some_iff, exists_and_left]
  constructor
  · rintro ⟨slot, ⟨f, hf, hslot⟩, hq⟩
    exact ⟨f, hf, slot, hslot, hq⟩
  · rintro ⟨f, hf, slot, hslot, hq⟩
    exact ⟨slot, ⟨f, hf, hslot⟩, hq⟩

/-- The governors are those of the single places. -/
theorem mem_governors {q : Nat} : q ∈ l.governors ↔ ∃ p, l.governorOf p = some q := by
  simp only [governors, mem_places, List.mem_filterMap, governorOf_eq_some]
  constructor
  · rintro ⟨slot, ⟨f, hf, hslot⟩, hq⟩
    obtain ⟨p, hp⟩ := List.getElem?_of_mem hf
    exact ⟨p, f, slot, hp, hslot, hq⟩
  · rintro ⟨p, f, slot, hp, hslot, hq⟩
    exact ⟨slot, ⟨f, List.mem_of_getElem? hp, hslot⟩, hq⟩

/-- A governor stands within the layout. -/
theorem governorOf_lt {p q : Nat} (h : l.governorOf p = some q) :
    p < l.fields.length ∧ q < l.fields.length := by
  obtain ⟨f, slot, hf, -, hq⟩ := governorOf_eq_some.mp h
  exact ⟨at?_lt hf, (List.findIdx?_eq_some_iff_getElem.mp hq).1⟩

/-- What a field needs includes its governor. -/
theorem governorOf_needed (hneeds : l.NeedsGovernors) {p q : Nat} (h : l.governorOf p = some q) :
    q ∈ l.needed p := by
  obtain ⟨f, slot, hf, hslot, hq⟩ := governorOf_eq_some.mp h
  rw [needed, hf]
  exact mem_places.mpr ⟨slot, hneeds f (List.mem_of_getElem? hf) slot hslot, hq⟩

section

variable {seen fresh places : List Nat}

/-- A turn promotes at least what was fresh. -/
theorem promote_subset : fresh ⊆ l.promote seen fresh places := by
  induction places generalizing fresh with
  | nil => exact List.Subset.refl _
  | cons p rest ih =>
    rw [promote]
    repeat' split
    · exact ih
    · exact ih
    · exact List.Subset.trans (List.subset_append_left _ _) ih
    · exact ih

/-- Only governors are promoted, and only such as have not been reached. -/
theorem mem_promote {q : Nat} (h : q ∈ l.promote seen fresh places) :
    q ∈ fresh ∨ (∃ p, l.governorOf p = some q) ∧ q ∉ seen := by
  induction places generalizing fresh with
  | nil => exact Or.inl h
  | cons p rest ih =>
    rw [promote] at h
    split at h
    · exact ih h
    · split at h
      · rename_i governor hgovernor
        split at h
        · exact ih h
        · rename_i hnew
          rw [List.contains_eq_mem, decide_eq_true_eq, List.mem_append, not_or] at hnew
          rcases ih h with hold | hlater
          · rcases List.mem_append.mp hold with hold | hown
            · exact Or.inl hold
            · rw [List.mem_singleton.mp hown]
              exact Or.inr ⟨⟨p, hgovernor⟩, hnew.1⟩
          · exact Or.inr hlater
      · exact ih h

/-- The governor of every place that is skipped has been reached or is promoted. A place that is
promoted itself is not skipped any more. -/
theorem promote_complete {p q : Nat} (hp : p ∈ places) (hq : l.governorOf p = some q) :
    p ∈ seen ∨ p ∈ l.promote seen fresh places ∨ q ∈ seen ∨ q ∈ l.promote seen fresh places := by
  induction places generalizing fresh with
  | nil => exact absurd hp List.not_mem_nil
  | cons first rest ih =>
    have hmem {a : Nat} : (seen ++ fresh).contains a = true ↔ a ∈ seen ∨ a ∈ fresh := by
      rw [List.contains_eq_mem, decide_eq_true_eq, List.mem_append]
    rw [promote]
    rcases List.mem_cons.mp hp with rfl | hlater
    · rw [hq]
      split
      · rename_i hskip
        exact (hmem.mp hskip).imp_right fun h => Or.inl (promote_subset h)
      · simp only
        split
        · rename_i hknown
          exact Or.inr (Or.inr ((hmem.mp hknown).imp_right fun h => promote_subset h))
        · exact Or.inr (Or.inr (Or.inr (promote_subset
            (List.mem_append_right _ (List.mem_singleton_self q)))))
    · repeat' split
      all_goals exact ih hlater

end

section

variable {seen queue : List Nat}

/-- What a turn has seen stays read. -/
theorem mem_readTurns_of_seen {turns p : Nat} (h : p ∈ seen) : p ∈ l.readTurns turns seen queue := by
  induction turns generalizing seen queue with
  | zero => exact h
  | succ turns ih =>
    rw [readTurns]
    split
    · exact mem_reach_of_seen h
    · exact ih (mem_reach_of_seen h)

/-- What is queued is read in the next turn. -/
theorem mem_readTurns_of_queue {turns p : Nat} (hturns : 0 < turns) (h : p ∈ queue) :
    p ∈ l.readTurns turns seen queue := by
  obtain ⟨turns, rfl⟩ : ∃ n, turns = n + 1 := ⟨turns - 1, by omega⟩
  have hreached : p ∈ reach l.needed (l.fields.length + 1) seen queue :=
    mem_reach_of_frontier (Nat.succ_pos l.fields.length) h
  rw [readTurns]
  split
  · exact hreached
  · exact mem_readTurns_of_seen hreached

/-- What is true of what is read at first and of all governors and is handed on to what is needed is
true of all that is read. -/
theorem readTurns_induction {P : Nat → Prop} (hneeded : ∀ p q, P p → q ∈ l.needed p → P q)
    (hgovernors : ∀ q ∈ l.governors, P q) {turns : Nat} (hseen : ∀ p ∈ seen, P p)
    (hqueue : ∀ p ∈ queue, P p) : ∀ p ∈ l.readTurns turns seen queue, P p := by
  induction turns generalizing seen queue with
  | zero => exact hseen
  | succ turns ih =>
    have hreached : ∀ p ∈ reach l.needed (l.fields.length + 1) seen queue, P p := by
      intro p hp
      rcases reach_sound hp with hold | ⟨start, hstart, hpath⟩
      · exact hseen p hold
      · clear hp
        induction hpath with
        | refl => exact hqueue start hstart
        | tail _ hstep ih => exact hneeded _ _ ih hstep
    rw [readTurns]
    split
    · exact hreached
    · refine ih hreached fun q hq => ?_
      obtain ⟨hgovernor, -⟩ := (mem_promote hq).resolve_left List.not_mem_nil
      exact hgovernors q (mem_governors.mpr hgovernor)

/-- Draining the queue leaves nothing out that is needed. -/
theorem drained_closed (hseen : ∀ p ∈ seen, ∀ q ∈ l.needed p, q ∈ seen ∨ q ∈ queue)
    (hqueue : ∀ p ∈ queue, p < l.fields.length) {p q : Nat}
    (hp : p ∈ reach l.needed (l.fields.length + 1) seen queue) (hq : q ∈ l.needed p) :
    q ∈ reach l.needed (l.fields.length + 1) seen queue := by
  refine reach_closed (Finset.range l.fields.length) (fun a _ b hb => Finset.mem_range.mpr (needed_lt hb))
    (fun a ha => Finset.mem_range.mpr (hqueue a ha)) hseen ?_ hp hq
  refine Nat.lt_succ_of_le ((Finset.card_le_card Finset.sdiff_subset).trans ?_)
  rw [Finset.card_range]

/-- With as many turns as places are left, the loop stops because nothing changes any more: what is
needed is read, and so is the governor of every place that is skipped. -/
theorem readTurns_stable {turns : Nat}
    (hseen : ∀ p ∈ seen, ∀ q ∈ l.needed p, q ∈ seen ∨ q ∈ queue)
    (hqueue : ∀ p ∈ queue, p < l.fields.length)
    (hturns : (Finset.range l.fields.length \ (seen ++ queue).toFinset).card < turns) :
    (∀ p ∈ l.readTurns turns seen queue, ∀ q ∈ l.needed p, q ∈ l.readTurns turns seen queue) ∧
      ∀ p q, l.governorOf p = some q →
        p ∈ l.readTurns turns seen queue ∨ q ∈ l.readTurns turns seen queue := by
  induction turns generalizing seen queue with
  | zero => exact absurd hturns (Nat.not_lt_zero _)
  | succ turns ih =>
    have hclosed {p q : Nat} := drained_closed (p := p) (q := q) hseen hqueue
    have hcomplete {p q : Nat} (hq : l.governorOf p = some q) :=
      @promote_complete l (reach l.needed (l.fields.length + 1) seen queue) [] l.allPlaces p q
        (mem_allPlaces.mpr (governorOf_lt hq).1) hq
    rw [readTurns]
    split
    · -- nothing was promoted
      rename_i hnone
      rw [List.isEmpty_iff.mp hnone] at hcomplete
      simp only [List.not_mem_nil, false_or, or_false] at hcomplete
      exact ⟨fun p hp q hq => hclosed hp hq, fun p q hq => hcomplete hq⟩
    · rename_i hsome
      obtain ⟨first, hfirst⟩ := List.exists_mem_of_ne_nil _ (mt List.isEmpty_iff.mpr hsome)
      obtain ⟨⟨place, hplace⟩, hnew⟩ := (mem_promote hfirst).resolve_left List.not_mem_nil
      refine ih (fun p hp q hq => Or.inl (hclosed hp hq)) (fun q hq => ?_) ?_
      · obtain ⟨⟨p, hp⟩, -⟩ := (mem_promote hq).resolve_left List.not_mem_nil
        exact (governorOf_lt hp).2
      · -- the first promoted place is no longer left
        refine Nat.lt_of_lt_of_le (Finset.card_lt_card ?_) (Nat.le_of_lt_succ hturns)
        refine Finset.ssubset_iff_subset_ne.mpr ⟨fun c hc => ?_, fun heq => ?_⟩
        · rw [Finset.mem_sdiff, List.mem_toFinset, List.mem_append] at hc ⊢
          refine ⟨hc.1, fun hold => hc.2 (Or.inl ?_)⟩
          exact hold.elim mem_reach_of_seen (mem_reach_of_frontier (Nat.succ_pos _))
        · have hleft : first ∈ Finset.range l.fields.length \ (seen ++ queue).toFinset := by
            rw [Finset.mem_sdiff, Finset.mem_range, List.mem_toFinset, List.mem_append]
            exact ⟨(governorOf_lt hplace).2, fun hold => hnew
              (hold.elim mem_reach_of_seen (mem_reach_of_frontier (Nat.succ_pos _)))⟩
          rw [← heq, Finset.mem_sdiff, List.mem_toFinset] at hleft
          exact hleft.2 (List.mem_append_right _ hfirst)

end

theorem readClosure_sublist {p : Nat} : (l.readClosure p).Sublist l.allPlaces := List.filter_sublist

/-- A field's read closure holds the field. -/
theorem mem_readClosure_self {p : Nat} (h : p < l.fields.length) : p ∈ l.readClosure p := by
  refine List.mem_filter.mpr ⟨mem_allPlaces.mpr h, ?_⟩
  rw [List.contains_eq_mem, decide_eq_true_eq]
  exact mem_readTurns_of_queue (Nat.succ_pos _) (List.mem_singleton_self p)

/-- The loop reaches what a place and all governors need, and nothing else. The governor of a field
that is read is reached because the field needs it, the governor of any other because the field is
skipped. -/
theorem readClosure_eq (hneeds : l.NeedsGovernors) {a : Nat} (ha : a < l.fields.length) :
    l.readClosure a = l.closure l.needed (a :: l.governors) := by
  have hlt {p : Nat} (hp : p ∈ a :: l.governors) : p < l.fields.length := by
    rcases List.mem_cons.mp hp with rfl | hgovernor
    · exact ha
    · exact lt_of_mem_places hgovernor
  have hin {p : Nat} (h : p ∈ l.closure l.needed (a :: l.governors)) :
      p ∈ reach l.needed (l.fields.length + 1) [] (a :: l.governors) := by
    rw [closure, List.mem_filter, List.contains_eq_mem, decide_eq_true_eq] at h
    exact h.2
  -- after one turn more than there are places, the loop has come to rest
  obtain ⟨hclosed, hskipped⟩ := @readTurns_stable l [] [a] (l.fields.length + 1)
    (fun p hp => absurd hp List.not_mem_nil)
    (fun p hp => by rwa [List.mem_singleton.mp hp]) (Nat.lt_succ_of_le
      ((Finset.card_le_card Finset.sdiff_subset).trans_eq (Finset.card_range _)))
  refine List.filter_congr fun p hp => Bool.eq_iff_iff.mpr ?_
  rw [List.contains_eq_mem, List.contains_eq_mem, decide_eq_true_eq, decide_eq_true_eq]
  constructor
  -- what the loop reads is in the closure: it only adds what a read place needs, and governors
  · intro h
    refine hin (readTurns_induction (P := (· ∈ l.closure l.needed (a :: l.governors)))
      (fun p q hp hq => closure_closed (fun _ _ => needed_lt) (fun _ => hlt) hp hq) (fun q hq => ?_)
      (fun p hp => absurd hp List.not_mem_nil) (fun p hp => ?_) p h)
    · exact mem_closure_of_start (List.mem_cons_of_mem _ hq) (lt_of_mem_places hq)
    · rw [List.mem_singleton.mp hp]
      exact mem_closure_of_start List.mem_cons_self ha
  · intro h
    obtain ⟨start, hstart, hpath⟩ := (reach_sound h).resolve_left List.not_mem_nil
    clear h hp
    -- what the closure holds is read, by induction on the path that leads there
    induction hpath with
    | refl =>
      rcases List.mem_cons.mp hstart with rfl | hgovernor
      · exact mem_readTurns_of_queue (Nat.succ_pos _) (List.mem_singleton_self _)
      · obtain ⟨q, hq⟩ := mem_governors.mp hgovernor
        exact (hskipped q start hq).elim (fun hread => hclosed q hread _ (governorOf_needed hneeds hq)) id
    | tail _ hstep ih => exact hclosed _ ih _ hstep

end Layout

/-! ## Plans of a layout -/

/-- The plans that answer the requests on a layout. -/
inductive Plan.Of (l : Layout) : Plan → Prop
  | full : Of l (.full l)
  | one {place : Nat} (h : place < l.fields.length) : Of l (.one l place)
  | several {places : List Nat} (h : ∀ p ∈ places, p < l.fields.length) (hne : places ≠ []) :
    Of l (.several l places (places.map (.one l)))

/-- What a plan reads: the requested fields and all that decide sizes, in canonical order. -/
structure Plan.Reads (l : Layout) (plan : Plan) : Prop where
  sublist : plan.read.Sublist l.fields
  governors : ∀ f ∈ l.fields, f.governs = true → f ∈ plan.read
  requested : plan.requested ⊆ plan.read
  full : plan.fullRead = true → plan.read = l.fields

/-- What a plan writes: the requested fields, in canonical order, with all that must be written
together with one of its fields. -/
structure Plan.Writes (l : Layout) (plan : Plan) : Prop where
  sublist : plan.write.Sublist l.fields
  requested : plan.requested ⊆ plan.write
  needs : ∀ f ∈ plan.write, ∀ g ∈ l.fields, g.slot ∈ f.needs → g ∈ plan.write
  dependents : ∀ f ∈ plan.write, ∀ g ∈ l.fields, f.slot ∈ g.needs → g ∈ plan.write
  derived : ∀ f ∈ plan.write, ∀ g ∈ l.fields, ∀ d, g.derivation = some d → f.slot ∈ d.sources →
    g ∈ plan.write
  sources : ∀ f ∈ plan.write, ∀ g ∈ l.fields, ∀ d, f.derivation = some d → g.slot ∈ d.sources →
    g ∈ plan.write
  moved : ∀ before f after, l.fields = before ++ f :: after → f ∈ plan.write →
    f.size.isFixed = false → after ⊆ plan.write

namespace Plan

variable {l : Layout}

/-- The fields at places that are closed under what writing touches are written together. -/
theorem writes_of_closed (hslots : (l.fields.map (·.slot)).Nodup) {plan : Plan} {places : List Nat}
    (hwrite : plan.write = places.filterMap l.at?) (hsub : places.Sublist l.allPlaces)
    (hclosed : ∀ p ∈ places, ∀ q ∈ l.touched p, q ∈ places)
    (hrequested : plan.requested ⊆ plan.write) : Writes l plan := by
  -- a field is taken if its place is touched from the place of a field that is taken
  have htake {f g : BoundField} (hf : f ∈ plan.write) (hg : g ∈ l.fields)
      (htouched : ∀ p q, l.at? p = some f → l.at? q = some g → q ∈ l.touched p) :
      g ∈ plan.write := by
    rw [hwrite] at hf ⊢
    obtain ⟨p, hp, hpf⟩ := List.mem_filterMap.mp hf
    obtain ⟨q, hq⟩ := List.getElem?_of_mem hg
    exact List.mem_filterMap.mpr ⟨q, hclosed p hp q (htouched p q hpf hq), hq⟩
  refine ⟨hwrite ▸ Layout.at?_sublist hsub, hrequested, ?_, ?_, ?_, ?_, ?_⟩
  · intro f hf g hg hneeds
    exact htake hf hg fun p q hp hq =>
      Layout.mem_touched.mpr (Or.inl ((Layout.mem_needed_iff hslots hp hq).mpr hneeds))
  · intro f hf g hg hneeds
    exact htake hf hg fun p q hp hq => Layout.mem_touched.mpr
      (Or.inr (Or.inl ((Layout.mem_dependents_iff hslots hp hq).mpr hneeds)))
  · intro f hf g hg d hd hmem
    exact htake hf hg fun p q hp hq => Layout.mem_touched.mpr
      (Or.inr (Or.inr (Or.inl ((Layout.mem_derivedFrom_iff hslots hp hq).mpr ⟨d, hd, hmem⟩))))
  · intro f hf g hg d hd hmem
    exact htake hf hg fun p q hp hq => Layout.mem_touched.mpr
      (Or.inr (Or.inr (Or.inr (Or.inl ((Layout.mem_sourcesOf_iff hslots hp hq).mpr ⟨d, hd, hmem⟩)))))
  · intro before f after hsplit hf hvaries g hg
    obtain ⟨k, hk⟩ := List.getElem?_of_mem hg
    have hown : l.at? before.length = some f := by
      rw [Layout.at?_eq_some, hsplit, List.getElem?_append_right (Nat.le_refl _), Nat.sub_self]
      rfl
    have hlater : l.at? (before.length + 1 + k) = some g := by
      rw [Layout.at?_eq_some, hsplit, List.getElem?_append_right (by omega),
        show before.length + 1 + k - before.length = k + 1 by omega]
      exact hk
    have hmem : g ∈ l.fields := List.mem_of_getElem? hlater
    have hsame {h : BoundField} {p q : Nat} (hp : l.at? p = some h) (hq : l.at? q = some h) : p = q :=
      Option.some.inj ((Layout.place?_at? hslots hp).symm.trans (Layout.place?_at? hslots hq))
    refine htake hf hmem fun p q hp hq => Layout.mem_touched.mpr
      (Or.inr (Or.inr (Or.inr (Or.inr ⟨(Layout.varies_iff hp).mpr hvaries, Layout.at?_lt hq, ?_⟩))))
    rw [hsame hp hown, hsame hq hlater]
    omega

/-- The places that the plans of some places take together. -/
theorem mem_union (fields : Plan → List BoundField) (closure : Nat → List Nat)
    (hslots : (l.fields.map (·.slot)).Nodup)
    (hfields : ∀ a, fields (.one l a) = (closure a).filterMap l.at?) (places : List Nat) {p : Nat} :
    (p ∈ l.allPlaces.filter fun place => match l.at? place with
      | some f => ((places.map (Plan.one l)).flatMap fun plan => (fields plan).map (·.slot)).contains
          f.slot
      | none => false) ↔
      p < l.fields.length ∧ ∃ a ∈ places, p ∈ closure a := by
  rw [List.mem_filter, Layout.mem_allPlaces]
  refine and_congr_right fun hlt => ?_
  have hp : l.at? p = some l.fields[p] := List.getElem?_eq_getElem hlt
  rw [hp]
  simp only [List.contains_eq_mem, decide_eq_true_eq, List.mem_flatMap, List.mem_map,
    exists_exists_and_eq_and, hfields, List.mem_filterMap]
  refine exists_congr fun a => and_congr_right fun _ => ⟨?_, fun hmem => ⟨_, ⟨p, hmem, hp⟩, rfl⟩⟩
  rintro ⟨f, ⟨q, hq, hqf⟩, hslot⟩
  have hboth := (Layout.place?_eq_some hslots).mpr ⟨f, hqf, hslot⟩
  rwa [← Option.some.inj (hboth.symm.trans ((Layout.place?_eq_some hslots).mpr ⟨_, hp, rfl⟩))]

/-- The fields at more places. -/
theorem pick_subset {places chosen : List Nat} (h : chosen ⊆ places) :
    chosen.filterMap l.at? ⊆ places.filterMap l.at? := by
  intro f hf
  obtain ⟨p, hp, hpf⟩ := List.mem_filterMap.mp hf
  exact List.mem_filterMap.mpr ⟨p, h hp, hpf⟩

/-- Every plan writes all that must be written together. -/
theorem Of.writes (hslots : (l.fields.map (·.slot)).Nodup) {plan : Plan} (h : Of l plan) :
    Writes l plan := by
  -- a closure of one place is closed under touching, and so is a union of such closures
  have hclosed {a p q : Nat} (ha : a < l.fields.length) (hp : p ∈ l.writeClosure a)
      (hq : q ∈ l.touched p) : q ∈ l.writeClosure a :=
    Layout.closure_closed (fun _ _ => Layout.touched_lt)
      (fun b hb => by rwa [List.mem_singleton.mp hb]) hp hq
  have hown {a : Nat} (ha : a < l.fields.length) : a ∈ l.writeClosure a :=
    Layout.mem_closure_of_start (List.mem_singleton_self a) ha
  cases h with
  | full =>
    exact writes_of_closed hslots rfl (.refl _)
      (fun p _ q hq => Layout.mem_allPlaces.mpr (Layout.touched_lt hq)) (List.Subset.refl _)
  | one ha =>
    exact writes_of_closed hslots rfl Layout.closure_sublist (fun p hp q hq => hclosed ha hp hq)
      (pick_subset fun b hb => by rw [List.mem_singleton.mp hb]; exact hown ha)
  | several hall _ =>
    refine writes_of_closed hslots rfl List.filter_sublist (fun p hp q hq => ?_)
      (pick_subset fun a ha => ?_)
    · obtain ⟨-, a, ha, hmem⟩ := (mem_union _ _ hslots (fun _ => rfl) _).mp hp
      exact (mem_union _ _ hslots (fun _ => rfl) _).mpr
        ⟨Layout.touched_lt hq, a, ha, hclosed (hall a ha) hmem hq⟩
    · exact (mem_union _ _ hslots (fun _ => rfl) _).mpr ⟨hall a ha, a, ha, hown (hall a ha)⟩

/-- The fields at places that include those of all governors can be read past the others. -/
theorem reads_of_places (hslots : (l.fields.map (·.slot)).Nodup)
    (hgoverns : ∀ f ∈ l.fields, f.governs = true → ∃ g ∈ l.fields, g.governor? = some f.slot)
    {plan : Plan} {places : List Nat} (hread : plan.read = places.filterMap l.at?)
    (hsub : places.Sublist l.allPlaces)
    (hgovernors : ∀ p ∈ l.governors, p ∈ places) (hrequested : plan.requested ⊆ plan.read)
    (hfull : plan.fullRead = (places.length == l.fields.length)) : Reads l plan := by
  have hfields : plan.read.Sublist l.fields := hread ▸ Layout.at?_sublist hsub
  refine ⟨hfields, fun f hf hown => ?_, hrequested, fun h => ?_⟩
  · obtain ⟨g, hg, hslot⟩ := hgoverns f hf hown
    obtain ⟨p, hp⟩ := List.getElem?_of_mem hf
    rw [hread]
    refine List.mem_filterMap.mpr ⟨p, hgovernors p (Layout.mem_places.mpr ?_), hp⟩
    exact ⟨f.slot, List.mem_filterMap.mpr ⟨g, hg, hslot⟩,
      (Layout.place?_eq_some hslots).mpr ⟨f, hp, rfl⟩⟩
  · refine hfields.eq_of_length ?_
    rw [hread, Layout.length_at? fun p hp => Layout.mem_allPlaces.mp (hsub.subset hp)]
    rwa [hfull, beq_iff_eq] at h

/-- Every plan reads all that decides sizes. -/
theorem Of.reads (hslots : (l.fields.map (·.slot)).Nodup) (hneeds : l.NeedsGovernors)
    (hgoverns : ∀ f ∈ l.fields, f.governs = true → ∃ g ∈ l.fields, g.governor? = some f.slot)
    {plan : Plan} (h : Of l plan) : Reads l plan := by
  -- every governor is read with every field, whichever is asked for
  have hgovernor {a p : Nat} (ha : a < l.fields.length) (hp : p ∈ l.governors) :
      p ∈ l.readClosure a := by
    rw [Layout.readClosure_eq hneeds ha]
    exact Layout.mem_closure_of_start (List.mem_cons_of_mem _ hp) (Layout.lt_of_mem_places hp)
  cases h with
  | full =>
    exact reads_of_places hslots hgoverns rfl (.refl _)
      (fun p hp => Layout.mem_allPlaces.mpr (Layout.lt_of_mem_places hp)) (List.Subset.refl _) rfl
  | one ha =>
    exact reads_of_places hslots hgoverns rfl Layout.readClosure_sublist
      (fun p hp => hgovernor ha hp) (pick_subset fun b hb => by
        rw [List.mem_singleton.mp hb]
        exact Layout.mem_readClosure_self ha) rfl
  | @several places hall hne =>
    refine reads_of_places hslots hgoverns rfl List.filter_sublist (fun p hp => ?_)
      (pick_subset fun a ha => ?_) rfl
    · obtain ⟨a, ha⟩ := List.exists_mem_of_ne_nil _ hne
      exact (mem_union _ _ hslots (fun _ => rfl) _).mpr
        ⟨Layout.lt_of_mem_places hp, a, ha, hgovernor (hall a ha) hp⟩
    · exact (mem_union _ _ hslots (fun _ => rfl) _).mpr
        ⟨hall a ha, a, ha, Layout.mem_readClosure_self (hall a ha)⟩

end Plan

end RecordLayout
