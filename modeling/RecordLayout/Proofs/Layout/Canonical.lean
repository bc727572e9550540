import Mathlib
import RecordLayout.Proofs.Layout.Order

/-!
# One canonical order

The canonical order takes at each step the first of the fields that are ready, and the ranks of two
fields of different names differ. So it is the only order of its kind, and it is a matter of the
declarations themselves, not of the slots that they happen to have.

Main results:

* `orderWith_first` — no ready field goes before the one that is taken;
* `CanonicalOrder.unique` — there is one canonical order of some declarations.
-/

namespace RecordLayout

/-! ## Ready fields in order -/

namespace Rank

variable {a b c : Rank}

theorem before_iff : a.before b = true ↔
    (a.varies = false ∧ b.varies = true) ∨ (a.varies = b.varies ∧ a.name < b.name) ∨
      (a.varies = b.varies ∧ a.name = b.name ∧ a.slot < b.slot) := by
  unfold before
  by_cases hv : a.varies = b.varies
  · by_cases hn : a.name = b.name
    · simp [hv, hn]
    · simp [hv, hn]
  · rw [if_pos (by simpa using hv)]
    cases ha : a.varies <;> cases hb : b.varies <;> simp_all

theorem before_asymm (h : a.before b = true) : b.before a = false := by
  rw [Bool.eq_false_iff, ne_eq, before_iff]
  rw [before_iff] at h
  -- the three ways are: the other one varies, the names differ, or the slots do
  rintro (⟨hb, ha⟩ | ⟨hv, hn⟩ | ⟨hv, hn, hs⟩)
  · rcases h with ⟨ha', -⟩ | ⟨hv, -⟩ | ⟨hv, -⟩
    · exact Bool.false_ne_true (ha'.symm.trans ha)
    · exact Bool.false_ne_true (hb.symm.trans (hv.symm.trans ha))
    · exact Bool.false_ne_true (hb.symm.trans (hv.symm.trans ha))
  · rcases h with ⟨ha, hb⟩ | ⟨-, hn'⟩ | ⟨-, hn', -⟩
    · exact Bool.false_ne_true (ha.symm.trans (hv.symm.trans hb))
    · exact lt_asymm hn hn'
    · exact lt_irrefl _ (hn' ▸ hn)
  · rcases h with ⟨ha, hb⟩ | ⟨-, hn'⟩ | ⟨-, -, hs'⟩
    · exact Bool.false_ne_true (ha.symm.trans (hv.symm.trans hb))
    · exact lt_irrefl _ (hn ▸ hn')
    · omega

theorem before_trans (hab : a.before b = true) (hbc : b.before c = true) :
    a.before c = true := by
  rw [before_iff] at *
  -- the three ways to come before are combined with each other
  rcases hab with ⟨ha, hb⟩ | ⟨hv, hn⟩ | ⟨hv, hn, hs⟩
  · rcases hbc with ⟨hb', -⟩ | ⟨hv', -⟩ | ⟨hv', -⟩
    · exact (Bool.false_ne_true (hb'.symm.trans hb)).elim
    · exact Or.inl ⟨ha, hv' ▸ hb⟩
    · exact Or.inl ⟨ha, hv' ▸ hb⟩
  · rcases hbc with ⟨hb', hc⟩ | ⟨hv', hn'⟩ | ⟨hv', hn', -⟩
    · exact Or.inl ⟨hv.trans hb', hc⟩
    · exact Or.inr (Or.inl ⟨hv.trans hv', hn.trans hn'⟩)
    · exact Or.inr (Or.inl ⟨hv.trans hv', hn' ▸ hn⟩)
  · rcases hbc with ⟨hb', hc⟩ | ⟨hv', hn'⟩ | ⟨hv', hn', hs'⟩
    · exact Or.inl ⟨hv.trans hb', hc⟩
    · exact Or.inr (Or.inl ⟨hv.trans hv', hn ▸ hn'⟩)
    · exact Or.inr (Or.inr ⟨hv.trans hv', hn.trans hn', by omega⟩)

/-- No rank comes after a later one. -/
def Sorted (ranks : List Rank) : Prop := ranks.Pairwise fun a b => b.before a = false

theorem Sorted.insert {ranks : List Rank} (h : Sorted ranks) (r : Rank) : Sorted (r.insert ranks) := by
  induction ranks with
  | nil => exact List.pairwise_singleton _ _
  | cons head rest ih =>
    obtain ⟨hhead, hrest⟩ := List.pairwise_cons.mp h
    unfold Rank.insert
    split
    · rename_i hr
      refine List.pairwise_cons.mpr ⟨fun x hx => ?_, h⟩
      rcases List.mem_cons.mp hx with rfl | hmem
      · exact before_asymm hr
      · -- what goes before the new rank would go before the head
        rw [Bool.eq_false_iff]
        intro hx
        exact Bool.false_ne_true ((hhead x hmem).symm.trans (before_trans hx hr))
    · rename_i hr
      refine List.pairwise_cons.mpr ⟨fun x hx => ?_, ih hrest⟩
      rcases List.mem_cons.mp ((insert_perm r rest).mem_iff.mp hx) with rfl | hmem
      · exact Bool.eq_false_iff.mpr hr
      · exact hhead x hmem

end Rank

/-- Ready fields, each with its rank, in order. -/
structure ReadyInOrder (rank : Nat → Rank) (ready : List Rank) : Prop where
  ranks : ∀ r ∈ ready, r = rank r.slot
  sorted : Rank.Sorted ready

section

variable {rank : Nat → Rank} (hrank : ∀ i, (rank i).slot = i)

include hrank

theorem ReadyInOrder.insert {ready : List Rank} (h : ReadyInOrder rank ready) (slot : Nat) :
    ReadyInOrder rank ((rank slot).insert ready) := by
  refine ⟨fun r hr => ?_, h.sorted.insert _⟩
  rcases List.mem_cons.mp ((insert_perm (rank slot) ready).mem_iff.mp hr) with rfl | hmem
  · rw [hrank]
  · exact h.ranks r hmem

theorem countOffWith_inOrder (pending : List Nat) {ready : List Rank} (mentions : List Nat)
    (h : ReadyInOrder rank ready) :
    ReadyInOrder rank (countOffWith rank pending ready mentions).2 := by
  induction mentions generalizing pending ready with
  | nil => exact h
  | cons slot rest ih =>
    unfold countOffWith
    dsimp only
    split
    · exact ih _ (h.insert hrank slot)
    · exact ih _ h

theorem initiallyReadyWith_inOrder {ready : List Rank} (bindings : List Binding)
    (h : ReadyInOrder rank ready) :
    ReadyInOrder rank (initiallyReadyWith rank ready bindings) := by
  induction bindings generalizing ready with
  | nil => exact h
  | cons b rest ih =>
    unfold initiallyReadyWith
    split
    · exact ih (h.insert hrank b.slot)
    · exact ih h

/-- Of the slots that wait for nothing when a slot is taken, none goes before it. -/
theorem takeReadyWith_first {bindings : List Binding} (hnum : Numbered bindings) (steps : Nat)
    {taken pending : List Nat} {ready : List Rank} (h : OrderState bindings taken pending ready)
    (hready : ReadyInOrder rank ready) {before after : List Nat} {slot : Nat}
    (heq : takeReadyWith rank bindings steps pending ready = before ++ slot :: after) {i : Nat}
    (hi : i < bindings.length) (hnew : i ∉ taken ++ before)
    (hneeds : ∀ n ∈ needsOf bindings i, n ∈ taken ++ before) :
    (rank i).before (rank slot) = false := by
  induction steps generalizing taken pending ready before with
  | zero => cases before <;> cases heq
  | succ steps ih =>
    cases ready with
    | nil => cases before <;> cases heq
    | cons first ready =>
      rw [takeReadyWith] at heq
      cases before with
      | nil =>
        obtain ⟨hslot, -⟩ := List.cons.inj heq
        rw [List.append_nil] at hnew hneeds
        -- the slot waits for nothing, so it is among the ready ones, which are in order
        have hzero : pending.getD i 0 = 0 := by
          rw [h.waits, List.countP_eq_zero]
          intro n hn hout
          exact of_decide_eq_true hout (hneeds n hn)
        have hmem := (h.mem_iff i).mpr ⟨hi, hzero⟩
        obtain ⟨r, hr, hri⟩ := List.mem_map.mp ((List.mem_append.mp hmem).resolve_left hnew)
        have hfirst := hready.ranks first List.mem_cons_self
        have hrank_r := hready.ranks r hr
        rw [hri] at hrank_r
        rw [← hslot, ← hfirst, ← hrank_r]
        rcases List.mem_cons.mp hr with rfl | hrest
        · rw [Bool.eq_false_iff]
          intro hself
          exact Bool.false_ne_true ((Rank.before_asymm hself).symm.trans hself)
        · exact (List.pairwise_cons.mp hready.sorted).1 r hrest
      | cons head before =>
        obtain ⟨hhead, htail⟩ := List.cons.inj heq
        have hmore : taken ++ [first.slot] ++ before = taken ++ head :: before := by
          rw [hhead, List.append_assoc, List.singleton_append]
        have hready' : ReadyInOrder rank
            (countOffWith rank pending ready (waitingFor bindings first.slot)).2 :=
          countOffWith_inOrder hrank pending _ ⟨fun r hr => hready.ranks r (List.mem_cons_of_mem _ hr),
            (List.pairwise_cons.mp hready.sorted).2⟩
        rw [← hmore] at hnew hneeds
        exact ih (h.step rank hrank hnum) hready' htail hnew hneeds

/-- Of the slots that wait for nothing when a slot is taken, none goes before it. -/
theorem orderWith_first {bindings : List Binding} (hnum : Numbered bindings)
    {before after : List Nat} {slot : Nat} (heq : orderWith rank bindings = before ++ slot :: after)
    {i : Nat} (hi : i < bindings.length) (hnew : i ∉ before)
    (hneeds : ∀ n ∈ needsOf bindings i, n ∈ before) : (rank i).before (rank slot) = false :=
  takeReadyWith_first hrank hnum bindings.length (orderState_start rank hrank hnum)
    (initiallyReadyWith_inOrder hrank bindings ⟨fun _ hr => absurd hr List.not_mem_nil, .nil⟩) heq hi
    hnew hneeds

end

/-! ## The canonical order of declarations -/

/-- One field goes before another one that is ready too: fixed size before variable size, then the
name. -/
def GoesBefore (varies : FieldDecl → Prop) (f g : FieldDecl) : Prop :=
  (¬varies f ∧ varies g) ∨ ((varies f ↔ varies g) ∧ f.name < g.name)

theorem GoesBefore.asymm {varies : FieldDecl → Prop} {f g : FieldDecl} (h : GoesBefore varies f g) :
    ¬GoesBefore varies g f := by
  rintro (⟨hg, hf⟩ | ⟨hiff, hlt⟩)
  · rcases h with ⟨hf', -⟩ | ⟨hiff, -⟩
    · exact hf' hf
    · exact hg (hiff.mp hf)
  · rcases h with ⟨hf, hg⟩ | ⟨-, hlt'⟩
    · exact hf (hiff.mp hg)
    · exact lt_asymm hlt hlt'

/-- Declarations in canonical order. Which sizes vary is said by `varies`. -/
structure CanonicalOrder (fields : List FieldDecl) (varies : FieldDecl → Prop)
    (order : List FieldDecl) : Prop where
  perm : order.Perm fields
  /-- Every field comes after the fields that it needs. -/
  needs : ∀ before f after, order = before ++ f :: after →
    ∀ n ∈ f.requirements, n ∈ before.map (·.name)
  /-- A field goes before the others that are ready. -/
  first : ∀ before f after, order = before ++ f :: after → ∀ g ∈ after,
    (∀ n ∈ g.requirements, n ∈ before.map (·.name)) → GoesBefore varies f g

/-- There is one canonical order, whatever the order of declaration. -/
theorem CanonicalOrder.unique {fields fields' order order' : List FieldDecl}
    {varies : FieldDecl → Prop} (h : CanonicalOrder fields varies order)
    (h' : CanonicalOrder fields' varies order') (hperm : fields'.Perm fields)
    (hnodup : fields.Nodup) : order' = order := by
  have horders : order'.Perm order := h'.perm.trans (hperm.trans h.perm.symm)
  have hnodup' : order'.Nodup := (h'.perm.trans hperm).nodup_iff.mpr hnodup
  -- after a common beginning, both go on with the same field
  have hgen : ∀ rest before rest', order = before ++ rest → order' = before ++ rest' →
      rest' = rest := by
    intro rest
    induction rest with
    | nil =>
      intro before rest' heq heq'
      have hlen := horders.length_eq
      rw [heq, heq', List.append_nil, List.length_append] at hlen
      exact List.length_eq_zero_iff.mp (by omega)
    | cons f rest ih =>
      intro before rest' heq heq'
      cases rest' with
      | nil =>
        have hlen := horders.length_eq
        rw [heq, heq', List.append_nil, List.length_append, List.length_cons] at hlen
        omega
      | cons g rest' =>
        by_cases hfg : g = f
        · subst hfg
          have hmore : before ++ g :: rest = (before ++ [g]) ++ rest := by simp
          have hmore' : before ++ g :: rest' = (before ++ [g]) ++ rest' := by simp
          rw [ih (before ++ [g]) rest' (heq.trans hmore) (heq'.trans hmore')]
        · exfalso
          rw [heq'] at hnodup'
          have hnodup₀ : (before ++ f :: rest).Nodup := by
            rw [← heq]
            exact h.perm.nodup_iff.mpr hnodup
          have hg : g ∈ rest := by
            have hmem : g ∈ before ++ f :: rest := by
              rw [← heq, ← horders.mem_iff, heq']
              simp
            rcases List.mem_append.mp hmem with hbefore | hlater
            · exact (List.disjoint_of_nodup_append hnodup' hbefore List.mem_cons_self).elim
            · exact (List.mem_cons.mp hlater).resolve_left hfg
          have hf : f ∈ rest' := by
            have hmem : f ∈ before ++ g :: rest' := by
              rw [← heq', horders.mem_iff, heq]
              simp
            rcases List.mem_append.mp hmem with hbefore | hlater
            · exact (List.disjoint_of_nodup_append hnodup₀ hbefore List.mem_cons_self).elim
            · exact (List.mem_cons.mp hlater).resolve_left fun heq => hfg heq.symm
          exact (h.first before f rest heq g hg (h'.needs before g rest' heq')).asymm
            (h'.first before g rest' heq' f hf (h.needs before f rest heq))
  exact hgen order [] order' rfl rfl

end RecordLayout
