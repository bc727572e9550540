import Mathlib
import RecordLayout.Layout.Compile

/-!
# The canonical order

The order of the fields depends on their needs and on their ranks only. Here it is worked out from
ranks that are known beforehand, without asking for layouts, and what it promises is proved: a field
comes once, and after every field that it needs.

Main results:

* `orderWith_nodup`, `orderWith_lt` — the order has no slot twice, and only slots of fields;
* `orderWith_needs` — every slot comes after the slots that its field needs;
* `orderWith_perm` — an order of full length has every slot;
* `length_orderWith_iff` — the order has full length unless fields need each other in a circle.
-/

namespace RecordLayout

/-! ## Ordering by known ranks -/

section

variable (rank : Nat → Rank) (bindings : List Binding)

/-- `countOff` with known ranks. -/
def countOffWith : List Nat → List Rank → List Nat → List Nat × List Rank
  | pending, ready, [] => (pending, ready)
  | pending, ready, slot :: rest =>
    let left := pending.getD slot 0 - 1
    if left = 0 then countOffWith (pending.set slot left) ((rank slot).insert ready) rest
    else countOffWith (pending.set slot left) ready rest

/-- `takeReady` with known ranks. -/
def takeReadyWith : Nat → List Nat → List Rank → List Nat
  | 0, _, _ => []
  | _ + 1, _, [] => []
  | steps + 1, pending, first :: ready =>
    let (pending, ready) := countOffWith rank pending ready (waitingFor bindings first.slot)
    first.slot :: takeReadyWith steps pending ready

/-- `initiallyReady` with known ranks. -/
def initiallyReadyWith : List Rank → List Binding → List Rank
  | ready, [] => ready
  | ready, b :: rest =>
    if b.needs.isEmpty then initiallyReadyWith ((rank b.slot).insert ready) rest
    else initiallyReadyWith ready rest

/-- The slots in canonical order, with known ranks. -/
def orderWith : List Nat :=
  takeReadyWith rank bindings bindings.length (bindings.map (·.needs.length))
    (initiallyReadyWith rank [] bindings)

end

/-! ## Counting off -/

theorem insert_perm (r : Rank) (ready : List Rank) : (r.insert ready).Perm (r :: ready) := by
  induction ready with
  | nil => exact List.Perm.refl _
  | cons head rest ih =>
    rw [Rank.insert]
    split
    · exact List.Perm.refl _
    · exact (ih.cons head).trans (List.Perm.swap r head rest)

/-- Each binding has the place of its slot. -/
def Numbered (bindings : List Binding) : Prop :=
  ∀ i (h : i < bindings.length), bindings[i].slot = i

/-- What the field of a slot needs. -/
def needsOf (bindings : List Binding) (slot : Nat) : List Nat :=
  match bindings[slot]? with
  | some b => b.needs
  | none => []

/-- The field of the second slot needs that of the first one. -/
def NeededBy (bindings : List Binding) (n slot : Nat) : Prop := n ∈ needsOf bindings slot

/-- No field needs itself, not even by way of other fields. -/
def Orderable (bindings : List Binding) : Prop :=
  ∀ slot < bindings.length, Acc (NeededBy bindings) slot

theorem count_waitingFor_from (bindings : List Binding) (first slot i : Nat)
    (h : ∀ j (hj : j < bindings.length), bindings[j].slot = first + j) :
    (waitingFor bindings slot).count i =
      if first ≤ i then (needsOf bindings (i - first)).count slot else 0 := by
  induction bindings generalizing first with
  | nil => simp [waitingFor, needsOf]
  | cons b rest ih =>
    have hb : b.slot = first := h 0 (by simp)
    have hrest := ih (first + 1) (fun j hj => by
      have hnext := h (j + 1) (by simpa using hj)
      rw [List.getElem_cons_succ] at hnext
      omega)
    -- the binding waits once for each time that it needs the slot
    have hown : ((b.needs.filter (· == slot)).map fun _ => b.slot).count i =
        if i = first then b.needs.count slot else 0 := by
      rw [List.map_const', List.count_replicate, hb, ← List.countP_eq_length_filter]
      by_cases hi : i = first
      · simp [hi, List.count]
      · simp [hi, Ne.symm hi]
    rw [waitingFor, List.flatMap_cons, List.count_append, hown]
    rw [waitingFor] at hrest
    rw [hrest]
    by_cases hi : i = first
    · subst hi
      simp [needsOf]
    · by_cases hle : first ≤ i
      · have hsub : i - first = i - (first + 1) + 1 := by omega
        rw [if_neg hi, if_pos (by omega), if_pos hle, Nat.zero_add, hsub]
        rfl
      · rw [if_neg hi, if_neg (by omega), if_neg hle]

/-- A slot waits for another one as often as its field mentions it. -/
theorem count_waitingFor {bindings : List Binding} (hnum : Numbered bindings) (slot i : Nat) :
    (waitingFor bindings slot).count i = (needsOf bindings i).count slot := by
  have h := count_waitingFor_from bindings 0 slot i (fun j hj => by
    rw [Nat.zero_add]
    exact hnum j hj)
  simpa using h

/-- What counting off does: every mention takes one off, and the slots that had just so many left
become ready. -/
theorem countOffWith_spec (rank : Nat → Rank) (hrank : ∀ i, (rank i).slot = i)
    (mentions : List Nat) (pending : List Nat) (ready : List Rank)
    (hle : ∀ i, mentions.count i ≤ pending.getD i 0) :
    (countOffWith rank pending ready mentions).1.length = pending.length ∧
      (∀ i, (countOffWith rank pending ready mentions).1.getD i 0 =
        pending.getD i 0 - mentions.count i) ∧
      ∃ fresh : List Nat, fresh.Nodup ∧
        (∀ i, i ∈ fresh ↔ 0 < mentions.count i ∧ mentions.count i = pending.getD i 0) ∧
        ((countOffWith rank pending ready mentions).2.map (·.slot)).Perm
          (fresh ++ ready.map (·.slot)) := by
  induction mentions generalizing pending ready with
  | nil => exact ⟨rfl, by simp [countOffWith], [], by simp, by simp, List.Perm.refl _⟩
  | cons slot rest ih =>
    have hslot := hle slot
    rw [List.count_cons_self] at hslot
    have hin : slot < pending.length := by
      by_contra hout
      rw [List.getD_eq_default _ _ (by omega)] at hslot
      omega
    -- the counts after this mention
    have hset : ∀ i, (pending.set slot (pending.getD slot 0 - 1)).getD i 0 =
        if i = slot then pending.getD slot 0 - 1 else pending.getD i 0 := by
      intro i
      simp only [List.getD_eq_getElem?_getD, List.getElem?_set]
      by_cases hi : slot = i
      · subst hi
        simp [hin]
      · simp [hi, Ne.symm hi]
    have hcount : ∀ i, (slot :: rest).count i = rest.count i + if i = slot then 1 else 0 := by
      intro i
      by_cases hi : i = slot
      · simp [hi]
      · rw [List.count_cons_of_ne (Ne.symm hi), if_neg hi]
        rfl
    have hle' : ∀ i, rest.count i ≤ (pending.set slot (pending.getD slot 0 - 1)).getD i 0 := by
      intro i
      have hi := hle i
      rw [hcount] at hi
      rw [hset]
      by_cases heq : i = slot
      · subst heq
        simp only [if_true] at hi ⊢
        omega
      · simpa [heq] using hi
    rw [countOffWith]
    by_cases hleft : pending.getD slot 0 - 1 = 0
    · -- the last mention makes the slot ready
      simp only [hleft, if_true]
      rw [hleft] at hset hle'
      obtain ⟨hlen, hpending, fresh, hnodup, hfresh, hperm⟩ :=
        ih _ ((rank slot).insert ready) hle'
      have hzero : rest.count slot = 0 := by
        have h0 := hle' slot
        rw [hset, if_pos rfl] at h0
        omega
      refine ⟨by rw [hlen, List.length_set], ?_, slot :: fresh, ?_, ?_, ?_⟩
      · intro i
        rw [hpending, hset, hcount]
        by_cases heq : i = slot
        · subst heq
          simp only [if_true]
          omega
        · simp [heq]
      · refine List.nodup_cons.mpr ⟨?_, hnodup⟩
        intro hmem
        have hpos := (hfresh slot).mp hmem
        omega
      · intro i
        rw [List.mem_cons, hfresh, hset, hcount]
        by_cases heq : i = slot
        · subst heq
          simp only [true_or, if_true, true_iff]
          omega
        · simp [heq]
      · refine hperm.trans ?_
        have hins := (insert_perm (rank slot) ready).map (·.slot)
        rw [List.map_cons, hrank] at hins
        exact (hins.append_left fresh).trans List.perm_middle
    · -- it still waits for other fields
      simp only [hleft, if_false]
      obtain ⟨hlen, hpending, fresh, hnodup, hfresh, hperm⟩ := ih _ ready hle'
      refine ⟨by rw [hlen, List.length_set], ?_, fresh, hnodup, ?_, hperm⟩
      · intro i
        rw [hpending, hset, hcount]
        by_cases heq : i = slot
        · subst heq
          simp only [if_true]
          omega
        · simp [heq]
      · intro i
        rw [hfresh, hset, hcount]
        by_cases heq : i = slot
        · subst heq
          simp only [if_true]
          omega
        · simp [heq]

/-! ## Taking ready slots -/

/-- What holds while slots are taken: `pending` counts the needs that are not taken, and the slots
that are taken or ready are those that wait for nothing. -/
structure OrderState (bindings : List Binding) (taken pending : List Nat) (ready : List Rank) :
    Prop where
  waits : ∀ i, pending.getD i 0 = (needsOf bindings i).countP (· ∉ taken)
  nodup : (taken ++ ready.map (·.slot)).Nodup
  mem_iff : ∀ i, i ∈ taken ++ ready.map (·.slot) ↔ i < bindings.length ∧ pending.getD i 0 = 0

theorem countP_not_mem_append (needs taken : List Nat) {slot : Nat} (h : slot ∉ taken) :
    needs.countP (· ∉ taken) = needs.countP (· ∉ taken ++ [slot]) + needs.count slot := by
  induction needs with
  | nil => rfl
  | cons n rest ih =>
    simp only [List.countP_cons, List.count_cons, ih]
    by_cases hn : n = slot
    · subst hn
      simp [h]
      omega
    · by_cases hmem : n ∈ taken <;> simp [hn, hmem]
      omega

/-- Taking the first ready slot keeps what holds. -/
theorem OrderState.step (rank : Nat → Rank) (hrank : ∀ i, (rank i).slot = i)
    {bindings : List Binding} (hnum : Numbered bindings) {taken pending : List Nat} {first : Rank}
    {ready : List Rank} (h : OrderState bindings taken pending (first :: ready)) :
    OrderState bindings (taken ++ [first.slot])
      (countOffWith rank pending ready (waitingFor bindings first.slot)).1
      (countOffWith rank pending ready (waitingFor bindings first.slot)).2 := by
  have hnew : first.slot ∉ taken := by
    intro hmem
    have hdis := List.disjoint_of_nodup_append h.nodup
    exact hdis hmem (by simp)
  have hwaits : ∀ i, pending.getD i 0 =
      (needsOf bindings i).countP (· ∉ taken ++ [first.slot]) +
        (needsOf bindings i).count first.slot := by
    intro i
    rw [h.waits, countP_not_mem_append _ _ hnew]
  obtain ⟨hlen, hpending, fresh, hfreshNodup, hfresh, hperm⟩ :=
    countOffWith_spec rank hrank (waitingFor bindings first.slot) pending ready (fun i => by
      rw [count_waitingFor hnum, hwaits]
      omega)
  simp only [count_waitingFor hnum] at hpending hfresh
  -- slots that have just become ready were waiting before
  have hfreshNew : ∀ i ∈ fresh, i ∉ taken ++ (first :: ready).map (·.slot) := by
    intro i hi hmem
    have hzero := ((h.mem_iff i).mp hmem).2
    have hpos := (hfresh i).mp hi
    omega
  have hall : (taken ++ [first.slot] ++
      (countOffWith rank pending ready (waitingFor bindings first.slot)).2.map (·.slot)).Perm
        (fresh ++ (taken ++ (first :: ready).map (·.slot))) := by
    refine (hperm.append_left _).trans ?_
    rw [List.map_cons, List.append_assoc, List.singleton_append]
    refine List.Perm.trans ?_ (List.perm_append_comm_assoc taken fresh _)
    exact List.Perm.append_left _ List.perm_middle.symm
  refine ⟨?_, ?_, ?_⟩
  · intro i
    rw [hpending, hwaits]
    omega
  · rw [hall.nodup_iff, List.nodup_append']
    exact ⟨hfreshNodup, h.nodup, hfreshNew⟩
  · intro i
    rw [hall.mem_iff, List.mem_append, h.mem_iff, hfresh, hpending]
    have hin : 0 < (needsOf bindings i).count first.slot → i < bindings.length := by
      intro hpos
      by_contra hout
      rw [needsOf, List.getElem?_eq_none (by omega)] at hpos
      simp at hpos
    constructor
    · rintro (⟨hpos, heq⟩ | ⟨hlt, hzero⟩)
      · exact ⟨hin hpos, by omega⟩
      · exact ⟨hlt, by omega⟩
    · rintro ⟨hlt, hzero⟩
      have hle := hwaits i
      by_cases hp : pending.getD i 0 = 0
      · exact Or.inr ⟨hlt, hp⟩
      · exact Or.inl ⟨by omega, by omega⟩

/-- The slots taken from a state on: none twice, all of fields, each after what its field needs. -/
theorem takeReadyWith_spec (rank : Nat → Rank) (hrank : ∀ i, (rank i).slot = i)
    {bindings : List Binding} (hnum : Numbered bindings) (steps : Nat) {taken pending : List Nat}
    {ready : List Rank} (h : OrderState bindings taken pending ready) :
    (taken ++ takeReadyWith rank bindings steps pending ready).Nodup ∧
      (∀ i ∈ takeReadyWith rank bindings steps pending ready, i < bindings.length) ∧
      ∀ before slot after, takeReadyWith rank bindings steps pending ready =
          before ++ slot :: after →
        ∀ n ∈ needsOf bindings slot, n ∈ taken ++ before := by
  have hstop : (taken ++ []).Nodup ∧ (∀ i ∈ ([] : List Nat), i < bindings.length) ∧
      ∀ before slot after, [] = before ++ slot :: after →
        ∀ n ∈ needsOf bindings slot, n ∈ taken ++ before := by
    refine ⟨?_, by simp, by simp⟩
    rw [List.append_nil]
    exact (List.nodup_append'.mp h.nodup).1
  induction steps generalizing taken pending ready with
  | zero => exact hstop
  | succ steps ih =>
    cases ready with
    | nil => exact hstop
    | cons first ready =>
      have hstep := h.step rank hrank hnum
      have hfirst := (h.mem_iff first.slot).mp (by simp)
      have hnext : (taken ++ [first.slot] ++ []).Nodup ∧
          (∀ i ∈ ([] : List Nat), i < bindings.length) ∧
          ∀ before slot after, [] = before ++ slot :: after →
            ∀ n ∈ needsOf bindings slot, n ∈ taken ++ [first.slot] ++ before := by
        refine ⟨?_, by simp, by simp⟩
        rw [List.append_nil]
        exact (List.nodup_append'.mp hstep.nodup).1
      obtain ⟨hnodup, hlt, hneeds⟩ := ih hstep hnext
      rw [takeReadyWith]
      refine ⟨?_, ?_, ?_⟩
      · rwa [List.append_assoc, List.singleton_append] at hnodup
      · intro i hi
        rcases List.mem_cons.mp hi with rfl | hrest
        · exact hfirst.1
        · exact hlt i hrest
      · intro before slot after heq n hn
        cases before with
        | nil =>
          -- the first slot waits for nothing, so all that it needs is taken
          obtain ⟨rfl, -⟩ := List.cons.inj heq
          rw [h.waits] at hfirst
          have hall := List.countP_eq_zero.mp hfirst.2 n hn
          simpa using hall
        | cons head before =>
          obtain ⟨rfl, htail⟩ := List.cons.inj heq
          have hmem := hneeds before slot after htail n hn
          rwa [List.append_assoc, List.singleton_append] at hmem

/-- Slots are taken until none is ready. -/
theorem takeReadyWith_ends (rank : Nat → Rank) (hrank : ∀ i, (rank i).slot = i)
    {bindings : List Binding} (hnum : Numbered bindings) (steps : Nat) {taken pending : List Nat}
    {ready : List Rank} (h : OrderState bindings taken pending ready)
    (hsteps : bindings.length ≤ steps + taken.length) :
    ∃ pending', OrderState bindings (taken ++ takeReadyWith rank bindings steps pending ready)
      pending' [] := by
  induction steps generalizing taken pending ready with
  | zero =>
    -- every slot has been taken
    have hsub : taken ++ ready.map (·.slot) ⊆ List.range bindings.length := fun i hi =>
      List.mem_range.mpr ((h.mem_iff i).mp hi).1
    have hlen := (h.nodup.subperm hsub).length_le
    rw [List.length_append, List.length_map, List.length_range] at hlen
    obtain rfl : ready = [] := List.length_eq_zero_iff.mp (by omega)
    rw [takeReadyWith, List.append_nil]
    exact ⟨pending, h⟩
  | succ steps ih =>
    cases ready with
    | nil =>
      rw [takeReadyWith, List.append_nil]
      exact ⟨pending, h⟩
    | cons first ready =>
      have hmore : bindings.length ≤ steps + (taken ++ [first.slot]).length := by
        rw [List.length_append, List.length_singleton]
        omega
      obtain ⟨pending', hlast⟩ := ih (h.step rank hrank hnum) hmore
      rw [List.append_assoc, List.singleton_append] at hlast
      exact ⟨pending', hlast⟩

/-! ## The whole order -/

theorem initiallyReadyWith_perm (rank : Nat → Rank) (hrank : ∀ i, (rank i).slot = i)
    (ready : List Rank) (bindings : List Binding) :
    ((initiallyReadyWith rank ready bindings).map (·.slot)).Perm
      ((bindings.filter (·.needs.isEmpty)).map (·.slot) ++ ready.map (·.slot)) := by
  induction bindings generalizing ready with
  | nil => exact List.Perm.refl _
  | cons b rest ih =>
    rw [initiallyReadyWith]
    by_cases hb : b.needs.isEmpty = true
    · rw [if_pos hb, List.filter_cons, if_pos hb]
      refine (ih _).trans ?_
      have hins := (insert_perm (rank b.slot) ready).map (·.slot)
      rw [List.map_cons, hrank] at hins
      exact (hins.append_left _).trans List.perm_middle
    · rw [if_neg hb, List.filter_cons, if_neg hb]
      exact ih _

theorem numbered_slots {bindings : List Binding} (hnum : Numbered bindings) :
    bindings.map (·.slot) = List.range bindings.length := by
  apply List.ext_getElem (by simp)
  intro i h1 h2
  rw [List.getElem_map, List.getElem_range]
  exact hnum i (by simpa using h1)

theorem orderState_start (rank : Nat → Rank) (hrank : ∀ i, (rank i).slot = i)
    {bindings : List Binding} (hnum : Numbered bindings) :
    OrderState bindings [] (bindings.map (·.needs.length))
      (initiallyReadyWith rank [] bindings) := by
  have hperm := initiallyReadyWith_perm rank hrank [] bindings
  rw [List.map_nil, List.append_nil] at hperm
  have hpending : ∀ i, (bindings.map (·.needs.length)).getD i 0 = (needsOf bindings i).length := by
    intro i
    rw [List.getD_eq_getElem?_getD, List.getElem?_map, needsOf]
    cases bindings[i]? with
    | none => rfl
    | some b => rfl
  refine ⟨?_, ?_, ?_⟩
  · -- nothing is placed yet, so all needs are pending
    intro i
    rw [hpending, eq_comm, List.countP_eq_length]
    simp
  · rw [List.nil_append, hperm.nodup_iff]
    have hsub := (List.filter_sublist (p := fun b : Binding => b.needs.isEmpty)
      (l := bindings)).map (·.slot)
    rw [numbered_slots hnum] at hsub
    exact hsub.nodup List.nodup_range
  · -- ready are those that need nothing
    intro i
    rw [List.nil_append, hperm.mem_iff, hpending]
    constructor
    · intro hmem
      obtain ⟨b, hb, rfl⟩ := List.mem_map.mp hmem
      obtain ⟨hmem, hempty⟩ := List.mem_filter.mp hb
      obtain ⟨j, hj, rfl⟩ := List.getElem_of_mem hmem
      rw [hnum j hj, needsOf, List.getElem?_eq_getElem hj]
      exact ⟨hj, by simpa using hempty⟩
    · rintro ⟨hlt, hzero⟩
      refine List.mem_map.mpr ⟨bindings[i], List.mem_filter.mpr ⟨List.getElem_mem hlt, ?_⟩,
        hnum i hlt⟩
      rw [needsOf, List.getElem?_eq_getElem hlt] at hzero
      simpa using hzero

section

variable (rank : Nat → Rank) (hrank : ∀ i, (rank i).slot = i) {bindings : List Binding}
  (hnum : Numbered bindings)

include hrank hnum

theorem orderWith_nodup : (orderWith rank bindings).Nodup := by
  have h := takeReadyWith_spec rank hrank hnum bindings.length (orderState_start rank hrank hnum)
  exact h.1

theorem orderWith_lt : ∀ i ∈ orderWith rank bindings, i < bindings.length :=
  (takeReadyWith_spec rank hrank hnum bindings.length (orderState_start rank hrank hnum)).2.1

/-- Every slot comes after the slots that its field needs. -/
theorem orderWith_needs {before after : List Nat} {slot : Nat}
    (h : orderWith rank bindings = before ++ slot :: after) :
    ∀ n ∈ needsOf bindings slot, n ∈ before :=
  (takeReadyWith_spec rank hrank hnum bindings.length
    (orderState_start rank hrank hnum)).2.2 before slot after h

/-- The slots in the order are those whose fields do not need each other in a circle. -/
theorem mem_orderWith_iff (hlt : ∀ slot, ∀ n ∈ needsOf bindings slot, n < bindings.length)
    {slot : Nat} : slot ∈ orderWith rank bindings ↔
      slot < bindings.length ∧ Acc (NeededBy bindings) slot := by
  constructor
  · intro hmem
    refine ⟨orderWith_lt rank hrank hnum slot hmem, ?_⟩
    -- by induction on how many slots come before
    have hgen : ∀ (count : Nat) (before : List Nat) (slot : Nat) (after : List Nat),
        before.length = count → orderWith rank bindings = before ++ slot :: after →
        Acc (NeededBy bindings) slot := by
      intro count
      induction count using Nat.strong_induction_on with
      | _ count ih =>
        intro before slot after hcount heq
        refine Acc.intro _ fun n hn => ?_
        obtain ⟨first, last, rfl⟩ :=
          List.append_of_mem (orderWith_needs rank hrank hnum heq n hn)
        rw [List.length_append, List.length_cons] at hcount
        refine ih first.length (by omega) first n (last ++ slot :: after) rfl ?_
        rw [heq, List.append_assoc, List.cons_append]
    obtain ⟨before, after, heq⟩ := List.append_of_mem hmem
    exact hgen _ before slot after rfl heq
  · rintro ⟨hslot, hacc⟩
    obtain ⟨pending, hlast⟩ := takeReadyWith_ends rank hrank hnum bindings.length
      (orderState_start rank hrank hnum) (Nat.le_add_right _ _)
    have htaken (i : Nat) : i ∈ orderWith rank bindings ↔
        i < bindings.length ∧ pending.getD i 0 = 0 := by
      have hiff := hlast.mem_iff i
      rwa [List.map_nil, List.append_nil, List.nil_append] at hiff
    induction hacc with
    | intro slot _ ih =>
      -- all that the field needs is taken, so it waits for nothing
      refine (htaken slot).mpr ⟨hslot, ?_⟩
      rw [hlast.waits, List.countP_eq_zero]
      exact fun n hn hout => of_decide_eq_true hout (ih n hn (hlt slot n hn))

/-- An order that is long enough has every slot. -/
theorem orderWith_perm (hlen : (orderWith rank bindings).length = bindings.length) :
    (orderWith rank bindings).Perm (List.range bindings.length) := by
  have hsub : orderWith rank bindings ⊆ List.range bindings.length := fun i hi =>
    List.mem_range.mpr (orderWith_lt rank hrank hnum i hi)
  have hsubperm := (orderWith_nodup rank hrank hnum).subperm hsub
  exact hsubperm.perm_of_length_le (by rw [List.length_range, hlen])

/-- The order is long enough exactly if no field needs itself in a circle, whatever the ranks. -/
theorem length_orderWith_iff (hlt : ∀ slot, ∀ n ∈ needsOf bindings slot, n < bindings.length) :
    (orderWith rank bindings).length = bindings.length ↔ Orderable bindings := by
  constructor
  · intro hlen slot hslot
    have hmem := (orderWith_perm rank hrank hnum hlen).mem_iff.mpr (List.mem_range.mpr hslot)
    exact ((mem_orderWith_iff rank hrank hnum hlt).mp hmem).2
  · intro horder
    have hsub : List.range bindings.length ⊆ orderWith rank bindings := fun slot hslot =>
      (mem_orderWith_iff rank hrank hnum hlt).mpr
        ⟨List.mem_range.mp hslot, horder slot (List.mem_range.mp hslot)⟩
    have hge := (List.nodup_range.subperm hsub).length_le
    have hle := ((orderWith_nodup rank hrank hnum).subperm fun slot hslot =>
      List.mem_range.mpr (orderWith_lt rank hrank hnum slot hslot)).length_le
    rw [List.length_range] at hge hle
    exact Nat.le_antisymm hle hge

end

end RecordLayout
