import Mathlib
import RecordLayout.Reach

/-!
# What searches find

Main results:

* `reach_sound` — a search finds nothing that cannot be reached;
* `reach_closed` — a search with more rounds than nodes leaves no successor out;
* `mem_reach_iff` — so it finds exactly what can be reached.
-/

namespace RecordLayout

section

variable {α : Type} [DecidableEq α] {next : α → List α}

theorem mem_reach_of_seen {rounds : Nat} {seen frontier : List α} {a : α} (h : a ∈ seen) :
    a ∈ reach next rounds seen frontier := by
  induction rounds generalizing seen frontier with
  | zero => exact h
  | succ rounds ih =>
    rw [reach]
    split
    · exact h
    · exact ih (List.mem_append_left _ h)

/-- What the next round finds: the part of the frontier that is new. -/
theorem mem_fresh {seen frontier : List α} {a : α} :
    a ∈ (frontier.filter fun node => !seen.contains node).eraseDups ↔ a ∈ frontier ∧ a ∉ seen := by
  rw [List.mem_eraseDups, List.mem_filter, Bool.not_eq_true', List.contains_eq_mem,
    decide_eq_false_iff_not]

theorem mem_reach_of_frontier {rounds : Nat} (hrounds : 0 < rounds) {seen frontier : List α} {a : α}
    (h : a ∈ frontier) : a ∈ reach next rounds seen frontier := by
  obtain ⟨rounds, rfl⟩ : ∃ n, rounds = n + 1 := ⟨rounds - 1, by omega⟩
  by_cases hseen : a ∈ seen
  · exact mem_reach_of_seen hseen
  · have hfresh := mem_fresh.mpr ⟨h, hseen⟩
    rw [reach]
    split
    · rename_i hnone
      rw [List.isEmpty_iff.mp hnone] at hfresh
      exact absurd hfresh List.not_mem_nil
    · exact mem_reach_of_seen (List.mem_append_right _ hfresh)

/-- A search finds nothing that cannot be reached. -/
theorem reach_sound {rounds : Nat} {seen frontier : List α} {a : α}
    (h : a ∈ reach next rounds seen frontier) :
    a ∈ seen ∨ ∃ b ∈ frontier, Relation.ReflTransGen (fun b c => c ∈ next b) b a := by
  induction rounds generalizing seen frontier with
  | zero => exact Or.inl h
  | succ rounds ih =>
    rw [reach] at h
    split at h
    · exact Or.inl h
    · rcases ih h with hseen | ⟨b, hb, hpath⟩
      · rcases List.mem_append.mp hseen with hold | hfresh
        · exact Or.inl hold
        · exact Or.inr ⟨a, (mem_fresh.mp hfresh).1, .refl⟩
      · obtain ⟨node, hnode, hstep⟩ := List.mem_flatMap.mp hb
        exact Or.inr ⟨node, (mem_fresh.mp hnode).1, .head hstep hpath⟩

/-- A search with more rounds than there are nodes to find leaves no successor out. Each round but
the last one finds a node. -/
theorem reach_closed (nodes : Finset α) (hnodes : ∀ a ∈ nodes, ∀ b ∈ next a, b ∈ nodes)
    {rounds : Nat} {seen frontier : List α} (hfrontier : ∀ a ∈ frontier, a ∈ nodes)
    (hseen : ∀ a ∈ seen, ∀ b ∈ next a, b ∈ seen ∨ b ∈ frontier)
    (hrounds : (nodes \ seen.toFinset).card < rounds) {a b : α}
    (ha : a ∈ reach next rounds seen frontier) (hb : b ∈ next a) :
    b ∈ reach next rounds seen frontier := by
  induction rounds generalizing seen frontier with
  | zero => exact absurd hrounds (Nat.not_lt_zero _)
  | succ rounds ih =>
    rw [reach] at ha ⊢
    have hall {b : α} (hb : b ∈ frontier) :
        b ∈ seen ++ (frontier.filter fun node => !seen.contains node).eraseDups := by
      by_cases hold : b ∈ seen
      · exact List.mem_append_left _ hold
      · exact List.mem_append_right _ (mem_fresh.mpr ⟨hb, hold⟩)
    split at ha
    · rename_i hnone
      rw [if_pos hnone]
      rw [List.isEmpty_iff.mp hnone, List.append_nil] at hall
      exact (hseen a ha b hb).elim id hall
    · rename_i hsome
      rw [if_neg hsome]
      obtain ⟨first, hfirst⟩ := List.exists_mem_of_ne_nil _
        (mt List.isEmpty_iff.mpr hsome)
      obtain ⟨hmem, hnew⟩ := mem_fresh.mp hfirst
      refine ih (fun c hc => ?_) (fun c hc d hd => ?_) ?_ ha
      · obtain ⟨node, hnode, hstep⟩ := List.mem_flatMap.mp hc
        exact hnodes node (hfrontier node (mem_fresh.mp hnode).1) c hstep
      · rcases List.mem_append.mp hc with hold | hfresh
        · exact Or.inl ((hseen c hold d hd).elim (List.mem_append_left _) hall)
        · exact Or.inr (List.mem_flatMap.mpr ⟨c, hfresh, hd⟩)
      · -- the first new node is no longer to be found
        refine Nat.lt_of_lt_of_le (Finset.card_lt_card ?_) (Nat.le_of_lt_succ hrounds)
        refine Finset.ssubset_iff_subset_ne.mpr ⟨fun c hc => ?_, fun heq => ?_⟩
        · rw [Finset.mem_sdiff, List.mem_toFinset] at hc ⊢
          exact ⟨hc.1, fun hold => hc.2 (List.mem_append_left _ hold)⟩
        · have hleft : first ∈ nodes \ seen.toFinset :=
            Finset.mem_sdiff.mpr ⟨hfrontier first hmem, fun h => hnew (List.mem_toFinset.mp h)⟩
          rw [← heq, Finset.mem_sdiff, List.mem_toFinset] at hleft
          exact hleft.2 (List.mem_append_right _ hfirst)

/-- With more rounds than nodes, what a search finds is what can be reached. -/
theorem mem_reach_iff (nodes : Finset α) (hnodes : ∀ a ∈ nodes, ∀ b ∈ next a, b ∈ nodes)
    {rounds : Nat} {frontier : List α} (hfrontier : ∀ a ∈ frontier, a ∈ nodes)
    (hrounds : nodes.card < rounds) {a : α} :
    a ∈ reach next rounds [] frontier ↔
      ∃ b ∈ frontier, Relation.ReflTransGen (fun b c => c ∈ next b) b a := by
  constructor
  · intro h
    exact (reach_sound h).resolve_left List.not_mem_nil
  · rintro ⟨b, hb, hpath⟩
    induction hpath with
    | refl => exact mem_reach_of_frontier (by omega) hb
    | tail _ hstep ih =>
      refine reach_closed nodes hnodes hfrontier ?_ ?_ ih hstep
      · exact fun a ha => absurd ha List.not_mem_nil
      · simpa using hrounds

end

end RecordLayout
