import Mathlib
import RecordLayout.Proofs.Codec.Settled
import RecordLayout.Proofs.Size.Content

/-!
# What stands behind references

Before a record is written, derived fields are worked out in all records that stand inline in it.
What stands behind references is left alone; it has its turn when it is written itself.

Main results:

* `Value.KeptBehind`, `RecordOf.KeptBehind` — two values agree in what stands behind references;
* `Value.KeptBehind.of_detached` — values with the same content do;
* `deriveWithin_keptBehind`, `deriveRecord_keptBehind` — working out derived fields, at any depth.
-/

namespace RecordLayout

/-! ## What is kept -/

/-- What stands behind references in a value, directly or in the records that stand inline in it, is
the same in another value; numbers and texts are what they are. -/
inductive Value.KeptBehind (c : Compiler) : Placement → Value → Value → Prop
  | behind {p : Placement} {v v' : Value} (hp : p.isBehind = true)
    (h : v.Flat ∨ v'.detached = v.detached) : KeptBehind c p v v'
  | inline {p : Placement} {v v' : Value} (hp : p.isBehind = false)
    (hinside : ∀ key l, p.innerKey? c.catalog v = some key → c.answer key = some l →
      ∀ f ∈ l.fields, ∀ q marker, f.encoding = .placed q marker →
        KeptBehind c q (v.innerRecord.slot f.slot) (v'.innerRecord.slot f.slot)) :
    KeptBehind c p v v'

/-- What stands behind references in a record is the same in another one. -/
def RecordOf.KeptBehind (c : Compiler) (l : Layout) (r r' : Record) : Prop :=
  ∀ f ∈ l.fields, ∀ q marker, f.encoding = .placed q marker →
    (r.slot f.slot).KeptBehind c q (r'.slot f.slot)

section

variable {c : Compiler} {p : Placement} {l : Layout} {v v' : Value} {r r' : Record}

theorem Value.Flat.keptBehind (h : v.Flat) : v.KeptBehind c p v' := by
  cases hp : p.isBehind with
  | true => exact .behind hp (.inl h)
  | false =>
    refine .inline hp fun key l hkey => ?_
    cases v with
    | record r => exact h.elim
    | wrapped wrapper r => exact h.elim
    | _ => cases hkey

theorem Value.innerRecord_detached (v : Value) :
    v.detached.innerRecord = v.innerRecord.detached := by
  cases v <;> rfl

theorem Value.depth_innerRecord {cat : Catalog} {key : LayoutKey}
    (h : p.innerKey? cat v = some key) : v.innerRecord.depth = v.depth := by
  cases v with
  | record r => rfl
  | wrapped wrapper r => rfl
  | _ => cases h

/-- In values with the same content, all is the same. -/
theorem Value.KeptBehind.of_detached (h : v'.detached = v.detached) : v.KeptBehind c p v' := by
  induction hd : v.depth using Nat.strong_induction_on generalizing p v v' with
  | _ n ih =>
    cases hp : p.isBehind with
    | true => exact .behind hp (.inr h)
    | false =>
      refine .inline hp fun key l hkey hl f hf q marker he => ?_
      have hslot := v.innerRecord.depth_slot f.slot
      rw [v.depth_innerRecord hkey] at hslot
      refine ih _ (by omega) ?_ rfl
      rw [← RecordOf.detached_slot, ← RecordOf.detached_slot, ← Value.innerRecord_detached,
        ← Value.innerRecord_detached, h]

theorem RecordOf.KeptBehind.of_detached (h : r'.detached = r.detached) : r.KeptBehind c l r' := by
  intro f _ q marker _
  refine .of_detached ?_
  rw [← RecordOf.detached_slot, ← RecordOf.detached_slot, h]

/-- What is kept in a value is what is kept in the record that stands inline in it. -/
theorem Value.keptBehind_iff (hp : p.isBehind = false)
    (hkey : p.innerKey? c.catalog v = some l.key) (hl : c.answer l.key = some l) :
    v.KeptBehind c p v' ↔ v.innerRecord.KeptBehind c l v'.innerRecord := by
  constructor
  · intro h
    cases h with
    | behind hp' => rw [hp] at hp'; cases hp'
    | inline _ hinside => exact hinside _ _ hkey hl
  · refine fun h => .inline hp fun key l' hkey' hl' => ?_
    rw [hkey] at hkey'
    cases hkey'
    rw [hl] at hl'
    cases hl'
    exact h

/-- Putting a value into a slot. -/
theorem RecordOf.KeptBehind.setSlot {schema : Schema} {kind : LayoutKind} {c₀ : Compiler}
    (h : r.KeptBehind c l r') (hfields : FieldsGood c₀ schema kind l.fields) {f : BoundField}
    (hf : f ∈ l.fields)
    (hv : ∀ q marker, f.encoding = .placed q marker → v.KeptBehind c q (r'.slot f.slot)) :
    (r.setSlot f.slot v).KeptBehind c l r' := by
  by_cases hi : f.slot < r.slots.length
  · intro g hg q marker he
    by_cases heq : g.slot = f.slot
    · obtain rfl := hfields.eq_of_slot hg hf heq
      rw [RecordOf.slot_setSlot_self hi]
      exact hv q marker he
    · rw [RecordOf.slot_setSlot_of_ne heq]
      exact h g hg q marker he
  · rw [RecordOf.setSlot, List.set_eq_of_length_le (by omega)]
    exact h

end

/-! ## Derived fields -/

/-- A way to work out derived fields inside values leaves alone what stands behind references. -/
def DerivesInline (deriveIn : DeriveIn) : Prop :=
  ∀ p (s s' : Scene Value) u, deriveIn p s = .ok u s' → s.space.Sound →
    ∀ c v', s'.space.compiler.Grows c → s.subject.KeptBehind c p v' →
      s'.subject.KeptBehind c p v'

section

variable {c : Compiler} {l : Layout} {r' : Record} {s s' : Scene Record} {u : Unit}
  {kind : LayoutKind} {schema : Schema} {deriveIn : DeriveIn}

theorem deriveFields_keptBehind {fields : List BoundField}
    (h : fields.forM deriveField s = .ok u s') {c₀ : Compiler}
    (hfields : FieldsGood c₀ schema kind l.fields) (hsub : fields ⊆ l.fields)
    (hkept : s.subject.KeptBehind c l r') : s'.subject.KeptBehind c l r' := by
  -- the induction is on the fields; what stands behind the references is kept from one to the next
  induction fields generalizing s with
  | nil =>
    obtain ⟨-, rfl⟩ := pure_ok.mp h
    exact hkept
  | cons f rest ih =>
    obtain ⟨_, s₁, hfirst, hrest⟩ := bind_ok.mp h
    obtain ⟨hf, hsub⟩ := List.cons_subset.mp hsub
    refine ih hrest hsub ?_
    rw [deriveField] at hfirst
    cases hderivation : f.derivation with
    | none =>
      rw [hderivation] at hfirst
      obtain ⟨-, rfl⟩ := pure_ok.mp hfirst
      exact hkept
    | some d =>
      simp only [hderivation, bind_ok, Op.subject_ok, Op.setSubject_ok] at hfirst
      obtain ⟨r, s, ⟨rfl, rfl⟩, v, s₂, hderive, rfl⟩ := hfirst
      obtain ⟨w, hvalue, rfl⟩ := Op.space_ok.mp hderive
      -- a derived value is a number or a width, which has nothing behind it
      have hflat : v.Flat := by
        obtain ⟨x, rfl, -⟩ | ⟨width, rfl⟩ := (derivedValue_ok hvalue).2 <;> trivial
      exact hkept.setSlot hfields hf fun _ _ _ => hflat.keptBehind

theorem deriveInside_keptBehind (hwell : DerivesWell deriveIn) (hin : DerivesInline deriveIn)
    {fields : List BoundField} (h : deriveInside deriveIn fields s = .ok u s')
    (hs : s.space.Sound) {c₀ : Compiler} (hfields : FieldsGood c₀ schema kind l.fields)
    (hsub : fields ⊆ l.fields) (hgrows : s'.space.compiler.Grows c)
    (hkept : s.subject.KeptBehind c l r') : s'.subject.KeptBehind c l r' := by
  induction fields generalizing s with
  | nil =>
    obtain ⟨-, rfl⟩ := pure_ok.mp h
    exact hkept
  | cons f rest ih =>
    rw [deriveInside] at h
    obtain ⟨hf, hsub⟩ := List.cons_subset.mp hsub
    cases he : f.encoding with
    | placed p marker =>
      simp only [he] at h
      obtain ⟨_, s₁, hfield, hrest⟩ := bind_ok.mp h
      obtain ⟨t, hact, rfl⟩ := Op.on_ok.mp hfield
      obtain ⟨hstudied, -⟩ := hwell _ _ _ _ hact hs
      obtain ⟨hstudied', -⟩ := deriveInside_ok hwell hrest hstudied.sound
      -- the compiler only grows while the remaining fields are derived, so the hypothesis on it is
      -- weakened
      refine ih hrest hstudied.sound hsub (hkept.setSlot hfields hf fun q m hq => ?_)
      rw [he] at hq
      obtain ⟨rfl, -⟩ := Encoding.placed.inj hq
      exact hin _ _ _ _ hact hs c _ (hstudied'.learns.compiler.trans hgrows)
        (hkept f hf p marker he)
    -- only placed fields hold records that are derived inside
    | _ =>
      simp only [he] at h
      exact ih h hs hsub hkept

theorem deriveRecordWith_keptBehind (hwell : DerivesWell deriveIn) (hin : DerivesInline deriveIn)
    (h : deriveRecordWith deriveIn l s = .ok u s') (hs : s.space.Sound) (hl : s.space.Knows l)
    (hgrows : s'.space.compiler.Grows c) (hkept : s.subject.KeptBehind c l r') :
    s'.subject.KeptBehind c l r' := by
  rw [deriveRecordWith] at h
  simp only [bind_ok, Op.subject_ok, space_requireSchema_ok] at h
  obtain ⟨r, s, ⟨rfl, rfl⟩, _, s, ⟨hschema, rfl⟩, _, s₂, hinside, hderive⟩ := h
  have hfields := (hl.good hs).fields
  obtain ⟨hstudied, hrefreshed⟩ := deriveInside_ok hwell hinside hs
  have hdeclared : ∀ f ∈ l.fields, ∃ decl, FieldGood s.space.compiler
      (s₂.space.catalog.schema s₂.subject.schema) l.kind decl f := by
    rw [hstudied.learns.catalog, hrefreshed.recast.schema, hschema]
    exact fun f hf => hfields.declared hf
  obtain ⟨hstudied', -⟩ := deriveFields_ok hderive hstudied.sound hdeclared
  exact deriveFields_keptBehind hderive hfields (List.Subset.refl _)
    (deriveInside_keptBehind hwell hin hinside hs hfields (List.Subset.refl _)
      (hstudied'.learns.compiler.trans hgrows) hkept)

end

/-- The layout of a record that stands inline is asked for in the placement of the record. -/
theorem Placement.layoutIn?_asksFor {w : Workspace} (hs : w.Sound) {p : Placement} {v : Value}
    {ask : SpaceM Layout} (h : p.layoutIn? w.catalog v = some ask) :
    p.isBehind = false ∧ p.AsksFor v ask w := by
  -- a pair that asks for no layout is excluded by the hypothesis, which leaves the placements with
  -- a record in place
  cases p with
  | inlineRecord id =>
    cases v <;> cases h
    exact ⟨rfl, asksFor_layout hs fun heq => by rw [← heq]; rfl⟩
  | fixedRecord id =>
    cases v <;> cases h
    exact ⟨rfl, asksFor_layout hs fun heq => by rw [← heq]; rfl⟩
  | wrapped wrapper carrier kind =>
    cases v <;> cases h
    exact ⟨rfl, asksFor_layout hs fun _ => rfl⟩
  | inlineChoice choice =>
    cases v with
    | record r =>
      cases h
      refine ⟨rfl, fun l w' hrun => ?_⟩
      obtain ⟨tag, w₁, htag, hvariant⟩ := bind_ok.mp hrun
      obtain ⟨-, rfl⟩ := tagOf_ok.mp htag
      exact asksFor_variant hs rfl l w' hvariant
    | _ => cases h
  | inlineOpen =>
    cases v with
    | record r =>
      obtain ⟨-, hask⟩ := Option.ite_none_left_eq_some.mp h
      cases hask
      exact ⟨rfl, asksFor_layout hs fun _ => rfl⟩
    | wrapped wrapper r =>
      cases h
      exact ⟨rfl, asksFor_layout hs fun _ => rfl⟩
    | _ => cases h
  | _ => cases v <;> cases h

/-- Working out derived fields inside values, by induction on the depth. -/
theorem deriveWithin_keptBehind (depth : Nat) : DerivesInline (deriveWithin depth) := by
  induction depth with
  | zero =>
    intro p s s' u h
    exact (throw_ok.mp h).elim
  | succ depth ih =>
    intro p s s' u h hs c v' hgrows hkept
    rw [deriveWithin_eq] at h
    cases hlayout : p.layoutIn? s.space.catalog s.subject with
    | none =>
      simp only [hlayout] at h
      cases h
      exact hkept
    | some ask =>
      simp only [hlayout, deriveInner] at h
      obtain ⟨hp, hasks⟩ := Placement.layoutIn?_asksFor hs hlayout
      obtain ⟨l, s₁, hask, hrecord⟩ := bind_ok.mp h
      obtain ⟨hstudied, hsubject, hl, hkey⟩ := space_studied hasks hask
      obtain ⟨t, hact, rfl⟩ := Op.on_ok.mp hrecord
      have hget : Value.recordPart.get s₁.subject = s.subject.innerRecord := by
        rw [hsubject]
        rfl
      rw [hget] at hact
      obtain ⟨hstudied', hrefreshed⟩ :=
        deriveRecordWith_ok (deriveWithin_ok depth) hact hstudied.sound hl
      obtain ⟨hschema, -⟩ := deriveRecordWith_keeps (deriveWithin_ok depth)
        (deriveWithin_keeps depth) hact hstudied.sound hl
      -- the record stands in the same layout before and after
      have hgrows₀ : s.space.compiler.Grows c :=
        (hstudied.learns.compiler.trans hstudied'.learns.compiler).trans hgrows
      have hanswer : c.answer l.key = some l := (hstudied'.learns.compiler.trans hgrows).answer hl
      have hkey := hkey hschema
      rw [show s.space.catalog = c.catalog from hgrows₀.catalog.symm] at hkey
      rw [Value.keptBehind_iff hp hkey hanswer] at hkept
      show (s₁.subject.setInnerRecord t.subject).KeptBehind c p v'
      rw [hsubject, Value.keptBehind_iff hp ?_ hanswer]
      · have hinner : (s.subject.setInnerRecord t.subject).innerRecord = t.subject := by
          rcases Placement.layoutIn?_inner hlayout with hv | ⟨wrapper, hv⟩ <;> rw [hv] <;> rfl
        rw [hinner]
        exact deriveRecordWith_keptBehind (deriveWithin_ok depth) ih hact hstudied.sound hl hgrows
          hkept
      · rw [← hkey]
        exact Placement.innerKey?_setInnerRecord hrefreshed.recast.schema

theorem deriveRecord_keptBehind {l : Layout} {s s' : Scene Record} {u : Unit}
    (h : deriveRecord l s = .ok u s') (hs : s.space.Sound) (hl : s.space.Knows l) {c : Compiler}
    (hgrows : s'.space.compiler.Grows c) {r' : Record} (hkept : s.subject.KeptBehind c l r') :
    s'.subject.KeptBehind c l r' := by
  rw [deriveRecord] at h
  obtain ⟨r, s₁, hsubject, hrun⟩ := bind_ok.mp h
  obtain ⟨rfl, rfl⟩ := Op.subject_ok.mp hsubject
  exact deriveRecordWith_keptBehind (deriveWithin_ok _) (deriveWithin_keptBehind _) hrun hs hl
    hgrows hkept

end RecordLayout
