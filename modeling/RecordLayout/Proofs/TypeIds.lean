import Mathlib
import RecordLayout.Proofs.Size.Types

/-!
# Types and their ids are one to one

Types and values are given to an index in any order, while more types are being declared. Two types
are the same if they have one key, but the index looks them up by name, and two types may have one
name: a schema and a wrapper, a back reference and a schema, a type and one that is there from the
start. Only the first of them gets an id.

A declared type keeps its name, whatever is declared after it. So the name of each type in an index has
the id of that type, and as a name has one id, no key is there twice either: ids and keys are one to one.

Main results:

* `Catalog.Declaration.extends` — declared types keep their names;
* `TypeIndex.OneToOne.register`, `TypeCall.serve_assigns`, `TypeCall.serveAll_assigns` — what one call
  keeps, and a run of them;
* `TypeCall.ids_oneToOne` — what holds after every run on a new index.
-/

namespace RecordLayout

/-! ## Catalogs that grow -/

namespace Catalog

variable {c c' c'' : Catalog}

/-- Something is declared, or schemas go out of use. A schema that refers to itself keeps the name under
which its id was taken. -/
inductive Declaration : Catalog → Catalog → Prop where
  | schema {c c' : Catalog} {s : Schema} {id : SchemaId} (h : c.addSchema s = .ok (id, c')) :
      Declaration c c'
  | reserved (c : Catalog) (name : String) : Declaration c (c.reserve name).2
  | completed {c c' : Catalog} {s : Schema} {i : Nat} (hname : c.schemaName ⟨i, 0⟩ = s.name)
      (h : c.complete ⟨i, 0⟩ s = .ok c') : Declaration c c'
  | wrapper {c c' : Catalog} {name : String} {inner : ValueType} {id : WrapperId}
      (h : c.addWrapper name inner = .ok (id, c')) : Declaration c c'
  | choice {c c' : Catalog} {name : String} {variants : List SchemaId} {id : ChoiceId}
      (h : c.addChoice name variants = .ok (id, c')) : Declaration c c'
  | retained (c : Catalog) (roots : List TypeKey) : Declaration c (c.retain roots)

/-- What the first catalog has declared has the same name in the second one. -/
structure Extends (c c' : Catalog) : Prop where
  schemas : c.schemas.map (·.schema.name) <+: c'.schemas.map (·.schema.name)
  wrappers : c.wrappers.map (·.name) <+: c'.wrappers.map (·.name)
  choices : c.choices.map (·.name) <+: c'.choices.map (·.name)

theorem Extends.refl (c : Catalog) : Extends c c :=
  ⟨List.prefix_rfl, List.prefix_rfl, List.prefix_rfl⟩

theorem Extends.trans (h : Extends c c') (h' : Extends c' c'') : Extends c c'' :=
  ⟨h.schemas.trans h'.schemas, h.wrappers.trans h'.wrappers, h.choices.trans h'.choices⟩

theorem extends_addSchema {s : Schema} {id : SchemaId} (h : c.addSchema s = .ok (id, c')) :
    Extends c c' := by
  unfold addSchema at h
  split at h
  · cases h
    refine ⟨?_, List.prefix_rfl, List.prefix_rfl⟩
    show _ <+: (c.schemas ++ [_]).map _
    rw [List.map_append]
    exact List.prefix_append _ _
  · cases h

theorem extends_complete {s : Schema} {i : Nat} (hname : c.schemaName ⟨i, 0⟩ = s.name)
    (h : c.complete ⟨i, 0⟩ s = .ok c') : Extends c c' := by
  unfold complete at h
  split at h
  · cases h
    refine ⟨?_, List.prefix_rfl, List.prefix_rfl⟩
    -- the name that is put there is the one that stood there
    have hsame : (c.schemas.set i ⟨s, true⟩).map (·.schema.name) = c.schemas.map (·.schema.name) := by
      rw [List.map_set, ← hname]
      by_cases hi : i < c.schemas.length
      · have hget : c.schemas.getD i default = c.schemas[i] := List.getD_eq_getElem _ _ hi
        simp only [schemaName, schema, draftOf, hget]
        have hname : i < (c.schemas.map (·.schema.name)).length := by simpa using hi
        have hself := List.set_getElem_self hname
        rwa [List.getElem_map] at hself
      · rw [List.set_eq_of_length_le (by simpa using hi)]
    rw [hsame]
  · cases h

/-- Declarations change no name. -/
theorem Declaration.extends (h : Declaration c c') : Extends c c' := by
  -- each declaration appends names to one list and leaves the others, or completes a name that was
  -- reserved
  cases h with
  | schema h => exact extends_addSchema h
  | reserved name =>
    refine ⟨?_, List.prefix_rfl, List.prefix_rfl⟩
    show _ <+: (c.schemas ++ [_]).map _
    rw [List.map_append]
    exact List.prefix_append _ _
  | completed hname h => exact extends_complete hname h
  | wrapper h =>
    obtain ⟨⟨carrier, found⟩, hcarrier, hrest⟩ := except_bind_ok h
    cases hrest
    refine (extends_addSchema hcarrier).trans ⟨List.prefix_rfl, ?_, List.prefix_rfl⟩
    show _ <+: (found.wrappers ++ [_]).map _
    rw [List.map_append]
    exact List.prefix_append _ _
  | choice h =>
    simp only [addChoice] at h
    split at h
    · cases h
      refine ⟨List.prefix_rfl, List.prefix_rfl, ?_⟩
      show _ <+: (c.choices ++ [_]).map _
      rw [List.map_append]
      exact List.prefix_append _ _
    · cases h
  | retained roots =>
    refine ⟨?_, List.prefix_rfl, List.prefix_rfl⟩
    have hsame : (c.retain roots).schemas.map (·.schema.name) = c.schemas.map (·.schema.name) := by
      refine List.ext_getElem (by simp [retain]) fun i _ _ => ?_
      simp [retain]
    rw [hsame]

theorem extends_of_declarations (h : Relation.ReflTransGen Declaration c c') : Extends c c' := by
  induction h with
  | refl => exact .refl c
  | tail _ hlast ih => exact ih.trans hlast.extends

/-- Whether a type is declared. Back references are followed to declared schemas only. -/
def Declares (c : Catalog) : ValueType → Prop
  | .wrapper id => id.index < c.wrappers.length
  | .choice id => id.index < c.choices.length
  | .record id => id.declared < c.schemas.length
  | _ => True

theorem name_draftOf {s s' : Schema} (h : s.name = s'.name) (n : Nat) :
    (draftOf s n).name = (draftOf s' n).name := by
  induction n with
  | zero => exact h
  | succ n ih =>
    show (draftOf s n).name ++ "$Builder" = (draftOf s' n).name ++ "$Builder"
    rw [ih]

theorem name_getD {α : Type} {name : α → String} {l l' : List α} (h : l.map name <+: l'.map name)
    {i : Nat} (hi : i < l.length) (d : α) : name (l'.getD i d) = name (l.getD i d) := by
  have hlen : l.length ≤ l'.length := by simpa using h.length_le
  have hget := h.getElem (show i < (l.map name).length by simpa using hi)
  rw [List.getElem_map, List.getElem_map] at hget
  rw [List.getD_eq_getElem _ _ hi, List.getD_eq_getElem _ _ (Nat.lt_of_lt_of_le hi hlen), hget]

/-- A declared type keeps its name. -/
theorem Extends.typeName (h : Extends c c') {type : ValueType} (hdecl : c.Declares type) :
    c'.typeName type = c.typeName type := by
  cases type with
  | wrapper id => exact name_getD h.wrappers hdecl _
  | choice id => exact name_getD h.choices hdecl _
  | record id => exact name_draftOf (name_getD h.schemas hdecl _) _
  | any => rfl
  | scalar kind => rfl
  | text => rfl
  | back id name => rfl

/-- A type that is followed is the same type, and it is declared. -/
theorem resolve_ok {type found : ValueType} (h : c.resolve type = .ok found) :
    found.key = type.key ∧ (∀ other : Catalog, other.resolve found = .ok found) ∧
      (c.Declares type → c.Declares found) := by
  cases type with
  | back id name =>
    simp only [resolve] at h
    split at h
    · rename_i hused
      cases h
      refine ⟨rfl, fun _ => rfl, fun _ => ?_⟩
      -- an id that is not declared is not in use
      by_contra hge
      have hmissing : c.schemas.getD id.declared default = default :=
        List.getD_eq_default _ _ (Nat.le_of_not_lt hge)
      rw [inUse, hmissing] at hused
      cases hused
    · cases h
  | _ =>
    cases h
    exact ⟨rfl, fun _ => rfl, id⟩

end Catalog

/-- Types that are no back references are known by their keys. -/
theorem ValueType.key_inj {c : Catalog} {type other : ValueType} (h : c.resolve type = .ok type)
    (h' : c.resolve other = .ok other) (hkey : type.key = other.key) : type = other := by
  have hback (id : SchemaId) (name : String) : c.resolve (.back id name) ≠ .ok (.back id name) := by
    simp only [Catalog.resolve]
    split <;> simp
  cases type with
  | back id name => exact (hback id name h).elim
  | _ =>
    cases other with
    | back id name => exact (hback id name h').elim
    | _ => cases hkey <;> rfl

/-! ## The names in an index -/

namespace TypeIndex

variable {x x' : TypeIndex} {c late : Catalog} {type : ValueType} {id : Nat}

/-- The name of each type, which it has for good, has the id of that type. -/
structure OneToOne (late : Catalog) (x : TypeIndex) : Prop where
  named : ∀ i type, x.types[i]? = some type → x.ids.lookup (late.typeName type) = some (i + 1)
  plain : ∀ type ∈ x.types, late.resolve type = .ok type

theorem oneToOne_initial (late : Catalog) : initial.OneToOne late := by
  have hbuiltin {type : ValueType} (h : type ∈ initial.types) :
      (∃ kind : ScalarKind, type = .scalar kind) ∨ type = .text := by
    rcases List.mem_append.mp (show type ∈ builtin from h) with hscalar | htext
    · obtain ⟨kind, -, rfl⟩ := List.mem_map.mp hscalar
      exact .inl ⟨kind, rfl⟩
    · exact .inr (List.mem_singleton.mp htext)
  have hnumbered : ∀ i : Fin initial.types.length,
      initial.ids.lookup (Catalog.empty.typeName initial.types[i]) = some (i.val + 1) := by decide
  refine ⟨fun i type h => ?_, fun type h => ?_⟩
  · -- these types are called the same in every catalog
    have hname : late.typeName type = Catalog.empty.typeName type := by
      rcases hbuiltin (List.mem_of_getElem? h) with ⟨kind, rfl⟩ | rfl <;> rfl
    obtain ⟨hi, rfl⟩ := List.getElem?_eq_some_iff.mp h
    rw [hname]
    exact hnumbered ⟨i, hi⟩
  · rcases hbuiltin h with ⟨kind, rfl⟩ | rfl <;> rfl

/-- A type that is registered is given its own name, if nothing else has that. -/
theorem OneToOne.register {found : ValueType} (h : x.OneToOne late)
    (hname : late.typeName found = c.typeName found)
    (hplain : late.resolve found = .ok found) (hreg : Registers c x found id x') :
    x'.OneToOne late := by
  cases hreg with
  | known => exact h
  -- a known name changes nothing; a new one comes last, under a name no id had before
  | new hnew =>
    refine ⟨fun i type hi => ?_, fun type htype => ?_⟩
    · rw [lookup_extend]
      rcases Nat.lt_or_ge i x.types.length with hlt | hge
      · rw [extend, List.getElem?_append_left hlt] at hi
        have hold := h.named i type hi
        rw [if_neg]
        · exact hold
        · intro heq
          rw [heq, hnew] at hold
          cases hold
      · obtain rfl : i = x.types.length := by
          have hlast := (List.getElem?_eq_some_iff.mp hi).1
          rw [extend, List.length_append, List.length_singleton] at hlast
          omega
        rw [extend, List.getElem?_concat_length] at hi
        cases hi
        rw [if_pos hname]
        rfl
    · rcases List.mem_append.mp htype with hold | hlast
      · exact h.plain type hold
      · rw [List.mem_singleton.mp hlast]
        exact hplain

/-- Types under different ids have different keys. -/
theorem OneToOne.resolve_inj (h : x.OneToOne late) {id' : Nat} {other : ValueType}
    (hid : x.resolve id = .ok type) (hid' : x.resolve id' = .ok other)
    (hkey : type.key = other.key) : id = id' := by
  obtain ⟨i, rfl, hi⟩ := resolve_ok.mp hid
  obtain ⟨j, rfl, hj⟩ := resolve_ok.mp hid'
  obtain rfl : type = other := ValueType.key_inj (h.plain _ (List.mem_of_getElem? hi))
    (h.plain _ (List.mem_of_getElem? hj)) hkey
  have hsame := h.named i type hi
  rw [h.named j type hj] at hsame
  exact (Option.some.inj hsame).symm

/-- The names of the registered types. -/
theorem OneToOne.names (h : x.OneToOne late) : (x.types.map late.typeName).Nodup := by
  refine List.nodup_iff_getElem?_ne_getElem?.mpr fun i j hij hj heq => ?_
  have hlt : j < x.types.length := by simpa using hj
  have hi := h.named i _ (List.getElem?_eq_getElem (Nat.lt_trans hij hlt))
  have hj := h.named j _ (List.getElem?_eq_getElem hlt)
  rw [List.getElem?_map, List.getElem?_map, List.getElem?_eq_getElem (Nat.lt_trans hij hlt),
    List.getElem?_eq_getElem hlt, Option.map_some, Option.map_some, Option.some.injEq] at heq
  rw [heq, hj] at hi
  exact absurd (Nat.succ.inj (Option.some.inj hi)) (Nat.ne_of_gt hij)

end TypeIndex

/-! ## Calls -/

/-- What an id is asked for. -/
inductive TypeSubject where
  | declared (type : ValueType)
  | value (v : Value)

/-- The type that is registered for it; there is none for null, nor for what has no type of its own. -/
def TypeSubject.type? : TypeSubject → Option ValueType
  | .declared type => some type
  | .value v => v.type?

/-- A call to an index, with the types that are declared by then. -/
structure TypeCall where
  catalog : Catalog
  subject : TypeSubject

/-- A call with the answer to it. -/
structure TypeEvent where
  call : TypeCall
  answer : Except FormatError Nat

namespace TypeCall

open TypeIndex

/-- What an index answers, with the index after that. -/
def serve (x : TypeIndex) (call : TypeCall) : Except FormatError Nat × TypeIndex :=
  match call.subject with
  | .declared type => outcome (register call.catalog type) x
  | .value v => outcome (idOf call.catalog v) x

/-- Calls one after another: what happened, and the index after that. -/
def serveAll (x : TypeIndex) : List TypeCall → List TypeEvent × TypeIndex
  | [] => ([], x)
  | call :: rest =>
    let (answer, x') := call.serve x
    let (events, last) := serveAll x' rest
    (⟨call, answer⟩ :: events, last)

/-- The ids that were given, each with the key of the type that it was given for. -/
def assigned (events : List TypeEvent) : List (TypeKey × Nat) :=
  events.filterMap fun event => match event.call.subject.type?, event.answer with
    | some type, .ok id => some (type.key, id)
    | _, _ => none

/-- A call is about declared types, and only declarations lie between it and a later catalog. -/
structure Before (late : Catalog) (call : TypeCall) : Prop where
  declared : ∀ type, call.subject.type? = some type → call.catalog.Declares type
  declarations : Relation.ReflTransGen Catalog.Declaration call.catalog late

variable {x x' : TypeIndex} {late : Catalog} {call : TypeCall} {events : List TypeEvent}

/-- An index assigns ids to the types that they were given for. -/
structure Assigns (late : Catalog) (events : List TypeEvent) (x : TypeIndex) : Prop where
  oneToOne : x.OneToOne late
  resolves : ∀ key id, (key, id) ∈ assigned events → ∃ type, x.resolve id = .ok type ∧ type.key = key

theorem assigned_append (events later : List TypeEvent) :
    assigned (events ++ later) = assigned events ++ assigned later := by
  unfold assigned
  exact List.filterMap_append

/-- A call fails and leaves the index as it is, or it is about null, or it registers a type. -/
theorem serve_cases (x : TypeIndex) (call : TypeCall) :
    (∃ e, call.serve x = (.error e, x)) ∨
    (call.subject.type? = none ∧ ∃ id, call.serve x = (.ok id, x)) ∨
      ∃ type id x', call.subject.type? = some type ∧ register call.catalog type x = .ok id x' ∧
        call.serve x = (.ok id, x') := by
  have hregister {type : ValueType} (htype : call.subject.type? = some type)
      (hserve : call.serve x = outcome (register call.catalog type) x) :
      (∃ e, call.serve x = (.error e, x)) ∨
        ∃ type id x', call.subject.type? = some type ∧
          register call.catalog type x = .ok id x' ∧ call.serve x = (.ok id, x') := by
    cases hrun : register call.catalog type x with
    | error e x' =>
      rw [outcome_of_error hrun, register_error hrun] at hserve
      exact .inl ⟨e, hserve⟩
    | ok id x' =>
      rw [outcome_of_ok hrun] at hserve
      exact .inr ⟨type, id, x', htype, hrun, hserve⟩
  obtain ⟨catalog, subject⟩ := call
  cases subject with
  | declared type => exact (hregister rfl rfl).imp_right .inr
  | value v =>
    cases htype : v.type? with
    | some type =>
      refine (hregister htype ?_).imp_right .inr
      simp only [serve, idOf_of_type? htype]
    | none =>
      cases v with
      | null => exact .inr (.inl ⟨rfl, 0, rfl⟩)
      | width width => exact .inl ⟨_, rfl⟩
      | list items => exact .inl ⟨_, rfl⟩
      | _ => cases htype

/-- A call that changes nothing gives no id for a type. -/
theorem Assigns.idle (h : Assigns late events x) {answer : Except FormatError Nat}
    (hassigned : assigned [⟨call, answer⟩] = []) :
    Assigns late (events ++ [⟨call, answer⟩]) x := by
  refine ⟨h.oneToOne, fun key id hid => h.resolves key id ?_⟩
  rwa [assigned_append, hassigned, List.append_nil] at hid

/-- One call more. -/
theorem serve_assigns (h : Assigns late events x) (hcall : Before late call) :
    Assigns late (events ++ [⟨call, (call.serve x).1⟩]) (call.serve x).2 := by
  rcases serve_cases x call with ⟨e, hserve⟩ | ⟨hnone, id, hserve⟩ | ⟨type, id, x', htype, hrun, hserve⟩
  · rw [hserve]
    exact h.idle (by simp [assigned])
  · rw [hserve]
    exact h.idle (by simp [assigned, hnone])
  · obtain ⟨-, found, hfound, hreg⟩ := register_ok.mp hrun
    obtain ⟨hkey, hplain, hdecl⟩ := Catalog.resolve_ok hfound
    have hname : late.typeName found = call.catalog.typeName found :=
      (Catalog.extends_of_declarations hcall.declarations).typeName (hdecl (hcall.declared type htype))
    rw [hserve]
    refine ⟨h.oneToOne.register hname (hplain late) hreg, fun key id' hid => ?_⟩
    rw [assigned_append, List.mem_append] at hid
    rcases hid with hold | hnew
    · obtain ⟨known, hknown, hsame⟩ := h.resolves key id' hold
      exact ⟨known, resolve_grows hreg.extends hknown, hsame⟩
    · -- the id that was just given resolves to what was registered under this name
      have heq : key = type.key ∧ id' = id := by
        simpa [assigned, htype] using hnew
      obtain ⟨rfl, rfl⟩ := heq
      obtain ⟨i, rfl, hgives⟩ := hreg.gives
      obtain ⟨known, hknown, hsame⟩ := hgives.resolve
      exact ⟨known, hknown, hsame.trans hkey⟩

/-- Calls one after another, by induction on the run. -/
theorem serveAll_assigns {calls : List TypeCall} (h : Assigns late events x)
    (hcalls : ∀ call ∈ calls, Before late call) :
    Assigns late (events ++ (serveAll x calls).1) (serveAll x calls).2 := by
  induction calls generalizing events x with
  | nil =>
    show Assigns late (events ++ []) x
    rw [List.append_nil]
    exact h
  | cons call rest ih =>
    have hfirst := serve_assigns h (hcalls call List.mem_cons_self)
    have hrest := ih hfirst fun later hlater => hcalls later (List.mem_cons_of_mem _ hlater)
    rw [List.append_assoc] at hrest
    exact hrest

/-- After any calls to a new index, about types that were declared by then, whatever was declared in
between and whichever calls failed: each id that was given for a type is not zero and still resolves to
a type with the key that it was given for; two such ids are the same exactly if the keys are; no two
registered types have one name; and a call that fails leaves the index as it is. -/
theorem ids_oneToOne (calls : List TypeCall) (late : Catalog)
    (hcalls : ∀ call ∈ calls, Before late call) :
    let events := (serveAll .initial calls).1
    let x := (serveAll .initial calls).2
    (∀ key id, (key, id) ∈ assigned events →
      id ≠ 0 ∧ ∃ type, x.resolve id = .ok type ∧ type.key = key) ∧
    (∀ key id key' id', (key, id) ∈ assigned events → (key', id') ∈ assigned events →
      (id = id' ↔ key = key')) ∧
    (x.types.map late.typeName).Nodup ∧
    ∀ call e, (serve x call).1 = .error e → (serve x call).2 = x := by
  intro events x
  have hempty : Assigns late [] .initial := ⟨oneToOne_initial late, fun key id hid => nomatch hid⟩
  have hrun : Assigns late events x := serveAll_assigns hempty hcalls
  refine ⟨fun key id hid => ?_, fun key id key' id' hid hid' => ?_, hrun.oneToOne.names, ?_⟩
  · obtain ⟨type, htype, hkey⟩ := hrun.resolves key id hid
    obtain ⟨i, rfl, -⟩ := resolve_ok.mp htype
    exact ⟨Nat.succ_ne_zero i, type, htype, hkey⟩
  · obtain ⟨type, htype, rfl⟩ := hrun.resolves key id hid
    obtain ⟨type', htype', rfl⟩ := hrun.resolves key' id' hid'
    constructor
    · rintro rfl
      rw [htype, Except.ok.injEq] at htype'
      rw [htype']
    · exact hrun.oneToOne.resolve_inj htype htype'
  · intro call e hfail
    rcases serve_cases x call with ⟨e', hserve⟩ | ⟨-, id, hserve⟩ | ⟨type, id, x', -, -, hserve⟩
    · rw [hserve]
    · rw [hserve] at hfail
      cases hfail
    · rw [hserve] at hfail
      cases hfail

/-- Two schemas of one name, one declared after the other. -/
def onePoint : Catalog := (Catalog.empty.declare ⟨"Point", .managed, []⟩).2

@[inherit_doc onePoint]
def twoPoints : Catalog := (onePoint.declare ⟨"Point", .managed, []⟩).2

/-- Only the first of the two schemas gets an id. A back reference to it has the same id, and its draft
has another one. -/
theorem ids_oneToOne_points :
    let calls : List TypeCall := [⟨.empty, .declared .text⟩, ⟨onePoint, .declared (.record ⟨0, 0⟩)⟩,
      ⟨twoPoints, .declared (.record ⟨1, 0⟩)⟩, ⟨twoPoints, .declared (.back ⟨0, 0⟩ "Point")⟩,
      ⟨twoPoints, .declared (.record ⟨0, 1⟩)⟩]
    let events := (serveAll .initial calls).1
    let x := (serveAll .initial calls).2
    (∀ call ∈ calls, Before twoPoints call) ∧
    assigned events =
      [(.text, 12), (.record ⟨0, 0⟩, 13), (.record ⟨0, 0⟩, 13), (.record ⟨0, 1⟩, 14)] ∧
    (x.types.map twoPoints.typeName).Nodup := by
  intro calls events x
  have hone : Catalog.Declaration .empty onePoint := .schema (s := ⟨"Point", .managed, []⟩) rfl
  have htwo : Catalog.Declaration onePoint twoPoints := .schema (s := ⟨"Point", .managed, []⟩) rfl
  have hcalls : ∀ call ∈ calls, Before twoPoints call := by
    intro call hcall
    simp only [calls, List.mem_cons, List.not_mem_nil, or_false] at hcall
    rcases hcall with rfl | rfl | rfl | rfl | rfl
    · exact ⟨fun type h => by cases h; trivial, .head hone (.single htwo)⟩
    · exact ⟨fun type h => by cases h; exact Nat.zero_lt_one, .single htwo⟩
    · exact ⟨fun type h => by cases h; exact Nat.one_lt_two, .refl⟩
    · exact ⟨fun type h => by cases h; trivial, .refl⟩
    · exact ⟨fun type h => by cases h; exact Nat.zero_lt_two, .refl⟩
  exact ⟨hcalls, by decide, (ids_oneToOne calls twoPoints hcalls).2.2.1⟩

end TypeCall

end RecordLayout
