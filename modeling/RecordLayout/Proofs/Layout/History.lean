import Mathlib
import RecordLayout.Proofs.Layout.Fixed

/-!
# Earlier requests

Whatever a compiler has been asked before, what it answers about fixed widths is what a new compiler
answers. Compilations of other layouts ask for layouts of fixed width in passing; at such a time none
of these is running, so they find out nothing wrong.

Main results:

* `layoutWithin_quiet` — no compilation keeps a wrong answer;
* `Compiler.asked_keeps` — nor does a list of requests;
* `Compiler.asked_fixedAsNew` — layouts and placements of fixed width do not depend on earlier
  requests, and a layout is recursive exactly if its schema or, when that is laid out too, the draft
  of the schema reaches itself;
* `Compiler.recursive_not_of_circle` — layouts that are recursive because of the draft only, or because
  of a type that has been dropped.
-/

namespace RecordLayout

/-! ## Between layouts of fixed width -/

/-- A compiler inside the compilation of a layout, in which no live layout of fixed width and no live
placement is being worked out. -/
structure Between (cat : Catalog) (keys : Finset LayoutKey) (depth : Nat) (cur : LayoutKey)
    (c : Compiler) : Prop extends Honest cat keys depth cur c where
  layouts : ∀ id, cat.LiveFrom id → c.layouts.find? (id, .fixed) ≠ some .running
  placements : ∀ key rule, rule.isFixed = true → cat.LiveType key →
    c.placements.find? (key, rule) ≠ some .running

section

variable {cat : Catalog} {keys : Finset LayoutKey} {depth : Nat} {cur key : LayoutKey}
  {c c' : Compiler}

/-- Between requests nothing is being compiled that a live layout needs. -/
theorem Between.clear (h : Between cat keys depth cur c) {id : SchemaId} (hlive : cat.LiveFrom id) :
    c.Clear id := by
  have hcat := h.catalog
  subst hcat
  exact ⟨h.layouts id hlive, fun t ht => h.layouts t (hlive.ahead ht),
    fun key rule hrule htype _ => h.placements key rule hrule htype⟩

/-- After a request the compiler is between requests again. -/
theorem Between.returns (h : Between cat keys depth cur c) (hret : c.Returns c')
    (hwithin : Within cat keys depth cur c') (hfaithful : c'.Faithful) :
    Between cat keys depth cur c' :=
  ⟨⟨hwithin, hfaithful⟩, fun id hlive => mt (hret.running _).mp (h.layouts id hlive),
    fun key rule hrule hlive => mt (hret.placing _).mp (h.placements key rule hrule hlive)⟩

/-- The compilation of a layout begins that is not live, or not of the plain fixed kind. -/
theorem Between.enter (h : Between cat keys (depth + 1) cur c)
    (hkey : key.2 = .fixed → ¬cat.LiveFrom key.1) (hallow : Allows cat keys cur key)
    (hnew : c.layouts.find? key = none) :
    Between cat keys depth key (c.putLayout key .running) := by
  refine ⟨⟨h.toWithin.enter hallow hnew, h.faithful.putLayout fun result hslot => ?_⟩,
    fun t hlive => ?_, h.placements⟩
  · cases hslot
  · rw [Compiler.find?_putLayout_of_ne]
    · exact h.layouts t hlive
    · rintro rfl
      exact hkey rfl hlive

/-- So does the choice of a placement that is not live, or not of fixed width. -/
theorem Between.enterPlacement (h : Between cat keys depth cur c) {type : TypeKey}
    {rule : PlacementRule} (hkey : rule.isFixed = true → ¬cat.LiveType type)
    (hnew : c.placements.find? (type, rule) = none) :
    Between cat keys depth cur (c.putPlacement (type, rule) .running) := by
  refine ⟨⟨h.toWithin.enterPlacement hnew, h.faithful.putPlacement fun result hslot => ?_⟩,
    h.layouts, fun other rule' hrule hlive => ?_⟩
  · cases hslot
  · rw [Compiler.find?_putPlacement_of_ne]
    · exact h.placements other rule' hrule hlive
    · rintro heq
      cases heq
      exact hkey hrule hlive

/-- A step that is known to keep the contract keeps it between layouts of fixed width too, if what
it leaves behind is not wrong. -/
theorem Between.leads {α : Type} {act : CompileM α} {post : α → Compiler → Prop}
    (h : Between cat keys depth cur c) (hleads : Leads (Within cat keys depth cur) act c post)
    (hfaithful : (outcome act c).2.Faithful) : Leads (Between cat keys depth cur) act c post :=
  hleads.strengthen fun hwithin hret => h.returns hret hwithin hfaithful

/-- What leads and is followed by what leads, leads. -/
theorem Leads.followed {α β : Type} {good : Compiler → Prop} {act : CompileM α} {next : α → CompileM β}
    {handle : FormatError → CompileM β} {post : α → Compiler → Prop} {post' : β → Compiler → Prop}
    (h : Leads good act c post)
    (hnext : ∀ a c', act c = .ok a c' → good c' → post a c' → Leads good (next a) c' post')
    (hhandle : ∀ e c', act c = .error e c' → good c' → Leads good (handle e) c' post') :
    Leads good (RecordLayout.followed act next handle) c post' := by
  -- what comes after the step goes on from where the step ended
  have hthen {d : Compiler} {last : CompileM β} (hret : c.Returns d)
      (hsame : RecordLayout.followed act next handle c = last d) (hlast : Leads good last d post') :
      Leads good (RecordLayout.followed act next handle) c post' := by
    cases hrun : last d with
    | ok b e =>
      obtain ⟨hgood, hret', hpost⟩ := hlast.ok hrun
      exact .of_ok (hsame.trans hrun) hgood (hret.trans hret') hpost
    | error err e =>
      obtain ⟨hgood, hret'⟩ := hlast.error hrun
      exact .of_error (hsame.trans hrun) hgood (hret.trans hret')
  cases hrun : act c with
  | ok a d =>
    obtain ⟨hgood, hret, hpost⟩ := h.ok hrun
    exact hthen hret (by simp only [RecordLayout.followed, hrun]) (hnext a d hrun hgood hpost)
  | error e d =>
    obtain ⟨hgood, hret⟩ := h.error hrun
    exact hthen hret (by simp only [RecordLayout.followed, hrun]) (hhandle e d hrun hgood)

/-- A step keeps the contract, and fails only in some ways. -/
structure Ends {α : Type} (good : Compiler → Prop) (act : CompileM α) (c : Compiler)
    (post : α → Compiler → Prop) (fail : FormatError → Prop) : Prop where
  leads : Leads good act c post
  fails : ∀ e d, act c = .error e d → fail e

namespace Ends

variable {α β : Type} {good : Compiler → Prop} {act : CompileM α} {post : α → Compiler → Prop}
  {fail : FormatError → Prop}

/-- Less may be promised of the answer and of the failure. -/
theorem imp (h : Ends good act c post fail) {post' : α → Compiler → Prop}
    {fail' : FormatError → Prop}
    (hpost : ∀ a c', good c' → c.Returns c' → post a c' → post' a c')
    (hfail : ∀ e, fail e → fail' e) : Ends good act c post' fail' :=
  ⟨h.leads.mono hpost, fun e d hrun => hfail e (h.fails e d hrun)⟩

/-- Two things are known of the same run. -/
theorem and (h : Ends good act c post fail) {good' : Compiler → Prop}
    {post' : α → Compiler → Prop} (h' : Leads good' act c post') :
    Ends good act c (fun a c' => post a c' ∧ post' a c') fail := by
  refine ⟨?_, h.fails⟩
  cases hrun : act c with
  | ok a c' =>
    obtain ⟨hgood, hret, hpost⟩ := h.leads.ok hrun
    exact .of_ok hrun hgood hret ⟨hpost, (h'.ok hrun).2.2⟩
  | error e c' =>
    obtain ⟨hgood, hret⟩ := h.leads.error hrun
    exact .of_error hrun hgood hret

/-- What ends well and is followed by what ends well, ends well. -/
theorem followed (h : Ends good act c post fail) {next : α → CompileM β}
    {handle : FormatError → CompileM β} {post' : β → Compiler → Prop} {fail' : FormatError → Prop}
    (hnext : ∀ a c', good c' → c.Returns c' → post a c' → Ends good (next a) c' post' fail')
    (hhandle : ∀ e c', good c' → fail e → Ends good (handle e) c' post' fail') :
    Ends good (RecordLayout.followed act next handle) c post' fail' := by
  have hok {a : α} {d : Compiler} (hact : act c = .ok a d) : Ends good (next a) d post' fail' := by
    obtain ⟨hd, hret, ha⟩ := h.leads.ok hact
    exact hnext a d hd hret ha
  have herror {e : FormatError} {d : Compiler} (hact : act c = .error e d) :
      Ends good (handle e) d post' fail' :=
    hhandle e d (h.leads.error hact).1 (h.fails e d hact)
  refine ⟨h.leads.followed (fun a d hact _ _ => (hok hact).leads)
    fun e d hact _ => (herror hact).leads, fun e d hrun => ?_⟩
  simp only [RecordLayout.followed] at hrun
  split at hrun
  · rename_i hact
    exact (hok hact).fails e d hrun
  · rename_i hact
    exact (herror hact).fails e d hrun

/-- A sequence of what ends well ends well. -/
theorem bind (h : Ends good act c post fail) {next : α → CompileM β}
    {post' : β → Compiler → Prop}
    (hnext : ∀ a c', good c' → c.Returns c' → post a c' → Ends good (next a) c' post' fail) :
    Ends good (act >>= next) c post' fail := by
  rw [← followed_throw]
  exact h.followed hnext fun e c' hc' he => ⟨.throw hc', fun e' d hrun => by cases hrun; exact he⟩

end Ends

/-- A step ends well from every state of some sort. The second step is left aside. -/
def Keeps (good : Compiler → Prop) {α : Type} (act _other : CompileM α) (post : α → Prop)
    (fail : FormatError → Prop) : Prop :=
  ∀ c, good c → Ends good act c (fun a _ => post a) fail

/-- Keeping a compiler good is a judgement. -/
theorem Keeps.compatible {good : Compiler → Prop} (hcat : ∀ c, good c → c.catalog = cat) :
    Compatible cat (Keeps good) where
  pure hpost := fun c hc => ⟨.pure hc hpost, fun e d hrun => by cases hrun⟩
  throw hfail := fun c hc => ⟨.throw hc, fun e d hrun => by cases hrun; exact hfail⟩
  followed h hnext hhandle := fun c hc =>
    (h c hc).followed (fun a d hd _ ha => hnext a ha d hd) fun e d hd he => hhandle e he d hd
  catalog := fun c hc => ⟨(Leads.theCatalog hc).mono fun a _ _ _ ha => ha.2.trans (hcat c hc),
    fun e d hrun => by cases hrun⟩

/-! ## Compilations in passing -/

/-- Asking for a layout from within leaves no wrong answer behind. -/
def Quiet (cat : Catalog) (keys : Finset LayoutKey) (depth : Nat) : Prop :=
  ∀ cur key c, Allows cat keys cur key → Between cat keys depth cur c →
    (outcome (layoutWithin depth key.1 key.2) c).2.Faithful

/-- A quiet request for a layout keeps the compiler between requests. -/
theorem Quiet.keeps (hquiet : Quiet cat keys depth) (hallow : Allows cat keys cur key) :
    Keeps (Between cat keys depth cur) (layoutWithin depth key.1 key.2)
      (layoutWithin depth key.1 key.2) (fun _ => True) fun _ => True := by
  refine fun c h => ⟨?_, fun _ _ _ => trivial⟩
  have hleads := (layoutWithin_serves cat keys depth cur key hallow).leads h.toWithin
  exact h.leads (hleads.mono fun _ _ _ _ _ => trivial) (hquiet cur key c hallow h)

/-- A placement's request leaves no wrong answer behind. -/
theorem placementWith_faithful (hquiet : Quiet cat keys depth) (h : Between cat keys depth cur c)
    {type : ValueType} (href : cat.Refers type) (rule : PlacementRule) :
    (outcome (placementWith (layoutWithin depth) type rule) c).2.Faithful := by
  have hcat := h.catalog
  subst hcat
  by_cases hlive : rule.isFixed = true ∧ c.catalog.LiveType type.key
  · obtain ⟨hrule, hlive⟩ := hlive
    obtain ⟨c', hrun, hc', -⟩ := placementWith_tells hlive h.toHonest hrule href
      (fun id hid => ⟨settled (hlive.held id hid), h.clear (hlive.held id hid)⟩)
      (h.placements _ _ hrule hlive)
    rw [hrun]
    exact hc'.faithful
  · -- of any other placement nothing is said, so only what it asks for matters
    have hother (hrule : rule.isFixed = true) : ¬c.catalog.LiveType type.key := not_and.mp hlive hrule
    have hput {d : Compiler} (slot : MemoSlot FormatError Placement) (hcat : d.catalog = c.catalog)
        (hd : d.Faithful) : (d.putPlacement (type.key, rule) slot).Faithful := by
      refine hd.putPlacement fun result _ hrule htype => ?_
      rw [hcat] at htype
      exact (hother hrule htype).elim
    refine placementWith_leaves h.faithful (fun _ e _ => hput _ rfl (hput _ rfl h.faithful))
      fun hfind resolved result d hresolve hrun => ?_
    obtain ⟨-, hrefers⟩ := Catalog.resolve_key hresolve
    have hplace := (Keeps.compatible fun d (hd : Between c.catalog keys depth cur d) =>
      hd.catalog).place h.good.closed (fun id hid _ => hquiet.keeps
        ⟨(h.covers.declared id hid).2, fun hkind => by cases hkind⟩) (hrefers href) rule
    obtain ⟨hd, -⟩ := (hplace _ (h.enterPlacement hother hfind)).leads.of_outcome hrun
    exact hput _ hd.catalog hd.faithful

/-- A placement's request keeps the compiler between requests. -/
theorem placementWith_between (hquiet : Quiet cat keys depth) (h : Between cat keys depth cur c)
    {type : ValueType} {rule : PlacementRule} (href : cat.Refers type) :
    Leads (Between cat keys depth cur) (placementWith (layoutWithin depth) type rule) c
      fun p c' => c'.placementAnswer (type.key, rule) = some p :=
  h.leads (placementWith_leads (layoutWithin_serves _ _ _ _) h.toWithin fun _ => href)
    (placementWith_faithful hquiet h href rule)

/-- A compilation of any kind keeps no wrong answer, if the compilations that it asks for do not. -/
theorem compileLayout_between (hquiet : Quiet cat keys depth) {id : SchemaId} {kind : LayoutKind} :
    Keeps (Between cat keys depth (id, kind)) (compileLayout (layoutWithin depth) id kind)
      (compileLayout (layoutWithin depth) id kind) (fun _ => True) fun _ => True := by
  refine (Keeps.compatible fun d hd => hd.catalog).compileLayout (fun _ _ => trivial)
    (fun t kind' (ht : Allows cat keys (id, kind) (t, kind')) => hquiet.keeps ht)
    (fun _ _ => trivial) (fun _ f hf type rule hshape d hd => ?_) fun _ himm d hd => ?_
  · have href := hd.good.closed.refers (hd.catalog ▸ hf) hshape
    exact ⟨(placementWith_between hquiet hd (hd.catalog ▸ href)).mono
      fun p d' hd' _ hp => hd'.allows_placed hf hshape hp, fun _ _ _ => trivial⟩
  · have hallow : Allows cat keys (id, kind) (id.toDraft, kind) :=
      ⟨hd.covers.drafts id kind hd.mem himm, fun hstandard => ⟨hstandard, .refl⟩⟩
    exact hquiet.keeps hallow d hd

/-- No compilation leaves a wrong answer behind. -/
theorem layoutWithin_quiet (cat : Catalog) (keys : Finset LayoutKey) (depth : Nat) :
    Quiet cat keys depth := by
  induction depth with
  | zero => exact fun cur key c _ h => absurd h.depth_pos (Nat.lt_irrefl 0)
  | succ depth ih =>
    intro cur key c hallow h
    obtain ⟨id, kind⟩ := key
    by_cases hlive : kind = .fixed ∧ cat.LiveFrom id
    · obtain ⟨rfl, hlive⟩ := hlive
      obtain ⟨d, hrun, hd, -⟩ :=
        settled hlive keys (depth + 1) cur c h.toHonest hallow (h.clear hlive)
      rw [hrun]
      exact hd.faithful
    · refine layoutWithin_leaves h.faithful fun hfind result d hrun => ?_
      obtain ⟨hd, -⟩ := (compileLayout_between ih _
        (h.enter (not_and.mp hlive) hallow hfind)).leads.of_outcome hrun
      refine hd.faithful.putLayout fun _ _ hkind hfrom => ?_
      rw [hd.catalog] at hfrom
      exact (hlive ⟨hkind, hfrom⟩).elim

/-- Asking for a layout keeps the compiler between requests. -/
theorem layoutWithin_between (hallow : Allows cat keys cur key) (h : Between cat keys depth cur c) :
    Leads (Between cat keys depth cur) (layoutWithin depth key.1 key.2) c fun _ _ => True :=
  ((layoutWithin_quiet cat keys depth).keeps hallow c h).leads

end

/-! ## Requests -/

namespace Compiler

/-- What a compiler may be asked for. -/
inductive Request where
  | layout (id : SchemaId) (kind : LayoutKind)
  | placement (type : ValueType) (rule : PlacementRule)

namespace Request

/-- A type that is to be placed is declared. -/
def Declared (cat : Catalog) : Request → Prop
  | .layout _ _ => True
  | .placement type _ => cat.Refers type

/-- What the compiler has become after the request, whether or not it succeeded. -/
def run (c : Compiler) : Request → Compiler
  | .layout id kind => (outcome (Compiler.layout id kind) c).2
  | .placement type rule => (outcome (Compiler.placement type rule) c).2

end Request

/-- What a new compiler has become after some requests. -/
def asked (cat : Catalog) (requests : List Request) : Compiler :=
  requests.foldl Request.run (ofCatalog cat)

variable {c : Compiler}

/-- A layout's request runs with the depth that the catalog needs. -/
theorem layout_eq (id : SchemaId) (kind : LayoutKind) (c : Compiler) :
    Compiler.layout id kind c = layoutWithin c.catalog.compileDepth id kind c :=
  rfl

/-- A placement depends only on the layouts that are answered. -/
theorem place_congr {layoutOf layoutOf' : LayoutOf}
    (h : ∀ id kind, layoutOf id kind c = layoutOf' id kind c) (type : ValueType)
    (rule : PlacementRule) : place layoutOf type rule c = place layoutOf' type rule c := by
  -- only a fixed placement asks for a layout, and it asks both compilers the same
  have hrecord (id : SchemaId) :
      (if (c.catalog.schema id).isUnmanaged then pure (.handle id rule.isFixed)
        else if rule.isFixed then placeFixedRecord layoutOf id
        else pure (.inlineRecord id) : CompileM Placement) c =
      (if (c.catalog.schema id).isUnmanaged then pure (.handle id rule.isFixed)
        else if rule.isFixed then placeFixedRecord layoutOf' id
        else pure (.inlineRecord id) : CompileM Placement) c := by
    have hfixed : placeFixedRecord layoutOf id c = placeFixedRecord layoutOf' id c := by
      simp only [placeFixedRecord, h]
    split
    · rfl
    · split
      · exact hfixed
      · rfl
  cases type with
  | wrapper id =>
    show (if rule.isFixed then placeFixedWrapper layoutOf id (c.catalog.wrapper id) else _ :
      CompileM _) c = (if rule.isFixed then placeFixedWrapper layoutOf' id (c.catalog.wrapper id)
        else _ : CompileM _) c
    have hfixed : placeFixedWrapper layoutOf id (c.catalog.wrapper id) c =
        placeFixedWrapper layoutOf' id (c.catalog.wrapper id) c := by
      simp only [placeFixedWrapper, h]
    split
    · exact hfixed
    · rfl
  | record id => exact hrecord id
  | back id name => exact hrecord id
  | _ => rfl

/-- Asking for a placement from outside is as asking for it with enough depth. -/
theorem placement_eq (type : ValueType) (rule : PlacementRule) (c : Compiler) :
    Compiler.placement type rule c =
      placementWith (layoutWithin c.catalog.compileDepth) type rule c := by
  have hbody : (do
      let cat ← theCatalog
      let resolved ← ofExcept (cat.resolve type)
      place layout resolved rule) (c.putPlacement (type.key, rule) .running) = (do
      let cat ← theCatalog
      let resolved ← ofExcept (cat.resolve type)
      place (layoutWithin c.catalog.compileDepth) resolved rule)
        (c.putPlacement (type.key, rule) .running) := by
    refine bind_congr_ok fun cat d hcat => ?_
    cases hcat
    refine bind_congr_ok fun resolved d hresolve => ?_
    obtain ⟨-, rfl⟩ := ofExcept_ok.mp hresolve
    exact place_congr (fun id kind => layout_eq id kind _) resolved rule
  have hstart : placementMemo.set ((placementMemo.get c).insert (type.key, rule) .running) c =
    c.putPlacement (type.key, rule) .running := rfl
  simp only [placement, placementWith, Memo.fetch, hstart, hbody]

/-- Nothing is running in a compiler that is at rest. -/
theorem Resting.between (h : c.Resting) (hfaithful : c.Faithful) (cur : LayoutKey) :
    Between c.catalog (everyLayout c.catalog cur) c.catalog.compileDepth cur c :=
  ⟨⟨h.within cur, hfaithful⟩, fun _ _ => h.running _, fun _ _ _ _ => h.placing _⟩

/-- A request leaves no wrong answer behind. -/
theorem Request.run_keeps {cat : Catalog} (hcat : c.catalog = cat) (hrest : c.Resting)
    (hfaithful : c.Faithful) {r : Request} (hr : r.Declared cat) :
    c.Returns (r.run c) ∧ (r.run c).Resting ∧ (r.run c).Faithful := by
  subst hcat
  -- the contract says it all
  have hkept {c' : Compiler} {cur : LayoutKey} (h : Between c.catalog (everyLayout c.catalog cur)
      c.catalog.compileDepth cur c' ∧ c.Returns c') : c.Returns c' ∧ c'.Resting ∧ c'.Faithful :=
    ⟨h.2, hrest.returns h.2 h.1.good, h.1.faithful⟩
  cases r with
  | layout id kind =>
    have hallow : Allows c.catalog (everyLayout c.catalog (id, kind)) (id, kind) (id, kind) :=
      ⟨mem_everyLayout.mpr (Or.inl rfl), fun hkind => ⟨hkind, .refl⟩⟩
    exact hkept ((layoutWithin_between hallow (hrest.between hfaithful (id, kind))).of_outcome rfl)
  | placement type rule =>
    have hsame : (Request.placement type rule).run c =
        (outcome (placementWith (layoutWithin c.catalog.compileDepth) type rule) c).2 := by
      simp only [run, outcome, placement_eq]
    rw [hsame]
    exact hkept ((placementWith_between (layoutWithin_quiet _ _ _)
      (hrest.between hfaithful (⟨0, 0⟩, .standard)) hr).of_outcome rfl)

/-- After any requests the compiler is at rest and faithful to the catalog. -/
theorem asked_keeps {cat : Catalog} (hclosed : cat.Closed) {requests : List Request}
    (hrequests : ∀ r ∈ requests, r.Declared cat) :
    (asked cat requests).catalog = cat ∧ (asked cat requests).Resting ∧
      (asked cat requests).Faithful := by
  have hgen : ∀ (requests : List Request) (c : Compiler), (∀ r ∈ requests, r.Declared cat) →
      c.catalog = cat → c.Resting → c.Faithful →
      (requests.foldl Request.run c).catalog = cat ∧ (requests.foldl Request.run c).Resting ∧
        (requests.foldl Request.run c).Faithful := by
    intro requests
    induction requests with
    | nil => exact fun c _ hcat hrest hfaithful => ⟨hcat, hrest, hfaithful⟩
    | cons r rest ih =>
      intro c hall hcat hrest hfaithful
      obtain ⟨hret, hrest', hfaithful'⟩ :=
        Request.run_keeps hcat hrest hfaithful (hall r List.mem_cons_self)
      exact ih _ (fun q hq => hall q (List.mem_cons_of_mem _ hq)) (hret.catalog.trans hcat) hrest'
        hfaithful'
  exact hgen requests _ hrequests rfl (resting_ofCatalog hclosed) (faithful_ofCatalog cat)

/-- A request leaves a compiler at rest, even if types have been outlived. -/
theorem Request.run_resting (hrest : c.Resting) {r : Request} (hr : r.Declared c.catalog) :
    c.Returns (r.run c) ∧ (r.run c).Resting := by
  cases r with
  | layout id kind =>
    obtain ⟨d, hd, hret, ⟨l, hrun, -⟩ | ⟨e, hrun, -⟩⟩ := Resting.answers (id, kind) c hrest
    · rw [run, outcome_of_ok hrun]
      exact ⟨hret, hd⟩
    · rw [run, outcome_of_error hrun]
      exact ⟨hret, hd⟩
  | placement type rule =>
    have hserve := Resting.serves c.catalog (everyLayout c.catalog (⟨0, 0⟩, .standard))
      (⟨0, 0⟩, .standard)
    have hrun : outcome (Compiler.placement type rule) c =
      ((outcome (Compiler.placement type rule) c).1, (placement type rule).run c) := rfl
    obtain ⟨hin, hret⟩ :=
      (placementWith_leads hserve (hrest.within (⟨0, 0⟩, .standard)) fun _ => hr).of_outcome hrun
    exact ⟨hret, hrest.returns hret hin.good⟩

/-- After any requests the compiler is at rest. -/
theorem asked_resting {cat : Catalog} (hclosed : cat.Closed) {requests : List Request}
    (hrequests : ∀ r ∈ requests, r.Declared cat) :
    (asked cat requests).catalog = cat ∧ (asked cat requests).Resting := by
  induction requests using List.reverseRecOn with
  | nil => exact ⟨rfl, resting_ofCatalog hclosed⟩
  | append_singleton before r ih =>
    obtain ⟨hcat, hrest⟩ := ih fun q hq => hrequests q (List.mem_append_left _ hq)
    have hr := hrequests r (List.mem_append_right _ (List.mem_singleton_self r))
    rw [asked, List.foldl_concat]
    obtain ⟨hret, hrest'⟩ := Request.run_resting hrest (hcat ▸ hr)
    exact ⟨hret.catalog.trans hcat, hrest'⟩

/-! ## Answers about fixed widths -/

namespace Resting

variable {cat : Catalog}

/-- A compiler at rest answers a fixed layout as the specification does. -/
theorem fixedLayout {id : SchemaId} (hlive : cat.LiveFrom id) (hcat : c.catalog = cat)
    (h : c.Resting) (hfaithful : c.Faithful) :
    (outcome (Compiler.layout id .fixed) c).1 = cat.fixedLayout id := by
  subst hcat
  have hbetween := h.between hfaithful (id, .fixed)
  have hallow : Allows c.catalog (everyLayout c.catalog (id, .fixed)) (id, .fixed) (id, .fixed) :=
    ⟨mem_everyLayout.mpr (Or.inl rfl), fun hkind => ⟨hkind, .refl⟩⟩
  obtain ⟨c', hrun, -⟩ := settled hlive _ _ _ c hbetween.toHonest hallow (hbetween.clear hlive)
  simp only [outcome, layout_eq] at hrun ⊢
  rw [hrun]

/-- A compiler at rest answers a fixed placement as the specification does. -/
theorem fixedPlacement {type : ValueType} (hlive : cat.LiveType type.key) (hcat : c.catalog = cat)
    (h : c.Resting) (hfaithful : c.Faithful) (href : cat.Refers type) {rule : PlacementRule}
    (hrule : rule.isFixed = true) :
    (outcome (Compiler.placement type rule) c).1 = cat.fixedPlacement type.key := by
  subst hcat
  have hbetween := h.between hfaithful (⟨0, 0⟩, .standard)
  obtain ⟨c', hrun, -⟩ := placementWith_tells hlive hbetween.toHonest hrule href
    (fun id hid => ⟨settled (hlive.held id hid), hbetween.clear (hlive.held id hid)⟩)
    (hbetween.placements _ _ hrule hlive)
  simp only [outcome, placement_eq] at hrun ⊢
  rw [hrun]

/-- The fields of a layout of fixed width have fixed sizes. -/
theorem fixedSizes (h : c.Resting) {id : SchemaId} {l : Layout}
    (hlayout : (outcome (Compiler.layout id .fixed) c).1 = .ok l) :
    ∀ f ∈ l.fields, f.size.isFixed = true := by
  obtain ⟨hrest, -, hanswer⟩ := h.layout (outcome_eq_ok.mp (Prod.ext hlayout rfl))
  have hgood := hrest.good.layouts id .fixed l hanswer
  intro f hf
  obtain ⟨decl, hfield⟩ := hgood.fields.declared hf
  exact (hfield.sized.isFixed_iff hrest.good).mpr (hgood.fixed rfl f hf)

end Resting

/-- What is answered about fixed widths is what a new compiler answers. The failure that names a schema
as recursive means that the schema reaches itself through what stands in its fields, and a layout has
fields of fixed size only. -/
structure FixedAsNew (cat : Catalog) (c : Compiler) (id : SchemaId) : Prop where
  layout : (outcome (Compiler.layout id .fixed) c).1 =
    (outcome (Compiler.layout id .fixed) (.ofCatalog cat)).1
  placement : ∀ type rule, cat.Refers type → rule.isFixed = true →
    (outcome (Compiler.placement type rule) c).1 =
      (outcome (Compiler.placement type rule) (.ofCatalog cat)).1
  circle : (outcome (Compiler.layout id .fixed) c).1 =
      .error (.recursiveCompile (.inlineCycle (cat.schema id).name)) ↔
    Relation.TransGen cat.Embeds id id
  /-- An immutable schema has its draft laid out after its own fields, so that a draft that reaches
  itself makes the layout recursive too. There is no other way. -/
  recursive : (∃ why, (outcome (Compiler.layout id .fixed) c).1 = .error (.recursiveCompile why)) ↔
    Relation.TransGen cat.Embeds id id ∨ (cat.schema id).isImmutable = true ∧
      (∃ fields, cat.fixedFields id = .ok fields) ∧
        Relation.TransGen cat.Embeds id.toDraft id.toDraft
  sizes : ∀ l, (outcome (Compiler.layout id .fixed) c).1 = .ok l →
    ∀ f ∈ l.fields, f.size.isFixed = true

/-- Answers about fixed widths do not depend on earlier requests. -/
theorem asked_fixedAsNew {cat : Catalog} (hlive : cat.Live) {requests : List Request}
    (hrequests : ∀ r ∈ requests, r.Declared cat) (id : SchemaId) :
    FixedAsNew cat (asked cat requests) id := by
  obtain ⟨hcat, hrest, hfaithful⟩ := asked_keeps hlive.toClosed hrequests
  have hfrom := hlive.liveFrom id
  have hlayout := hrest.fixedLayout hfrom hcat hfaithful
  have hnew : (ofCatalog cat).Resting := resting_ofCatalog hlive.toClosed
  refine ⟨?_, fun type rule href hrule => ?_, ?_, ?_, fun l hl => hrest.fixedSizes hl⟩
  · rw [hlayout, hnew.fixedLayout hfrom rfl (faithful_ofCatalog cat)]
  · have htype := hlive.liveType href
    rw [hrest.fixedPlacement htype hcat hfaithful href hrule,
      hnew.fixedPlacement htype rfl (faithful_ofCatalog cat) href hrule]
  · rw [hlayout]
    refine ⟨fun hfail => ?_, hfrom.fixedLayout_of_circle⟩
    rcases hfrom.circle_of_recursive hfail rfl with hcircle | ⟨-, -, -, hname⟩
    · exact hcircle
    · -- the draft has another name
      injection hname with htarget
      injection htarget with hname
      have hlength := congrArg String.length hname
      rw [Catalog.schema_toDraft, Schema.draft, String.length_append] at hlength
      have hsuffix : "$Builder".length = 8 := rfl
      omega
  · rw [hlayout]
    constructor
    · rintro ⟨why, hfail⟩
      exact (hfrom.circle_of_recursive hfail rfl).imp_right fun ⟨himm, hfields, hcircle, _⟩ =>
        ⟨himm, hfields, hcircle⟩
    · intro h
      by_cases hown : Relation.TransGen cat.Embeds id id
      · exact ⟨_, hfrom.fixedLayout_of_circle hown⟩
      · obtain ⟨himm, ⟨fields, hfields⟩, hcircle⟩ := h.resolve_left hown
        exact ⟨_, hfrom.fixedLayout_of_draft hown himm hfields hcircle⟩

/-- An immutable leaf names a branch, and the branch names the draft of the leaf. -/
def leaning : Catalog :=
  ⟨[⟨⟨"Leaf", .immutable (fun _ _ => none),
      [⟨"branch", .value (.back ⟨1, 0⟩ "Branch") .flexible, true, [], none⟩]⟩, true⟩,
    ⟨⟨"Branch", .managed, [⟨"leaf", .value (.record ⟨0, 1⟩) .flexible, true, [], none⟩]⟩, true⟩],
    [], []⟩

/-- The leaning types are all in use. -/
theorem leaning_live : leaning.Live := by decide

/-- The leaf does not reach itself, only its draft does. Its layout is recursive all the same. -/
theorem leaning_recursive : leaning.Live ∧ ¬Relation.TransGen leaning.Embeds ⟨0, 0⟩ ⟨0, 0⟩ ∧
    (outcome (Compiler.layout ⟨0, 0⟩ .fixed) (asked leaning [])).1 =
      .error (.recursiveCompile (.inlineCycle "Leaf$Builder")) := by
  refine ⟨leaning_live, ?_, by decide +kernel⟩
  rw [← (leaning_live.liveFrom _).standsInItself_iff]
  decide +kernel

/-- A number before a record that refers back to what holds the number. -/
def lent : Catalog :=
  ⟨[⟨⟨"Lender", .managed, [⟨"taken", .value (.record ⟨2, 0⟩) .flexible, false, [], none⟩]⟩, true⟩,
    ⟨⟨"Note", .managed, [⟨"count", .varint, false, [], some (.lengthOf "bytes")⟩,
      ⟨"bytes", .array .u8 "count", false, [], none⟩,
      ⟨"from", .value (.back ⟨0, 0⟩ "Lender") .flexible, true, [], none⟩]⟩, true⟩,
    ⟨⟨"Taken", .managed, [⟨"number", .varint, false, [], none⟩,
      ⟨"note", .value (.record ⟨1, 0⟩) .flexible, true, [], none⟩]⟩, true⟩], [], []⟩

/-- The lent types are all in use. -/
theorem lent_live : lent.Live := by decide

/-- What a new compiler has become once it has been asked for the layout of what is taken. -/
def lentAsked : Compiler := asked lent [.layout ⟨2, 0⟩ .fixed]

/-- The types that are left when nobody holds the lender any more. -/
def lentLeft : Catalog := lent.retain ([.record ⟨1, 0⟩, .record ⟨2, 0⟩] ++ lentAsked.types)

/-- What has been found recursive stays so, although what is left does not reach itself any more: a new
compiler lays it out. -/
theorem lent_recursive : lentLeft.standsInItself ⟨2, 0⟩ = false ∧
    (outcome (Compiler.layout ⟨2, 0⟩ .fixed) { lentAsked with catalog := lentLeft }).1 =
      .error (.recursiveCompile (.inlineCycle "Taken")) ∧
    (outcome (Compiler.layout ⟨2, 0⟩ .fixed) (ofCatalog lentLeft)).1.toOption.isSome = true := by
  decide +kernel

/-- A layout may be recursive although its schema does not reach itself: because the draft does, or
because the schema did when it was asked for, by way of a type that has been dropped since. -/
theorem recursive_not_of_circle :
    (leaning.Live ∧ ¬Relation.TransGen leaning.Embeds ⟨0, 0⟩ ⟨0, 0⟩ ∧
      (outcome (Compiler.layout ⟨0, 0⟩ .fixed) (asked leaning [])).1 =
        .error (.recursiveCompile (.inlineCycle "Leaf$Builder"))) ∧
    lent.Live ∧ lentLeft.standsInItself ⟨2, 0⟩ = false ∧
      (outcome (Compiler.layout ⟨2, 0⟩ .fixed) { lentAsked with catalog := lentLeft }).1 =
        .error (.recursiveCompile (.inlineCycle "Taken")) ∧
      ∃ l, (outcome (Compiler.layout ⟨2, 0⟩ .fixed) (ofCatalog lentLeft)).1 = .ok l := by
  obtain ⟨hflex, hkept, hnew⟩ := lent_recursive
  refine ⟨leaning_recursive, lent_live, hflex, hkept, ?_⟩
  cases hresult : (outcome (Compiler.layout ⟨2, 0⟩ .fixed) (ofCatalog lentLeft)).1 with
  | ok l => exact ⟨l, rfl⟩
  | error e =>
    rw [hresult] at hnew
    cases hnew

/-! ## Linked records -/

/-- Immutable nodes that name the next node, and a record that holds a node. -/
def linked : Catalog :=
  ⟨[⟨⟨"Node", .immutable (fun _ _ => none), [⟨"value", .scalar .u8, false, [], none⟩,
      ⟨"next", .value (.back ⟨0, 0⟩ "Node") .flexible, true, [], none⟩]⟩, true⟩,
    ⟨⟨"Holder", .managed, [⟨"node", .value (.record ⟨0, 0⟩) .fixed, false, [], none⟩]⟩, true⟩], [], []⟩

/-- The linked types are all in use. -/
theorem linked_live : linked.Live := by decide

/-- The draft of the nodes is laid out before the nodes, and a node is placed at a fixed width. -/
def linkedRequests : List Request :=
  [.layout ⟨0, 1⟩ .standard, .layout ⟨0, 0⟩ .standard, .layout ⟨1, 0⟩ (.varying []),
    .placement (.record ⟨0, 0⟩) .varying]

/-- The linked types are compiled after some requests as they are at first. -/
theorem asked_fixedAsNew_linked : linked.Live ∧ (∀ r ∈ linkedRequests, r.Declared linked) ∧
    ∀ id, FixedAsNew linked (asked linked linkedRequests) id := by
  have hdeclared : ∀ r ∈ linkedRequests, r.Declared linked := by
    intro r hr
    rcases List.mem_cons.mp hr with rfl | hr
    · trivial
    rcases List.mem_cons.mp hr with rfl | hr
    · trivial
    rcases List.mem_cons.mp hr with rfl | hr
    · trivial
    rw [List.mem_singleton.mp hr]
    exact ⟨by decide, by decide⟩
  exact ⟨linked_live, hdeclared, fun id => asked_fixedAsNew linked_live hdeclared id⟩

end Compiler

end RecordLayout
