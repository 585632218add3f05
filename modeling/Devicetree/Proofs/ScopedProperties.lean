import Devicetree.Proofs.Directives
import Devicetree.Proofs.Versions
import Mathlib.Data.List.Find

namespace Devicetree.Proofs

def Leads (g : Graph) : PropertyId → PropertyId → Prop :=
  Relation.ReflTransGen fun a b => (g.property a).replacedBy = some b

theorem Leads.since {g g' : Graph} (hs : Since g g') {p q : PropertyId} (h : Leads g p q) :
    Leads g' p q := by
  induction h with
  | refl => exact .refl
  | tail _ hlink ih =>
    have has := has_property_of_link Property.replacedBy rfl hlink
    exact ih.tail ((hs.property _ has).replacedBy _ hlink)

theorem Newer.leads_mem {g : Graph} {o p q : PropertyId} {l : List PropertyId} (hn : Newer g o l)
    (hp : p ∈ l) (h : Leads g p q) : q ∈ l := by
  induction h with
  | refl => exact hp
  | tail _ hlink ih => exact hn.next_mem ih hlink

theorem Newer.getLast_of_not_replaced {g : Graph} {o q : PropertyId} {l : List PropertyId}
    (hn : Newer g o l) (hq : q ∈ l) (hlast : (g.property q).replacedBy = none) :
    l.getLast? = some q := by
  induction hn with
  | last => simp [List.mem_singleton.mp hq]
  | next hnext htail ih =>
    rcases List.mem_cons.mp hq with rfl | hm
    · rw [hlast] at hnext
      cases hnext
    · rw [List.getLast?_cons, ih hm]
      rfl

/-- The last version of a chain is the one that none replaces. -/
theorem Ledger.chain_last {g : Graph} (hl : Ledger g) {p q : PropertyId} (h : Leads g p q)
    (hlast : (g.property q).replacedBy = none) : (g.versionChain p).getLast? = some q := by
  have hc := hl.chained p
  obtain ⟨o, _, hn⟩ := hc.walk
  exact hn.getLast_of_not_replaced (hn.leads_mem hc.mem h) hlast

section Lookup
variable (g : Graph) (scope : Scope) (id : NodeId) (name : String)

def record? : Option DeletedProperty :=
  (g.node id).deletedProperties.find? fun r =>
    !scope r.directive && decide ((g.property r.property).name = name)

theorem property_in_scope_eq : g.propertyInScope? scope id name =
    ((record? g scope id name).map DeletedProperty.property <|> g.liveProperty? id name) := rfl

end Lookup

section Preserved
variable {g g' : Graph} {scope : Scope} {id : NodeId} {name : String} {q : PropertyId}

theorem property_in_scope_cases (h : g.propertyInScope? scope id name = some q) :
    (∃ d, record? g scope id name = some ⟨q, d⟩) ∨
      (record? g scope id name = none ∧ g.liveProperty? id name = some q) := by
  rw [property_in_scope_eq] at h
  cases hr : record? g scope id name with
  | none => exact Or.inr ⟨rfl, by simpa [hr] using h⟩
  | some r =>
    obtain rfl : r.property = q := by simpa [hr] using h
    exact Or.inl ⟨r.directive, rfl⟩

/-- What a lookup finds is not replaced: it is current, or the last version before a deletion. -/
theorem Ledger.in_scope_not_replaced (hl : Ledger g) (h : g.propertyInScope? scope id name = some q) :
    (g.property q).replacedBy = none := by
  rcases property_in_scope_cases h with ⟨d, hr⟩ | ⟨_, hlive⟩
  · have hdeleted := hl.record id _ (List.mem_of_find?_eq_some hr)
    cases hrep : (g.property q).replacedBy with
    | none => rfl
    | some r =>
      rw [(hl.superseded hrep).not_deleted] at hdeleted
      cases hdeleted
  · exact (hl.current id name q hlive).not_replaced

/-- Records tell the same as long as they and the names in them do. -/
theorem record_congr (hb : Bounded g) (hs : Since g g')
    (h : (g'.node id).deletedProperties = (g.node id).deletedProperties) :
    record? g' scope id name = record? g scope id name := by
  unfold record?
  rw [h]
  apply List.find?_congr
  intro r hr
  rw [(hs.property r.property ((hb.node id).deletedProperties r hr).1).name]

theorem in_scope_congr (hb : Bounded g) (hs : Since g g')
    (holdings : Holdings.of (g'.node id) = Holdings.of (g.node id)) :
    g'.propertyInScope? scope id name = g.propertyInScope? scope id name := by
  have htable : (g'.node id).properties = (g.node id).properties :=
    congrArg Holdings.properties holdings
  rw [property_in_scope_eq, property_in_scope_eq,
    record_congr hb hs (congrArg Holdings.deletedProperties holdings), Graph.liveProperty?, htable]
  rfl

/-- A new version becomes the answer where the one that it replaces was. -/
theorem in_scope_setProperty (hs : Sound g) (hl : Ledger g) {owner : NodeId} (key : String)
    (values : List Value) (labels : List LabelMark) (site : Site) (has : HasNode g owner)
    (hsince : Since g (g.setProperty owner key values labels site))
    (h : g.propertyInScope? scope id name = some q) :
    (g.setProperty owner key values labels site).propertyInScope? scope id name = some q ∨
      ∃ r, (g.setProperty owner key values labels site).propertyInScope? scope id name = some r ∧
        ((g.setProperty owner key values labels site).property q).replacedBy = some r := by
  have hrecords : record? (g.setProperty owner key values labels site) scope id name =
      record? g scope id name :=
    record_congr hs.bounded hsince (view_setProperty g owner key values labels site
      Node.deletedProperties has (fun _ _ _ => rfl) id)
  rw [property_in_scope_eq, hrecords, live_property_setProperty key values labels site has]
  rcases property_in_scope_cases h with ⟨d, hr⟩ | ⟨hr, hlive⟩
  · exact Or.inl (by simp [hr])
  · by_cases hk : id = owner ∧ key = name
    · obtain ⟨rfl, rfl⟩ := hk
      have hsuper := superseded_setProperty key values labels site hl hs.bounded hlive
      exact Or.inr ⟨g.nextProperty, by simp [hr], hsuper.replaced⟩
    · exact Or.inl (by simp [hr, hk, hlive])

/-- A version that a directive out of scope takes away stays the answer. -/
theorem in_scope_dropProperty (hs : Sound g) (hl : Ledger g) {owner : NodeId} {key : String}
    {p : PropertyId} {d : DirectiveId} (has : HasNode g owner)
    (current : g.liveProperty? owner key = some p) (out : scope d = false)
    (h : g.propertyInScope? scope id name = some q) :
    (g.dropProperty owner key p d).propertyInScope? scope id name = some q := by
  have hname : ∀ r : PropertyId, ((g.dropProperty owner key p d).property r).name = (g.property r).name :=
    view_property_dropProperty Property.name (fun _ _ => rfl) owner key d (hs.bounded.live_property current)
  have hrecord : record? (g.dropProperty owner key p d) scope id name =
      (record? g scope id name <|>
        if id = owner ∧ key = name then some ⟨p, d⟩ else none) := by
    unfold record?
    rw [records_dropProperty key p d has]
    simp only [hname]
    by_cases hid : id = owner
    · simp only [hid, if_true, true_and, List.find?_append, List.find?_singleton, out, Bool.not_false,
        Bool.true_and, hl.name owner key p current, decide_eq_true_eq]
      cases List.find? _ _ <;> rfl
    · simp [hid]
  rw [property_in_scope_eq, hrecord, live_property_dropProperty key p d has]
  rcases property_in_scope_cases h with ⟨e, hr⟩ | ⟨hr, hlive⟩
  · simp [hr]
  · by_cases hk : id = owner ∧ key = name
    · obtain ⟨rfl, rfl⟩ := hk
      obtain rfl := Option.some.inj (current.symm.trans hlive)
      simp [hr]
    · simp [hr, hk, hlive]

/-- With each elementary change the answer stays, or gives way to the version that replaces it. -/
theorem in_scope_change (hs : Sound g) (hl : Ledger g) (h : Change g g')
    (out : ∀ d p, (g.directive d).removed = some (.property p) → (g.property p).deletedBy = none →
      scope d = false)
    (hq : g.propertyInScope? scope id name = some q) :
    g'.propertyInScope? scope id name = some q ∨
      ∃ r, g'.propertyInScope? scope id name = some r ∧ (g'.property q).replacedBy = some r := by
  have hsince := h.since hs hl
  have hquiet : (∀ n, Holdings.of (g'.node n) = Holdings.of (g.node n)) →
      g'.propertyInScope? scope id name = some q := fun hh =>
    (in_scope_congr hs.bounded hsince (hh id)).trans hq
  cases h with
  | report => exact Or.inl (hquiet fun _ => rfl)
  | define | refer | again =>
    exact Or.inl (hquiet (view_modifyNode g Holdings.of _ _ fun _ => rfl))
  | hold n m =>
    exact Or.inl (hquiet (view_modifyNode (g.bindLabel n m) Holdings.of _ _ fun _ => rfl))
  | child key parent has => exact Or.inl (hquiet (holdings_addChild key has))
  | orphan => exact Or.inl (hquiet (holdings_addOrphan g))
  | property owner key values labels site has =>
    exact in_scope_setProperty hs hl key values labels site has hsince hq
  | directive x => exact Or.inl (hquiet (view_addDirective g Holdings.of x fun _ _ => rfl))
  | dropChild parent c d =>
    exact Or.inl (hquiet (view_dropChild g Holdings.of (fun _ _ _ => rfl) (fun _ _ => rfl) parent c d))
  | dropProperty owner key p d has current _ removed =>
    have hnot := (hl.current owner key p current).not_deleted
    exact Or.inl (in_scope_dropProperty hs hl has current (out d p removed hnot) hq)

/-- From a moment on, the answer that its directives give is a version that the one current then leads to. -/
theorem in_scope_changes {g₀ : Graph} (hs : Sound g₀) (hl : Ledger g₀) (he : Executed g₀) {p : PropertyId}
    (hlive : g₀.liveProperty? id name = some p) (h : Changes g₀ g) :
    ∃ q, g.propertyInScope? (inEffect g₀) id name = some q ∧ Leads g p q := by
  induction h with
  | refl =>
    have hnone : record? g₀ (inEffect g₀) id name = none := by
      apply List.find?_eq_none.mpr
      intro r hr
      have hin : r.directive.index < g₀.directives.size := ((hs.bounded.node id).deletedProperties r hr).2
      simp [inEffect, hin]
    refine ⟨p, ?_, .refl⟩
    rw [property_in_scope_eq, hnone, hlive]
    rfl
  | tail hc h ih =>
    obtain ⟨q, hq, hlead⟩ := ih
    have hs' := hs.changes hc
    have hl' := hl.changes hs hc
    have hlead' := hlead.since (h.since hs' hl')
    have hsince := Changes.since hs hl hc
    rcases in_scope_change hs' hl' h (fun d x hr hk => he.later hsince (by simp [hr, Done, hk])) hq with
      hsame | ⟨r, hr, hrep⟩
    · exact ⟨q, hsame, hlead'⟩
    · exact ⟨r, hr, hlead'.tail hrep⟩

end Preserved

/-- While only the directives of a moment are in effect, looking up in the built graph a property that was
current at that moment finds the last version of its chain. -/
theorem property_at_moment {config : BuildConfig} {fragments : List Fragment} {isCancelled : Nat → Bool}
    {g : Graph} (h : Build.build config fragments isCancelled = .ok g) {n : Nat} {s : Merge.State}
    (hm : moment config fragments n = .ok s) {id : NodeId} {name : String} {p : PropertyId}
    (hlive : s.graph.liveProperty? id name = some p) :
    ∃ q, g.propertyInScope? (inEffect s.graph) id name = some q ∧
      (g.versionChain p).getLast? = some q := by
  have hl := built_ledger h
  obtain ⟨t, ht, hc, rfl⟩ := moment_built hm h
  have hs := moment_settled hm
  obtain ⟨q, hq, hlead⟩ := in_scope_changes hs.ready.sound hs.ledger (moment_executed hm) hlive hc
  have hsince := since_finish t.graph config.options
  have hq' := (in_scope_congr ht.ready.sound.bounded hsince
    (view_finish t.graph config.options Holdings.of (fun _ _ => rfl) id)).trans hq
  exact ⟨q, hq', hl.chain_last (hlead.since hsince) (hl.in_scope_not_replaced hq')⟩

def withdrawnTwice : List Fragment :=
  [⟨⟨0⟩, .root [] [.property { name := "status" }] {}⟩,
    ⟨⟨1⟩, .root [] [.property { name := "status" }, .deleteProperty { name := "status" },
      .property { name := "status" }, .deleteProperty { name := "status" }] {}⟩]

/-- Two edits into the merge the first version is current; what is found of it then is the second version. -/
theorem property_at_moment_withdrawn_twice :
    ∃ g s, Build.build {} withdrawnTwice (fun _ => false) = .ok g ∧
      moment {} withdrawnTwice 2 = .ok s ∧ s.graph.liveProperty? Graph.root "status" = some ⟨0⟩ ∧
      g.propertyInScope? (inEffect s.graph) Graph.root "status" = some ⟨1⟩ ∧
      (g.versionChain ⟨0⟩).getLast? = some ⟨1⟩ ∧ g.liveProperty? Graph.root "status" = none := by
  obtain ⟨g, s, h, hm, hlive, hnow, hgone⟩ : ∃ g s,
      Build.build {} withdrawnTwice (fun _ => false) = .ok g ∧ moment {} withdrawnTwice 2 = .ok s ∧
      s.graph.liveProperty? Graph.root "status" = some ⟨0⟩ ∧
      g.propertyInScope? (inEffect s.graph) Graph.root "status" = some ⟨1⟩ ∧
      g.liveProperty? Graph.root "status" = none := exists_built_from (by decide +kernel)
  obtain ⟨q, hq, hlast⟩ := property_at_moment h hm hlive
  obtain rfl := Option.some.inj (hq.symm.trans hnow)
  exact ⟨g, s, h, hm, hlive, hq, hlast, hgone⟩

end Devicetree.Proofs
