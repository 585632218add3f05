import Devicetree.Proofs.Builds

namespace Devicetree.Proofs

structure Current (g : Graph) (p : PropertyId) : Prop where
  listed : g.liveProperty? (g.property p).owner (g.property p).name = some p
  not_replaced : (g.property p).replacedBy = none
  not_deleted : (g.property p).deletedBy = none

/-- A version whose place `q`, a newer one of the same owner and name, has taken. -/
structure SupersededBy (g : Graph) (p q : PropertyId) : Prop where
  replaced : (g.property p).replacedBy = some q
  not_deleted : (g.property p).deletedBy = none
  has : HasProperty g q
  older : p.index < q.index
  owner : (g.property q).owner = (g.property p).owner
  name : (g.property q).name = (g.property p).name
  replaces : (g.property q).replaces = some p

/-- A version that the directive `d` took away from its owner, who has one record of it. -/
structure WithdrawnBy (g : Graph) (p : PropertyId) (d : DirectiveId) : Prop where
  deleted : (g.property p).deletedBy = some d
  not_replaced : (g.property p).replacedBy = none
  record : (g.node (g.property p).owner).deletedProperties.filter (fun r => decide (r.property = p)) =
    [⟨p, d⟩]
  removed : (g.directive d).removed = some (.property p)

/-- All that is stored about the versions of properties agrees. -/
structure Ledger (g : Graph) : Prop where
  keys : ∀ n, (g.node n).properties.keys.Nodup
  owner : ∀ n name p, g.liveProperty? n name = some p → (g.property p).owner = n
  name : ∀ n name p, g.liveProperty? n name = some p → (g.property p).name = name
  current : ∀ n name p, g.liveProperty? n name = some p → Current g p
  record : ∀ n, ∀ r ∈ (g.node n).deletedProperties, (g.property r.property).deletedBy = some r.directive
  standing : ∀ p, HasProperty g p →
    Current g p ∨ (∃ q, SupersededBy g p q) ∨ ∃ d, WithdrawnBy g p d
  back : ∀ p o, (g.property p).replaces = some o → (g.property o).replacedBy = some p

structure Holdings where
  properties : Table String PropertyId
  deletedProperties : List DeletedProperty

def Holdings.of (n : Node) : Holdings := ⟨n.properties, n.deletedProperties⟩

/-- A change that leaves all versions and what nodes hold of them leaves the ledger as it is. -/
theorem Ledger.congr {g g' : Graph} (hl : Ledger g) (hb : Bounded g)
    (properties : g'.properties = g.properties)
    (holdings : ∀ n, Holdings.of (g'.node n) = Holdings.of (g.node n))
    (removed : ∀ d, HasDirective g d → (g'.directive d).removed = (g.directive d).removed) :
    Ledger g' := by
  have hprop : ∀ p, g'.property p = g.property p := fun p => by simp [Graph.property, properties]
  have hhas : ∀ p, HasProperty g' p ↔ HasProperty g p := fun p => by simp [HasProperty, properties]
  have htable : ∀ n, (g'.node n).properties = (g.node n).properties :=
    fun n => congrArg Holdings.properties (holdings n)
  have hrecords : ∀ n, (g'.node n).deletedProperties = (g.node n).deletedProperties :=
    fun n => congrArg Holdings.deletedProperties (holdings n)
  have hlive : ∀ n name, g'.liveProperty? n name = g.liveProperty? n name :=
    fun n name => congrArg (Table.get? · name) (htable n)
  have hcurrent : ∀ p, Current g p → Current g' p := by
    intro p h
    refine ⟨?_, ?_, ?_⟩
    · simpa only [hlive, hprop] using h.listed
    · simpa only [hprop] using h.not_replaced
    · simpa only [hprop] using h.not_deleted
  refine ⟨?_, ?_, ?_, ?_, ?_, ?_, ?_⟩
  · simpa only [htable] using hl.keys
  · simpa only [hlive, hprop] using hl.owner
  · simpa only [hlive, hprop] using hl.name
  · intro n name p h
    exact hcurrent p (hl.current n name p (by simpa only [hlive] using h))
  · simpa only [hrecords, hprop] using hl.record
  · intro p hp
    have hp := (hhas p).mp hp
    rcases hl.standing p hp with h | ⟨q, h⟩ | ⟨d, h⟩
    · exact Or.inl (hcurrent p h)
    · refine Or.inr (Or.inl ⟨q, ?_, ?_, (hhas q).mpr h.has, h.older, ?_, ?_, ?_⟩)
      · simpa only [hprop] using h.replaced
      · simpa only [hprop] using h.not_deleted
      · simpa only [hprop] using h.owner
      · simpa only [hprop] using h.name
      · simpa only [hprop] using h.replaces
    · refine Or.inr (Or.inr ⟨d, ?_, ?_, ?_, ?_⟩)
      · simpa only [hprop] using h.deleted
      · simpa only [hprop] using h.not_replaced
      · simpa only [hprop, hrecords] using h.record
      · rw [removed d ((hb.property p hp).deletedBy d h.deleted)]
        exact h.removed
  · simpa only [hprop] using hl.back

section SetProperty
variable {g : Graph} {owner : NodeId} (name : String) (values : List Value)
  (labels : List LabelMark) (site : Site)

theorem live_property_setProperty (ho : HasNode g owner) (n : NodeId) (key : String) :
    (g.setProperty owner name values labels site).liveProperty? n key =
      if n = owner ∧ name = key then some g.nextProperty else g.liveProperty? n key := by
  unfold Graph.liveProperty?
  rw [node_setProperty g owner name values labels site ho]
  by_cases hn : n = owner
  · simp [hn]
  · simp [hn]

/-- Of an older version, a new one changes only which version replaces it. -/
theorem view_property_setProperty {α : Type} (view : Property → α)
    (hv : ∀ p r, view { p with replacedBy := r } = view p) (hb : Bounded g) {p : PropertyId}
    (hp : p ≠ g.nextProperty) :
    view ((g.setProperty owner name values labels site).property p) = view (g.property p) := by
  rw [property_setProperty g owner name values labels site (fun q hq => hb.live_property hq), if_neg hp]
  split
  · exact hv _ _
  · rfl

theorem current_setProperty (hb : Bounded g) (ho : HasNode g owner) :
    Current (g.setProperty owner name values labels site) g.nextProperty := by
  have hprop := property_setProperty g owner name values labels site
    (fun p hp => hb.live_property hp) g.nextProperty
  rw [if_pos rfl] at hprop
  refine ⟨?_, by rw [hprop], by rw [hprop]⟩
  rw [hprop, live_property_setProperty name values labels site ho, if_pos ⟨rfl, rfl⟩]

/-- A new version takes the place of the current one, which becomes the one superseded by it. -/
theorem superseded_setProperty (hl : Ledger g) (hb : Bounded g) {p : PropertyId}
    (hp : g.liveProperty? owner name = some p) :
    SupersededBy (g.setProperty owner name values labels site) p g.nextProperty := by
  have hprop := property_setProperty g owner name values labels site (fun p hp => hb.live_property hp)
  have hnew := hprop g.nextProperty
  rw [if_pos rfl] at hnew
  have hold := hprop p
  rw [if_neg (hb.live_property hp).ne_next, if_pos hp] at hold
  refine ⟨by rw [hold], ?_, ?_, hb.live_property hp, ?_, ?_, by rw [hnew, hp]⟩
  · rw [hold]
    exact (hl.current owner name p hp).not_deleted
  · simp [HasProperty, Graph.nextProperty]
  · rw [hnew, hold]
    exact (hl.owner owner name p hp).symm
  · rw [hnew, hold]
    exact (hl.name owner name p hp).symm

section Others
variable {p : PropertyId} (hp : HasProperty g p) (hne : g.liveProperty? owner name ≠ some p)
include hp hne

/-- A version other than the one superseded now keeps its record. -/
theorem property_setProperty_other (hb : Bounded g) :
    (g.setProperty owner name values labels site).property p = g.property p := by
  rw [property_setProperty g owner name values labels site (fun p hp => hb.live_property hp),
    if_neg hp.ne_next, if_neg hne]

theorem Current.setProperty (h : Current g p) (hb : Bounded g) (ho : HasNode g owner) :
    Current (g.setProperty owner name values labels site) p := by
  have he := property_setProperty_other name values labels site hp hne hb
  refine ⟨?_, by rw [he]; exact h.not_replaced, by rw [he]; exact h.not_deleted⟩
  rw [he, live_property_setProperty name values labels site ho, if_neg]
  · exact h.listed
  · rintro ⟨h₁, h₂⟩
    exact hne (h₁ ▸ h₂ ▸ h.listed)

theorem SupersededBy.setProperty {q : PropertyId} (h : SupersededBy g p q) (hb : Bounded g) :
    SupersededBy (g.setProperty owner name values labels site) p q := by
  have he := property_setProperty_other name values labels site hp hne hb
  have hview {α : Type} (view : Property → α) (hv : ∀ p r, view { p with replacedBy := r } = view p) :
      view ((g.setProperty owner name values labels site).property q) = view (g.property q) :=
    view_property_setProperty name values labels site view hv hb h.has.ne_next
  refine ⟨by rw [he]; exact h.replaced, by rw [he]; exact h.not_deleted,
    (grown_setProperty g owner name values labels site).has_property h.has, h.older, ?_, ?_, ?_⟩
  · rw [he, hview Property.owner fun _ _ => rfl]
    exact h.owner
  · rw [he, hview Property.name fun _ _ => rfl]
    exact h.name
  · rw [hview Property.replaces fun _ _ => rfl]
    exact h.replaces

theorem WithdrawnBy.setProperty {d : DirectiveId} (h : WithdrawnBy g p d) (hb : Bounded g)
    (ho : HasNode g owner) : WithdrawnBy (g.setProperty owner name values labels site) p d := by
  have he := property_setProperty_other name values labels site hp hne hb
  have hrecords := view_setProperty g owner name values labels site Node.deletedProperties ho
    fun _ _ _ => rfl
  refine ⟨by rw [he]; exact h.deleted, by rw [he]; exact h.not_replaced, ?_, ?_⟩
  · rw [he, hrecords]
    exact h.record
  · simpa [Graph.directive] using h.removed

end Others

/-- Declaring a property keeps the ledger in order. -/
theorem Ledger.setProperty (hl : Ledger g) (hb : Bounded g) (ho : HasNode g owner) :
    Ledger (g.setProperty owner name values labels site) := by
  have hlive := live_property_setProperty name values labels site ho
  have hnew := current_setProperty name values labels site hb ho
  have hnext := property_setProperty g owner name values labels site
    (fun p hp => hb.live_property hp) g.nextProperty
  rw [if_pos rfl] at hnext
  have hview {α : Type} (view : Property → α) (hv : ∀ p r, view { p with replacedBy := r } = view p)
      {p : PropertyId} (hp : p ≠ g.nextProperty) :
      view ((g.setProperty owner name values labels site).property p) = view (g.property p) :=
    view_property_setProperty name values labels site view hv hb hp
  refine ⟨?_, ?_, ?_, ?_, ?_, ?_, ?_⟩
  · intro n
    rw [node_setProperty g owner name values labels site ho]
    split
    · exact Table.nodup_keys_insert (hl.keys n) name g.nextProperty
    · exact hl.keys n
  · intro n key p h
    rw [hlive] at h
    split at h
    · rename_i hk
      rw [← Option.some.inj h, hnext]
      exact hk.1.symm
    · rw [hview Property.owner (fun _ _ => rfl) (hb.live_property h).ne_next]
      exact hl.owner n key p h
  · intro n key p h
    rw [hlive] at h
    split at h
    · rename_i hk
      rw [← Option.some.inj h, hnext]
      exact hk.2
    · rw [hview Property.name (fun _ _ => rfl) (hb.live_property h).ne_next]
      exact hl.name n key p h
  · intro n key p h
    rw [hlive] at h
    split at h
    · exact Option.some.inj h ▸ hnew
    · rename_i hk
      refine (hl.current n key p h).setProperty name values labels site (hb.live_property h) ?_ hb ho
      intro hprev
      exact hk ⟨(hl.owner n key p h).symm.trans (hl.owner owner name p hprev),
        (hl.name owner name p hprev).symm.trans (hl.name n key p h)⟩
  · intro n r hr
    have hrecords := view_setProperty g owner name values labels site Node.deletedProperties ho
      (fun _ _ _ => rfl) n
    rw [hrecords] at hr
    rw [hview Property.deletedBy (fun _ _ => rfl) ((hb.node n).deletedProperties r hr).1.ne_next]
    exact hl.record n r hr
  · intro p hp
    by_cases hlast : p = g.nextProperty
    · exact Or.inl (hlast ▸ hnew)
    · have hold : HasProperty g p :=
        has_property_of_ne_next (by simpa [HasProperty] using hp) hlast
      by_cases hprev : g.liveProperty? owner name = some p
      · exact Or.inr (Or.inl ⟨_, superseded_setProperty name values labels site hl hb hprev⟩)
      · rcases hl.standing p hold with h | ⟨q, h⟩ | ⟨d, h⟩
        · exact Or.inl (h.setProperty name values labels site hold hprev hb ho)
        · exact Or.inr (Or.inl ⟨q, h.setProperty name values labels site hold hprev hb⟩)
        · exact Or.inr (Or.inr ⟨d, h.setProperty name values labels site hold hprev hb ho⟩)
  · intro p o h
    by_cases hlast : p = g.nextProperty
    · have hprev : g.liveProperty? owner name = some o := by simpa [hlast, hnext] using h
      exact hlast ▸ (superseded_setProperty name values labels site hl hb hprev).replaced
    · rw [hview Property.replaces (fun _ _ => rfl) hlast] at h
      have hback := hl.back p o h
      have hprev : g.liveProperty? owner name ≠ some o := by
        intro hprev
        rw [(hl.current owner name o hprev).not_replaced] at hback
        cases hback
      have hp : HasProperty g p := has_property_of_link Property.replaces rfl h
      rw [property_setProperty_other name values labels site ((hb.property p hp).replaces o h) hprev hb]
      exact hback

end SetProperty

section DropProperty
variable {g : Graph} {owner : NodeId} {name : String} {p : PropertyId} {d : DirectiveId}

theorem live_property_dropProperty (name : String) (p : PropertyId) (d : DirectiveId)
    (ho : HasNode g owner) (n : NodeId) (key : String) :
    (g.dropProperty owner name p d).liveProperty? n key =
      if n = owner ∧ name = key then none else g.liveProperty? n key := by
  unfold Graph.liveProperty?
  rw [node_dropProperty g name p d ho]
  by_cases hn : n = owner
  · simp [hn]
  · simp [hn]

/-- Of all versions, taking one away changes only which directive deleted it. -/
theorem view_property_dropProperty {α : Type} (view : Property → α)
    (hv : ∀ x r, view { x with deletedBy := r } = view x) (owner : NodeId) (name : String)
    (d : DirectiveId) (hp : HasProperty g p) (q : PropertyId) :
    view ((g.dropProperty owner name p d).property q) = view (g.property q) := by
  rw [property_dropProperty g owner name d hp]
  split
  · exact hv _ _
  · rfl

theorem records_dropProperty (name : String) (p : PropertyId) (d : DirectiveId) (ho : HasNode g owner)
    (n : NodeId) :
    ((g.dropProperty owner name p d).node n).deletedProperties =
      if n = owner then (g.node n).deletedProperties ++ [⟨p, d⟩] else (g.node n).deletedProperties := by
  rw [node_dropProperty g name p d ho, apply_ite Node.deletedProperties]

/-- No record tells of a version that is still current. -/
theorem Ledger.not_recorded (hl : Ledger g) (hp : g.liveProperty? owner name = some p) :
    ∀ n, ∀ r ∈ (g.node n).deletedProperties, r.property ≠ p := by
  intro n r hm he
  have hrec := hl.record n r hm
  rw [he, (hl.current owner name p hp).not_deleted] at hrec
  cases hrec

/-- Taking the current version away moves it from the table to the records of its owner. -/
theorem withdrawn_dropProperty (hl : Ledger g) (hb : Bounded g) (ho : HasNode g owner)
    (hp : g.liveProperty? owner name = some p) (hr : (g.directive d).removed = some (.property p)) :
    WithdrawnBy (g.dropProperty owner name p d) p d := by
  have hhas := hb.live_property hp
  have hprop := property_dropProperty g owner name d hhas p
  rw [if_pos rfl] at hprop
  have hempty : (g.node owner).deletedProperties.filter (fun r => decide (r.property = p)) = [] := by
    apply List.filter_eq_nil_iff.mpr
    intro r hm
    simpa using hl.not_recorded hp owner r hm
  refine ⟨by rw [hprop], by rw [hprop]; exact (hl.current owner name p hp).not_replaced, ?_, hr⟩
  rw [hprop, hl.owner owner name p hp, records_dropProperty name p d ho, if_pos rfl, List.filter_append,
    hempty]
  simp

section Others
variable {q : PropertyId} (hp : g.liveProperty? owner name = some p) (hne : q ≠ p)
include hp hne

theorem property_dropProperty_other (hb : Bounded g) :
    (g.dropProperty owner name p d).property q = g.property q := by
  rw [property_dropProperty g owner name d (hb.live_property hp), if_neg hne]

theorem Current.dropProperty (h : Current g q) (hb : Bounded g) (ho : HasNode g owner) :
    Current (g.dropProperty owner name p d) q := by
  have he : (g.dropProperty owner name p d).property q = _ := property_dropProperty_other hp hne hb
  refine ⟨?_, by rw [he]; exact h.not_replaced, by rw [he]; exact h.not_deleted⟩
  rw [he, live_property_dropProperty name p d ho, if_neg]
  · exact h.listed
  · rintro ⟨h₁, h₂⟩
    have hlisted := h.listed
    rw [h₁, ← h₂, hp] at hlisted
    exact hne (Option.some.inj hlisted).symm

theorem SupersededBy.dropProperty {r : PropertyId} (h : SupersededBy g q r) (hb : Bounded g) :
    SupersededBy (g.dropProperty owner name p d) q r := by
  have he : (g.dropProperty owner name p d).property q = _ := property_dropProperty_other hp hne hb
  have hview {α : Type} (view : Property → α) (hv : ∀ x r, view { x with deletedBy := r } = view x) :
      view ((g.dropProperty owner name p d).property r) = view (g.property r) :=
    view_property_dropProperty view hv owner name d (hb.live_property hp) r
  refine ⟨by rw [he]; exact h.replaced, by rw [he]; exact h.not_deleted,
    by simpa [HasProperty] using h.has, h.older, ?_, ?_, ?_⟩
  · rw [he, hview Property.owner fun _ _ => rfl]
    exact h.owner
  · rw [he, hview Property.name fun _ _ => rfl]
    exact h.name
  · rw [hview Property.replaces fun _ _ => rfl]
    exact h.replaces

theorem WithdrawnBy.dropProperty {e : DirectiveId} (h : WithdrawnBy g q e) (hb : Bounded g)
    (ho : HasNode g owner) : WithdrawnBy (g.dropProperty owner name p d) q e := by
  have he : (g.dropProperty owner name p d).property q = _ := property_dropProperty_other hp hne hb
  refine ⟨by rw [he]; exact h.deleted, by rw [he]; exact h.not_replaced, ?_, h.removed⟩
  rw [he, records_dropProperty name p d ho]
  split
  · rw [List.filter_append, h.record]
    simp [Ne.symm hne]
  · exact h.record

end Others

/-- Deleting a property keeps the ledger in order. -/
theorem Ledger.dropProperty (hl : Ledger g) (hb : Bounded g) (ho : HasNode g owner)
    (hp : g.liveProperty? owner name = some p) (hr : (g.directive d).removed = some (.property p)) :
    Ledger (g.dropProperty owner name p d) := by
  have hlive := live_property_dropProperty name p d ho
  have hprop := property_dropProperty g owner name d (hb.live_property hp)
  have hview {α : Type} (view : Property → α) (hv : ∀ x r, view { x with deletedBy := r } = view x)
      (q : PropertyId) : view ((g.dropProperty owner name p d).property q) = view (g.property q) :=
    view_property_dropProperty view hv owner name d (hb.live_property hp) q
  have hold : ∀ {n key q}, (g.dropProperty owner name p d).liveProperty? n key = some q →
      g.liveProperty? n key = some q ∧ q ≠ p := by
    intro n key q h
    rw [hlive] at h
    split at h
    · cases h
    · rename_i hk
      refine ⟨h, ?_⟩
      rintro rfl
      exact hk ⟨(hl.owner n key q h).symm.trans (hl.owner owner name q hp),
        (hl.name owner name q hp).symm.trans (hl.name n key q h)⟩
  refine ⟨?_, ?_, ?_, ?_, ?_, ?_, ?_⟩
  · intro n
    rw [node_dropProperty g name p d ho]
    split
    · exact Table.nodup_keys_erase (hl.keys n) name
    · exact hl.keys n
  · intro n key q h
    rw [hview Property.owner fun _ _ => rfl]
    exact hl.owner n key q (hold h).1
  · intro n key q h
    rw [hview Property.name fun _ _ => rfl]
    exact hl.name n key q (hold h).1
  · intro n key q h
    exact (hl.current n key q (hold h).1).dropProperty hp (hold h).2 hb ho
  · intro n r hm
    rw [records_dropProperty name p d ho] at hm
    have hcases : r ∈ (g.node n).deletedProperties ∨ r = ⟨p, d⟩ := by
      split at hm
      · simpa using hm
      · exact Or.inl hm
    rw [hprop]
    rcases hcases with hbefore | rfl
    · rw [if_neg (hl.not_recorded hp n r hbefore)]
      exact hl.record n r hbefore
    · simp
  · intro q hq
    by_cases hqp : q = p
    · subst hqp
      exact Or.inr (Or.inr ⟨d, withdrawn_dropProperty hl hb ho hp hr⟩)
    · rcases hl.standing q (by simpa [HasProperty] using hq) with h | ⟨r, h⟩ | ⟨e, h⟩
      · exact Or.inl (h.dropProperty hp hqp hb ho)
      · exact Or.inr (Or.inl ⟨r, h.dropProperty hp hqp hb⟩)
      · exact Or.inr (Or.inr ⟨e, h.dropProperty hp hqp hb ho⟩)
  · intro q o h
    rw [hview Property.replaces fun _ _ => rfl] at h
    rw [hview Property.replacedBy fun _ _ => rfl]
    exact hl.back q o h

end DropProperty

/-- A new node holds no properties, as an unknown number did before. -/
theorem holdings_addChild {g : Graph} (name : NodeName) {parent : NodeId} (hp : HasNode g parent)
    (n : NodeId) : Holdings.of ((g.addChild name parent).node n) = Holdings.of (g.node n) := by
  rw [node_addChild g name hp]
  split
  · rename_i hn
    rw [hn, node_next]
    rfl
  · split <;> rfl

theorem holdings_addOrphan (g : Graph) (n : NodeId) :
    Holdings.of (g.addOrphan.node n) = Holdings.of (g.node n) := by
  rw [node_addOrphan]
  split
  · rename_i hn
    rw [hn, node_next]
    rfl
  · rfl

/-- Each elementary change keeps the ledger. -/
theorem Ledger.change {g g' : Graph} (hl : Ledger g) (hb : Bounded g) (h : Change g g') :
    Ledger g' := by
  cases h with
  | report => exact hl.congr hb rfl (fun _ => rfl) (fun _ _ => rfl)
  | define | refer | again =>
    exact hl.congr hb rfl (view_modifyNode g Holdings.of _ _ fun _ => rfl) (fun _ _ => rfl)
  | hold id m =>
    exact hl.congr hb rfl (view_modifyNode (g.bindLabel id m) Holdings.of _ _ fun _ => rfl)
      (fun _ _ => rfl)
  | child name _ has => exact hl.congr hb rfl (holdings_addChild name has) (fun _ _ => rfl)
  | orphan => exact hl.congr hb rfl (holdings_addOrphan g) (fun _ _ => rfl)
  | property _ name values labels site has => exact hl.setProperty name values labels site hb has
  | directive x =>
    refine hl.congr hb (by simp) (view_addDirective g Holdings.of x fun _ _ => rfl) ?_
    intro d hd
    rw [directive_addDirective, if_neg hd.ne_next]
  | dropChild parent id d =>
    exact hl.congr hb rfl
      (view_dropChild g Holdings.of (fun _ _ _ => rfl) (fun _ _ => rfl) parent id d) (fun _ _ => rfl)
  | dropProperty _ _ _ _ has current _ removed => exact hl.dropProperty hb has current removed

theorem Ledger.changes {g g' : Graph} (hl : Ledger g) (hs : Sound g) (h : Changes g g') :
    Ledger g' := by
  induction h with
  | refl => exact hl
  | tail hc h ih => exact ih.change (hs.changes hc).bounded h

theorem start_ledger (config : BuildConfig) (fragments : List Fragment) :
    Ledger (Build.start config fragments).graph := by
  have hnode := node_start config fragments
  have hnone : ∀ n name, (Build.start config fragments).graph.liveProperty? n name = none := by
    intro n name
    simp [Graph.liveProperty?, hnode]
  refine ⟨?_, ?_, ?_, ?_, ?_, ?_, ?_⟩
  · simp [hnode, Table.keys]
  · simp [hnone]
  · simp [hnone]
  · simp [hnone]
  · simp [hnode]
  · intro p hp
    exact absurd hp (Nat.not_lt_zero _)
  · intro p o h
    cases h

/-- The ledger is in order in every built graph. -/
theorem built_ledger {config : BuildConfig} {fragments : List Fragment} {isCancelled : Nat → Bool}
    {g : Graph} (h : Build.build config fragments isCancelled = .ok g) : Ledger g := by
  obtain ⟨s, _, hc, hs, rfl⟩ := built_of_run h
  have hl := (start_ledger config fragments).changes (start_ready config fragments).sound hc
  exact hl.congr hs.sound.bounded (by simp) (view_finish _ _ Holdings.of fun _ _ => rfl)
    (fun d _ => by simp [Graph.directive])

end Devicetree.Proofs
