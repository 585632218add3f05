import Devicetree.Proofs.Ledger

namespace Devicetree.Proofs

inductive Oldest (g : Graph) : PropertyId → PropertyId → Prop where
  | first {p : PropertyId} (h : (g.property p).replaces = none) : Oldest g p p
  | back {p q o : PropertyId} (h : (g.property p).replaces = some q) (ho : Oldest g q o) : Oldest g p o

/-- The way forth from `p` along `replacedBy` passes the versions listed, `p` first, and ends. -/
inductive Newer (g : Graph) : PropertyId → List PropertyId → Prop where
  | last {p : PropertyId} (h : (g.property p).replacedBy = none) : Newer g p [p]
  | next {p q : PropertyId} {l : List PropertyId} (h : (g.property p).replacedBy = some q)
      (hq : Newer g q l) : Newer g p (p :: l)

theorem Ledger.superseded {g : Graph} (hl : Ledger g) {p q : PropertyId}
    (h : (g.property p).replacedBy = some q) : SupersededBy g p q := by
  have hp : HasProperty g p := has_property_of_link Property.replacedBy rfl h
  rcases hl.standing p hp with hc | ⟨r, hr⟩ | ⟨d, hd⟩
  · rw [hc.not_replaced] at h
    cases h
  · obtain rfl : r = q := Option.some.inj (hr.replaced.symm.trans h)
    exact hr
  · rw [hd.not_replaced] at h
    cases h

theorem Ledger.older {g : Graph} (hl : Ledger g) {p o : PropertyId}
    (h : (g.property p).replaces = some o) : o.index < p.index :=
  (hl.superseded (hl.back p o h)).older

theorem older_versions_first {g : Graph} {p : PropertyId} (h : (g.property p).replaces = none) :
    g.olderVersions p = [p] := by
  rw [Graph.olderVersions, h]

theorem Ledger.older_versions_back {g : Graph} (hl : Ledger g) {p o : PropertyId}
    (h : (g.property p).replaces = some o) : g.olderVersions p = p :: g.olderVersions o := by
  rw [Graph.olderVersions, h]
  simp [hl.older h]

theorem newer_versions_last {g : Graph} {p : PropertyId} (h : (g.property p).replacedBy = none) :
    g.newerVersions p = [p] := by
  rw [Graph.newerVersions, h]

theorem Ledger.newer_versions_next {g : Graph} (hl : Ledger g) {p q : PropertyId}
    (h : (g.property p).replacedBy = some q) : g.newerVersions p = p :: g.newerVersions q := by
  have hs := hl.superseded h
  have hq : q.index < g.properties.size := hs.has
  rw [Graph.newerVersions, h]
  simp [hs.older, hq]

theorem version_chain_first {g : Graph} {p : PropertyId} (h : (g.property p).replaces = none) :
    g.versionChain p = g.newerVersions p := by
  rw [Graph.versionChain, older_versions_first h]
  rfl

/-- A version and the one that it replaces have the same chain. -/
theorem Ledger.version_chain_back {g : Graph} (hl : Ledger g) {p o : PropertyId}
    (h : (g.property p).replaces = some o) : g.versionChain p = g.versionChain o := by
  have hlast : (g.olderVersions o).getLastD p = (g.olderVersions o).getLastD o := by
    rw [Graph.olderVersions, List.getLastD_cons, List.getLastD_cons]
  rw [Graph.versionChain, hl.older_versions_back h, List.getLastD_cons, hlast]
  rfl

theorem Ledger.oldest {g : Graph} (hl : Ledger g) (p : PropertyId) :
    ∃ o, Oldest g p o ∧ g.versionChain p = g.newerVersions o := by
  induction hi : p.index using Nat.strongRecOn generalizing p with
  | ind i ih =>
    cases h : (g.property p).replaces with
    | none => exact ⟨p, .first h, version_chain_first h⟩
    | some q =>
      obtain ⟨o, ho, hchain⟩ := ih q.index (hi ▸ hl.older h) q rfl
      exact ⟨o, .back h ho, (hl.version_chain_back h).trans hchain⟩

theorem Ledger.newer {g : Graph} (hl : Ledger g) (p : PropertyId) : Newer g p (g.newerVersions p) := by
  -- Each step forth leads to a larger number, and the versions are finitely many.
  induction hi : g.properties.size - p.index using Nat.strongRecOn generalizing p with
  | ind i ih =>
    cases h : (g.property p).replacedBy with
    | none => exact newer_versions_last h ▸ .last h
    | some q =>
      have hs := hl.superseded h
      have hq : q.index < g.properties.size := hs.has
      have hless : g.properties.size - q.index < i := by
        have hlt := hs.older
        omega
      exact hl.newer_versions_next h ▸ .next h (ih _ hless q rfl)

theorem Newer.mem {g : Graph} {p : PropertyId} {l : List PropertyId} (h : Newer g p l) : p ∈ l := by
  cases h with
  | last => exact List.mem_singleton.mpr rfl
  | next => exact List.mem_cons_self

/-- A way forth that passes a version passes the one that replaces it. -/
theorem Newer.next_mem {g : Graph} {p q r : PropertyId} {l : List PropertyId} (h : Newer g p l)
    (hq : q ∈ l) (hr : (g.property q).replacedBy = some r) : r ∈ l := by
  induction h with
  | last hlast =>
    rw [List.mem_singleton.mp hq, hlast] at hr
    cases hr
  | next hnext htail ih =>
    rcases List.mem_cons.mp hq with rfl | hm
    · obtain rfl := Option.some.inj (hnext.symm.trans hr)
      exact List.mem_cons_of_mem _ htail.mem
    · exact List.mem_cons_of_mem _ (ih hm)

theorem Newer.le {g : Graph} (hl : Ledger g) {p q : PropertyId} {l : List PropertyId}
    (h : Newer g p l) (hq : q ∈ l) : p.index ≤ q.index := by
  induction h with
  | last => exact List.mem_singleton.mp hq ▸ Nat.le_refl _
  | next hnext _ ih =>
    rcases List.mem_cons.mp hq with rfl | hm
    · exact Nat.le_refl _
    · exact Nat.le_trans (Nat.le_of_lt (hl.superseded hnext).older) (ih hm)

/-- The way forth leads to ever larger numbers. -/
theorem Newer.increasing {g : Graph} (hl : Ledger g) {p : PropertyId} {l : List PropertyId}
    (h : Newer g p l) : l.Pairwise fun a b => a.index < b.index := by
  induction h with
  | last => exact List.pairwise_singleton _ _
  | next hnext htail ih =>
    refine List.pairwise_cons.mpr ⟨?_, ih⟩
    intro q hq
    exact Nat.lt_of_lt_of_le (hl.superseded hnext).older (htail.le hl hq)

theorem Newer.same_chain {g : Graph} (hl : Ledger g) {p q : PropertyId} {l : List PropertyId}
    (h : Newer g p l) (hq : q ∈ l) : g.versionChain q = g.versionChain p := by
  induction h with
  | last => rw [List.mem_singleton.mp hq]
  | next hnext _ ih =>
    rcases List.mem_cons.mp hq with rfl | hm
    · rfl
    · exact (ih hm).trans (hl.version_chain_back (hl.superseded hnext).replaces)

theorem Oldest.same_chain {g : Graph} (hl : Ledger g) {p o : PropertyId} (h : Oldest g p o) :
    g.versionChain p = g.versionChain o := by
  induction h with
  | first => rfl
  | back hback _ ih => exact (hl.version_chain_back hback).trans ih

/-- The way back from a version is the way forth to it, walked the other way. -/
theorem Oldest.mem_newer {g : Graph} (hl : Ledger g) {p o : PropertyId} {l : List PropertyId}
    (h : Oldest g p o) (hn : Newer g o l) : p ∈ l := by
  induction h with
  | first => exact hn.mem
  | back hback _ ih => exact hn.next_mem (ih hn) (hl.back _ _ hback)

/-- What the chain of a version is: all that the way forth from its oldest version passes, each version in it
newer than the one before, and the same for every version in it. -/
structure Chained (g : Graph) (p : PropertyId) : Prop where
  walk : ∃ o, Oldest g p o ∧ Newer g o (g.versionChain p)
  mem : p ∈ g.versionChain p
  increasing : (g.versionChain p).Pairwise fun a b => a.index < b.index
  same : ∀ q ∈ g.versionChain p, g.versionChain q = g.versionChain p

theorem Ledger.chained {g : Graph} (hl : Ledger g) (p : PropertyId) : Chained g p := by
  obtain ⟨o, ho, hchain⟩ := hl.oldest p
  have hn : Newer g o (g.versionChain p) := hchain ▸ hl.newer o
  refine ⟨⟨o, ho, hn⟩, ho.mem_newer hl hn, hn.increasing hl, ?_⟩
  intro q hq
  exact (hn.same_chain hl hq).trans (ho.same_chain hl).symm

inductive Standing where
  | current
  | superseded (newer : PropertyId)
  | withdrawn (directive : DirectiveId)

def Stands (g : Graph) (p : PropertyId) : Standing → Prop
  | .current => Current g p
  | .superseded q => SupersededBy g p q
  | .withdrawn d => WithdrawnBy g p d

/-- No version stands in two ways: which version replaced it and which directive deleted it tell how. -/
theorem Stands.unique {g : Graph} {p : PropertyId} {s t : Standing} (hs : Stands g p s)
    (ht : Stands g p t) : s = t := by
  have read : ∀ {u : Standing}, Stands g p u →
      u = match (g.property p).replacedBy, (g.property p).deletedBy with
        | some q, _ => .superseded q
        | none, some d => .withdrawn d
        | none, none => .current := by
    intro u hu
    cases u with
    | current =>
      have h : Current g p := hu
      rw [h.not_replaced, h.not_deleted]
    | superseded q =>
      have h : SupersededBy g p q := hu
      rw [h.replaced]
    | withdrawn d =>
      have h : WithdrawnBy g p d := hu
      rw [h.not_replaced, h.deleted]
  exact (read hs).trans (read ht).symm

theorem Ledger.stands {g : Graph} (hl : Ledger g) {p : PropertyId} (hp : HasProperty g p) :
    ∃! s, Stands g p s := by
  have hsome : ∃ s, Stands g p s := by
    rcases hl.standing p hp with h | ⟨q, h⟩ | ⟨d, h⟩
    · exact ⟨.current, h⟩
    · exact ⟨.superseded q, h⟩
    · exact ⟨.withdrawn d, h⟩
  obtain ⟨s, hs⟩ := hsome
  exact ⟨s, hs, fun t ht => Stands.unique ht hs⟩

/-- In every built graph each property version is current, superseded or deleted and only one of these, the
tables of the nodes have versions of their own under their own names, the links between versions agree, and the
versions of a property form one chain. -/
theorem built_versions {config : BuildConfig} {fragments : List Fragment} {isCancelled : Nat → Bool}
    {g : Graph} (h : Build.build config fragments isCancelled = .ok g) :
    (∀ p, HasProperty g p → ∃! s, Stands g p s) ∧
      (∀ n, ∀ e ∈ (g.node n).properties.entries,
        HasProperty g e.2 ∧ (g.property e.2).owner = n ∧ (g.property e.2).name = e.1) ∧
      (∀ p o, (g.property p).replaces = some o → (g.property o).replacedBy = some p) ∧
      ∀ p, HasProperty g p → Chained g p := by
  have hl := built_ledger h
  refine ⟨fun p hp => hl.stands hp, ?_, hl.back, fun p _ => hl.chained p⟩
  rintro n ⟨name, p⟩ he
  have hlive : g.liveProperty? n name = some p := (Table.mem_entries_iff (hl.keys n)).mp he
  exact ⟨(built_sound h).bounded.live_property hlive, hl.owner n name p hlive, hl.name n name p hlive⟩

def rewritten : List Fragment :=
  [⟨⟨0⟩, .root [] [.property { name := "status" }, .property { name := "status" },
    .deleteProperty { name := "status" }, .property { name := "status" }] {}⟩]

theorem built_versions_rewritten :
    ∃ g, Build.build {} rewritten (fun _ => false) = .ok g ∧
      (HasProperty g ⟨1⟩ ∧ ∃! s, Stands g ⟨1⟩ s) ∧ Stands g ⟨0⟩ (.superseded ⟨1⟩) ∧
      Stands g ⟨1⟩ (.withdrawn ⟨0⟩) ∧ Stands g ⟨2⟩ .current ∧
      (("status", ⟨2⟩) ∈ (g.node Graph.root).properties.entries ∧
        (g.property ⟨2⟩).owner = Graph.root) ∧
      ((g.property ⟨1⟩).replaces = some ⟨0⟩ ∧ (g.property ⟨0⟩).replacedBy = some ⟨1⟩) ∧
      Chained g ⟨1⟩ := by
  have h : Build.build {} rewritten (fun _ => false) = .ok _ := rfl
  obtain ⟨hstands, htable, hback, hchained⟩ := built_versions h
  refine ⟨_, h, ⟨by decide, hstands ⟨1⟩ (by decide)⟩, ?_, ?_, ?_, ?_, ⟨rfl, ?_⟩, ?_⟩
  · exact ⟨rfl, rfl, by decide, by decide, rfl, rfl, rfl⟩
  · exact ⟨rfl, rfl, by decide +kernel, rfl⟩
  · exact ⟨by decide +kernel, rfl, rfl⟩
  · refine ⟨Table.mem_of_find (by decide +kernel), ?_⟩
    exact (htable Graph.root ("status", ⟨2⟩) (Table.mem_of_find (by decide +kernel))).2.1
  · exact hback ⟨1⟩ ⟨0⟩ rfl
  · exact hchained ⟨1⟩ (by decide)

end Devicetree.Proofs
