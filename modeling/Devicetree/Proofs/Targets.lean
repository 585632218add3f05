import Devicetree.Proofs.Links

namespace Devicetree.Proofs

/-- All numbers are in range and all links are those of a forest. -/
structure Sound (g : Graph) : Prop where
  bounded : Bounded g
  linked : Linked g

theorem Sound.change {g g' : Graph} (hs : Sound g) (h : Change g g') : Sound g' :=
  ⟨hs.bounded.change h, hs.linked.change hs.bounded h⟩

theorem Sound.changes {g g' : Graph} (hs : Sound g) (h : Changes g g') : Sound g' := by
  induction h with
  | refl => exact hs
  | tail _ hc ih => exact ih.change hc

/-- A node of the graph that no directive has taken away. An ancestor of it may be deleted. -/
structure Kept (g : Graph) (id : NodeId) : Prop where
  has : HasNode g id
  kept : (g.node id).deletedBy = none

theorem Sound.root_kept {g : Graph} (hs : Sound g) : Kept g Graph.root :=
  ⟨hs.bounded.root,
    hs.linked.top_kept _ ((hs.linked.top _ hs.bounded.root).mpr (Or.inl rfl))⟩

theorem Sound.child_kept {g : Graph} (hs : Sound g) {parent c : NodeId} (hc : c ∈ g.children parent) :
    Kept g c :=
  ⟨(hs.bounded.node parent).children c hc, hs.linked.child_kept hc⟩

theorem Sound.bound_kept {g : Graph} (hs : Sound g) {label : String} {id : NodeId}
    (hb : g.labels.nodeOf? label = some id) (hl : g.isLive id = true) : Kept g id := by
  refine ⟨hs.bounded.bound_label hb, ?_⟩
  have hmem : id ∈ g.ancestors id := by
    rw [Graph.ancestors]
    exact List.mem_cons_self
  have hkept := List.all_eq_true.mp hl id hmem
  exact Option.isNone_iff_eq_none.mp hkept

theorem pick_cases {g : Graph} {candidates : List NodeId} {wanted : NodeName} {strict : Bool}
    {c : NodeId} (h : g.pick candidates wanted strict = some c) :
    (c ∈ candidates ∧ (g.node c).name = wanted) ∨
      (strict = false ∧ wanted.address = none ∧ c ∈ candidates ∧ (g.node c).name.name = wanted.name) := by
  unfold Graph.pick at h
  cases hexact : candidates.find? fun id => decide ((g.node id).name = wanted) with
  | some found =>
    obtain rfl : found = c := by simpa [hexact] using h
    exact Or.inl ⟨List.mem_of_find?_eq_some hexact, by simpa using List.find?_some hexact⟩
  | none =>
    simp only [hexact, Option.orElse_eq_orElse, Option.orElse_none] at h
    split at h
    · cases h
    · rename_i hloose
      simp only [Bool.or_eq_true, not_or, Bool.not_eq_true, Option.isSome_eq_false_iff,
        Option.isNone_iff_eq_none] at hloose
      exact Or.inr ⟨hloose.1, hloose.2, List.mem_of_find?_eq_some h, by simpa using List.find?_some h⟩

/-- A search that finds nothing, strict or not, has passed no candidate with exactly the wanted name. -/
theorem pick_none {g : Graph} {candidates : List NodeId} {wanted : NodeName} {strict : Bool}
    (h : g.pick candidates wanted strict = none) : ∀ c ∈ candidates, (g.node c).name ≠ wanted := by
  intro c hc he
  unfold Graph.pick at h
  cases hexact : candidates.find? fun id => decide ((g.node id).name = wanted) with
  | some found => simp [hexact] at h
  | none => simpa [he] using List.find?_eq_none.mp hexact c hc

theorem child_by_name_mem {g : Graph} {parent c : NodeId} {wanted : NodeName} {strict : Bool}
    (h : g.childByName? parent wanted strict = some c) : c ∈ g.children parent := by
  rcases pick_cases h with ⟨hm, _⟩ | ⟨_, _, hm, _⟩
  · exact hm
  · exact hm

theorem child_by_name_strict {g : Graph} {parent c : NodeId} {wanted : NodeName}
    (h : g.childByName? parent wanted true = some c) : (g.node c).name = wanted := by
  rcases pick_cases h with ⟨_, he⟩ | ⟨hf, _⟩
  · exact he
  · cases hf

/-- A walk down by names stays on nodes that are kept. -/
theorem Sound.walk_kept {g : Graph} (hs : Sound g) {names : List NodeName} {strict : Bool}
    {start id : NodeId} (hk : Kept g start)
    (h : names.foldlM (fun n name => g.childByName? n name strict) start = some id) : Kept g id := by
  induction names generalizing start with
  | nil =>
    obtain rfl : start = id := by simpa using h
    exact hk
  | cons name names ih =>
    simp only [List.foldlM_cons, Option.bind_eq_bind, Option.bind_eq_some_iff] at h
    obtain ⟨c, hc, hrest⟩ := h
    exact ih (hs.child_kept (child_by_name_mem hc)) hrest

theorem Sound.get_node_kept {g : Graph} (hs : Sound g) {path : String} {id : NodeId}
    (h : g.getNode? path = some id) : Kept g id := by
  unfold Graph.getNode? at h
  split at h
  · rename_i habs
    have hstart : Kept g (Graph.startOf Graph.root path) := by
      simpa [Graph.startOf, habs] using hs.root_kept
    exact hs.walk_kept hstart h
  · cases h

theorem Sound.find_target_kept {g : Graph} (hs : Sound g) {target : NodeRef} {id : NodeId}
    (h : g.findTarget? target = some id) : Kept g id := by
  cases target with
  | path p => exact hs.get_node_kept h
  | label l =>
    simp only [Graph.findTarget?] at h
    split at h
    · rename_i holder hbound
      split at h
      · rename_i hlive
        obtain rfl : holder = id := Option.some.inj h
        exact hs.bound_kept hbound hlive
      · cases h
    · obtain ⟨p, _, hp⟩ := Option.bind_eq_some_iff.mp h
      exact hs.get_node_kept hp

/-- What a directive may delete is listed among the children of its parent. -/
theorem Sound.deletion_target_listed {g : Graph} (hs : Sound g) {scope : Option NodeId}
    {target : DeleteTarget} {id : NodeId} (h : g.deletionTarget? scope target = some id) :
    ∃ parent, g.parent? id = some parent ∧ id ∈ g.children parent := by
  unfold Graph.deletionTarget? at h
  obtain ⟨hfound, hparent⟩ := Option.filter_eq_some_iff.mp h
  have hk : (g.node id).deletedBy = none := by
    split at hfound
    · exact (hs.child_kept (child_by_name_mem hfound)).kept
    · exact (hs.get_node_kept hfound).kept
    · exact (hs.find_target_kept hfound).kept
  obtain ⟨parent, hp⟩ := Option.isSome_iff_exists.mp hparent
  exact ⟨parent, hp, hs.linked.mem_children hp hk⟩

/-- In a body, a name to delete is that of a child. -/
theorem Linked.deletion_target_child {g : Graph} (hl : Linked g) (n : NodeId) (wanted : NodeName) :
    g.deletionTarget? (some n) (.name wanted) = g.childByName? n wanted true := by
  unfold Graph.deletionTarget?
  cases hfound : g.childByName? n wanted true with
  | none => simp [hfound]
  | some c => simp [hfound, hl.child n c (child_by_name_mem hfound)]

end Devicetree.Proofs
