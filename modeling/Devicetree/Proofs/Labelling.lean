import Devicetree.Proofs.History

namespace Devicetree.Proofs

section Liveness
variable {g g' : Graph}

/-- The nodes above a node are the same at every later moment. -/
theorem Since.ancestors (hs : Since g g') (hb : Bounded g) {id : NodeId} (hid : HasNode g id) :
    g'.ancestors id = g.ancestors id := by
  induction hi : id.index using Nat.strongRecOn generalizing id with
  | ind i ih =>
    have hparent : g'.parent? id = g.parent? id := (hs.node id hid).parent
    rw [Graph.ancestors, Graph.ancestors, hparent]
    cases hp : g.parent? id with
    | none => rfl
    | some p =>
      by_cases hlt : p.index < id.index
      · simp only [hlt, if_true, ih p.index (hi ▸ hlt) ((hb.node id).parent p hp) rfl]
      · simp only [hlt, if_false]

/-- Once a node is not live, it never is again. -/
theorem Since.live_before (hs : Since g g') (hb : Bounded g) {id : NodeId} (hid : HasNode g id)
    (h : g'.isLive id = true) : g.isLive id = true := by
  unfold Graph.isLive at h ⊢
  rw [hs.ancestors hb hid] at h
  rw [List.all_eq_true] at h ⊢
  intro a ha
  cases hd : (g.node a).deletedBy with
  | none => rfl
  | some d =>
    have hlater := (hs.node a (has_node_of_deleted hd)).deletedBy d hd
    simpa [hlater] using h a ha

end Liveness

def marksOn (g : Graph) (id : NodeId) : List String := (g.node id).labels.map LabelMark.name

theorem has_node_of_mark {g : Graph} {id : NodeId} {l : String} (h : l ∈ marksOn g id) :
    HasNode g id := by
  apply Classical.byContradiction
  intro hn
  rw [marksOn, node_of_not_has hn] at h
  cases h

/-- What labels are bound to and what nodes carry agree. -/
structure Labelled (g : Graph) : Prop where
  held : ∀ l id, g.labels.nodeOf? l = some id → l ∈ marksOn g id
  holder : ∀ l id, g.isLive id = true → l ∈ marksOn g id → g.labels.nodeOf? l = some id

section Preserved
variable {g g' : Graph}

/-- A change that neither binds a label nor writes one leaves the labelling in order. -/
theorem Labelled.congr (hl : Labelled g) (hs : Since g g') (hb : Bounded g)
    (bound : g'.labels.bound = g.labels.bound)
    (marks : ∀ id, (g'.node id).labels = (g.node id).labels) : Labelled g' := by
  have hnode : ∀ l, g'.labels.nodeOf? l = g.labels.nodeOf? l := fun l => by
    simp [Labels.nodeOf?, bound]
  have hmarks : ∀ id, marksOn g' id = marksOn g id := fun id => by simp [marksOn, marks]
  refine ⟨?_, ?_⟩
  · intro l id h
    rw [hmarks]
    exact hl.held l id (hnode l ▸ h)
  · intro l id hlive h
    rw [hmarks] at h
    rw [hnode]
    exact hl.holder l id (hs.live_before hb (has_node_of_mark h) hlive) h

theorem marks_addLabel {id : NodeId} (m : LabelMark) (has : HasNode g id) (n : NodeId) :
    marksOn (g.addLabel id m) n = if n = id then marksOn g n ++ [m.name] else marksOn g n := by
  unfold marksOn Graph.addLabel
  rw [node_modifyNode g id _ has]
  split <;> simp

/-- A label that is free, or whose holder is gone, can be bound to any node. -/
theorem Labelled.hold (hl : Labelled g) (hb : Bounded g) {id : NodeId} {m : LabelMark}
    (has : HasNode g id) (hs : Since g ((g.bindLabel id m).addLabel id m))
    (free : ∀ holder, g.labels.nodeOf? m.name = some holder → g.isLive holder = false) :
    Labelled ((g.bindLabel id m).addLabel id m) := by
  have hmarks : ∀ n, marksOn ((g.bindLabel id m).addLabel id m) n =
      if n = id then marksOn g n ++ [m.name] else marksOn g n := marks_addLabel m has
  have hnode : ∀ l, ((g.bindLabel id m).addLabel id m).labels.nodeOf? l =
      if m.name = l then some id else g.labels.nodeOf? l :=
    fun l => Table.get?_insert g.labels.bound m.name l id
  refine ⟨?_, ?_⟩
  · intro l n h
    rw [hnode] at h
    rw [hmarks]
    split at h
    · rename_i he
      obtain rfl := Option.some.inj h
      simp [he]
    · have hold := hl.held l n h
      split
      · exact List.mem_append_left _ hold
      · exact hold
  · intro l n hlive h
    rw [hmarks] at h
    rw [hnode]
    by_cases hn : n = id
    · by_cases he : m.name = l
      · rw [if_pos he, hn]
      · have hold : l ∈ marksOn g n := by simpa [hn, Ne.symm he] using h
        rw [if_neg he]
        exact hl.holder l n (hs.live_before hb (has_node_of_mark hold) hlive) hold
    · rw [if_neg hn] at h
      have hbefore := hs.live_before hb (has_node_of_mark h) hlive
      have hbound := hl.holder l n hbefore h
      by_cases he : m.name = l
      · -- Another live node with this label would be its holder, who is not live.
        have hdead := free n (he ▸ hbound)
        rw [hbefore] at hdead
        cases hdead
      · rw [if_neg he]
        exact hbound

theorem Labelled.again (hl : Labelled g) (hb : Bounded g) {id : NodeId} {m : LabelMark}
    (has : HasNode g id) (hs : Since g (g.addLabel id m))
    (held : g.labels.nodeOf? m.name = some id) : Labelled (g.addLabel id m) := by
  have hmarks := marks_addLabel m has
  refine ⟨?_, ?_⟩
  · intro l n h
    have hold := hl.held l n h
    rw [hmarks]
    split
    · exact List.mem_append_left _ hold
    · exact hold
  · intro l n hlive h
    rw [hmarks] at h
    have hcases : l ∈ marksOn g n ∨ (n = id ∧ l = m.name) := by
      split at h
      · rename_i he
        rcases List.mem_append.mp h with hold | hlast
        · exact Or.inl hold
        · exact Or.inr ⟨he, List.mem_singleton.mp hlast⟩
      · exact Or.inl h
    rcases hcases with hold | ⟨rfl, rfl⟩
    · exact hl.holder l n (hs.live_before hb (has_node_of_mark hold) hlive) hold
    · exact held

/-- Each elementary change keeps the labelling in order. -/
theorem Labelled.change (hl : Labelled g) (hs : Sound g) (hledger : Ledger g) (h : Change g g') :
    Labelled g' := by
  have hsince := h.since hs hledger
  have hb := hs.bounded
  cases h with
  | report => exact hl.congr hsince hb rfl fun _ => rfl
  | define | refer =>
    exact hl.congr hsince hb rfl (view_modifyNode g Node.labels _ _ fun _ => rfl)
  | hold id m has free => exact hl.hold hb has hsince free
  | again id m has held => exact hl.again hb has hsince held
  | child name parent has =>
    refine hl.congr hsince hb rfl ?_
    intro n
    rw [node_addChild g name has]
    split
    · rename_i hn
      rw [hn, node_next]
      rfl
    · split <;> rfl
  | orphan =>
    refine hl.congr hsince hb rfl ?_
    intro n
    rw [node_addOrphan]
    split
    · rename_i hn
      rw [hn, node_next]
      rfl
    · rfl
  | property owner name values labels site has =>
    exact hl.congr hsince hb (by simp)
      (view_setProperty g owner name values labels site Node.labels has fun _ _ _ => rfl)
  | directive x =>
    refine hl.congr hsince hb ?_ (view_addDirective g Node.labels x fun _ _ => rfl)
    unfold Graph.addDirective
    split <;> rfl
  | dropChild parent id d =>
    exact hl.congr hsince hb rfl
      (view_dropChild g Node.labels (fun _ _ _ => rfl) (fun _ _ => rfl) parent id d)
  | dropProperty owner name p d =>
    exact hl.congr hsince hb rfl (view_modifyNode g Node.labels owner _ fun _ => rfl)

theorem Labelled.changes (hl : Labelled g) (hs : Sound g) (hledger : Ledger g) (h : Changes g g') :
    Labelled g' := by
  induction h with
  | refl => exact hl
  | tail hc h ih => exact ih.change (hs.changes hc) (hledger.changes hs hc) h

end Preserved

theorem start_labelled (config : BuildConfig) (fragments : List Fragment) :
    Labelled (Build.start config fragments).graph := by
  refine ⟨?_, ?_⟩
  · intro l id h
    have hnone : (Build.start config fragments).graph.labels.nodeOf? l = none :=
      congrArg (Table.get? · l) (bound_ofFragments fragments)
    rw [hnone] at h
    cases h
  · intro l id _ h
    simp [marksOn, node_start] at h

theorem built_labelled {config : BuildConfig} {fragments : List Fragment} {isCancelled : Nat → Bool}
    {g : Graph} (h : Build.build config fragments isCancelled = .ok g) : Labelled g := by
  obtain ⟨s, _, hc, hs, rfl⟩ := built_of_run h
  have hl := (start_labelled config fragments).changes (start_ready config fragments).sound
    (start_ledger config fragments) hc
  exact hl.congr (since_finish _ _) hs.sound.bounded (by simp)
    (view_finish _ _ Node.labels fun _ _ => rfl)

theorem Labelled.resolve_label_iff {g : Graph} (hl : Labelled g) (l : String) (id : NodeId) :
    g.resolveLabel? l = some id ↔ g.isLive id = true ∧ l ∈ g.labelsOf id := by
  have hmem : l ∈ g.labelsOf id ↔ l ∈ marksOn g id := List.mem_eraseDups
  rw [Graph.resolveLabel?, Option.filter_eq_some_iff, hmem]
  constructor
  · rintro ⟨hbound, hlive⟩
    exact ⟨hlive, hl.held l id hbound⟩
  · rintro ⟨hlive, hmark⟩
    exact ⟨hl.holder l id hlive hmark, hlive⟩

/-- In every built graph a label names a node if and only if the node is live and carries the label, so that no
two live nodes carry the same label. -/
theorem built_labels {config : BuildConfig} {fragments : List Fragment} {isCancelled : Nat → Bool}
    {g : Graph} (h : Build.build config fragments isCancelled = .ok g) :
    (∀ l id, g.resolveLabel? l = some id ↔ g.isLive id = true ∧ l ∈ g.labelsOf id) ∧
      ∀ l m n, g.isLive m = true → g.isLive n = true → l ∈ g.labelsOf m → l ∈ g.labelsOf n →
        m = n := by
  have hiff := (built_labelled h).resolve_label_iff
  refine ⟨hiff, ?_⟩
  intro l m n hm hn hlm hln
  have hresolve := (hiff l m).mpr ⟨hm, hlm⟩
  exact Option.some.inj (hresolve.symm.trans ((hiff l n).mpr ⟨hn, hln⟩))

def relabelled : List Fragment :=
  [⟨⟨0⟩, .root [] [.child { name := { name := "old" }, labels := [{ name := "bus" }] } []] {}⟩,
    ⟨⟨0⟩, .delete { target := .ref (.label "bus") }⟩,
    ⟨⟨1⟩, .root []
      [.child { name := { name := "new" }, labels := [{ name := "bus" }] } [],
        .child { name := { name := "late" }, labels := [{ name := "bus" }] } []] {}⟩]

theorem built_labels_relabelled :
    ∃ g, Build.build {} relabelled (fun _ => false) = .ok g ∧
      (g.resolveLabel? "bus" = some ⟨2⟩ ∧ g.isLive ⟨2⟩ = true ∧ "bus" ∈ g.labelsOf ⟨2⟩) ∧
      ("bus" ∈ g.labelsOf ⟨1⟩ ∧ g.isLive ⟨1⟩ = false) ∧ "bus" ∉ g.labelsOf ⟨3⟩ ∧
      ∀ n, g.isLive n = true → "bus" ∈ g.labelsOf n → n = ⟨2⟩ := by
  obtain ⟨g, h, hresolve, hold, hlate⟩ : ∃ g, Build.build {} relabelled (fun _ => false) = .ok g ∧
      g.resolveLabel? "bus" = some ⟨2⟩ ∧
      ("bus" ∈ g.labelsOf ⟨1⟩ ∧ g.isLive ⟨1⟩ = false) ∧ "bus" ∉ g.labelsOf ⟨3⟩ :=
    exists_built (by decide +kernel)
  obtain ⟨hiff, hunique⟩ := built_labels h
  obtain ⟨hlive, hlabel⟩ := (hiff "bus" ⟨2⟩).mp hresolve
  exact ⟨g, h, ⟨hresolve, hlive, hlabel⟩, hold, hlate,
    fun n hn hl => hunique "bus" n ⟨2⟩ hn hlive hl hlabel⟩

end Devicetree.Proofs
