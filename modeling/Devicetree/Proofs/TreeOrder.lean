import Devicetree.Proofs.Trails
import Mathlib.Data.List.Perm.Subperm

namespace Devicetree.Proofs

/-- A node and all below it along the children lists: each node comes before its children, and what is below one
child before the next child. -/
def preorder (g : Graph) (id : NodeId) : List NodeId :=
  id :: (g.children id).flatMap fun c =>
    if _h : id.index < c.index ∧ c.index < g.nodes.size then preorder g c else []
termination_by g.nodes.size - id.index
decreasing_by omega

def topmost (g : Graph) (id : NodeId) : NodeId := (g.ancestors id).getLastD id

section Down
variable {g : Graph}

theorem Sound.child_link (hs : Sound g) {id c : NodeId} (hc : c ∈ g.children id) :
    id.index < c.index ∧ c.index < g.nodes.size :=
  ⟨hs.linked.older c id (hs.linked.child id c hc), (hs.bounded.node id).children c hc⟩

/-- What holds of a node as soon as it holds of its children holds of every node. -/
theorem Sound.induct_down (hs : Sound g) {P : NodeId → Prop}
    (h : ∀ id, (∀ c ∈ g.children id, P c) → P id) (id : NodeId) : P id := by
  induction hi : g.nodes.size - id.index using Nat.strongRecOn generalizing id with
  | ind i ih =>
    apply h
    intro c hc
    have hlink := hs.child_link hc
    exact ih (g.nodes.size - c.index) (by omega) c rfl

/-- Where the links are in order, the recursion follows all of them. -/
theorem Sound.preorder_eq (hs : Sound g) (id : NodeId) :
    preorder g id = id :: (g.children id).flatMap (preorder g) := by
  rw [preorder]
  congr 1
  apply List.flatMap_congr
  intro c hc
  rw [dif_pos (hs.child_link hc)]

theorem Sound.under_of_mem_preorder (hs : Sound g) {id m : NodeId} (hm : m ∈ preorder g id) :
    Under g id m := by
  induction id using hs.induct_down with
  | h id ih =>
    rw [hs.preorder_eq] at hm
    rcases List.mem_cons.mp hm with rfl | hbelow
    · exact .self
    · obtain ⟨c, hc, hmc⟩ := List.mem_flatMap.mp hbelow
      exact (Under.down (hs.linked.child id c hc) .self).trans (ih c hc hmc)

theorem Sound.preorder_nodup (hs : Sound g) (id : NodeId) : (preorder g id).Nodup := by
  induction id using hs.induct_down with
  | h id ih =>
    rw [hs.preorder_eq, List.nodup_cons]
    constructor
    · intro hm
      obtain ⟨c, hc, hmc⟩ := List.mem_flatMap.mp hm
      exact hs.linked.not_above_parent hc (hs.under_of_mem_preorder hmc)
    · refine List.nodup_flatMap.mpr ⟨ih, (hs.linked.nodup id).pairwise_of_forall_ne ?_⟩
      intro c hc d hd hne m hmc hmd
      exact hs.linked.apart hc hd hne.symm (hs.under_of_mem_preorder hmd) (hs.under_of_mem_preorder hmc)

theorem Sound.length_preorder_le (hs : Sound g) {id : NodeId} (hid : HasNode g id) :
    (preorder g id).length ≤ g.nodes.size := by
  have hinj : ((preorder g id).map NodeId.index).Nodup :=
    (hs.preorder_nodup id).map fun a b hab => by cases a; cases b; cases hab; rfl
  have hrange : (preorder g id).map NodeId.index ⊆ List.range g.nodes.size := by
    intro i hi
    obtain ⟨m, hm, rfl⟩ := List.mem_map.mp hi
    exact List.mem_range.mpr ((hs.under_of_mem_preorder hm).has hid)
  simpa using (hinj.subperm hrange).length_le

/-- With enough fuel the stack is emptied, and what is on it is listed in preorder. -/
theorem Sound.visit_eq (hs : Sound g) {fuel : Nat} {stack : List NodeId}
    (h : (stack.flatMap (preorder g)).length ≤ fuel) :
    g.visit fuel stack = stack.flatMap (preorder g) := by
  induction fuel generalizing stack with
  | zero =>
    have hnil : stack.flatMap (preorder g) = [] := List.eq_nil_of_length_eq_zero (Nat.le_zero.mp h)
    rw [hnil, Graph.visit]
  | succ fuel ih =>
    cases stack with
    | nil => rfl
    | cons id stack =>
      have hopen : (id :: stack).flatMap (preorder g) =
          id :: (g.children id ++ stack).flatMap (preorder g) := by
        rw [List.flatMap_cons, hs.preorder_eq, List.flatMap_append, List.cons_append]
      rw [hopen] at h ⊢
      rw [Graph.visit, ih (Nat.le_of_succ_le_succ h)]

theorem Sound.visit_root (hs : Sound g) {fuel : Nat} (h : g.nodes.size ≤ fuel) :
    g.visit fuel [Graph.root] = preorder g Graph.root := by
  have hall : [Graph.root].flatMap (preorder g) = preorder g Graph.root := List.flatMap_singleton _ _
  have hlen := Nat.le_trans (hs.length_preorder_le hs.bounded.root) h
  rw [← hall] at hlen ⊢
  exact hs.visit_eq hlen

theorem Sound.descendants_root (hs : Sound g) : g.descendants Graph.root = preorder g Graph.root :=
  hs.visit_root (Nat.le_refl _)

theorem Sound.mem_preorder_self (hs : Sound g) (id : NodeId) : id ∈ preorder g id := by
  rw [hs.preorder_eq]
  exact List.mem_cons_self

theorem Sound.mem_preorder_child (hs : Sound g) {id p m : NodeId} (hp : p ∈ preorder g id)
    (hm : m ∈ g.children p) : m ∈ preorder g id := by
  induction id using hs.induct_down with
  | h id ih =>
    rw [hs.preorder_eq] at hp ⊢
    apply List.mem_cons_of_mem
    rcases List.mem_cons.mp hp with rfl | hbelow
    · exact List.mem_flatMap.mpr ⟨m, hm, hs.mem_preorder_self m⟩
    · obtain ⟨c, hc, hpc⟩ := List.mem_flatMap.mp hbelow
      exact List.mem_flatMap.mpr ⟨c, hc, ih c hc hpc⟩

/-- The nodes listed from the root are those with a way down to them. -/
theorem Sound.mem_descendants (hs : Sound g) {n : NodeId} :
    n ∈ g.descendants Graph.root ↔ ∃ names, Trail g names n := by
  rw [hs.descendants_root]
  constructor
  · have hway : ∀ id, ∀ m ∈ preorder g id, ∀ above, Trail g above id → ∃ names, Trail g names m := by
      intro id
      induction id using hs.induct_down with
      | h id ih =>
        intro m hm above habove
        rw [hs.preorder_eq] at hm
        rcases List.mem_cons.mp hm with rfl | hbelow
        · exact ⟨above, habove⟩
        · obtain ⟨c, hc, hmc⟩ := List.mem_flatMap.mp hbelow
          exact ih c hc m hmc _ (habove.child hc)
    intro hm
    exact hway Graph.root n hm [] .root
  · rintro ⟨names, ht⟩
    induction ht with
    | root => exact hs.mem_preorder_self Graph.root
    | child _ listed ih => exact hs.mem_preorder_child ih listed

end Down

section Up
variable {g : Graph} {n p : NodeId}

theorem ancestors_top (h : g.parent? n = none) : g.ancestors n = [n] := by
  rw [Graph.ancestors, h]

theorem Linked.ancestors_child (hl : Linked g) (h : g.parent? n = some p) :
    g.ancestors n = n :: g.ancestors p := by
  rw [Graph.ancestors, h]
  simp only [if_pos (hl.older n p h)]

/-- What holds of a node as soon as it holds of its parent holds of every node. -/
theorem Linked.induct_up (hl : Linked g) {P : NodeId → Prop}
    (h : ∀ id, (∀ p, g.parent? id = some p → P p) → P id) (id : NodeId) : P id := by
  induction hi : id.index using Nat.strongRecOn generalizing id with
  | ind i ih =>
    apply h
    intro p hp
    exact ih p.index (hi ▸ hl.older id p hp) p rfl

theorem topmost_top (h : g.parent? n = none) : topmost g n = n := by
  rw [topmost, ancestors_top h]
  rfl

theorem Linked.topmost_child (hl : Linked g) (h : g.parent? n = some p) : topmost g n = topmost g p := by
  rw [topmost, topmost, hl.ancestors_child h, List.getLastD_cons, Graph.ancestors, List.getLastD_cons,
    List.getLastD_cons]

theorem Linked.live_top (hl : Linked g) (h : g.parent? n = none) : g.isLive n = true := by
  simp [Graph.isLive, ancestors_top h, hl.top_kept n h]

theorem Linked.live_child (hl : Linked g) (h : g.parent? n = some p) :
    g.isLive n = true ↔ (g.node n).deletedBy = none ∧ g.isLive p = true := by
  simp [Graph.isLive, hl.ancestors_child h]

/-- The nodes with a way down to them are the live ones below the root. -/
theorem Sound.trail_iff_live (hs : Sound g) (n : NodeId) :
    (∃ names, Trail g names n) ↔ g.isLive n = true ∧ topmost g n = Graph.root := by
  constructor
  · rintro ⟨names, ht⟩
    induction ht with
    | root => exact ⟨hs.linked.live_top hs.root_top, topmost_top hs.root_top⟩
    | child _ listed ih =>
      have hp := hs.linked.child _ _ listed
      exact ⟨(hs.linked.live_child hp).mpr ⟨hs.linked.child_kept listed, ih.1⟩,
        (hs.linked.topmost_child hp).trans ih.2⟩
  · induction n using hs.linked.induct_up with
    | h n ih =>
      rintro ⟨hlive, htop⟩
      cases hp : g.parent? n with
      | none =>
        rw [topmost_top hp] at htop
        exact ⟨[], htop ▸ .root⟩
      | some p =>
        obtain ⟨hkept, hlivep⟩ := (hs.linked.live_child hp).mp hlive
        rw [hs.linked.topmost_child hp] at htop
        obtain ⟨names, ht⟩ := ih p hp ⟨hlivep, htop⟩
        exact ⟨_, ht.child (hs.linked.mem_children hp hkept)⟩

theorem Sound.topmost_cases (hs : Sound g) (hn : HasNode g n) :
    topmost g n = Graph.root ∨ topmost g n ∈ g.orphans := by
  induction n using hs.linked.induct_up with
  | h n ih =>
    cases hp : g.parent? n with
    | none =>
      rw [topmost_top hp]
      exact (hs.linked.top n hn).mp hp
    | some p =>
      rw [hs.linked.topmost_child hp]
      exact ih p hp ((hs.bounded.node n).parent p hp)

/-- No change makes a stand-in of the root. -/
theorem Changes.root_not_orphan {g' : Graph} (hb : Bounded g) (h : Changes g g')
    (hroot : Graph.root ∉ g.orphans) : Graph.root ∉ g'.orphans := by
  induction h with
  | refl => exact hroot
  | tail hsteps hlast ih =>
    cases hlast with
    | orphan =>
      have hold := ((Changes.grown hsteps).has_node hb.root).ne_next
      simpa [Graph.addOrphan, hold] using ih
    | property => simpa using ih
    | directive => simpa using ih
    | _ => exact ih

end Up

/-- In every built graph the walk down from the root is the recursive preorder of the children lists, however much
fuel it has beyond one unit a node. It lists no node twice, and lists those that are live and have the root as
their topmost ancestor; any other node of the graph is topped by a stand-in. -/
theorem built_descendants {config : BuildConfig} {fragments : List Fragment} {isCancelled : Nat → Bool}
    {g : Graph} (h : Build.build config fragments isCancelled = .ok g) :
    g.descendants Graph.root = preorder g Graph.root ∧
      (∀ id, preorder g id = id :: (g.children id).flatMap (preorder g)) ∧
      (∀ fuel, g.nodes.size ≤ fuel → g.visit fuel [Graph.root] = g.descendants Graph.root) ∧
      (g.descendants Graph.root).Nodup ∧
      (∀ n, n ∈ g.descendants Graph.root ↔ g.isLive n = true ∧ topmost g n = Graph.root) ∧
      (∀ n, HasNode g n → (topmost g n ∈ g.orphans ↔ topmost g n ≠ Graph.root)) := by
  have hs := built_sound h
  refine ⟨hs.descendants_root, hs.preorder_eq, ?_, ?_, ?_, ?_⟩
  · intro fuel hfuel
    rw [hs.visit_root hfuel, hs.descendants_root]
  · rw [hs.descendants_root]
    exact hs.preorder_nodup Graph.root
  · intro n
    rw [hs.mem_descendants, hs.trail_iff_live]
  · intro n hn
    obtain ⟨s, _, hchanges, _, rfl⟩ := built_of_run h
    have hroot : Graph.root ∉ (s.graph.finish config.options).orphans := by
      simpa using hchanges.root_not_orphan (start_ready config fragments).sound.bounded (by
        simp [Build.start, Graph.empty])
    constructor
    · rintro hm he
      exact hroot (he ▸ hm)
    · intro hne
      exact (hs.topmost_cases hn).resolve_left hne

def regrown : List Fragment :=
  [⟨⟨0⟩, .root []
      [.child { name := { name := "soc" } } [.child { name := { name := "uart" } } []],
        .child { name := { name := "leds" } } [.child { name := { name := "red" } } []]] {}⟩,
    ⟨⟨0⟩, .reference (.label "nowhere") [] [.child { name := { name := "lost" } } []] {} {}⟩,
    ⟨⟨1⟩, .root []
      [.deleteNode { target := .name { name := "soc" } },
        .child { name := { name := "soc" } } [.child { name := { name := "spi" } } []],
        .child { name := { name := "leds" } } [.child { name := { name := "blue" } } []]] {}⟩]

/-- The deleted node and what was below it are not listed, nor are the stand-in and its child, which is live. -/
theorem built_descendants_regrown :
    ∃ g, Build.build {} regrown (fun _ => false) = .ok g ∧
      preorder g Graph.root = [⟨0⟩, ⟨3⟩, ⟨4⟩, ⟨9⟩, ⟨7⟩, ⟨8⟩] ∧
      g.isLive ⟨2⟩ = false ∧ (g.isLive ⟨6⟩ = true ∧ topmost g ⟨6⟩ ∈ g.orphans) ∧
      ∀ n, g.isLive n = true ∧ topmost g n = Graph.root ↔
        n ∈ ([⟨0⟩, ⟨3⟩, ⟨4⟩, ⟨9⟩, ⟨7⟩, ⟨8⟩] : List NodeId) := by
  obtain ⟨g, h, hlist, hdead, hlost, has, htop⟩ : ∃ g, Build.build {} regrown (fun _ => false) = .ok g ∧
      g.descendants Graph.root = [⟨0⟩, ⟨3⟩, ⟨4⟩, ⟨9⟩, ⟨7⟩, ⟨8⟩] ∧
      g.isLive ⟨2⟩ = false ∧ g.isLive ⟨6⟩ = true ∧ 6 < g.nodes.size ∧ topmost g ⟨6⟩ ≠ Graph.root :=
    exists_built (by decide +kernel)
  obtain ⟨hpre, _, _, _, hiff, horphan⟩ := built_descendants h
  refine ⟨g, h, hpre.symm.trans hlist, hdead, ⟨hlost, (horphan ⟨6⟩ has).mpr htop⟩, ?_⟩
  intro n
  rw [← hiff, hlist]

end Devicetree.Proofs
