import Devicetree.Proofs.ScopedChildren
import Devicetree.Proofs.TreeOrder

namespace Devicetree.Proofs

section Segments
variable {g : Graph} {n p : NodeId}

theorem segments_top (h : g.parent? n = none) : g.segments n = [] := by
  simp [Graph.segments, ancestors_top h, h]

theorem Linked.segments_child (hl : Linked g) (h : g.parent? n = some p) :
    g.segments n = g.segments p ++ [(g.node n).fullName] := by
  simp [Graph.segments, hl.ancestors_child h, h]

theorem path_root (g : Graph) : g.pathOf Graph.root = "/" := if_pos rfl

/-- The path of a node with a parent is made of all its segments. -/
theorem Sound.path_of_child (hs : Sound g) (h : g.parent? n = some p) :
    g.pathOf n = "/" ++ "/".intercalate (g.segments n) := by
  have hne : n ≠ Graph.root := by
    rintro rfl
    rw [hs.root_top] at h
    cases h
  have hsome : g.segments n ≠ [] := by simp [hs.linked.segments_child h]
  rw [Graph.pathOf, if_neg hne]
  split
  · contradiction
  · rfl

end Segments

section Walk
variable {g : Graph} {names : List NodeName} {n : NodeId}

/-- The path of a child is that of its parent with the child's name joined to it. -/
theorem Trail.path_join (hs : Sound g) (h : Trail g names n) (hread : pathNames (g.pathOf n) = names)
    {c : NodeId} (hc : c ∈ g.children n) :
    g.pathOf c = joinPath (g.pathOf n) (g.node c).fullName := by
  have hp := hs.linked.child n c hc
  rw [hs.path_of_child hp, hs.linked.segments_child hp]
  rcases h.last with ⟨rfl, rfl⟩ | ⟨above, parent, hnames, _, hlisted⟩
  · rw [segments_top hs.root_top]
    simp [Graph.pathOf, joinPath]
  · have hpath := hs.path_of_child (hs.linked.child parent n hlisted)
    have hsome : g.segments n ≠ [] := by simp [hs.linked.segments_child (hs.linked.child parent n hlisted)]
    have hnot : ¬ (g.pathOf n = "" ∨ g.pathOf n = "/") := by
      intro htop
      have hnone : pathNames (g.pathOf n) = [] := by
        rcases htop with he | he
        · rw [he]
          decide
        · rw [he]
          decide
      simp [hnone, hnames] at hread
    rw [joinPath, if_neg hnot, hpath, String.intercalate_append_of_ne_nil hsome (by simp)]
    simp [String.append_assoc]

/-- The path of a node is absolute and is read as the names on the way to it. -/
theorem Trail.path_read (hs : Sound g) (hn : Named g) (h : Trail g names n) :
    isAbsolute (g.pathOf n) = true ∧ pathNames (g.pathOf n) = names := by
  induction h with
  | root =>
    rw [path_root]
    exact ⟨by decide, by decide⟩
  | child above listed ih =>
    have hname := hn _ _ (hs.linked.child _ _ listed)
    rw [above.path_join hs ih.2 listed]
    refine ⟨absolute_joinPath ih.1 _, ?_⟩
    rw [Node.fullName, pathNames_joinPath _ hname, ih.2]

/-- The walk along the names on the way to a node ends at the node, whether it is strict or not. -/
theorem Trail.walk (hl : Linked g) (h : Trail g names n) (strict : Bool) :
    names.foldlM (fun id name => g.childByName? id name strict) Graph.root = some n := by
  induction h with
  | root => rfl
  | child above listed ih =>
    rw [List.foldlM_append, ih]
    simp [hl.child_by_own_name listed strict]

theorem Trail.child_at_path (hs : Sound g) (hn : Named g) (h : Trail g names n) (strict : Bool) :
    g.getChild? Graph.root (g.pathOf n) strict = some n := by
  obtain ⟨habsolute, hread⟩ := h.path_read hs hn
  rw [Graph.getChild?, hread, Graph.startOf, if_pos habsolute]
  exact h.walk hs.linked strict

theorem Trail.node_at_path (hs : Sound g) (hn : Named g) (h : Trail g names n) :
    g.getNode? (g.pathOf n) = some n := by
  rw [Graph.getNode?, if_pos (h.path_read hs hn).1]
  exact h.child_at_path hs hn false

end Walk

/-- While children have names that can be read, so has every node with a parent in the built graph. -/
theorem built_named {config : BuildConfig} {fragments : List Fragment} {isCancelled : Nat → Bool}
    {g : Graph} (h : Build.build config fragments isCancelled = .ok g)
    (hnames : ∀ head ∈ headsIn fragments, Readable head.name) : Named g := by
  obtain ⟨s, hrun, _, _, rfl⟩ := built_of_run h
  have hm : moment config fragments (Edit.ofFragments 0 fragments).length = .ok s := by
    rw [moment, List.take_length, hrun]
  exact (moment_named hnames hm).keep (since_finish s.graph config.options) (by simp)

/-- Paths identify nodes: where children have names that can be read, the path of a node below the root leads to
that node, also when only exact names count, so that no two of them have the same path. -/
theorem built_paths {config : BuildConfig} {fragments : List Fragment} {isCancelled : Nat → Bool}
    {g : Graph} (h : Build.build config fragments isCancelled = .ok g)
    (hnames : ∀ head ∈ headsIn fragments, Readable head.name) :
    (∀ n ∈ g.descendants Graph.root,
      g.getNode? (g.pathOf n) = some n ∧ g.getChild? Graph.root (g.pathOf n) true = some n) ∧
    ∀ m ∈ g.descendants Graph.root, ∀ n ∈ g.descendants Graph.root, g.pathOf m = g.pathOf n → m = n := by
  have hs := built_sound h
  have hnamed := built_named h hnames
  have hfound : ∀ n ∈ g.descendants Graph.root, g.getNode? (g.pathOf n) = some n := by
    intro n hn
    obtain ⟨names, ht⟩ := hs.mem_descendants.mp hn
    exact ht.node_at_path hs hnamed
  refine ⟨?_, ?_⟩
  · intro n hn
    obtain ⟨names, ht⟩ := hs.mem_descendants.mp hn
    exact ⟨hfound n hn, ht.child_at_path hs hnamed true⟩
  · intro m hm n hn he
    have hsame := hfound m hm
    rw [he, hfound n hn] at hsame
    exact (Option.some.inj hsame).symm

/-- Siblings with one name at no address, at two, and at a unit that is none, the first of them declared anew. -/
def addressed : List Fragment :=
  [⟨⟨0⟩, .root []
      [.child { name := .parse "soc" }
        [.child { name := .parse "uart@0x10,2" } [],
          .child { name := .parse "uart" } [],
          .child { name := .parse "uart@port" } []]] {}⟩,
    ⟨⟨1⟩, .root []
      [.child { name := .parse "soc" }
        [.deleteNode { target := .name (.parse "uart@10,2") },
          .child { name := .parse "uart@10,2" } [.child { name := .parse "modem" } []]]] {}⟩]

/-- The plain name leads to the plain sibling though it comes second, and the deleted one is not found. -/
theorem built_paths_addressed :
    (∀ head ∈ headsIn addressed, Readable head.name) ∧
      ∃ g, Build.build {} addressed (fun _ => false) = .ok g ∧
        g.getNode? "/soc/uart@port" = some ⟨4⟩ ∧ g.getChild? Graph.root "/soc/uart" true = some ⟨3⟩ ∧
        g.getNode? "/soc/uart@10,2/modem" = some ⟨6⟩ ∧ g.pathOf ⟨2⟩ = g.pathOf ⟨5⟩ ∧
        ∀ m ∈ g.descendants Graph.root, g.pathOf m = "/soc/uart" → m = ⟨3⟩ := by
  have hnames : ∀ head ∈ headsIn addressed, Readable head.name := by decide +kernel
  obtain ⟨g, h, ⟨hport, hplain, hmodem⟩, hport', hplain', hmodem', hdeleted⟩ :
      ∃ g, Build.build {} addressed (fun _ => false) = .ok g ∧
        (⟨4⟩ ∈ g.descendants Graph.root ∧ ⟨3⟩ ∈ g.descendants Graph.root ∧ ⟨6⟩ ∈ g.descendants Graph.root) ∧
        g.pathOf ⟨4⟩ = "/soc/uart@port" ∧ g.pathOf ⟨3⟩ = "/soc/uart" ∧
        g.pathOf ⟨6⟩ = "/soc/uart@10,2/modem" ∧ g.pathOf ⟨2⟩ = g.pathOf ⟨5⟩ :=
    exists_built (by decide +kernel)
  obtain ⟨hfound, hinj⟩ := built_paths h hnames
  refine ⟨hnames, g, h, hport' ▸ (hfound _ hport).1, hplain' ▸ (hfound _ hplain).2,
    hmodem' ▸ (hfound _ hmodem).1, hdeleted, ?_⟩
  intro m hm he
  exact hinj m hm ⟨3⟩ hplain (he.trans hplain'.symm)

end Devicetree.Proofs
