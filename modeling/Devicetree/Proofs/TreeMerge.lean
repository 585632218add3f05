import Devicetree.Proofs.Reshapes

namespace Devicetree.Proofs

structure Settled (s : Merge.State) : Prop where
  ready : Ready s
  ledger : Ledger s.graph

theorem Settled.run {options : BuildOptions} {s s' : Merge.State} {edits : List Edit} (hs : Settled s)
    (h : Merge.run options s edits = .ok s') : Settled s' := by
  obtain ⟨t, ht, hc, hr⟩ := run_advances options hs.ready edits
  obtain rfl := Except.ok.inj (ht.symm.trans h)
  exact ⟨hr, hs.ledger.changes hs.ready.sound hc⟩

theorem Settled.step {options : BuildOptions} {s s' : Merge.State} {e : Edit} (hs : Settled s)
    (h : Merge.step options s e = .ok s') : Settled s' :=
  hs.run (run_cons h [])

theorem Settled.has {g : Graph} {body : Merge.Frame} {bodies : List Merge.Frame}
    (hs : Settled ⟨g, body :: bodies⟩) : HasNode g body.node :=
  hs.ready.frames body.node List.mem_cons_self

/-- Edits that, made in the body of any node, succeed, close the bodies that they open, and change the tree at
the node by `change`. -/
def Contract (options : BuildOptions) (edits : List Edit) (change : Tree → Tree) : Prop :=
  ∀ g body bodies, Settled ⟨g, body :: bodies⟩ →
    ∃ g' body', Merge.run options ⟨g, body :: bodies⟩ edits = .ok ⟨g', body' :: bodies⟩ ∧
      body'.node = body.node ∧ Reshapes g g' body.node change

theorem Contract.nil (options : BuildOptions) : Contract options [] id := by
  intro g body bodies hs
  exact ⟨g, body, rfl, rfl, (Quiet.refl g).reshapes hs.ready.sound hs.ready.sound body.node⟩

theorem Contract.append {options : BuildOptions} {edits more : List Edit} {f h : Tree → Tree}
    (hf : Contract options edits f) (hh : Contract options more h) :
    Contract options (edits ++ more) fun t => h (f t) := by
  intro g body bodies hs
  obtain ⟨g₁, body₁, hrun₁, hnode₁, hr₁⟩ := hf g body bodies hs
  obtain ⟨g₂, body₂, hrun₂, hnode₂, hr₂⟩ := hh g₁ body₁ bodies (hs.run hrun₁)
  rw [hnode₁] at hr₂
  exact ⟨g₂, body₂, (run_append hrun₁ more).trans hrun₂, hnode₂.trans hnode₁,
    hr₁.trans hs.ready.sound hr₂⟩

theorem Contract.property (options : BuildOptions) (name : String) (values : List Value)
    (labels : List LabelMark) (site : Site) :
    Contract options [.property name values labels site] (Tree.write name values) := by
  intro g body bodies hs
  have hsound := hs.ready.sound
  have hreport := report_if_changes g (name ∈ body.properties)
    (.ofFault (.duplicatePropertyName name) site.nameLocation)
  have hquiet := (quiet_report_if g (name ∈ body.properties)
    (.ofFault (.duplicatePropertyName name) site.nameLocation)).reshapes hsound (hsound.changes hreport)
    body.node
  have hwrite := hquiet.sound.write_reshapes name values labels site
    (hs.ledger.changes hsound hreport) (hreport.grown.has_node hs.has)
  exact ⟨_, { body with properties := name :: body.properties }, rfl, rfl, hquiet.trans hsound hwrite⟩

theorem Contract.deleteProperty (options : BuildOptions) (name : String) (site : Site) :
    Contract options [.deleteProperty name site] (Tree.erase name) := by
  intro g body bodies hs
  exact ⟨_, { body with properties := body.properties.filter fun m => !decide (m = name) }, rfl, rfl,
    hs.ready.sound.erase_reshapes name hs.has options site⟩

theorem Contract.deleteNode (options : BuildOptions) (wanted : NodeName) (site : Site) :
    Contract options [.deleteNode (.name wanted) site] (Tree.remove wanted) := by
  intro g body bodies hs
  obtain ⟨g', hok, hr⟩ := hs.ready.sound.remove_reshapes hs.has options wanted site
  refine ⟨g', { body with children := body.children.filter fun m => !decide (m = wanted) }, ?_, rfl, hr⟩
  apply run_cons
  simp only [Merge.step, List.head?_cons, Option.map_some, hok]
  rfl

/-- Entering a child leaves the tree as it is, but for the child if it is new. -/
theorem Settled.enter_child {options : BuildOptions} {g : Graph} {body : Merge.Frame}
    {bodies : List Merge.Frame} (hs : Settled ⟨g, body :: bodies⟩) (name : NodeName)
    (labels : List LabelMark) (site : Site) :
    ∃ g' c body', Merge.step options ⟨g, body :: bodies⟩ (.enterChild name labels site) =
        .ok ⟨g', { node := c } :: body' :: bodies⟩ ∧ body'.node = body.node ∧
      Reshapes g g' body.node (Tree.merge name id) ∧ c ∈ g'.children body.node ∧
      (g'.node c).name = name := by
  have hsound := hs.ready.sound
  have hreport := report_if_changes g (name ∈ body.children)
    (.ofFault (.duplicateNodeName name) site.nameLocation)
  have hfirst := (quiet_report_if g (name ∈ body.children)
    (.ofFault (.duplicateNodeName name) site.nameLocation)).reshapes hsound (hsound.changes hreport)
    body.node
  obtain ⟨hensure, hmem, hname⟩ :=
    hfirst.sound.ensure_child_reshapes (hreport.grown.has_node hs.has) name
  have hmarks : ∀ r : Graph × NodeId,
      Quiet r.1 ((r.1.addDefinition r.2 .child site).attachLabels r.2 labels false) :=
    fun r => (quiet_addDefinition r.1 r.2 .child site).trans (quiet_attachLabels _ r.2 labels false)
  have hstep : Merge.step options ⟨g, body :: bodies⟩ (.enterChild name labels site) = .ok _ := rfl
  have hlast := (hmarks _).reshapes hensure.sound (hs.step hstep).ready.sound body.node
  have hall := (hfirst.trans hsound hensure).trans hsound hlast
  have hmem' := ((hmarks _).children body.node).symm ▸ hmem
  have hname' := ((hmarks _).name _).trans hname
  exact ⟨_, _, { body with children := name :: body.children }, hstep, rfl, hall, hmem', hname'⟩

theorem Contract.child {options : BuildOptions} {edits : List Edit} {change : Tree → Tree}
    (h : Contract options edits change) (name : NodeName) (labels : List LabelMark) (site : Site) :
    Contract options (.enterChild name labels site :: (edits ++ [.leave])) (Tree.merge name change) := by
  intro g body bodies hs
  obtain ⟨g₁, c, body', hstep, hnode, henter, hmem, hname⟩ := hs.enter_child name labels site
  have hs₁ := hs.step hstep
  obtain ⟨g₂, inner, hrun, _, hinner⟩ := h g₁ { node := c } (body' :: bodies) hs₁
  have hn : HasNode g₁ body.node := henter.within.has body.node hs.has
  have houter := hinner.of_child hs₁.ready.sound hn hmem
  rw [hname] at houter
  refine ⟨g₂, body', ?_, hnode, ?_⟩
  · rw [run_cons hstep, run_append hrun]
    rfl
  · have hboth := henter.trans hs.ready.sound houter
    exact ⟨hboth.sound, hboth.within, hboth.tree.trans (Tree.merge_merge name change _)⟩

mutual

/-- The edits of an item do to the tree what the item does. -/
theorem item_contract (options : BuildOptions) (file : FileId) (index : Nat) :
    (item : Item) → isLocal item = true →
      Contract options (Edit.ofItem file index item) fun t => t.apply item
  | .property d, _ => Contract.property options d.name d.values _ _
  | .child head body, h => (items_contract options file index body h).child head.name _ _
  | .deleteNode ⟨.name wanted, _, _⟩, _ => Contract.deleteNode options wanted _
  | .deleteNode ⟨.ref _, _, _⟩, h => by cases h
  | .deleteProperty d, _ => Contract.deleteProperty options d.name _

theorem items_contract (options : BuildOptions) (file : FileId) (index : Nat) :
    (items : List Item) → allLocal items = true →
      Contract options (Edit.ofItems file index items) fun t => t.applyAll items
  | [], _ => Contract.nil options
  | item :: items, h => by
    have hboth : isLocal item = true ∧ allLocal items = true := by simpa [allLocal] using h
    exact (item_contract options file index item hboth.1).append
      (items_contract options file index items hboth.2)

end

/-- A fragment that extends the root does to the tree what its items do. -/
theorem Settled.fragment_tree (options : BuildOptions) {g : Graph} (hs : Settled ⟨g, []⟩) (index : Nat)
    {f : Fragment} (hf : extendsRoot f = true) :
    ∃ g', Merge.run options ⟨g, []⟩ (Edit.ofFragment index f) = .ok ⟨g', []⟩ ∧
      liveTree g' Graph.root = (liveTree g Graph.root).applyAll (bodyOf f) := by
  obtain ⟨file, content⟩ := f
  cases content with
  | reference => cases hf
  | delete => cases hf
  | root labels body span =>
    have hstep : Merge.step options ⟨g, []⟩
        (.enterRoot (Edit.marks file labels) (Edit.site file index span span)) = .ok _ := rfl
    have hquiet := (quiet_addDefinition g Graph.root .root (Edit.site file index span span)).trans
      (quiet_attachLabels _ Graph.root (Edit.marks file labels) false)
    have hs₁ := hs.step hstep
    obtain ⟨g₂, inner, hrun, _, hr⟩ := items_contract options file index body hf _ _ [] hs₁
    refine ⟨g₂, ?_, ?_⟩
    · rw [Edit.ofFragment, run_cons hstep]
      exact run_append hrun [.leave]
    · exact hr.tree.trans (congrArg (Tree.applyAll · body)
        (hquiet.live_tree hs.ready.sound hs₁.ready.sound Graph.root))

/-- Fragments that extend the root do to the tree what all their items do, one after the other. -/
theorem Settled.fragments_tree (options : BuildOptions) (fragments : List Fragment)
    (hf : ∀ f ∈ fragments, extendsRoot f = true) {g : Graph} (hs : Settled ⟨g, []⟩) (index : Nat) :
    ∃ g', Merge.run options ⟨g, []⟩ (Edit.ofFragments index fragments) = .ok ⟨g', []⟩ ∧
      liveTree g' Graph.root = (fragments.flatMap bodyOf).foldl Tree.apply (liveTree g Graph.root) := by
  induction fragments generalizing g index with
  | nil => exact ⟨g, rfl, rfl⟩
  | cons f fs ih =>
    obtain ⟨g₁, hrun₁, htree₁⟩ := hs.fragment_tree options index (hf f List.mem_cons_self)
    obtain ⟨g₂, hrun₂, htree₂⟩ := ih (fun f hm => hf f (List.mem_cons_of_mem _ hm)) (hs.run hrun₁)
      (index + 1)
    refine ⟨g₂, (run_append hrun₁ _).trans hrun₂, ?_⟩
    rw [htree₂, htree₁, Tree.apply_all_eq_foldl, List.flatMap_cons, List.foldl_append]

theorem quiet_finish (g : Graph) (options : BuildOptions) : Quiet g (g.finish options) :=
  ⟨by simp, by simp, view_finish g options Outline.of fun _ _ => rfl⟩

theorem start_settled (config : BuildConfig) (fragments : List Fragment) :
    Settled (Build.start config fragments) :=
  ⟨start_ready config fragments, start_ledger config fragments⟩

theorem live_tree_start (config : BuildConfig) (fragments : List Fragment) :
    liveTree (Build.start config fragments).graph Graph.root = .leaf {} := by
  rw [(start_ready config fragments).sound.live_tree, shown, Graph.children, node_start]
  rfl

/-- Fragments that extend the root and delete no node by reference can be built, and the live tree of the graph
is what their items, applied in order, make of the root alone. -/
theorem built_tree (config : BuildConfig) (fragments : List Fragment)
    (h : ∀ f ∈ fragments, extendsRoot f = true) :
    (∃ g, Build.build config fragments (fun _ => false) = .ok g) ∧
      ∀ isCancelled g, Build.build config fragments isCancelled = .ok g →
        liveTree g Graph.root = (fragments.flatMap bodyOf).foldl Tree.apply (.leaf {}) := by
  refine ⟨build_never_cancelled config fragments, ?_⟩
  intro isCancelled g hbuild
  obtain ⟨s, hrun, _, hs, rfl⟩ := built_of_run hbuild
  obtain ⟨g', hrun', htree⟩ := (start_settled config fragments).fragments_tree config.options fragments h 0
  obtain rfl := Except.ok.inj (hrun.symm.trans hrun')
  calc liveTree (g'.finish config.options) Graph.root
      _ = liveTree g' Graph.root :=
        (quiet_finish g' config.options).live_tree hs.sound (hs.sound.finish config.options) Graph.root
      _ = (fragments.flatMap bodyOf).foldl Tree.apply
          (liveTree (Build.start config fragments).graph Graph.root) := htree
      _ = (fragments.flatMap bodyOf).foldl Tree.apply (.leaf {}) := by rw [live_tree_start]

def overlaid : List Fragment :=
  [⟨⟨0⟩, .root []
      [.property { name := "model", values := [.str "board"] },
        .child { name := { name := "soc" }, labels := [{ name := "soc" }] }
          [.property { name := "status", values := [.str "okay"] },
            .child { name := { name := "uart", address := some [16] } } [.property { name := "reg" }],
            .child { name := { name := "uart", address := some [32] } } []],
        .child { name := { name := "leds" } } []] {}⟩,
    ⟨⟨1⟩, .root []
      [.child { name := { name := "soc" } }
          [.property { name := "clock" }, .property { name := "status", values := [.str "disabled"] },
            .deleteNode { target := .name { name := "uart", address := some [32] } },
            .child { name := { name := "uart", address := some [16] } }
              [.deleteProperty { name := "reg" }, .child { name := { name := "bus" } } []],
            .child { name := { name := "uart" } } []],
        .deleteNode { target := .name { name := "leds" } },
        .deleteProperty { name := "missing" }, .child { name := { name := "leds" } } []] {}⟩]

theorem built_tree_overlaid :
    (∀ f ∈ overlaid, extendsRoot f = true) ∧ ∃ g, Build.build {} overlaid (fun _ => false) = .ok g ∧
      liveTree g Graph.root =
        .node {} [("model", [.str "board"])]
          [.node { name := "soc" } [("status", [.str "disabled"]), ("clock", [])]
            [.node { name := "uart", address := some [16] } [] [.leaf { name := "bus" }],
              .leaf { name := "uart" }],
            .leaf { name := "leds" }] := by
  have hroot : ∀ f ∈ overlaid, extendsRoot f = true := by decide
  obtain ⟨⟨g, hg⟩, htree⟩ := built_tree {} overlaid hroot
  exact ⟨hroot, g, hg, (htree _ g hg).trans rfl⟩

end Devicetree.Proofs
