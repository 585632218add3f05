import Devicetree.Proofs.Alike
import Devicetree.Proofs.ForwardReferences
import Devicetree.Proofs.Labelling
import Devicetree.Proofs.Paths

namespace Devicetree.Proofs

section Bodies

def bareDecl (l : LabelDecl) : LabelDecl := { l with span := {} }

def bareHead (h : ChildHead) : ChildHead :=
  { h with labels := h.labels.map bareDecl, nameSpan := {}, span := {} }

mutual

def bareItem : Item → Item
  | .property d => .property { d with labels := d.labels.map bareDecl, nameSpan := {}, span := {} }
  | .child head body => .child (bareHead head) (bareItems body)
  | .deleteNode d => .deleteNode { d with targetSpan := {}, span := {} }
  | .deleteProperty d => .deleteProperty { d with nameSpan := {}, span := {} }

def bareItems : List Item → List Item
  | [] => []
  | item :: items => bareItem item :: bareItems items

end

theorem bare_marks (file file' : FileId) (labels : List LabelDecl) :
    (Edit.marks file labels).map bareMark = (Edit.marks file' (labels.map bareDecl)).map bareMark := by
  simp [Edit.marks, bareMark, bareDecl, Function.comp_def]

mutual

/-- Items that differ in places only make edits that differ in places only. -/
theorem bare_ofItem (file file' : FileId) (index index' : Nat) : (item : Item) →
    (Edit.ofItem file index item).map bareEdit = (Edit.ofItem file' index' (bareItem item)).map bareEdit
  | .property d => by
    simp [Edit.ofItem, bareItem, bareEdit, bare_marks file file' d.labels]
  | .child head body => by
    simp [Edit.ofItem, bareItem, bareEdit, bareHead, bare_marks file file' head.labels,
      bare_ofItems file file' index index' body]
  | .deleteNode d => rfl
  | .deleteProperty d => rfl

theorem bare_ofItems (file file' : FileId) (index index' : Nat) : (items : List Item) →
    (Edit.ofItems file index items).map bareEdit = (Edit.ofItems file' index' (bareItems items)).map bareEdit
  | [] => rfl
  | item :: items => by
    simp [Edit.ofItems, bareItems, bare_ofItem file file' index index' item,
      bare_ofItems file file' index index' items]

end

mutual

theorem heads_bareItem : (item : Item) → headsOfItem (bareItem item) = (headsOfItem item).map bareHead
  | .property _ => rfl
  | .child head body => by simp [bareItem, headsOfItem, heads_bareItems body]
  | .deleteNode _ => rfl
  | .deleteProperty _ => rfl

theorem heads_bareItems : (items : List Item) →
    headsOfItems (bareItems items) = (headsOfItems items).map bareHead
  | [] => rfl
  | item :: items => by simp [bareItems, headsOfItems, heads_bareItem item, heads_bareItems items]

end

theorem labels_inside_bareItems (items : List Item) : labelsInside (bareItems items) = labelsInside items := by
  simp [labelsInside, heads_bareItems, List.flatMap_map, bareHead, namesOfLabels, bareDecl, Function.comp_def]

/-- A body runs alike wherever it is written and whatever bodies are open below it. -/
theorem Alike.bodies {anonymous : NodeId → Bool} {options : BuildOptions} {g g' : Graph} {f : Merge.Frame}
    {fs fs' : List Merge.Frame} {t t' : Merge.State} {file file' : FileId} {index index' : Nat}
    {body body' : List Item} (h : Alike anonymous g g') (hbody : bareItems body = bareItems body')
    (ht : Merge.run options ⟨g, f :: fs⟩ (Edit.ofItems file index body) = .ok t)
    (ht' : Merge.run options ⟨g', f :: fs'⟩ (Edit.ofItems file' index' body') = .ok t') :
    Alike anonymous t.graph t'.graph := by
  obtain ⟨g₁, _, _, halike, hrun⟩ := items_mirrors file index body fs' h ht
  obtain ⟨g₂, _, _, halike', hrun'⟩ := items_mirrors file' index' body' fs' (Alike.refl anonymous g') ht'
  rw [bare_ofItems file file' index index', hbody, ← bare_ofItems file' file' index' index', hrun'] at hrun
  obtain ⟨rfl, _⟩ := Merge.State.mk.inj (Except.ok.inj hrun)
  exact halike.trans halike'.symm

end Bodies

section Start

theorem declare_unlabelled {f : Fragment} (h : labelsOf f = []) (labels : Labels) : labels.declare f = labels := by
  obtain ⟨more, hdeclared, hmore⟩ := declared_declare labels f
  have hnone : more = [] := by
    apply List.eq_nil_iff_forall_not_mem.mpr
    intro e he
    simpa [h] using hmore e he
  have hbound := bound_declare labels f
  rw [hnone, List.append_nil] at hdeclared
  cases hd : labels.declare f with
  | mk declared bound =>
    rw [hd] at hdeclared hbound
    cases hdeclared
    cases hbound
    rfl

/-- A fragment without labels at the end makes no difference to the merge of those before it. -/
theorem merged_alike (anonymous : NodeId → Bool) {config : BuildConfig} {fragments : List Fragment}
    {f : Fragment} (hf : labelsOf f = []) {s s' : Merge.State}
    (hs : Merge.run config.options (Build.start config fragments) (Edit.ofFragments 0 fragments) = .ok s)
    (hs' : Merge.run config.options (Build.start config (fragments ++ [f])) (Edit.ofFragments 0 fragments) =
      .ok s') :
    Alike anonymous s.graph s'.graph := by
  have hlabels : Labels.ofFragments (fragments ++ [f]) = Labels.ofFragments fragments := by
    rw [Labels.ofFragments, List.foldl_append]
    exact declare_unlabelled hf _
  have hstart : Alike anonymous (Build.start config fragments).graph
      (Build.start config (fragments ++ [f])).graph := ⟨by simp [bareGraph, Build.start, hlabels]⟩
  exact (hstart.runs rfl hs hs').1

end Start

section Nest

def nest : List ChildHead → List Item → List Item
  | [], body => body
  | head :: heads, body => [.child head (nest heads body)]

def entering (file : FileId) (index : Nat) (head : ChildHead) : Edit :=
  .enterChild head.name (Edit.marks file head.labels) (Edit.site file index head.span head.nameSpan)

theorem edits_nest (file : FileId) (index : Nat) (heads : List ChildHead) (body : List Item) :
    Edit.ofItems file index (nest heads body) =
      heads.map (entering file index) ++ (Edit.ofItems file index body ++ .replicate heads.length .leave) := by
  induction heads with
  | nil => simp [nest]
  | cons head heads ih => simp [nest, Edit.ofItems, Edit.ofItem, ih, entering, List.replicate_succ']

theorem labels_inside_nest {heads : List ChildHead} (h : ∀ head ∈ heads, head.labels = []) (body : List Item) :
    labelsInside (nest heads body) = labelsInside body := by
  induction heads with
  | nil => rfl
  | cons head heads ih =>
    have hrest := ih fun head hm => h head (List.mem_cons_of_mem _ hm)
    rw [nest, labels_inside_child, h head List.mem_cons_self, hrest]
    simp [labelsInside, namesOfLabels, headsOfItems]

theorem run_leaves {options : BuildOptions} {s t : Merge.State} {n : Nat}
    (h : Merge.run options s (.replicate n .leave) = .ok t) : t.graph = s.graph := by
  induction n generalizing s with
  | zero => rw [← Except.ok.inj h]
  | succ n ih =>
    obtain ⟨s₁, hstep, hrest⟩ := run_cons_inv h
    rw [ih hrest, ← Except.ok.inj hstep]

/-- Entering child after child on the way to a node reaches the node. It shows on the nodes of the way only. -/
theorem Trail.enter {anonymous : NodeId → Bool} {g g' : Graph} (hs : Sound g) {names : List NodeName}
    {n : NodeId} (ht : Trail g names n) (h : Alike anonymous g g')
    (hway : ∀ a ∈ g.ancestors n, anonymous a = true) {heads : List ChildHead}
    (hheads : heads.map ChildHead.name = names) (hplain : ∀ head ∈ heads, head.labels = [])
    (options : BuildOptions) (file : FileId) (index : Nat) (fs : List Merge.Frame) :
    ∃ g₁ fs₁, Merge.run options ⟨g', { node := Graph.root } :: fs⟩ (heads.map (entering file index)) =
      .ok ⟨g₁, { node := n } :: fs₁⟩ ∧ Alike anonymous g g₁ := by
  induction ht generalizing heads with
  | root =>
    obtain rfl := List.map_eq_nil_iff.mp hheads
    exact ⟨g', fs, rfl, h⟩
  | child above listed ih =>
    rename_i names parent c
    rw [hs.linked.ancestors_child (hs.linked.child parent c listed)] at hway
    obtain ⟨first, last, rfl, hfirst, hlast⟩ := List.map_eq_append_iff.mp hheads
    obtain ⟨head, rfl, hname⟩ := List.map_eq_singleton_iff.mp hlast
    obtain ⟨g₁, fs₁, hrun, halike⟩ := ih (fun a ha => hway a (List.mem_cons_of_mem _ ha)) hfirst
      (fun head hm => hplain head (List.mem_append_left _ hm))
    have hlabels : head.labels = [] := hplain head (by simp)
    have hfound : g₁.childByName? parent (g.node c).name true = some c := by
      rw [← hs.linked.child_by_own_name listed true]
      exact halike.symm.read (fun g => g.childByName? parent _ true) fun _ => by simp
    have hensure : g₁.ensureChild parent (g.node c).name = (g₁, c) := by
      simp [Graph.ensureChild, hfound]
    have hstep : Merge.step options ⟨g₁, { node := parent } :: fs₁⟩ (entering file index head) =
        .ok ⟨g₁.addDefinition c .child (Edit.site file index head.span head.nameSpan),
          { node := c } :: { node := parent, children := [(g.node c).name] } :: fs₁⟩ := by
      rw [entering, hname, hlabels, enter_child_eq]
      simp [beforeChild, hensure, Edit.marks, Graph.attachLabels]
    rw [List.map_append, run_append hrun]
    exact ⟨_, _, run_cons hstep [], halike.trans (alike_addDefinition (hway c List.mem_cons_self) _ _ _)⟩

end Nest

section Main
variable {anonymous : NodeId → Bool} {config : BuildConfig} {fragments : List Fragment} {s s' t : Merge.State}
  {n : NodeId}

def namesTo (g : Graph) (n : NodeId) : List NodeName :=
  (g.ancestors n).reverse.tail.map fun a => (g.node a).name

theorem Trail.names_to {g : Graph} (hs : Sound g) {names : List NodeName} (h : Trail g names n) :
    namesTo g n = names := by
  induction h with
  | root => simp [namesTo, ancestors_top hs.root_top]
  | child above listed ih =>
    rename_i names parent c
    have hsome : (g.ancestors parent).reverse ≠ [] := by
      rw [Graph.ancestors]
      simp
    rw [namesTo, hs.linked.ancestors_child (hs.linked.child parent c listed), List.reverse_cons,
      List.tail_append_of_ne_nil hsome, List.map_append, ← ih]
    rfl

theorem Trail.root_above {g : Graph} (hs : Sound g) {names : List NodeName} (h : Trail g names n) :
    Graph.root ∈ g.ancestors n := by
  induction h with
  | root => simp [ancestors_top hs.root_top]
  | child above listed ih =>
    rw [hs.linked.ancestors_child (hs.linked.child _ _ listed)]
    exact List.mem_cons_of_mem _ ih

theorem Trail.of_finish {g : Graph} {options : BuildOptions} {names : List NodeName}
    (h : Trail (g.finish options) names n) : Trail g names n := by
  refine h.mono fun parent c hc => ?_
  rw [Graph.children, view_finish g options Node.children (fun _ _ => rfl)] at hc
  exact ⟨hc, (view_finish g options Node.name (fun _ _ => rfl) c).symm⟩

/-- Building one fragment more without labels: the fragments before it are merged alike, and it is merged last. -/
theorem appended_run (anonymous : NodeId → Bool) {f : Fragment}
    (hs : Merge.run config.options (Build.start config fragments) (Edit.ofFragments 0 fragments) = .ok s)
    {g : Graph} (hg : Build.build config (fragments ++ [f]) (fun _ => false) = .ok g) (hf : labelsOf f = []) :
    ∃ s' t, Alike anonymous s.graph s'.graph ∧
      Merge.run config.options s' (Edit.ofFragment fragments.length f) = .ok t ∧
      g = t.graph.finish config.options := by
  obtain ⟨t, hrun, _, _, hfinish⟩ := built_of_run hg
  rw [edits_append] at hrun
  obtain ⟨s', hbefore, hlast⟩ := run_append_inv hrun
  simp only [Edit.ofFragments, List.append_nil, Nat.zero_add] at hlast
  exact ⟨s', t, merged_alike anonymous hf hs hbefore, hlast, hfinish⟩

/-- A reference to a live node opens the body of that node. -/
theorem Alike.reference_body (h : Alike anonymous s.graph s'.graph) (hanonymous : anonymous n = true) {l : String}
    (hbound : s.graph.labels.nodeOf? l = some n) (hlive : s.graph.isLive n = true) {options : BuildOptions}
    {index : Nat} {file : FileId} {body : List Item} {targetSpan span : Span}
    (ht : Merge.run options s' (Edit.ofFragment index ⟨file, .reference (.label l) [] body targetSpan span⟩) =
      .ok t) :
    ∃ g₁ t₁, Alike anonymous s.graph g₁ ∧ t.graph = t₁.graph ∧
      Merge.run options ⟨g₁, { node := n } :: s'.frames⟩ (Edit.ofItems file index body) = .ok t₁ := by
  have hbound' : s'.graph.labels.nodeOf? l = some n := by
    rw [← hbound]
    exact h.symm.read (fun g => g.labels.nodeOf? l) fun _ => by simp
  have hlive' : s'.graph.isLive n = true := by
    rw [← hlive]
    exact h.symm.read (fun g => g.isLive n) fun _ => by simp
  have htarget : s'.graph.ensureTarget? (.label l) = some (s'.graph, n) := by
    simp [Graph.ensureTarget?, hbound', hlive']
  obtain ⟨s₁, hstep, hrest⟩ := run_cons_inv ht
  obtain ⟨t₁, hbody, hleave⟩ := run_append_inv hrest
  rw [enter_reference_eq, reach_of_target htarget] at hstep
  obtain rfl := Except.ok.inj hstep
  exact ⟨_, t₁, h.trans (alike_addReference hanonymous _ _), run_leaves (n := 1) hleave, hbody⟩

/-- So does the way to the node spelled out. -/
theorem Alike.nested_body (h : Alike anonymous s.graph s'.graph) (hs : Sound s.graph) {names : List NodeName}
    (htrail : Trail s.graph names n) (hway : ∀ a ∈ s.graph.ancestors n, anonymous a = true)
    {heads : List ChildHead} (hheads : heads.map ChildHead.name = names)
    (hplain : ∀ head ∈ heads, head.labels = []) {options : BuildOptions} {index : Nat} {file : FileId}
    {body : List Item} {span : Span}
    (ht : Merge.run options s' (Edit.ofFragment index ⟨file, .root [] (nest heads body) span⟩) = .ok t) :
    ∃ g₁ t₁ fs, Alike anonymous s.graph g₁ ∧ t.graph = t₁.graph ∧
      Merge.run options ⟨g₁, { node := n } :: fs⟩ (Edit.ofItems file index body) = .ok t₁ := by
  have hroot := hway _ (htrail.root_above hs)
  obtain ⟨s₁, hstep, hrest⟩ := run_cons_inv ht
  obtain rfl := Except.ok.inj hstep
  rw [edits_nest] at hrest
  obtain ⟨s₂, hrest, hleave⟩ := run_append_inv hrest
  obtain ⟨s₃, henter, hrest⟩ := run_append_inv hrest
  obtain ⟨t₁, hbody, hleaves⟩ := run_append_inv hrest
  have hentered : Alike anonymous s.graph (s'.graph.addDefinition Graph.root .root
      (Edit.site file index span span)) := h.trans (alike_addDefinition hroot _ _ _)
  obtain ⟨g₁, fs, hrun, halike⟩ :=
    htrail.enter hs hentered hway hheads hplain options file index s'.frames
  obtain rfl := Except.ok.inj (hrun.symm.trans henter)
  exact ⟨g₁, t₁, fs, halike, (run_leaves (n := 1) hleave).trans (run_leaves hleaves), hbody⟩

/-- The two fragments, merged after the same text, lead to graphs that are alike. -/
theorem Alike.reference_child {s₁ s₂ t₁ t₂ : Merge.State} (h₁ : Alike anonymous s.graph s₁.graph)
    (h₂ : Alike anonymous s.graph s₂.graph) (hs : Sound s.graph)
    (hway : ∀ a ∈ s.graph.ancestors n, anonymous a = true) {l : String}
    (hbound : s.graph.labels.nodeOf? l = some n) (hlive : s.graph.isLive n = true) {names : List NodeName}
    (htrail : Trail s.graph names n) {heads : List ChildHead} (hheads : heads.map ChildHead.name = names)
    (hplain : ∀ head ∈ heads, head.labels = []) {body body' : List Item}
    (hbody : bareItems body = bareItems body') {options : BuildOptions} {index : Nat} {file file' : FileId}
    {targetSpan span span' : Span}
    (ht₁ : Merge.run options s₁ (Edit.ofFragment index ⟨file, .reference (.label l) [] body targetSpan span⟩) =
      .ok t₁)
    (ht₂ : Merge.run options s₂ (Edit.ofFragment index ⟨file', .root [] (nest heads body') span'⟩) = .ok t₂) :
    Alike anonymous t₁.graph t₂.graph := by
  have hself : n ∈ s.graph.ancestors n := by
    rw [Graph.ancestors]
    exact List.mem_cons_self
  obtain ⟨g₁, t₁', hopen₁, hend₁, hbody₁⟩ := h₁.reference_body (hway n hself) hbound hlive ht₁
  obtain ⟨g₂, t₂', fs, hopen₂, hend₂, hbody₂⟩ := h₂.nested_body hs htrail hway hheads hplain ht₂
  rw [hend₁, hend₂]
  exact (hopen₁.symm.trans hopen₂).bodies hbody hbody₁ hbody₂

end Main

/-- A reference fragment merges as a child fragment at the path of the node. After any fragments, a fragment that
refers by label to a live node below the root, and one that enters the children on the way to that node, both with
a body that puts labels on no node, lead to graphs that differ in places, orders and issues only, and in what
contributed to the node and its ancestors. -/
theorem reference_as_child {config : BuildConfig} {fragments : List Fragment} {isCancelled : Nat → Bool}
    {g : Graph} (h : Build.build config fragments isCancelled = .ok g) {l : String} {n : NodeId}
    (hl : g.resolveLabel? l = some n) (hn : n ∈ g.descendants Graph.root) {heads : List ChildHead}
    (hheads : heads.map ChildHead.name = namesTo g n) (hplain : ∀ head ∈ heads, head.labels = [])
    {body body' : List Item} (hbody : bareItems body = bareItems body') (hlabels : labelsInside body = [])
    (file file' : FileId) (targetSpan span span' : Span) :
    ∃ g₁ g₂,
      Build.build config (fragments ++ [⟨file, .reference (.label l) [] body targetSpan span⟩])
        (fun _ => false) = .ok g₁ ∧
      Build.build config (fragments ++ [⟨file', .root [] (nest heads body') span'⟩]) (fun _ => false) =
        .ok g₂ ∧
      bareGraph (fun a => decide (a ∈ g.ancestors n)) g₁ = bareGraph (fun a => decide (a ∈ g.ancestors n)) g₂ := by
  have hsound := built_sound h
  obtain ⟨names, htrail⟩ := hsound.mem_descendants.mp hn
  rw [htrail.names_to hsound] at hheads
  obtain ⟨s, hrun, _, hready, rfl⟩ := built_of_run h
  have hs := hready.sound
  have hsince := since_finish s.graph config.options
  obtain ⟨hbound, hlive⟩ := Option.filter_eq_some_iff.mp hl
  rw [labels_finish] at hbound
  have has := hs.bounded.bound_label hbound
  have hinside : labelsInside (nest heads body') = [] := by
    rw [labels_inside_nest hplain, ← labels_inside_bareItems, ← hbody, labels_inside_bareItems, hlabels]
  obtain ⟨g₁, hg₁⟩ := build_never_cancelled config
    (fragments ++ [⟨file, .reference (.label l) [] body targetSpan span⟩])
  obtain ⟨g₂, hg₂⟩ := build_never_cancelled config (fragments ++ [⟨file', .root [] (nest heads body') span'⟩])
  refine ⟨g₁, g₂, hg₁, hg₂, ?_⟩
  rw [hsince.ancestors hs.bounded has]
  obtain ⟨s₁, t₁, h₁, ht₁, rfl⟩ := appended_run (fun a => decide (a ∈ s.graph.ancestors n)) hrun hg₁ hlabels
  obtain ⟨s₂, t₂, h₂, ht₂, rfl⟩ := appended_run (fun a => decide (a ∈ s.graph.ancestors n)) hrun hg₂ hinside
  have hmerged := h₁.reference_child h₂ hs (fun a ha => decide_eq_true ha) hbound
    (hsince.live_before hs.bounded has hlive) htrail.of_finish hheads hplain hbody ht₁ ht₂
  exact (hmerged.finish config.options).bare

def boarded : List Fragment :=
  [⟨⟨0⟩, .root []
      [.child { name := { name := "soc" } }
        [.child { name := { name := "uart", address := some [16] }, labels := [{ name := "console" }] }
          [.property { name := "status", values := [.str "disabled"] },
            .property { name := "speed", values := [.str "fast"] }]]] {}⟩]

/-- A body that overrides, deletes and nests, takes away the node that it belongs to, and writes on. -/
def rework : List Item :=
  [.property { name := "status", values := [.str "okay"] },
    .deleteProperty { name := "speed" },
    .child { name := { name := "modem" } } [.property { name := "reg" }, .deleteProperty { name := "none" }],
    .deleteNode { target := .ref (.label "console") },
    .property { name := "status", values := [.str "gone"] }]

theorem reference_as_child_boarded :
    ∃ g, Build.build {} boarded (fun _ => false) = .ok g ∧ g.resolveLabel? "console" = some ⟨2⟩ ∧
      ⟨2⟩ ∈ g.descendants Graph.root ∧ namesTo g ⟨2⟩ = [.parse "soc", .parse "uart@10"] ∧
      labelsInside rework = [] ∧
      ∃ g₁ g₂, Build.build {} (boarded ++ [⟨⟨1⟩, .reference (.label "console") [] rework {} {}⟩])
          (fun _ => false) = .ok g₁ ∧
        Build.build {} (boarded ++ [⟨⟨2⟩, .root []
          (nest [{ name := .parse "soc" }, { name := .parse "uart@10" }] rework) {}⟩]) (fun _ => false) = .ok g₂ ∧
        bareGraph (fun a => decide (a ∈ g.ancestors ⟨2⟩)) g₁ =
          bareGraph (fun a => decide (a ∈ g.ancestors ⟨2⟩)) g₂ := by
  obtain ⟨g, h, hl, hn, hnames⟩ : ∃ g, Build.build {} boarded (fun _ => false) = .ok g ∧
      g.resolveLabel? "console" = some ⟨2⟩ ∧ ⟨2⟩ ∈ g.descendants Graph.root ∧
      namesTo g ⟨2⟩ = [.parse "soc", .parse "uart@10"] := exists_built (by decide +kernel)
  have hlabels : labelsInside rework = [] := by decide +kernel
  have hheads : [{ name := .parse "soc" }, { name := .parse "uart@10" }].map ChildHead.name = namesTo g ⟨2⟩ :=
    hnames.symm
  exact ⟨g, h, hl, hn, hnames, hlabels,
    reference_as_child h hl hn hheads (by simp) rfl hlabels ⟨1⟩ ⟨2⟩ {} {} {}⟩

end Devicetree.Proofs
