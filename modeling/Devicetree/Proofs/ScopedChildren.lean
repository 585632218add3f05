import Devicetree.Proofs.SourceNodes
import Mathlib.Data.List.Find

namespace Devicetree.Proofs

section Lookup
variable (g : Graph) (scope : Scope) (parent : NodeId) (name : NodeName)

def takenAway : List NodeId :=
  ((g.node parent).deletedChildren.filter fun r => !scope r.directive).map DeletedChild.node

def takenAs? : Option NodeId := (takenAway g scope parent).find? fun id => decide ((g.node id).name = name)

theorem child_in_scope_eq : g.childInScope? scope parent name =
    (g.pick (takenAway g scope parent) name false <|> g.childByName? parent name false) := rfl

theorem pick_loose_eq (candidates : List NodeId) : g.pick candidates name false =
    ((candidates.find? fun id => decide ((g.node id).name = name)) <|>
      if name.address.isSome then none
      else candidates.find? fun id => decide ((g.node id).name.name = name.name)) := by
  simp [Graph.pick]

end Lookup

/-- A child that is still there stays behind: a namesake that a directive out of scope took away is preferred
to it. -/
structure Hidden (g : Graph) (scope : Scope) (parent c : NodeId) : Prop where
  plain : (g.node c).name.address = none
  listed : c ∈ g.children parent
  namesake : ∃ r ∈ (g.node parent).deletedChildren, scope r.directive = false ∧
    (g.node r.node).name.name = (g.node c).name.name

section Answer
variable {g : Graph} {scope : Scope} {parent c : NodeId}

theorem mem_takenAway {id : NodeId} : id ∈ takenAway g scope parent ↔
    ∃ r ∈ (g.node parent).deletedChildren, scope r.directive = false ∧ r.node = id := by
  simp [takenAway, and_assoc]

/-- The child is still there and no namesake of it is out of scope, or it is the first of those that are. -/
def Seen (g : Graph) (scope : Scope) (parent c : NodeId) : Prop :=
  (c ∈ g.children parent ∧ takenAs? g scope parent (g.node c).name = none) ∨
    (c ∉ g.children parent ∧ takenAs? g scope parent (g.node c).name = some c)

theorem Linked.child_by_own_name (hl : Linked g) (hc : c ∈ g.children parent) (strict : Bool) :
    g.childByName? parent (g.node c).name strict = some c := by
  have hfirst : (g.children parent).find? (fun id => decide ((g.node id).name = (g.node c).name)) = some c := by
    cases hf : (g.children parent).find? fun id => decide ((g.node id).name = (g.node c).name) with
    | none => simpa using List.find?_eq_none.mp hf c hc
    | some d =>
      have hname : (g.node d).name = (g.node c).name := by simpa using List.find?_some hf
      rw [hl.same_name hc (List.mem_of_find?_eq_some hf) hname]
  rw [Graph.childByName?, Graph.pick, hfirst]
  rfl

/-- Where a child of a moment is seen, its name leads to it unless it is hidden. -/
theorem Seen.child_in_scope (h : Seen g scope parent c) (hl : Linked g) :
    g.childInScope? scope parent (g.node c).name = some c ↔ ¬ Hidden g scope parent c := by
  rw [child_in_scope_eq, pick_loose_eq]
  rcases h with ⟨hlisted, hnone⟩ | ⟨hgone, hfirst⟩
  · rw [takenAs?] at hnone
    rw [hnone, hl.child_by_own_name hlisted]
    cases haddr : (g.node c).name.address with
    | some cells =>
      have hnot : ¬ Hidden g scope parent c := fun hh => by simpa [haddr] using hh.plain
      simp [hnot]
    | none =>
      cases hloose : (takenAway g scope parent).find? fun id =>
          decide ((g.node id).name.name = (g.node c).name.name) with
      | none =>
        have hnot : ¬ Hidden g scope parent c := by
          intro hh
          obtain ⟨r, hr, hout, hname⟩ := hh.namesake
          have hmem := mem_takenAway.mpr ⟨r, hr, hout, rfl⟩
          simpa [hname] using List.find?_eq_none.mp hloose r.node hmem
        simp [hnot]
      | some d =>
        obtain ⟨r, hr, hout, rfl⟩ := mem_takenAway.mp (List.mem_of_find?_eq_some hloose)
        have hname : (g.node r.node).name.name = (g.node c).name.name := by
          simpa using List.find?_some hloose
        have hhidden : Hidden g scope parent c := ⟨haddr, hlisted, r, hr, hout, hname⟩
        have hne : r.node ≠ c :=
          (hl.kept c parent (hl.child parent c hlisted) (hl.child_kept hlisted)).2 r hr
        simp [hne, hhidden]
  · rw [takenAs?] at hfirst
    have hnot : ¬ Hidden g scope parent c := fun hh => hgone hh.listed
    simp [hfirst, hnot]

end Answer

section Preserved
variable {g g' : Graph} {scope : Scope} {parent c : NodeId}

theorem taken_as_congr (hb : Bounded g) (hs : Since g g') (name : NodeName)
    (hrecords : (g'.node parent).deletedChildren = (g.node parent).deletedChildren) :
    takenAs? g' scope parent name = takenAs? g scope parent name := by
  unfold takenAs? takenAway
  rw [hrecords]
  apply List.find?_congr
  intro id hid
  obtain ⟨r, hr, _, rfl⟩ := mem_takenAway.mp hid
  rw [(hs.node r.node ((hb.node parent).deletedChildren r hr).1).name]

/-- What neither takes a child away nor lists the child anew leaves it as it is seen. -/
theorem Seen.keep (h : Seen g scope parent c) (hb : Bounded g) (hs : Since g g') (has : HasNode g c)
    (hlisted : c ∈ g'.children parent ↔ c ∈ g.children parent)
    (hrecords : (g'.node parent).deletedChildren = (g.node parent).deletedChildren) :
    Seen g' scope parent c := by
  unfold Seen
  rw [taken_as_congr hb hs _ hrecords, (hs.node c has).name, hlisted]
  exact h

theorem Seen.addChild (h : Seen g scope parent c) (hb : Bounded g) (has : HasNode g c)
    (hparent : HasNode g parent) {name : NodeName} {other : NodeId} (hp : HasNode g other)
    (hs : Since g (g.addChild name other)) : Seen (g.addChild name other) scope parent c := by
  refine h.keep hb hs has ?_ ?_
  · rw [children_addChild name hp, if_neg hparent.ne_next]
    split
    · simp [has.ne_next]
    · rfl
  · rw [deletedChildren_addChild name hp, if_neg hparent.ne_next]

/-- A directive out of scope that takes a child away puts it behind those taken before, so that it is found
there if no older one has its name. -/
theorem Seen.dropChild (h : Seen g scope parent c) (hl : Linked g) (hb : Bounded g) (has : HasNode g c)
    {other id : NodeId} {d : DirectiveId} (isParent : g.parent? id = some other)
    (isChild : id ∈ g.children other) (out : scope d = false) (hs : Since g (g.dropChild other id d)) :
    Seen (g.dropChild other id d) scope parent c := by
  have hp : HasNode g other := (hb.node id).parent other isParent
  have hi : HasNode g id := has_node_of_parent isParent
  have hne : other ≠ id := by
    rintro rfl
    exact Nat.lt_irrefl _ (hl.older _ _ isParent)
  have hchildren := children_dropChild d hp hi hne parent
  have hrecords := deletedChildren_dropChild d hp hi hne parent
  by_cases he : parent = other
  · subst he
    rw [if_pos rfl] at hchildren hrecords
    have hname := name_dropChild d g parent id
    have htaken : takenAs? (g.dropChild parent id d) scope parent (g.node c).name =
        (takenAs? g scope parent (g.node c).name <|>
          if (g.node id).name = (g.node c).name then some id else none) := by
      unfold takenAs? takenAway
      simp only [hrecords, hname, List.filter_append, List.map_append, List.find?_append]
      simp [out, List.find?_singleton]
    unfold Seen
    rw [hname, htaken, hchildren]
    by_cases hc : id = c
    · subst hc
      rcases h with ⟨_, hnone⟩ | ⟨hgone, _⟩
      · exact Or.inr ⟨(hl.nodup parent).not_mem_erase, by simp [hnone]⟩
      · exact absurd isChild hgone
    · rw [List.mem_erase_of_ne (Ne.symm hc)]
      rcases h with ⟨hlisted, hnone⟩ | ⟨hgone, hfirst⟩
      · have hother : (g.node id).name ≠ (g.node c).name := fun hsame =>
          hc (hl.same_name hlisted isChild hsame)
        exact Or.inl ⟨hlisted, by simp [hnone, hother]⟩
      · exact Or.inr ⟨hgone, by simp [hfirst]⟩
  · rw [if_neg he] at hchildren hrecords
    exact h.keep hb hs has (by rw [hchildren]) hrecords

/-- Each elementary change leaves a child seen, as long as directives in scope take nothing more. -/
theorem Seen.change (h : Seen g scope parent c) (hs : Sound g) (hl : Ledger g) (has : HasNode g c)
    (hparent : HasNode g parent)
    (out : ∀ d id, (g.directive d).removed = some (.node id) → (g.node id).deletedBy = none →
      scope d = false)
    (hc : Change g g') : Seen g' scope parent c := by
  have hsince := hc.since hs hl
  have hquiet : (∀ n, Place.of (g'.node n) = Place.of (g.node n)) → Seen g' scope parent c := by
    intro hplace
    have hchildren : g'.children parent = g.children parent := congrArg Place.children (hplace parent)
    exact h.keep hs.bounded hsince has (by rw [hchildren])
      (congrArg Place.deletedChildren (hplace parent))
  cases hc with
  | report => exact hquiet fun _ => rfl
  | define | refer | again => exact hquiet (view_modifyNode g Place.of _ _ fun _ => rfl)
  | hold n m => exact hquiet (view_modifyNode (g.bindLabel n m) Place.of _ _ fun _ => rfl)
  | child name other hp => exact h.addChild hs.bounded has hparent hp hsince
  | orphan =>
    refine h.keep hs.bounded hsince has ?_ ?_
    · rw [children_addOrphan, if_neg hparent.ne_next]
    · rw [node_addOrphan, if_neg hparent.ne_next]
  | property owner name values labels site ho =>
    exact hquiet (view_setProperty g owner name values labels site Place.of ho fun _ _ _ => rfl)
  | directive x => exact hquiet (view_addDirective g Place.of x fun _ _ => rfl)
  | dropChild other id d isParent isChild _ removed =>
    exact h.dropChild hs.linked hs.bounded has isParent isChild
      (out d id removed (hs.linked.child_kept isChild)) hsince
  | dropProperty owner name p d => exact hquiet (view_modifyNode g Place.of owner _ fun _ => rfl)

/-- A child of a moment stays seen from then on while only the directives of that moment are in effect. -/
theorem seen_changes {g₀ : Graph} (hs : Sound g₀) (hl : Ledger g₀) (he : Executed g₀)
    (hc : c ∈ g₀.children parent) (h : Changes g₀ g) : Seen g (inEffect g₀) parent c := by
  have hparent : HasNode g₀ parent := (hs.bounded.node c).parent parent (hs.linked.child parent c hc)
  have has : HasNode g₀ c := (hs.bounded.node parent).children c hc
  induction h with
  | refl =>
    refine Or.inl ⟨hc, List.find?_eq_none.mpr ?_⟩
    intro id hid
    obtain ⟨r, hr, hout, _⟩ := mem_takenAway.mp hid
    have hin : r.directive.index < g₀.directives.size := ((hs.bounded.node parent).deletedChildren r hr).2
    simp [inEffect, hin] at hout
  | tail hsteps hlast ih =>
    have hsince := Changes.since hs hl hsteps
    exact ih.change (hs.changes hsteps) (hl.changes hs hsteps) (hsince.grown.has_node has)
      (hsince.grown.has_node hparent)
      (fun d id hr hk => he.later hsince (by simp [hr, Done, hk])) hlast

end Preserved

/-- While only the directives of a moment are in effect, looking up in the built graph the full name of a child of
that moment finds the child if and only if it is not hidden. -/
theorem child_at_moment {config : BuildConfig} {fragments : List Fragment} {isCancelled : Nat → Bool}
    {g : Graph} (h : Build.build config fragments isCancelled = .ok g)
    (hnames : ∀ head ∈ headsIn fragments, Readable head.name) {n : Nat} {s : Merge.State}
    (hm : moment config fragments n = .ok s) {parent c : NodeId} (hc : c ∈ s.graph.children parent) :
    g.getChildInScope? (inEffect s.graph) parent (g.node c).fullName = some c ↔
      ¬ Hidden g (inEffect s.graph) parent c := by
  have hs := moment_settled hm
  have hsound := hs.ready.sound
  have hlinked := (built_sound h).linked
  obtain ⟨t, ht, hchanges, rfl⟩ := moment_built hm h
  have hsince := (Changes.since hsound hs.ledger hchanges).trans (since_finish t.graph config.options)
  have has : HasNode s.graph c := (hsound.bounded.node parent).children c hc
  have hname : Readable ((t.graph.finish config.options).node c).name := by
    rw [(hsince.node c has).name]
    exact moment_named hnames hm c parent (hsound.linked.child parent c hc)
  have hplace := view_finish t.graph config.options Place.of (fun _ _ => rfl) parent
  have hchildren : (t.graph.finish config.options).children parent = t.graph.children parent :=
    congrArg Place.children hplace
  have hseen := (seen_changes hsound hs.ledger (moment_executed hm) hc hchanges).keep
    ht.ready.sound.bounded (since_finish t.graph config.options) (hchanges.grown.has_node has)
    (by rw [hchildren]) (congrArg Place.deletedChildren hplace)
  rw [← hseen.child_in_scope hlinked, Graph.getChildInScope?, Node.fullName, hname.pathNames_fullName,
    Graph.startOf, hname.not_absolute]
  simp

def removedTwice : List Fragment :=
  [⟨⟨0⟩, .root []
      [.child { name := { name := "uart", address := some [16] } } [],
        .child { name := { name := "uart" } } []] {}⟩,
    ⟨⟨1⟩, .root []
      [.deleteNode { target := .name { name := "uart" } }, .child { name := { name := "uart" } } [],
        .deleteNode { target := .name { name := "uart" } }] {}⟩]

/-- After the first fragment the name leads to the child that stood there then. -/
theorem child_at_moment_removed_twice :
    (∀ head ∈ headsIn removedTwice, Readable head.name) ∧
      ∃ g s, Build.build {} removedTwice (fun _ => false) = .ok g ∧ moment {} removedTwice 6 = .ok s ∧
        ⟨2⟩ ∈ s.graph.children Graph.root ∧ g.children Graph.root = [⟨1⟩] ∧
        g.getChildInScope? (inEffect s.graph) Graph.root (g.node ⟨2⟩).fullName = some ⟨2⟩ := by
  have hnames : ∀ head ∈ headsIn removedTwice, Readable head.name := by decide +kernel
  obtain ⟨g, s, h, hm, hlisted, hgone⟩ : ∃ g s, Build.build {} removedTwice (fun _ => false) = .ok g ∧
      moment {} removedTwice 6 = .ok s ∧ ⟨2⟩ ∈ s.graph.children Graph.root ∧
      g.children Graph.root = [⟨1⟩] := exists_built_from (by decide +kernel)
  refine ⟨hnames, g, s, h, hm, hlisted, hgone, (child_at_moment h hnames hm hlisted).mpr ?_⟩
  intro hidden
  simpa [hgone] using hidden.listed

def oneRemoved : List Fragment :=
  [⟨⟨0⟩, .root []
      [.child { name := { name := "cpu", address := some [1] } } [],
        .child { name := { name := "cpu" } } []] {}⟩,
    ⟨⟨0⟩, .root [] [.deleteNode { target := .name { name := "cpu", address := some [1] } }] {}⟩]

/-- After the first fragment the name of the child without an address leads to the other one. -/
theorem child_at_moment_one_removed :
    (∀ head ∈ headsIn oneRemoved, Readable head.name) ∧
      ∃ g s, Build.build {} oneRemoved (fun _ => false) = .ok g ∧ moment {} oneRemoved 6 = .ok s ∧
        ⟨2⟩ ∈ s.graph.children Graph.root ∧ (g.node ⟨2⟩).fullName = "cpu" ∧
        g.getChildInScope? (inEffect s.graph) Graph.root "cpu" = some ⟨1⟩ :=
  ⟨by decide +kernel, exists_built_from (by decide +kernel)⟩

end Devicetree.Proofs
