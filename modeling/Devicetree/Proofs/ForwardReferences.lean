import Devicetree.Proofs.Placements

namespace Devicetree.Proofs

def merged (config : BuildConfig) (fragments : List Fragment) (k : Nat) : Except BuildError Merge.State :=
  Merge.run config.options (Build.start config fragments) (Edit.ofFragments 0 (fragments.take k))

/-- A reference to the label is made before the label is bound, and the walk down the names to it falls back to a
child with an address. -/
def Strays (g : Graph) (l : String) (names : List NodeName) : Prop :=
  g.labels.nodeOf? l = none ∧ fallsBack g Graph.root names = true

instance (g : Graph) (l : String) (names : List NodeName) : Decidable (Strays g l names) :=
  inferInstanceAs (Decidable (_ ∧ _))

theorem edits_append (index : Nat) (a b : List Fragment) :
    Edit.ofFragments index (a ++ b) = Edit.ofFragments index a ++ Edit.ofFragments (index + a.length) b := by
  induction a generalizing index with
  | nil => rfl
  | cons f a ih =>
    rw [List.cons_append, Edit.ofFragments, ih, Edit.ofFragments, List.append_assoc, List.length_cons,
      Nat.add_assoc, Nat.add_comm 1]

section Reach
variable {g : Graph} {l : String}

theorem target_of_bound (hk : AllKept g) {n : NodeId} (hbound : g.labels.nodeOf? l = some n) :
    g.ensureTarget? (.label l) = some (g, n) := by
  simp [Graph.ensureTarget?, hbound, hk.live]

theorem target_of_recorded (hfree : g.labels.nodeOf? l = none) {p : String}
    (hp : g.labels.pathOf? l = some p) (habs : isAbsolute p = true) :
    g.ensureTarget? (.label l) = some (g.ensure Graph.root (pathNames p)) := by
  simp [Graph.ensureTarget?, hfree, hp, Graph.ensurePath?, habs]

theorem reach_of_target {target : NodeRef} {r : Graph × NodeId} (h : g.ensureTarget? target = some r)
    (site : Site) : g.reach target site = r := by
  simp [Graph.reach, h]

end Reach

section Reference
variable {options : BuildOptions} {s s' : Merge.State}

/-- A reference is recorded with the node that it reaches. -/
theorem reference_recorded (hs : Settled s) {target : NodeRef} {labels : List LabelMark} {site : Site}
    (h : Merge.step options s (.enterReference target labels site) = .ok s') :
    HasNode s'.graph (s.graph.reach target site).2 ∧
      ⟨.reference, site⟩ ∈ (s'.graph.node (s.graph.reach target site).2).referencedBy := by
  obtain rfl := Except.ok.inj h
  have harr := reach_arrives hs.ready.sound target site
  have hrefer : Change _ _ := .refer _ _ site harr.kept.has harr.kept.kept
  have hchanges := harr.changes.tail hrefer
  have has := hrefer.grown.has_node harr.kept.has
  have hsince := (attach_labels_changes has labels true).since (hs.ready.sound.changes hchanges)
    (hs.ledger.changes hs.ready.sound hchanges)
  refine ⟨hsince.grown.has_node has, (hsince.node _ has).referencedBy.subset ?_⟩
  rw [Graph.addReference, node_modifyNode _ _ _ harr.kept.has, if_pos rfl]
  exact List.mem_append_right _ (List.mem_singleton.mpr rfl)

/-- What the walk of a reference leads to is still led to when the reference is merged. -/
theorem reference_trail {target : NodeRef} {labels : List LabelMark} {site : Site}
    (h : Merge.step options s (.enterReference target labels site) = .ok s') {names : List NodeName}
    {n : NodeId} (ht : Trail (s.graph.reach target site).1 names n) : Trail s'.graph names n := by
  obtain rfl := Except.ok.inj h
  have hquiet := (quiet_addReference (s.graph.reach target site).1 (s.graph.reach target site).2 site).trans
    (quiet_attachLabels _ (s.graph.reach target site).2 labels true)
  refine ht.mono ?_
  intro parent c hc
  exact ⟨(hquiet.children parent).symm ▸ hc, hquiet.name c⟩

/-- Inside a body no reference is made. -/
theorem run_items_unresolved {file : FileId} {index : Nat} {items : List Item} (hs : Settled s)
    (h : Merge.run options s (Edit.ofItems file index items ++ [.leave]) = .ok s') :
    unresolved s'.graph = unresolved s.graph := by
  refine run_keeps (P := fun g => unresolved g = unresolved s.graph) ?_ hs rfl h
  intro e he t t' _ hsame hstep
  refine (step_unresolved hstep ?_).trans hsame
  rintro target labels site rfl
  rcases List.mem_append.mp he with hbody | hleave
  · rcases edit_of_items items hbody with ⟨_, _, _, _, heq⟩ | hinner
    · cases heq
    · exact absurd rfl (hinner.2.2 target labels site)
  · cases List.mem_singleton.mp hleave

end Reference

section Lands
variable {config : BuildConfig} {fragments : List Fragment} {l : String}

theorem start_spared (config : BuildConfig) (fragments : List Fragment) :
    Spared (Build.start config fragments) :=
  ⟨start_settled config fragments, start_sparing config fragments⟩

theorem start_free (config : BuildConfig) (fragments : List Fragment) (l : String) :
    (Build.start config fragments).graph.labels.nodeOf? l = none :=
  congrArg (Table.get? · l) (bound_ofFragments fragments)

theorem run_free {options : BuildOptions} {s s' : Merge.State} (hs : Settled s) {index : Nat}
    (hl : l ∉ labelsIn fragments) (hfree : s.graph.labels.nodeOf? l = none)
    (h : Merge.run options s (Edit.ofFragments index fragments) = .ok s') :
    s'.graph.labels.nodeOf? l = none := by
  refine (run_bound_other hs (fun e he hm => hl ?_) h).trans hfree
  obtain ⟨f, hf, i, hi⟩ := edit_of_fragments he
  exact List.mem_flatMap.mpr ⟨f, hf, attached_of_fragment hi hm⟩

variable {options : BuildOptions} {s t : Merge.State} {edits : List Edit} {names : List NodeName}

/-- A reference that comes after the label reaches the node that the label is bound to. -/
theorem lands_after_label (hs : Spared s) (hplaced : Placed l names s.graph)
    (hspare : ∀ e ∈ edits, Spares e) (h : Merge.run options s edits = .ok t) (site : Site) :
    ∃ n, t.graph.labels.nodeOf? l = some n ∧
      ((s.graph.reach (.label l) site).2 = n ↔ ¬ Strays s.graph l names) := by
  obtain ⟨n, hbound, _⟩ := hplaced
  refine ⟨n, hs.bound hspare h hbound, ?_⟩
  rw [reach_of_target (target_of_bound hs.kept hbound)]
  simp [Strays, hbound]

/-- A reference that comes before the label reaches the node that the label will be bound to, unless it strays. -/
theorem lands_before_label (hs : Spared s) (hfree : s.graph.labels.nodeOf? l = none) {p : String}
    (hp : s.graph.labels.pathOf? l = some p) (habs : isAbsolute p = true) (hnames : pathNames p = names)
    {i : Nat} {file : FileId} {labels : List LabelDecl} {body : List Item} {targetSpan span : Span}
    (hspare : ∀ e ∈ Edit.ofFragment i ⟨file, .reference (.label l) labels body targetSpan span⟩ ++ edits,
      Spares e)
    (h : Merge.run options s
      (Edit.ofFragment i ⟨file, .reference (.label l) labels body targetSpan span⟩ ++ edits) = .ok t)
    (hplaced : Placed l names t.graph) :
    ∃ n, t.graph.labels.nodeOf? l = some n ∧
      ((s.graph.reach (.label l) (Edit.site file i span targetSpan)).2 = n ↔
        ¬ Strays s.graph l names) := by
  obtain ⟨n, hbound, htrail⟩ := hplaced
  have hsound := hs.settled.ready.sound
  have hreach := reach_of_target (target_of_recorded hfree hp habs) (Edit.site file i span targetSpan)
  rw [hnames] at hreach
  obtain ⟨below, hwalk, hiff⟩ := ensure_trail hsound hsound.root_kept .root names
  rw [List.nil_append, ← hreach] at hwalk
  have hsound' := (hs.settled.run h).ready.sound
  have hstep : Merge.step options s (.enterReference (.label l) (Edit.marks file labels)
      (Edit.site file i span targetSpan)) = .ok _ := rfl
  rw [Edit.ofFragment, List.cons_append] at hspare h
  rw [run_cons hstep] at h
  have hend := (hs.step (hspare _ List.mem_cons_self) hstep).trail
    (fun e he => hspare e (List.mem_cons_of_mem _ he)) h (reference_trail hstep hwalk)
  -- Ways and nodes belong to each other one to one, so it is the names that decide.
  have hsame : (s.graph.reach (.label l) (Edit.site file i span targetSpan)).2 = n ↔ below = names := by
    constructor
    · intro he
      exact htrail.same_names hsound' (he ▸ hend)
    · rintro rfl
      exact htrail.same_node hsound'.linked hend
  refine ⟨n, hbound, ?_⟩
  rw [hsame, hiff]
  simp [Strays, hfree]

end Lands

section Splits
variable {config : BuildConfig} {fragments : List Fragment} {i : Nat} {f : Fragment} {s s' t : Merge.State}

theorem fragments_split (hi : fragments[i]? = some f) :
    fragments = fragments.take i ++ f :: fragments.drop (i + 1) := by
  obtain ⟨hlt, rfl⟩ := List.getElem?_eq_some_iff.mp hi
  rw [← List.drop_eq_getElem_cons hlt, List.take_append_drop]

theorem edits_split (hi : fragments[i]? = some f) : Edit.ofFragments 0 fragments =
    Edit.ofFragments 0 (fragments.take i) ++
      (Edit.ofFragment i f ++ Edit.ofFragments (i + 1) (fragments.drop (i + 1))) := by
  obtain ⟨hlt, _⟩ := List.getElem?_eq_some_iff.mp hi
  have hlength : (fragments.take i).length = i := by simp [Nat.le_of_lt hlt]
  conv_lhs => rw [fragments_split hi]
  rw [edits_append, hlength, Nat.zero_add, Edit.ofFragments]

/-- The runs of a fragment and of those after it. -/
theorem runs_split (hi : fragments[i]? = some f) (hs : merged config fragments i = .ok s)
    (hs' : merged config fragments (i + 1) = .ok s')
    (h : Merge.run config.options (Build.start config fragments) (Edit.ofFragments 0 fragments) = .ok t) :
    Merge.run config.options s (Edit.ofFragment i f) = .ok s' ∧
      Merge.run config.options s' (Edit.ofFragments (i + 1) (fragments.drop (i + 1))) = .ok t := by
  obtain ⟨hlt, _⟩ := List.getElem?_eq_some_iff.mp hi
  have hlength : (fragments.take i).length = i := by simp [Nat.le_of_lt hlt]
  have hfirst : Merge.run config.options s (Edit.ofFragment i f) = .ok s' := by
    rw [merged, List.take_add_one, hi, Option.toList_some, edits_append, hlength, Nat.zero_add,
      run_append hs, Edit.ofFragments, Edit.ofFragments, List.append_nil] at hs'
    exact hs'
  refine ⟨hfirst, ?_⟩
  rw [edits_split hi, run_append hs, run_append hfirst] at h
  exact h

theorem resolve_finish {g : Graph} (hk : AllKept g) {l : String} {n : NodeId}
    (hbound : g.labels.nodeOf? l = some n) (options : BuildOptions) :
    (g.finish options).resolveLabel? l = some n := by
  have hkept : AllKept (g.finish options) := fun id =>
    (view_finish g options Node.deletedBy (fun _ _ => rfl) id).trans (hk id)
  simp [Graph.resolveLabel?, hbound, hkept.live]

end Splits

section Merged
variable {options : BuildOptions} {s s' t : Merge.State} {l : String} {i : Nat} {file : FileId}
  {labels : List LabelDecl} {body : List Item} {targetSpan span : Span}

/-- Merging a reference to a label with a path reports nothing unresolvable and records the reference with the
node that it reaches. -/
theorem reference_merged (hs : Spared s) {p : String} (hp : s.graph.labels.pathOf? l = some p)
    (habs : isAbsolute p = true)
    (h : Merge.run options s (Edit.ofFragment i ⟨file, .reference (.label l) labels body targetSpan span⟩) =
      .ok s') :
    unresolved s'.graph = unresolved s.graph ∧
      HasNode s'.graph (s.graph.reach (.label l) (Edit.site file i span targetSpan)).2 ∧
      ⟨.reference, Edit.site file i span targetSpan⟩ ∈
        (s'.graph.node (s.graph.reach (.label l) (Edit.site file i span targetSpan)).2).referencedBy := by
  have hstep : Merge.step options s (.enterReference (.label l) (Edit.marks file labels)
      (Edit.site file i span targetSpan)) = .ok _ := rfl
  rw [Edit.ofFragment, run_cons hstep] at h
  have hs₁ := hs.settled.step hstep
  have hfound : s.graph.ensureTarget? (.label l) ≠ none := by
    cases hbound : s.graph.labels.nodeOf? l with
    | some n => simp [target_of_bound hs.kept hbound]
    | none => simp [target_of_recorded hbound hp habs]
  have hquiet := step_unresolved hstep fun target _ _ he => by
    obtain ⟨rfl, _, _⟩ := Edit.enterReference.inj he
    exact hfound
  obtain ⟨has, hrecorded⟩ := reference_recorded hs.settled hstep
  have hsince := hs₁.since h
  exact ⟨(run_items_unresolved hs₁ h).trans hquiet, hsince.grown.has_node has,
    (hsince.node _ has).referencedBy.subset hrecorded⟩

end Merged

section Meets
variable {config : BuildConfig} {fragments : List Fragment} {l : String} {home : FileId}
  {front : List LabelDecl} {items : List Item} {extent : Span} {names : List NodeName} {i : Nat}
  {file : FileId} {labels : List LabelDecl} {body : List Item} {targetSpan span : Span}
  {s t : Merge.State}

/-- Whether the label is written before the reference or after it, the reference reaches the node that the label
is bound to, unless it strays. -/
theorem reference_meets_label (hspare : ∀ e ∈ Edit.ofFragments 0 fragments, Spares e)
    (hone : (labelsIn fragments).count l = 1)
    (hroot : ⟨home, .root front items extent⟩ ∈ fragments) (hw : Written l items names)
    (hi : fragments[i]? = some ⟨file, .reference (.label l) labels body targetSpan span⟩)
    (hs : merged config fragments i = .ok s)
    (h : Merge.run config.options (Build.start config fragments) (Edit.ofFragments 0 fragments) = .ok t)
    {p : String} (hp : s.graph.labels.pathOf? l = some p) (habs : isAbsolute p = true)
    (hnames : pathNames p = names) :
    ∃ n, t.graph.labels.nodeOf? l = some n ∧
      ((s.graph.reach (.label l) (Edit.site file i span targetSpan)).2 = n ↔
        ¬ Strays s.graph l names) := by
  rw [edits_split hi] at hspare h
  rw [fragments_split hi, labelsIn, List.flatMap_append, List.flatMap_cons] at hone
  rw [run_append hs] at h
  have hstart := start_spared config fragments
  have hspare₀ : ∀ e ∈ Edit.ofFragments 0 (fragments.take i), Spares e := fun e he =>
    hspare e (List.mem_append_left _ he)
  have hspare₁ := fun e he => hspare e (List.mem_append_right _ he)
  have hspared := hstart.run hspare₀ hs
  have hinside : ∀ {fs : List Fragment}, ⟨home, .root front items extent⟩ ∈ fs → l ∈ labelsIn fs :=
    fun hm => List.mem_flatMap.mpr ⟨_, hm, List.mem_append_right _ hw.mem⟩
  rw [fragments_split hi] at hroot
  rcases List.mem_append.mp hroot with hbefore | hrest
  · have hplaced := fragments_placed (once_left hone (hinside hbefore)) hbefore hw hspare₀ hstart
      (start_free config fragments l) hs
    exact lands_after_label hspared hplaced hspare₁ h _
  · rcases List.mem_cons.mp hrest with hself | hafter
    · cases hself
    · obtain ⟨hnot, honce⟩ := once_right hone (List.mem_append_right _ (hinside hafter))
      obtain ⟨hown, honce⟩ := once_right honce (hinside hafter)
      have hfree := run_free hstart.settled hnot (start_free config fragments l) hs
      obtain ⟨s', hfragment, hlast⟩ := run_split hspared h
      have hfree' : s'.graph.labels.nodeOf? l = none :=
        (run_bound_other hspared.settled (fun e he hl => hown (attached_of_fragment he hl))
          hfragment).trans hfree
      have hspared' := hspared.run (fun e he => hspare₁ e (List.mem_append_left _ he)) hfragment
      have hplaced := fragments_placed honce hafter hw
        (fun e he => hspare₁ e (List.mem_append_right _ he)) hspared' hfree' hlast
      exact lands_before_label hspared hfree hp habs hnames hspare₁ h hplaced

end Meets

/-- Where no node is deleted, a reference to a label that is written once, in a body of the root, never counts as
unresolvable. It is recorded with the node that it reaches, and this is the node that the label names in the end if
and only if the reference does not stray. -/
theorem reference_lands {config : BuildConfig} {fragments : List Fragment} {isCancelled : Nat → Bool}
    {g : Graph} (h : Build.build config fragments isCancelled = .ok g)
    (hspare : ∀ e ∈ Edit.ofFragments 0 fragments, Spares e)
    (hnames : ∀ head ∈ headsIn fragments, Readable head.name) {l : String}
    (hone : (labelsIn fragments).count l = 1) {home : FileId} {front : List LabelDecl}
    {items : List Item} {extent : Span} {names : List NodeName}
    (hroot : ⟨home, .root front items extent⟩ ∈ fragments) (hw : Written l items names) {i : Nat}
    {file : FileId} {labels : List LabelDecl} {body : List Item} {targetSpan span : Span}
    (hi : fragments[i]? = some ⟨file, .reference (.label l) labels body targetSpan span⟩)
    {s s' : Merge.State} (hs : merged config fragments i = .ok s)
    (hs' : merged config fragments (i + 1) = .ok s') :
    unresolved s'.graph = unresolved s.graph ∧
      ∃ m n, m = (s.graph.reach (.label l) (Edit.site file i span targetSpan)).2 ∧
        ⟨.reference, Edit.site file i span targetSpan⟩ ∈ (g.node m).referencedBy ∧
        g.resolveLabel? l = some n ∧ (m = n ↔ ¬ Strays s.graph l names) := by
  obtain ⟨t, hrun, _, _, rfl⟩ := built_of_run h
  obtain ⟨hfragment, hafter⟩ := runs_split hi hs hs' hrun
  have hstart := start_spared config fragments
  have hspared := hstart.run (fun e he => hspare e (edits_split hi ▸ List.mem_append_left _ he)) hs
  obtain ⟨p, hp, habs, hpnames⟩ := path_of_fragments hone hnames hroot hw
  have hpath : s.graph.labels.pathOf? l = some p := by
    have hdeclared := (hstart.settled.since hs).declared
    rw [← hp, Labels.pathOf?, hdeclared]
    rfl
  obtain ⟨hquiet, has, hrecorded⟩ := reference_merged hspared hpath habs hfragment
  obtain ⟨n, hbound, hmeets⟩ := reference_meets_label hspare hone hroot hw hi hs hrun hpath habs hpnames
  have hsince := ((hspared.settled.run hfragment).since hafter).trans (since_finish t.graph config.options)
  exact ⟨hquiet, _, n, rfl, (hsince.node _ has).referencedBy.subset hrecorded,
    resolve_finish (hstart.run hspare hrun).kept hbound config.options, hmeets⟩

/-- A reference between a first declaration of the parent and the declaration of the node with the label. -/
def forwarded : List Fragment :=
  [⟨⟨0⟩, .root []
      [.child { name := { name := "soc" } }
        [.child { name := { name := "uart", address := some [32] } } []]] {}⟩,
    ⟨⟨1⟩, .reference (.label "console") [] [.property { name := "status" }] {} {}⟩,
    ⟨⟨0⟩, .root []
      [.child { name := { name := "soc" } }
        [.child { name := { name := "uart", address := some [16] }, labels := [{ name := "console" }] } []]]
      {}⟩]

theorem reference_lands_forwarded :
    (∀ e ∈ Edit.ofFragments 0 forwarded, Spares e) ∧ (∀ head ∈ headsIn forwarded, Readable head.name) ∧
      (labelsIn forwarded).count "console" = 1 ∧
      ∃ g, Build.build {} forwarded (fun _ => false) = .ok g ∧ g.resolveLabel? "console" = some ⟨3⟩ ∧
        ⟨.reference, Edit.site ⟨1⟩ 1 {} {}⟩ ∈ (g.node ⟨3⟩).referencedBy := by
  have hspare : ∀ e ∈ Edit.ofFragments 0 forwarded, Spares e := by decide
  have hnames : ∀ head ∈ headsIn forwarded, Readable head.name := by decide +kernel
  have hone : (labelsIn forwarded).count "console" = 1 := by decide
  obtain ⟨g, h, hlabel⟩ : ∃ g, Build.build {} forwarded (fun _ => false) = .ok g ∧
      g.resolveLabel? "console" = some ⟨3⟩ := exists_built (by decide +kernel)
  have hs : merged {} forwarded 1 = .ok _ := rfl
  have hs' : merged {} forwarded 2 = .ok _ := rfl
  have hroot : _ ∈ forwarded := .tail _ (.tail _ (.head _))
  obtain ⟨_, m, n, _, hrecorded, hn, hiff⟩ := reference_lands h hspare hnames hone hroot
    (.inside (.here (by decide))) rfl hs hs'
  obtain rfl := Option.some.inj (hn.symm.trans hlabel)
  obtain rfl := hiff.mpr (by decide +kernel)
  exact ⟨hspare, hnames, hone, g, h, hn, hrecorded⟩

def strayed : List Fragment :=
  [⟨⟨0⟩, .root [] [.child { name := { name := "cpu", address := some [1] } } []] {}⟩,
    ⟨⟨0⟩, .reference (.label "boot") [] [.property { name := "status", values := [.str "okay"] }] {} {}⟩,
    ⟨⟨0⟩, .root [] [.child { name := { name := "cpu" }, labels := [{ name := "boot" }] } []] {}⟩]

/-- The reference is merged into the namesake, and not into the node that the label names. -/
theorem reference_lands_strayed :
    (∀ e ∈ Edit.ofFragments 0 strayed, Spares e) ∧ (∀ head ∈ headsIn strayed, Readable head.name) ∧
      (labelsIn strayed).count "boot" = 1 ∧
      ∃ g, Build.build {} strayed (fun _ => false) = .ok g ∧ g.resolveLabel? "boot" = some ⟨2⟩ ∧
        (g.node ⟨2⟩).referencedBy = [] ∧
        (g.node ⟨1⟩).referencedBy = [⟨.reference, Edit.site ⟨0⟩ 1 {} {}⟩] :=
  ⟨by decide, by decide +kernel, by decide, exists_built (by decide +kernel)⟩

end Devicetree.Proofs
