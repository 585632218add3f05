import Devicetree.Proofs.SourceNodes

namespace Devicetree.Proofs

/-- The label stands on a node in a body; the names lead from the owner of the body down to that node. -/
inductive Written (l : String) : List Item → List NodeName → Prop
  | here {head : ChildHead} {body items : List Item} (mem : l ∈ namesOfLabels head.labels) :
      Written l (.child head body :: items) [head.name]
  | inside {head : ChildHead} {body items : List Item} {names : List NodeName}
      (below : Written l body names) : Written l (.child head body :: items) (head.name :: names)
  | later {item : Item} {items : List Item} {names : List NodeName} (after : Written l items names) :
      Written l (item :: items) names

section Once
variable {l : String}

theorem Written.mem {items : List Item} {names : List NodeName} (h : Written l items names) :
    l ∈ labelsInside items := by
  induction h with
  | here mem =>
    rw [labels_inside_child]
    exact List.mem_append_left _ (List.mem_append_left _ mem)
  | inside _ ih =>
    rw [labels_inside_child]
    exact List.mem_append_left _ (List.mem_append_right _ ih)
  | later _ ih =>
    rw [labels_inside_cons]
    exact List.mem_append_right _ ih

/-- What occurs once, and in the second part, is not in the first. -/
theorem once_right {a b : List String} (h : (a ++ b).count l = 1) (hb : l ∈ b) :
    l ∉ a ∧ b.count l = 1 := by
  have hpos := List.count_pos_iff.mpr hb
  rw [List.count_append] at h
  refine ⟨fun ha => ?_, by omega⟩
  have hpos' := List.count_pos_iff.mpr ha
  omega

theorem once_left {a b : List String} (h : (a ++ b).count l = 1) (ha : l ∈ a) : a.count l = 1 := by
  have hpos := List.count_pos_iff.mpr ha
  rw [List.count_append] at h
  omega

end Once

section Recorded
variable {l : String}

def pathIn (l : String) (entries : List LabelEntry) : Option String :=
  entries.findSome? fun e => if e.name = l then e.path else none

theorem path_in_append (a b : List LabelEntry) : pathIn l (a ++ b) = (pathIn l a).or (pathIn l b) :=
  List.findSome?_append

theorem path_in_none {entries : List LabelEntry} (h : ∀ e ∈ entries, e.name ≠ l) :
    pathIn l entries = none := by
  apply List.findSome?_eq_none_iff.mpr
  intro e he
  simp [h e he]

theorem name_of_entry {file : FileId} {labels : List LabelDecl} {path : Option String} {b : Bool}
    {e : LabelEntry} (h : e ∈ Labels.entries (Edit.marks file labels) path b) :
    e.name ∈ namesOfLabels labels := by
  obtain ⟨m, hm, rfl⟩ := List.mem_map.mp h
  rw [← names_of_marks file]
  exact List.mem_map_of_mem hm

theorem path_in_entries {labels : List LabelDecl} (h : l ∈ namesOfLabels labels) (file : FileId)
    (path : String) (b : Bool) :
    pathIn l (Labels.entries (Edit.marks file labels) (some path) b) = some path := by
  induction labels with
  | nil => cases h
  | cons d labels ih =>
    by_cases hd : d.name = l
    · simp [pathIn, Labels.entries, Edit.marks, hd]
    · have hrest : l ∈ namesOfLabels labels := by
        simpa [namesOfLabels, Ne.symm hd] using h
      simpa [pathIn, Labels.entries, Edit.marks, hd] using ih hrest

mutual

theorem entry_of_item {file : FileId} {path : String} {e : LabelEntry} :
    (item : Item) → e ∈ Labels.ofItem file path item →
      ∃ head ∈ headsOfItem item, e.name ∈ namesOfLabels head.labels
  | .child head body, h => by
    rcases List.mem_append.mp h with hfront | hbody
    · exact ⟨head, List.mem_cons_self, name_of_entry hfront⟩
    · obtain ⟨inner, hm, hname⟩ := entry_of_items body hbody
      exact ⟨inner, List.mem_cons_of_mem _ hm, hname⟩
  | .property _, h => by cases h
  | .deleteNode _, h => by cases h
  | .deleteProperty _, h => by cases h

theorem entry_of_items {file : FileId} {path : String} {e : LabelEntry} :
    (items : List Item) → e ∈ Labels.ofItems file path items →
      ∃ head ∈ headsOfItems items, e.name ∈ namesOfLabels head.labels
  | [], h => by cases h
  | item :: items, h => by
    rcases List.mem_append.mp h with hitem | hrest
    · obtain ⟨head, hm, hname⟩ := entry_of_item item hitem
      exact ⟨head, List.mem_append_left _ hm, hname⟩
    · obtain ⟨head, hm, hname⟩ := entry_of_items items hrest
      exact ⟨head, List.mem_append_right _ hm, hname⟩

end

theorem name_inside {file : FileId} {path : String} {items : List Item} {e : LabelEntry}
    (h : e ∈ Labels.ofItems file path items) : e.name ∈ labelsInside items :=
  List.mem_flatMap.mpr (entry_of_items items h)

theorem path_in_items_none {items : List Item} (h : l ∉ labelsInside items) (file : FileId)
    (path : String) : pathIn l (Labels.ofItems file path items) = none :=
  path_in_none fun _ he hname => h (hname ▸ name_inside he)

theorem path_in_cons (file : FileId) (path : String) (item : Item) (items : List Item) :
    pathIn l (Labels.ofItems file path (item :: items)) =
      (pathIn l (Labels.ofItems file path [item])).or (pathIn l (Labels.ofItems file path items)) := by
  simp only [Labels.ofItems, path_in_append]
  simp [pathIn]

theorem path_in_child (file : FileId) (path : String) (head : ChildHead) (body items : List Item) :
    pathIn l (Labels.ofItems file path (.child head body :: items)) =
      ((pathIn l (Labels.entries (Edit.marks file head.labels)
          (some (joinPath path head.name.fullName)) false)).or
        (pathIn l (Labels.ofItems file (joinPath path head.name.fullName) body))).or
        (pathIn l (Labels.ofItems file path items)) := by
  simp only [Labels.ofItems, Labels.ofItem, path_in_append]

/-- The path recorded for a label continues the path of the body by the names down to its node. -/
theorem Written.recorded {items : List Item} {names : List NodeName} (hw : Written l items names)
    (hone : (labelsInside items).count l = 1)
    (hnames : ∀ head ∈ headsOfItems items, Readable head.name) (file : FileId) {path : String}
    (habs : isAbsolute path = true) :
    ∃ p, pathIn l (Labels.ofItems file path items) = some p ∧ isAbsolute p = true ∧
      pathNames p = pathNames path ++ names := by
  induction hw generalizing path with
  | @here head body items mem =>
    have hname : Readable head.name := hnames head (by simp [headsOfItems, headsOfItem])
    refine ⟨joinPath path head.name.fullName, ?_, absolute_joinPath habs _, pathNames_joinPath path hname⟩
    rw [path_in_child, path_in_entries mem]
    rfl
  | @inside head body items names below ih =>
    have hname : Readable head.name := hnames head (by simp [headsOfItems, headsOfItem])
    rw [labels_inside_child] at hone
    obtain ⟨hhead, hbody⟩ := once_right (once_left hone (List.mem_append_right _ below.mem)) below.mem
    obtain ⟨p, hp, hpabs, hpnames⟩ := ih hbody
      (fun inner hm => hnames inner (by simp [headsOfItems, headsOfItem, hm]))
      (absolute_joinPath habs head.name.fullName)
    refine ⟨p, ?_, hpabs, ?_⟩
    · have hnone : pathIn l (Labels.entries (Edit.marks file head.labels)
          (some (joinPath path head.name.fullName)) false) = none :=
        path_in_none fun _ he hsame => hhead (hsame ▸ name_of_entry he)
      rw [path_in_child, hnone, hp]
      rfl
    · rw [hpnames, pathNames_joinPath path hname, List.append_assoc]
      rfl
  | @later item items names after ih =>
    rw [labels_inside_cons] at hone
    obtain ⟨hitem, hrest⟩ := once_right hone after.mem
    obtain ⟨p, hp, hpabs, hpnames⟩ := ih hrest
      (fun head hm => hnames head (by simp [headsOfItems, hm])) habs
    refine ⟨p, ?_, hpabs, hpnames⟩
    rw [path_in_cons, path_in_items_none hitem, hp]
    rfl

/-- A fragment adds entries for the labels that it writes. -/
theorem declared_declare (labels : Labels) (f : Fragment) :
    ∃ more, (labels.declare f).declared = labels.declared ++ more ∧ ∀ e ∈ more, e.name ∈ labelsOf f := by
  obtain ⟨file, content⟩ := f
  cases content with
  | root front body span =>
    refine ⟨_, rfl, ?_⟩
    intro e he
    rcases List.mem_append.mp he with hfront | hbody
    · exact List.mem_append_left _ (name_of_entry hfront)
    · exact List.mem_append_right _ (name_inside hbody)
  | reference target front body targetSpan span =>
    refine ⟨_, rfl, ?_⟩
    intro e he
    rcases List.mem_append.mp he with hfront | hbody
    · exact List.mem_append_left _ (name_of_entry hfront)
    · split at hbody
      · exact List.mem_append_right _ (name_inside hbody)
      · cases hbody
  | delete d => exact ⟨[], by simp [Labels.declare], by simp⟩

theorem path_of_declare_other {f : Fragment} (h : l ∉ labelsOf f) (labels : Labels) :
    (labels.declare f).pathOf? l = labels.pathOf? l := by
  obtain ⟨more, hdeclared, hmore⟩ := declared_declare labels f
  have hnone : pathIn l more = none := path_in_none fun e he hname => h (hname ▸ hmore e he)
  calc (labels.declare f).pathOf? l
      _ = pathIn l (labels.declared ++ more) := congrArg (pathIn l) hdeclared
      _ = labels.pathOf? l := by rw [path_in_append, hnone, Option.or_none]; rfl

/-- Once a label has a path, it keeps it. -/
theorem path_of_known {labels : Labels} {p : String} (h : labels.pathOf? l = some p)
    (fragments : List Fragment) : (fragments.foldl Labels.declare labels).pathOf? l = some p := by
  induction fragments generalizing labels with
  | nil => exact h
  | cons f fs ih =>
    obtain ⟨more, hdeclared, _⟩ := declared_declare labels f
    have hp : pathIn l labels.declared = some p := h
    refine ih ?_
    calc (labels.declare f).pathOf? l
        _ = pathIn l (labels.declared ++ more) := congrArg (pathIn l) hdeclared
        _ = some p := by rw [path_in_append, hp]; rfl

theorem path_of_root_fragment {labels : Labels} (hfree : labels.pathOf? l = none) {file : FileId}
    {front : List LabelDecl} {items : List Item} {span : Span} {names : List NodeName}
    (hw : Written l items names) (hone : (labelsOf ⟨file, .root front items span⟩).count l = 1)
    (hnames : ∀ head ∈ headsOfItems items, Readable head.name) :
    ∃ p, (labels.declare ⟨file, .root front items span⟩).pathOf? l = some p ∧ isAbsolute p = true ∧
      pathNames p = names := by
  obtain ⟨hfront, hinside⟩ := once_right hone hw.mem
  have htop : isAbsolute "/" = true := rfl
  obtain ⟨p, hp, habs, hpnames⟩ := hw.recorded hinside hnames file htop
  refine ⟨p, ?_, habs, hpnames.trans (List.nil_append names)⟩
  have hold : pathIn l labels.declared = none := hfree
  have hnone : pathIn l (Labels.entries (Edit.marks file front) (some "/") false) = none :=
    path_in_none fun _ he hsame => hfront (hsame ▸ name_of_entry he)
  change pathIn l (labels.declared ++ (Labels.entries (Edit.marks file front) (some "/") false ++
    Labels.ofItems file "/" items)) = some p
  rw [path_in_append, path_in_append, hold, hnone, hp]
  rfl

/-- The path recorded for a label that is written once, in a body of the root, has the names down to its node. -/
theorem path_of_fragments {fragments : List Fragment} (hone : (labelsIn fragments).count l = 1)
    (hnames : ∀ head ∈ headsIn fragments, Readable head.name) {file : FileId} {front : List LabelDecl}
    {items : List Item} {span : Span} {names : List NodeName}
    (hroot : ⟨file, .root front items span⟩ ∈ fragments) (hw : Written l items names) :
    ∃ p, (Labels.ofFragments fragments).pathOf? l = some p ∧ isAbsolute p = true ∧
      pathNames p = names := by
  have main : ∀ labels : Labels, labels.pathOf? l = none →
      ∃ p, (fragments.foldl Labels.declare labels).pathOf? l = some p ∧ isAbsolute p = true ∧
        pathNames p = names := by
    induction fragments with
    | nil => cases hroot
    | cons f fs ih =>
      intro labels hfree
      rw [labelsIn, List.flatMap_cons] at hone
      rcases List.mem_cons.mp hroot with rfl | hlater
      · have hinside : l ∈ labelsOf ⟨file, .root front items span⟩ := List.mem_append_right _ hw.mem
        obtain ⟨p, hp, habs, hpnames⟩ := path_of_root_fragment hfree hw (once_left hone hinside)
          (fun head hm => hnames head (List.mem_flatMap.mpr ⟨_, List.mem_cons_self, hm⟩))
        exact ⟨p, path_of_known hp fs, habs, hpnames⟩
      · have hwritten : l ∈ labelsIn fs :=
          List.mem_flatMap.mpr ⟨_, hlater, List.mem_append_right _ hw.mem⟩
        obtain ⟨hnot, hrest⟩ := once_right hone hwritten
        refine ih hrest (fun head hm => ?_) hlater (labels.declare f)
          ((path_of_declare_other hnot labels).trans hfree)
        obtain ⟨f', hf', hm'⟩ := List.mem_flatMap.mp hm
        exact hnames head (List.mem_flatMap.mpr ⟨f', List.mem_cons_of_mem _ hf', hm'⟩)
  exact main {} rfl

end Recorded

end Devicetree.Proofs
