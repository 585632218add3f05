import Devicetree.Graph.Specifier
import Devicetree.Proofs.History

namespace Devicetree.Proofs

mutual

def decidableEqValue : (a b : Value) → Decidable (a = b)
  | .str s, .str t => decidable_of_iff (s = t) (by simp)
  | .expr e, .expr f => decidable_of_iff (e = f) (by simp)
  | .label l, .label m => decidable_of_iff (l = m) (by simp)
  | .path p, .path q => decidable_of_iff (p = q) (by simp)
  | .cells as, .cells bs =>
    have := decidableEqValues as bs
    decidable_of_iff (as = bs) (by simp)
  | .bytes as, .bytes bs => decidable_of_iff (as = bs) (by simp)
  | .str _, .expr _ | .str _, .label _ | .str _, .path _ | .str _, .cells _ | .str _, .bytes _
  | .expr _, .str _ | .expr _, .label _ | .expr _, .path _ | .expr _, .cells _ | .expr _, .bytes _
  | .label _, .str _ | .label _, .expr _ | .label _, .path _ | .label _, .cells _ | .label _, .bytes _
  | .path _, .str _ | .path _, .expr _ | .path _, .label _ | .path _, .cells _ | .path _, .bytes _
  | .cells _, .str _ | .cells _, .expr _ | .cells _, .label _ | .cells _, .path _ | .cells _, .bytes _
  | .bytes _, .str _ | .bytes _, .expr _ | .bytes _, .label _ | .bytes _, .path _ | .bytes _, .cells _ =>
    isFalse nofun

def decidableEqValues : (as bs : List Value) → Decidable (as = bs)
  | [], [] => isTrue rfl
  | [], _ :: _ => isFalse nofun
  | _ :: _, [] => isFalse nofun
  | a :: as, b :: bs =>
    have := decidableEqValue a b
    have := decidableEqValues as bs
    decidable_of_iff (a = b ∧ as = bs) (by simp)

end

instance : DecidableEq Value := decidableEqValue

/-- The components of a group in the order of the property: the reference, then its cells. -/
def written (group : Group) : List Value := group.phandle :: group.cells

/-- The values are the flat list with some of its stretches put between brackets. -/
inductive Bracketed : List Value → List Value → Prop
  | nil : Bracketed [] []
  | array {flat values : List Value} (cells : List Value) (rest : Bracketed flat values) :
      Bracketed (cells ++ flat) (.cells cells :: values)
  | bare {flat values : List Value} {v : Value} (h : ∀ cells, v ≠ .cells cells) (rest : Bracketed flat values) :
      Bracketed (v :: flat) (v :: values)

/-- The group starts with a reference to a node and has exactly as many cells as that node asks for. -/
structure Complete (g : Graph) (space : String) (group : Group) : Prop where
  refers : group.target = g.resolveReference? group.phandle
  filled : ∃ target ∈ group.target, group.cells.length = g.specifierCellCount target space
  inSpace : group.space = space

instance (g : Graph) (space : String) (group : Group) : Decidable (Complete g space group) :=
  decidable_of_iff (group.target = g.resolveReference? group.phandle ∧
      (∃ target ∈ group.target, group.cells.length = g.specifierCellCount target space) ∧ group.space = space)
    ⟨fun ⟨refers, filled, inSpace⟩ => ⟨refers, filled, inSpace⟩, fun h => ⟨h.refers, h.filled, h.inSpace⟩⟩

/-- The groups cut the values as the nodes that they refer to ask for. -/
structure Partitions (g : Graph) (space : String) (values : List Value) (groups : List Group) : Prop where
  start : groups.flatMap written <+: values
  /-- Nothing is left over unless the last reference leads nowhere. -/
  whole : (∀ group ∈ groups.getLast?, group.target ≠ none) → groups.flatMap written = values
  inner : ∀ group ∈ groups.dropLast, ∃ target, group.target = some target ∧
    group.cells.length = g.specifierCellCount target space
  last : ∀ group ∈ groups.getLast?,
    group.cells.length ≤ (group.target.map fun target => g.specifierCellCount target space).getD 0
  targets : ∀ group ∈ groups, group.target = g.resolveReference? group.phandle
  inSpace : ∀ group ∈ groups, group.space = space

section Brackets

/-- Flattening takes away exactly the brackets. -/
theorem bracketed_iff {flat values : List Value} : Bracketed flat values ↔ Value.flatten values = flat := by
  constructor
  · intro h
    induction h with
    | nil => rfl
    | array cells _ ih => rw [Value.flatten, ih]
    | bare h _ ih => rw [Value.flatten.eq_3 _ _ h, ih]
  · rintro rfl
    fun_induction Value.flatten values with
    | case1 => exact .nil
    | case2 cells values ih => exact .array cells ih
    | case3 v values h ih => exact .bare h ih

end Brackets

section Groups
variable {g : Graph} {space : String} {v : Value} {vs : List Value} {group : Group} {groups : List Group}
  {target : NodeId}

theorem Partitions.nil (g : Graph) (space : String) : Partitions g space [] [] := by
  constructor <;> simp

/-- A reference that leads nowhere is a group of its own, whatever comes after it. -/
theorem Partitions.nowhere (h : g.resolveReference? v = none) (space : String) (vs : List Value) :
    Partitions g space (v :: vs) [⟨none, space, v, []⟩] := by
  constructor <;> simp [written, h]

/-- A group in front of a partition of what is left after it. -/
theorem Partitions.cons (h : g.resolveReference? v = some target)
    (hrest : Partitions g space (vs.drop (g.specifierCellCount target space)) groups) :
    Partitions g space (v :: vs)
      (⟨some target, space, v, vs.take (g.specifierCellCount target space)⟩ :: groups) := by
  have hvs := List.take_append_drop (g.specifierCellCount target space) vs
  refine ⟨?_, ?_, ?_, ?_, ?_, ?_⟩
  · have hstart := (List.prefix_append_right_inj (vs.take (g.specifierCellCount target space))).mpr hrest.start
    rw [hvs] at hstart
    simpa [written] using hstart
  · intro hlast
    have hwhole := hrest.whole fun group hgroup => hlast group (by
      cases groups with
      | nil => cases hgroup
      | cons next groups => simpa using hgroup)
    simp [written, hwhole, hvs]
  · cases groups with
    | nil => simp
    | cons next groups =>
      have hleft : vs.drop (g.specifierCellCount target space) ≠ [] := by
        intro hnone
        have hstart := hrest.start
        simp [hnone, written] at hstart
      have hcount : g.specifierCellCount target space ≤ vs.length := by
        simp only [ne_eq, List.drop_eq_nil_iff] at hleft
        omega
      simpa [hcount] using hrest.inner
  · cases groups with
    | nil =>
      rintro group ⟨rfl⟩
      exact List.length_take_le _ _
    | cons next groups => simpa using hrest.last
  · simpa [h] using hrest.targets
  · simpa using hrest.inSpace

theorem splitGroups_partitions (g : Graph) (space : String) (vs : List Value) :
    Partitions g space vs (g.splitGroups space vs) := by
  fun_induction g.splitGroups space vs with
  | case1 => exact .nil g space
  | case2 v vs h => exact .nowhere h space vs
  | case3 v vs target h count ih => exact .cons h ih

/-- The first group of a partition starts with the first value. -/
theorem Partitions.first (h : Partitions g space (v :: vs) groups) : ∃ cells rest,
    groups = ⟨g.resolveReference? v, space, v, cells⟩ :: rest ∧ cells ++ rest.flatMap written <+: vs := by
  cases groups with
  | nil =>
    have hwhole := h.whole (by simp)
    cases hwhole
  | cons group rest =>
    obtain ⟨target, inSpace, phandle, cells⟩ := group
    have htarget := h.targets _ List.mem_cons_self
    have hspace := h.inSpace _ List.mem_cons_self
    have hstart := h.start
    rw [List.flatMap_cons, written, List.cons_append, List.cons_prefix_cons] at hstart
    obtain ⟨rfl, hstart⟩ := hstart
    exact ⟨cells, rest, by rw [← htarget, ← hspace], hstart⟩

/-- Where the first reference leads to a node, its cells are the next values, as many as the node asks for, and the
rest is a partition of what is left. -/
theorem Partitions.next {cells : List Value}
    (h : Partitions g space (v :: vs) (⟨some target, space, v, cells⟩ :: groups))
    (hstart : cells ++ groups.flatMap written <+: vs) :
    vs.take (g.specifierCellCount target space) = cells ∧
      Partitions g space (vs.drop (g.specifierCellCount target space)) groups := by
  cases groups with
  | nil =>
    have hwhole := h.whole (by simp)
    have hcells : cells = vs := by simpa [written] using hwhole
    have hlength : vs.length ≤ g.specifierCellCount target space := by
      simpa [hcells] using h.last _ rfl
    rw [List.take_of_length_le hlength, List.drop_of_length_le hlength]
    exact ⟨hcells.symm, .nil g space⟩
  | cons next groups =>
    obtain ⟨_, ⟨⟩, hlength⟩ := h.inner ⟨some target, space, v, cells⟩ (by simp)
    obtain ⟨more, rfl⟩ := hstart
    rw [List.append_assoc, ← hlength, List.take_left, List.drop_left]
    refine ⟨rfl, List.prefix_append .., ?_, ?_, ?_, ?_, ?_⟩
    · intro hlast
      have hwhole := h.whole (by simpa using hlast)
      simpa [written] using hwhole
    · intro group hgroup
      exact h.inner group (by simp [hgroup])
    · intro group hgroup
      exact h.last group (by simpa using hgroup)
    · intro group hgroup
      exact h.targets group (List.mem_cons_of_mem _ hgroup)
    · intro group hgroup
      exact h.inSpace group (List.mem_cons_of_mem _ hgroup)

/-- There is one partition. -/
theorem Partitions.unique (h : Partitions g space vs groups) : g.splitGroups space vs = groups := by
  fun_induction g.splitGroups space vs generalizing groups
  case case1 =>
    cases groups with
    | nil => rfl
    | cons group groups =>
      have hstart := h.start
      simp [written] at hstart
  case case2 v vs hnone =>
    obtain ⟨cells, rest, rfl, hstart⟩ := h.first
    rw [hnone] at h ⊢
    cases rest with
    | nil =>
      have hlength := h.last _ rfl
      obtain rfl : cells = [] := by simpa using hlength
      rfl
    | cons next rest =>
      obtain ⟨target, htarget, _⟩ := h.inner ⟨none, space, v, cells⟩ (by simp)
      cases htarget
  case case3 v vs target href count ih =>
    obtain ⟨cells, rest, rfl, hstart⟩ := h.first
    rw [href] at h ⊢
    obtain ⟨hcells, hrest⟩ := h.next hstart
    rw [ih hrest, hcells]

/-- Complete groups are a partition of their own values. -/
theorem partitions_of_complete (h : ∀ group ∈ groups, Complete g space group) :
    Partitions g space (groups.flatMap written) groups := by
  refine ⟨List.prefix_rfl, fun _ => rfl, ?_, ?_, ?_, ?_⟩
  · intro group hgroup
    exact (h group (List.dropLast_subset _ hgroup)).filled
  · intro group hgroup
    obtain ⟨target, htarget, hlength⟩ := (h group (List.mem_of_mem_getLast? hgroup)).filled
    simp [Option.mem_def.mp htarget, hlength]
  · intro group hgroup
    exact (h group hgroup).refers
  · intro group hgroup
    exact (h group hgroup).inSpace

end Groups

section Cells

def IsCell (g : Graph) (space : String) (group : Group) (name : String) (v : Value) : Prop :=
  ∃ target type names j, group.target = some target ∧ g.resolvedType? target = some type ∧
    type.cellNames? space = some names ∧ StandsFirst names name j ∧ group.cells[j]? = some v

theorem groupCell_iff {g : Graph} {space name : String} {group : Group} {v : Value} :
    g.groupCell? group space name = some v ↔ IsCell g space group name v := by
  simp only [Graph.groupCell?, IsCell, Option.bind_eq_bind, Option.bind_eq_some_iff, standsFirst_iff]
  grind

end Cells

/-- The groups of a property cut its values as the nodes that they refer to ask for. So groups that are complete are
found again however their values are put between brackets, and a named cell of one is the cell at the place that the
name has in the type of the node. -/
theorem groups_partition (g : Graph) (p : PropertyId) :
    Partitions g (g.specifierSpace p) (g.flatValues p) (g.groups p) ∧
    ∀ groups : List Group, (∀ group ∈ groups, Complete g (g.specifierSpace p) group) →
      Bracketed (groups.flatMap written) (g.property p).values →
      g.groups p = groups ∧ ∀ i name v, g.specifierCell? p i name = some v ↔
        ∃ group, groups[i]? = some group ∧ IsCell g (g.specifierSpace p) group name v := by
  refine ⟨splitGroups_partitions g _ _, ?_⟩
  intro groups hcomplete hbracketed
  have hflat : g.flatValues p = groups.flatMap written := bracketed_iff.mp hbracketed
  have hgroups : g.groups p = groups := by
    rw [Graph.groups, hflat]
    exact (partitions_of_complete hcomplete).unique
  refine ⟨hgroups, ?_⟩
  intro i name v
  rw [Graph.specifierCell?, hgroups, Option.bind_eq_bind, Option.bind_eq_some_iff]
  constructor
  · rintro ⟨group, hgroup, hcell⟩
    rw [(hcomplete group (List.mem_of_getElem? hgroup)).inSpace] at hcell
    exact ⟨group, hgroup, groupCell_iff.mp hcell⟩
  · rintro ⟨group, hgroup, hcell⟩
    refine ⟨group, hgroup, ?_⟩
    rw [(hcomplete group (List.mem_of_getElem? hgroup)).inSpace]
    exact groupCell_iff.mpr hcell

def number (n : Int64) : Value := .expr (.lit (.num n))

/-- A controller with two cells, referred to by label and by path, and one without cells, by its phandle; the brackets
stand across the groups. -/
def wired : List Fragment :=
  [⟨⟨0⟩, .root []
      [.child { name := .parse "gpio@0", labels := [{ name := "gpio0" }] }
          [.property { name := "compatible", values := [.str "vnd,gpio"] },
            .property { name := "#gpio-cells", values := [.cells [number 2]] }],
        .child { name := .parse "mux" } [.property { name := "phandle", values := [.cells [number 9]] }],
        .child { name := .parse "dev" }
          [.property { name := "cs-gpios", values :=
            [.cells [.label "gpio0", number 7], .cells [number 1, number 9, .path "/gpio@0"], number 3,
              .cells [], .cells [number 4]] }]] {}⟩]

def wiredConfig : BuildConfig :=
  { bindings := Bindings.ofList [.mk (some "vnd,gpio") none none {} (.ofList [("gpio", ["pin", "flags", "pin"])]) {}] }

def wiredGroups : List Group :=
  [⟨some ⟨1⟩, "gpio", .label "gpio0", [number 7, number 1]⟩, ⟨some ⟨2⟩, "gpio", number 9, []⟩,
    ⟨some ⟨1⟩, "gpio", .path "/gpio@0", [number 3, number 4]⟩]

theorem groups_partition_wired : ∃ g, Build.build wiredConfig wired (fun _ => false) = .ok g ∧
    (∀ group ∈ wiredGroups, Complete g "gpio" group) ∧
    Bracketed (wiredGroups.flatMap written) (g.property ⟨3⟩).values ∧ g.groups ⟨3⟩ = wiredGroups ∧
    g.specifierCell? ⟨3⟩ 2 "flags" = some (number 4) ∧ ∀ v, g.specifierCell? ⟨3⟩ 1 "pin" ≠ some v := by
  obtain ⟨g, h, ⟨hspace, hcomplete, hflat⟩, ⟨type, htype, hnames⟩, hnone⟩ :
      ∃ g, Build.build wiredConfig wired (fun _ => false) = .ok g ∧
        (g.specifierSpace ⟨3⟩ = "gpio" ∧ (∀ group ∈ wiredGroups, Complete g "gpio" group) ∧
          Value.flatten (g.property ⟨3⟩).values = wiredGroups.flatMap written) ∧
        (∃ type ∈ g.resolvedType? ⟨1⟩, type.cellNames? "gpio" = some ["pin", "flags", "pin"]) ∧
        (g.resolvedType? ⟨2⟩).isNone = true :=
    exists_built (by decide +kernel)
  have hbracketed := bracketed_iff.mpr hflat
  obtain ⟨_, hgroups⟩ := groups_partition g ⟨3⟩
  rw [hspace] at hgroups
  obtain ⟨hfound, hcells⟩ := hgroups wiredGroups hcomplete hbracketed
  refine ⟨g, h, hcomplete, hbracketed, hfound, ?_, ?_⟩
  · exact (hcells 2 "flags" (number 4)).mpr ⟨_, rfl, ⟨1⟩, type, _, 1, rfl, htype, hnames, ⟨rfl, by decide⟩, rfl⟩
  · intro v hv
    obtain ⟨_, ⟨rfl⟩, _, _, _, _, ⟨rfl⟩, hsome, _⟩ := (hcells 1 "pin" v).mp hv
    rw [hsome] at hnone
    cases hnone

end Devicetree.Proofs
