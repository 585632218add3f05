import Devicetree.Proofs.Ledger
import Devicetree.Proofs.RegisterBlocks

namespace Devicetree.Proofs

/-- The property is the live one of the node with the name, and its own record says so, as it does in built graphs. -/
structure Holds (g : Graph) (n : NodeId) (name : String) (p : PropertyId) : Prop where
  live : g.liveProperty? n name = some p
  owner : (g.property p).owner = n
  name : (g.property p).name = name

def declaredSpace? (g : Graph) (n : NodeId) (name : String) : Option String := do
  let type ← g.resolvedType? n
  let spec ← type.property? name
  spec.specifierSpace

inductive Cuts {α : Type} (n : Nat) : List (List α) → Prop
  | nil : Cuts n []
  | last {piece : List α} (hsome : piece ≠ []) (hlength : piece.length ≤ n) : Cuts n [piece]
  | cons {piece : List α} {pieces : List (List α)} (hlength : piece.length = n) (rest : Cuts n pieces) :
      Cuts n (piece :: pieces)

inductive Extended (g : Graph) (c : NodeId) : List (List Value) → List Value → Prop
  | nil : Extended g c [] []
  | cons {v : Value} {piece values : List Value} {pieces : List (List Value)}
      (hrefers : g.resolveReference? v = some c) (rest : Extended g c pieces values) :
      Extended g c (piece :: pieces) (v :: (piece ++ values))

/-- The interrupts of the node are bare cells, meant for the controller. -/
structure BareInterrupts (g : Graph) (d c : NodeId) (pieces : List (List Value)) : Prop where
  unextended : g.liveProperty? d "interrupts-extended" = none
  parent : g.interruptParent? d = some c
  cells : g.flatProperty? d "interrupts" = some pieces.flatten

structure ExtendedInterrupts (g : Graph) (e c : NodeId) (pieces : List (List Value)) : Prop where
  property : ∃ p, Holds g e "interrupts-extended" p ∧ Extended g c pieces (g.flatValues p)
  space : ∀ space, declaredSpace? g e "interrupts-extended" = some space → space = "interrupt"

/-- What is read from a group. How it refers to its node is left out. -/
def wiring (group : Group) : Option NodeId × String × List Value := (group.target, group.space, group.cells)

section Pieces
variable {α : Type} {n : Nat} {pieces : List (List α)}

/-- The pieces of a list are cut again from all its elements. -/
theorem Cuts.chunks_flatten (h : Cuts (n + 1) pieces) : chunks n pieces.flatten = pieces := by
  induction h with
  | nil =>
    rw [List.flatten_nil, chunks]
  | @last piece hsome hlength =>
    rw [List.flatten_singleton]
    cases piece with
    | nil => exact absurd rfl hsome
    | cons x xs =>
      have hle : xs.length ≤ n := Nat.le_of_succ_le_succ hlength
      rw [chunks, List.take_of_length_le hle, List.drop_of_length_le hle, chunks]
  | cons hlength rest ih => rw [List.flatten_cons, chunks_append hlength, ih]

end Pieces

section Spaces
variable {g : Graph} {n : NodeId} {name : String} {p : PropertyId}

theorem Ledger.holds (hl : Ledger g) (h : g.liveProperty? n name = some p) : Holds g n name p :=
  ⟨h, hl.owner n name p h, hl.name n name p h⟩

theorem Holds.space (h : Holds g n name p) :
    g.specifierSpace p = (declaredSpace? g n name).getD (specifierSpaceFor name) := by
  simp only [Graph.specifierSpace, declaredSpace?, h.owner, h.name]

end Spaces

section Groups
variable {g : Graph} {c d e : NodeId} {n : Nat} {pieces : List (List Value)} {values : List Value} {space : String}

/-- A controller asks for as many cells in a list of references as it does in bare cells. -/
theorem CellsAre.specifier (h : CellsAre g c "#interrupt-cells" n) : g.specifierCellCount c "interrupt" = n := by
  have hname : "#" ++ "interrupt" ++ "-cells" = "#interrupt-cells" := by decide
  rw [Graph.specifierCellCount, hname, h.cellCount]

theorem split_reference {v : Value} (h : g.resolveReference? v = some c) (space : String) (vs : List Value) :
    g.splitGroups space (v :: vs) =
      ⟨some c, space, v, vs.take (g.specifierCellCount c space)⟩ ::
        g.splitGroups space (vs.drop (g.specifierCellCount c space)) := by
  rw [Graph.splitGroups, h]

/-- References to one node split their list where the cells of the node end. -/
theorem Extended.split (h : Extended g c pieces values) (hcuts : Cuts (g.specifierCellCount c space) pieces) :
    (g.splitGroups space values).map wiring = pieces.map fun cells => (some c, space, cells) := by
  induction h with
  | nil =>
    rw [Graph.splitGroups]
    rfl
  | cons hrefers rest ih =>
    rw [split_reference hrefers, List.map_cons, List.map_cons]
    cases hcuts with
    | last hsome hlength =>
      cases rest
      rw [List.append_nil, List.take_of_length_le hlength, List.drop_of_length_le hlength, Graph.splitGroups]
      rfl
    | cons hlength hrest =>
      rw [List.take_left' hlength, List.drop_left' hlength, ih hrest]
      rfl

theorem BareInterrupts.groups (hd : BareInterrupts g d c pieces) (hcells : CellsAre g c "#interrupt-cells" n)
    (hpos : 1 ≤ n) (hcuts : Cuts n pieces) :
    (g.interruptGroups d).map wiring = pieces.map fun cells => (some c, "interrupt", cells) := by
  obtain ⟨k, rfl⟩ : ∃ k, n = k + 1 := Nat.exists_eq_succ_of_ne_zero (by omega)
  simp only [Graph.interruptGroups, hd.unextended, hd.parent, hd.cells, Option.map_some, Option.getD_some,
    hcells.cellCount, Nat.add_sub_cancel, hcuts.chunks_flatten, List.map_map]
  rfl

theorem ExtendedInterrupts.groups (he : ExtendedInterrupts g e c pieces)
    (hcells : CellsAre g c "#interrupt-cells" n) (hcuts : Cuts n pieces) :
    (g.interruptGroups e).map wiring = pieces.map fun cells => (some c, "interrupt", cells) := by
  obtain ⟨p, hp, hextended⟩ := he.property
  have hspace : g.specifierSpace p = "interrupt" := by
    rw [hp.space]
    cases hdeclared : declaredSpace? g e "interrupts-extended" with
    | none => rfl
    | some space => exact he.space space hdeclared
  have hgroups : g.interruptGroups e = g.groups p := by rw [Graph.interruptGroups, hp.live]
  rw [hgroups, Graph.groups, hspace]
  apply hextended.split
  rw [hcells.specifier]
  exact hcuts

end Groups

section Cells
variable {g : Graph} {d e : NodeId}

/-- What is found by way of a view of an element is found alike where the views are the same. -/
theorem bind_of_view {α β γ : Type} {x y : Option α} {view : α → β} {find : α → Option γ} (h : x.map view = y.map view)
    (hfind : ∀ a b, view a = view b → find a = find b) : x.bind find = y.bind find := by
  cases x with
  | none =>
    cases y with
    | none => rfl
    | some b => cases h
  | some a =>
    cases y with
    | none => cases h
    | some b => exact hfind a b (Option.some.inj h)

/-- A named cell is found without regard to how the group refers to its node. -/
theorem groupCell_congr {a b : Group} (h : wiring a = wiring b) (space cell : String) :
    g.groupCell? a space cell = g.groupCell? b space cell := by
  simp only [wiring, Prod.mk.injEq] at h
  rw [Graph.groupCell?, Graph.groupCell?, h.1, h.2.2]

theorem interruptCell_congr (h : (g.interruptGroups d).map wiring = (g.interruptGroups e).map wiring) (i : Nat)
    (cell : String) : g.interruptCell? d i cell = g.interruptCell? e i cell := by
  have hat : (g.interruptGroups d)[i]?.map wiring = (g.interruptGroups e)[i]?.map wiring := by
    rw [← List.getElem?_map, ← List.getElem?_map, h]
  apply bind_of_view hat
  intro a b hab
  rw [groupCell_congr hab]

end Cells

/-- Interrupts of one controller are read alike whichever way they are written. Either way the groups are the pieces
that the controller's number of cells cuts, in their order, and named cells have the same values. -/
theorem interrupts_alike {g : Graph} {c d e : NodeId} {n : Nat} {pieces : List (List Value)}
    (hcells : CellsAre g c "#interrupt-cells" n) (hpos : 1 ≤ n) (hcuts : Cuts n pieces)
    (hd : BareInterrupts g d c pieces) (he : ExtendedInterrupts g e c pieces) :
    (g.interruptGroups d).map wiring = pieces.map (fun cells => (some c, "interrupt", cells)) ∧
      (g.interruptGroups e).map wiring = pieces.map (fun cells => (some c, "interrupt", cells)) ∧
      ∀ i cell, g.interruptCell? d i cell = g.interruptCell? e i cell := by
  have hbare := hd.groups hcells hpos hcuts
  have hextended := he.groups hcells hcuts
  refine ⟨hbare, hextended, ?_⟩
  intro i cell
  exact interruptCell_congr (hbare.trans hextended.symm) i cell

def interrupted : List Fragment :=
  [⟨⟨0⟩, .root []
      [.property { name := "interrupt-parent", values := [.cells [.label "intc"]] },
        .child { name := .parse "intc", labels := [{ name := "intc" }] }
          [.property { name := "compatible", values := [.str "vnd,intc"] },
            .property { name := "#interrupt-cells", values := [.cells [number 2]] },
            .property { name := "phandle", values := [.cells [number 9]] }],
        .child { name := .parse "bus" }
          [.child { name := .parse "dev" }
            [.property { name := "interrupts", values :=
              [.cells [number 5, number 1, number 9], number 2, .cells [number 7]] }]],
        .child { name := .parse "ext" }
          [.property { name := "compatible", values := [.str "vnd,ext"] },
            .property { name := "interrupts-extended", values :=
              [.cells [.label "intc", number 5, number 1], .path "/intc", .cells [number 9, number 2],
                .cells [number 9, number 7]] }]] {}⟩]

def interruptedConfig : BuildConfig :=
  let references : PropertySpec := { kind := .phandleArray, specifierSpace := some "interrupt" }
  { bindings := Bindings.ofList
      [.mk (some "vnd,intc") none none {} (.ofList [("interrupt", ["irq", "priority"])]) {},
        .mk (some "vnd,ext") none none (.ofList [("interrupts-extended", references)]) {} {}] }

def interruptedPieces : List (List Value) := [[number 5, number 1], [number 9, number 2], [number 7]]

theorem interrupts_alike_interrupted :
    ∃ g, Build.build interruptedConfig interrupted (fun _ => false) = .ok g ∧
      (g.interruptGroups ⟨3⟩).map wiring = (g.interruptGroups ⟨4⟩).map wiring ∧
      (g.interruptGroups ⟨4⟩).length = 3 ∧ g.interruptCell? ⟨4⟩ 1 "priority" = some 2 ∧
      g.interruptCell? ⟨4⟩ 2 "irq" = some 7 ∧ g.interruptCell? ⟨4⟩ 2 "priority" = none := by
  obtain ⟨g, h, ⟨hcells, hbare⟩, ⟨p, hp, hflat, hspace⟩, ⟨hlabel, hpath, hphandle⟩, hvalues⟩ :
      ∃ g, Build.build interruptedConfig interrupted (fun _ => false) = .ok g ∧
      (CellsAre g ⟨1⟩ "#interrupt-cells" 2 ∧ g.liveProperty? ⟨3⟩ "interrupts-extended" = none ∧
        g.interruptParent? ⟨3⟩ = some ⟨1⟩ ∧ g.flatProperty? ⟨3⟩ "interrupts" = some interruptedPieces.flatten) ∧
      (∃ p ∈ g.liveProperty? ⟨4⟩ "interrupts-extended", g.flatValues p = [.label "intc", number 5, number 1,
        .path "/intc", number 9, number 2, number 9, number 7] ∧
        declaredSpace? g ⟨4⟩ "interrupts-extended" = some "interrupt") ∧
      (g.resolveReference? (.label "intc") = some ⟨1⟩ ∧ g.resolveReference? (.path "/intc") = some ⟨1⟩ ∧
        g.resolveReference? (number 9) = some ⟨1⟩) ∧
      (g.interruptCell? ⟨3⟩ 1 "priority" = some 2 ∧ g.interruptCell? ⟨3⟩ 2 "irq" = some 7 ∧
        g.interruptCell? ⟨3⟩ 2 "priority" = none) :=
    exists_built (by decide +kernel)
  obtain ⟨hunextended, hparent, hinterrupts⟩ := hbare
  have hcuts : Cuts 2 interruptedPieces := .cons rfl (.cons rfl (.last nofun (by decide)))
  have hextended : Extended g ⟨1⟩ interruptedPieces (g.flatValues p) := by
    rw [hflat]
    exact .cons hlabel (.cons hpath (.cons hphandle .nil))
  have hnospace : ∀ space, declaredSpace? g ⟨4⟩ "interrupts-extended" = some space → space = "interrupt" := by
    intro space hdeclared
    rw [hspace] at hdeclared
    exact (Option.some.inj hdeclared).symm
  obtain ⟨hdev, hext, hsame⟩ := interrupts_alike hcells (by decide) hcuts ⟨hunextended, hparent, hinterrupts⟩
    ⟨⟨p, (built_ledger h).holds hp, hextended⟩, hnospace⟩
  refine ⟨g, h, hdev.trans hext.symm, ?_, ?_, ?_, ?_⟩
  · have hlength := congrArg List.length hext
    rw [List.length_map] at hlength
    exact hlength
  · rw [← hsame]
    exact hvalues.1
  · rw [← hsame]
    exact hvalues.2.1
  · rw [← hsame]
    exact hvalues.2.2

end Devicetree.Proofs
