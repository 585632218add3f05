import Mathlib.Algebra.Ring.Nat
import Devicetree.Proofs.AccessorArguments
import Devicetree.Proofs.SpecifierGroups

namespace Devicetree.Proofs

def Counts (g : Graph) (env : Accessor.Environment) (depth : Nat) (index : CallExpr) (i : Nat) : Prop :=
  ∃ r v, Accessor.resolve? g env depth index = some r ∧ r.int? = some v ∧ v.toInt = i

def Names (g : Graph) (env : Accessor.Environment) (depth : Nat) (node name : CallExpr) (p : PropertyId) : Prop :=
  ∃ r n ident, Accessor.resolve? g env depth node = some r ∧ r.node? = some n ∧ identText? name = some ident ∧
    g.propertyByIdent? n ident = some p

/-- The property lists references with cells: it is declared so, or it is not declared and starts with a reference and
holds some number. -/
def ListsGroups (g : Graph) (p : PropertyId) : Prop :=
  g.kindOf? p = some .phandleArray ∨
    g.kindOf? p = none ∧ (∃ v ∈ (g.flatValues p).head?, v.isReference = true) ∧
      ∃ v ∈ g.flatValues p, v.isExpr = true

/-- The accessors of single elements, applied to a node, a property and an index, find what is below a length, and the
last element is the one at the length less one. -/
structure PicksBelow (g : Graph) (env : Accessor.Environment) (depth : Nat) (node name : CallExpr) (range : Range)
    (len : Nat) : Prop where
  element_iff {index : CallExpr} {i : Nat} (h : Counts g env depth index i) :
    (Accessor.resolve? g env depth (.call "DT_PROP_BY_IDX" [node, name, index] range)).isSome = true ↔ i < len
  some_last : (Accessor.resolve? g env depth (.call "DT_PROP_LAST" [node, name] range)).isSome = true ↔ 0 < len
  last {index : CallExpr} {i : Nat} (h : Counts g env depth index i) (hi : i + 1 = len) :
    Accessor.resolve? g env depth (.call "DT_PROP_LAST" [node, name] range) =
      Accessor.resolve? g env depth (.call "DT_PROP_BY_IDX" [node, name, index] range)

section Arguments
variable {g : Graph} {env : Accessor.Environment} {depth : Nat} {node name index : CallExpr} {p : PropertyId}
  {i : Nat}

theorem Names.property (h : Names g env depth node name p) (xs : List CallExpr) :
    (given g env depth (node :: name :: xs)).property? g = some p := by
  obtain ⟨r, n, ident, hr, hn, hident, hp⟩ := h
  have hnode : (given g env depth (node :: name :: xs)).node? 0 = some n := by
    simp [Accessor.Args.node?, given, hr, hn]
  have hname : (given g env depth (node :: name :: xs)).ident? 1 = some ident := given_ident rfl hident
  rw [Accessor.Args.property?, hnode, hname]
  exact hp

/-- Wherever an index stands among the arguments, it is read as its number. -/
theorem Counts.read (h : Counts g env depth index i) {xs : List CallExpr} {place : Nat}
    (hplace : xs[place]? = some index) : (given g env depth xs).index? place = some i := by
  obtain ⟨r, v, hr, hv, hi⟩ := h
  have hcount : v.toNatClampNeg = i := by rw [← Int64.toNat_toInt, hi, Int.toNat_natCast]
  simp [Accessor.Args.index?, given, hplace, hr, hv, hi, hcount]

theorem Counts.third (h : Counts g env depth index i) :
    (given g env depth [node, name, index]).index? 2 = some i :=
  h.read rfl

theorem Names.has_element (h : Names g env depth node name p) (hi : Counts g env depth index i) (range : Range) :
    Accessor.resolve? g env depth (.call "DT_PROP_HAS_IDX" [node, name, index] range) =
      some (.ofBool (decide (i < g.propertyLength p))) := by
  have hform : Form.ofCall? "DT_PROP_HAS_IDX" 3 = some .hasElement := by decide
  rw [resolve_call hform, Accessor.form?, hi.third, h.property]
  rfl

theorem Names.element (h : Names g env depth node name p) (hi : Counts g env depth index i) (range : Range) :
    Accessor.resolve? g env depth (.call "DT_PROP_BY_IDX" [node, name, index] range) =
      (g.elements p)[i]?.map fun v => .ofProperty v p := by
  have hform : Form.ofCall? "DT_PROP_BY_IDX" 3 = some .element := by decide
  rw [resolve_call hform, Accessor.form?, hi.third, h.property, Option.map_eq_bind]
  rfl

theorem Names.last (h : Names g env depth node name p) (range : Range) :
    Accessor.resolve? g env depth (.call "DT_PROP_LAST" [node, name] range) =
      (g.elements p).getLast?.map fun v => .ofProperty v p := by
  have hform : Form.ofCall? "DT_PROP_LAST" 2 = some .lastElement := by decide
  rw [resolve_call hform, Accessor.form?, h.property, Option.map_eq_bind]
  rfl

theorem Names.length (h : Names g env depth node name p) (range : Range) :
    Accessor.resolve? g env depth (.call "DT_PROP_LEN" [node, name] range) =
      some (.ofProperty (.int (Int64.ofNat (g.propertyLength p))) p) := by
  have hform : Form.ofCall? "DT_PROP_LEN" 2 = some .length := by decide
  rw [resolve_call hform, Accessor.form?, h.property]
  rfl

/-- Single elements are picked from the flat list. -/
theorem Names.picks (h : Names g env depth node name p) (range : Range) :
    PicksBelow g env depth node name range (g.elements p).length := by
  constructor
  · intro index i hi
    rw [h.element hi, Option.isSome_map, isSome_getElem?]
  · rw [h.last, Option.isSome_map, List.getLast?_eq_getElem?, isSome_getElem?]
    omega
  · intro index i hi hlast
    rw [h.last, h.element hi, List.getLast?_eq_getElem?, ← hlast, Nat.add_sub_cancel]

end Arguments

section Lengths
variable {g : Graph} {p : PropertyId}

theorem listsGroups_iff : ListsGroups g p ↔ g.isPhandleArray p = true := by
  unfold ListsGroups Graph.isPhandleArray
  cases hkind : g.kindOf? p with
  | some kind => simp
  | none =>
    cases hflat : g.flatValues p with
    | nil => simp
    | cons v vs => simp

theorem length_of_groups (h : ListsGroups g p) : g.propertyLength p = (g.groups p).length := by
  rw [Graph.propertyLength, if_pos (listsGroups_iff.mp h)]

theorem length_of_elements (h : ¬ ListsGroups g p) : g.propertyLength p = (g.elements p).length := by
  rw [Graph.propertyLength, if_neg fun hgroups => h (listsGroups_iff.mpr hgroups)]

end Lengths

/-- Which indices a property has. Its length is one number, and an index is there exactly if it is below it. Unless the
property lists references with cells, the indices that are there are those of its elements, and its last element is
the one at the length less one. The length of such a list is the number of its groups, and single elements are picked
from the flat list of its references and cells all the same. -/
theorem property_indices {g : Graph} {env : Accessor.Environment} {depth : Nat} {node name : CallExpr}
    {p : PropertyId} (h : Names g env depth node name p) (range : Range) : ∃ len : Nat,
    Accessor.resolve? g env depth (.call "DT_PROP_LEN" [node, name] range) =
        some (.ofProperty (.int (Int64.ofNat len)) p) ∧
      (len < 2 ^ 63 → (Int64.ofNat len).toInt = len) ∧
      (∀ index i, Counts g env depth index i →
        (Accessor.resolve? g env depth (.call "DT_PROP_HAS_IDX" [node, name, index] range) =
          some (.ofBool true) ↔ i < len)) ∧
      (¬ ListsGroups g p → PicksBelow g env depth node name range len) ∧
      (ListsGroups g p → len = (g.groups p).length ∧
        PicksBelow g env depth node name range (g.elements p).length) := by
  refine ⟨g.propertyLength p, h.length range, ?_, ?_, ?_, ?_⟩
  · intro hsmall
    exact Int64.toInt_ofNat_of_lt hsmall
  · intro index i hi
    rw [h.has_element hi]
    simp [Resolved.ofBool, Resolved.ofValue]
  · intro hplain
    rw [length_of_elements hplain]
    exact h.picks range
  · intro hgroups
    exact ⟨length_of_groups hgroups, h.picks range⟩

def listed : List Fragment :=
  [⟨⟨0⟩, .root []
    [.child { name := .parse "gpio", labels := [{ name := "gpio0" }] }
        [.property { name := "#gpio-cells", values := [.cells [number 2]] }],
      .child { name := .parse "dev" }
        [.property { name := "mac", values := [.bytes [1, 2, 3]] },
          .property { name := "foo-gpios", values := [.cells [.label "gpio0", number 7, number 1]] }]] {}⟩]

def listedNode : CallExpr := .call "DT_PATH" [wordLeaf "dev"] ⟨0, 0⟩

def inListed (g : Graph) (accessor property : String) (indices : List String) : Option Resolved :=
  Accessor.resolve? g (.ofDefines {}) 32
    (.call accessor (listedNode :: wordLeaf property :: indices.map wordLeaf) ⟨0, 0⟩)

theorem built_listed :
    ∃ g, Build.build {} listed (fun _ => false) = .ok g ∧
      Names g (.ofDefines {}) 32 listedNode (wordLeaf "mac") ⟨1⟩ ∧
      Names g (.ofDefines {}) 32 listedNode (wordLeaf "foo_gpios") ⟨2⟩ ∧
      (∀ i < 4, Counts g (.ofDefines {}) 32 (wordLeaf (toString i)) i) ∧
      ¬ ListsGroups g ⟨1⟩ ∧ (g.elements ⟨1⟩).map AccessorValue.int? = [some 1, some 2, some 3] ∧
      ListsGroups g ⟨2⟩ ∧ (g.groups ⟨2⟩).length = 1 ∧
      (g.elements ⟨2⟩).map AccessorValue.int? = [none, some 7, some 1] := by
  obtain ⟨g, h, ⟨r, hr, hn⟩, ⟨hmac, hfoo⟩, hcount, hplain, hbytes, hgroups, hcells⟩ :
      ∃ g, Build.build {} listed (fun _ => false) = .ok g ∧
        (∃ r ∈ Accessor.resolve? g (.ofDefines {}) 32 listedNode, r.node? = some ⟨2⟩) ∧
        (g.propertyByIdent? ⟨2⟩ "mac" = some ⟨1⟩ ∧ g.propertyByIdent? ⟨2⟩ "foo_gpios" = some ⟨2⟩) ∧
        (∀ i : Nat, i < 4 → ∃ r ∈ Accessor.resolve? g (.ofDefines {}) 32 (wordLeaf (toString i)),
          ∃ v ∈ r.int?, v.toInt = i) ∧
        g.isPhandleArray ⟨1⟩ = false ∧ (g.elements ⟨1⟩).map AccessorValue.int? = [some 1, some 2, some 3] ∧
        g.isPhandleArray ⟨2⟩ = true ∧ (g.groups ⟨2⟩).length = 1 ∧
        (g.elements ⟨2⟩).map AccessorValue.int? = [none, some 7, some 1] := exists_built (by decide +kernel)
  have hname : identText? (wordLeaf "mac") = some "mac" ∧ identText? (wordLeaf "foo_gpios") = some "foo_gpios" := by
    decide
  refine ⟨g, h, ⟨r, ⟨2⟩, "mac", hr, hn, hname.1, hmac⟩, ⟨r, ⟨2⟩, "foo_gpios", hr, hn, hname.2, hfoo⟩, ?_,
    by simp [listsGroups_iff, hplain], hbytes, listsGroups_iff.mpr hgroups, hcells⟩
  intro i hi
  obtain ⟨r, hr, v, hv, heq⟩ := hcount i hi
  exact ⟨r, v, hr, hv, heq⟩

/-- Three bytes are three elements, the last one at the index two. A reference with two cells is one group, and the
last of its cells is at the index two all the same. -/
theorem property_indices_listed :
    ∃ g, Build.build {} listed (fun _ => false) = .ok g ∧
      Names g (.ofDefines {}) 32 listedNode (wordLeaf "mac") ⟨1⟩ ∧
      Names g (.ofDefines {}) 32 listedNode (wordLeaf "foo_gpios") ⟨2⟩ ∧
      inListed g "DT_PROP_HAS_IDX" "mac" ["2"] = some (.ofBool true) ∧
      inListed g "DT_PROP_HAS_IDX" "mac" ["3"] ≠ some (.ofBool true) ∧
      inListed g "DT_PROP_LAST" "mac" [] = inListed g "DT_PROP_BY_IDX" "mac" ["2"] ∧
      inListed g "DT_PROP_HAS_IDX" "foo_gpios" ["0"] = some (.ofBool true) ∧
      inListed g "DT_PROP_HAS_IDX" "foo_gpios" ["1"] ≠ some (.ofBool true) ∧
      inListed g "DT_PROP_LAST" "foo_gpios" [] = inListed g "DT_PROP_BY_IDX" "foo_gpios" ["2"] := by
  obtain ⟨g, h, hmac, hfoo, hcounts, hplain, hints, hlists, hone, hcells⟩ := built_listed
  have hthree : (g.elements ⟨1⟩).length = 3 := by simpa using congrArg List.length hints
  have hflatThree : (g.elements ⟨2⟩).length = 3 := by simpa using congrArg List.length hcells
  obtain ⟨len, -, -, hbytes, hpicks, -⟩ := property_indices hmac ⟨0, 0⟩
  obtain ⟨groups, -, -, hpins, -, hflat⟩ := property_indices hfoo ⟨0, 0⟩
  obtain ⟨hgroups, hpicked⟩ := hflat hlists
  rw [hone] at hgroups
  rw [hflatThree] at hpicked
  have hfound := (hmac.picks ⟨0, 0⟩).element_iff (hcounts 2 (by decide))
  have hbeyond := (hmac.picks ⟨0, 0⟩).element_iff (hcounts 3 (by decide))
  rw [hthree] at hfound hbeyond
  have hlen : len = 3 := by
    have htwo := ((hpicks hplain).element_iff (hcounts 2 (by decide))).symm.trans hfound
    have hnone := ((hpicks hplain).element_iff (hcounts 3 (by decide))).symm.trans hbeyond
    omega
  refine ⟨g, h, hmac, hfoo, ?_, ?_, ?_, ?_, ?_, ?_⟩
  · exact (hbytes _ 2 (hcounts 2 (by decide))).mpr (by omega)
  · exact mt (hbytes _ 3 (hcounts 3 (by decide))).mp (by omega)
  · exact (hpicks hplain).last (hcounts 2 (by decide)) hlen.symm
  · exact (hpins _ 0 (hcounts 0 (by decide))).mpr (by omega)
  · exact mt (hpins _ 1 (hcounts 1 (by decide))).mp (by omega)
  · exact hpicked.last (hcounts 2 (by decide)) rfl

/-- The first cell of a reference is the element at the index one, while the list has one group only, and the last
element is not the one at the index zero. -/
theorem property_indices_flat :
    ∃ g, Build.build {} listed (fun _ => false) = .ok g ∧
      Names g (.ofDefines {}) 32 listedNode (wordLeaf "foo_gpios") ⟨2⟩ ∧
      Counts g (.ofDefines {}) 32 (wordLeaf "0") 0 ∧ Counts g (.ofDefines {}) 32 (wordLeaf "1") 1 ∧
      inListed g "DT_PROP_LEN" "foo_gpios" [] = some (.ofProperty (.int 1) ⟨2⟩) ∧
      inListed g "DT_PROP_HAS_IDX" "foo_gpios" ["1"] = some (.ofBool false) ∧
      (inListed g "DT_PROP_BY_IDX" "foo_gpios" ["1"]).bind Resolved.int? = some 7 ∧
      (inListed g "DT_PROP_LAST" "foo_gpios" []).bind Resolved.int? = some 1 ∧
      (inListed g "DT_PROP_BY_IDX" "foo_gpios" ["0"]).bind Resolved.int? = none := by
  obtain ⟨g, h, -, hfoo, hcounts, -, -, hlists, hone, hcells⟩ := built_listed
  obtain ⟨node, pins, helements, hnode, hpins⟩ := List.map_eq_cons_iff.mp hcells
  obtain ⟨pin, flags, rfl, hseven, hflags⟩ := List.map_eq_cons_iff.mp hpins
  obtain ⟨flag, rfl, hflag⟩ := List.map_eq_singleton_iff.mp hflags
  have hlen : g.propertyLength ⟨2⟩ = 1 := (length_of_groups hlists).trans hone
  have hzero := hcounts 0 (by decide)
  have hfirst := hcounts 1 (by decide)
  have hpin := hfoo.element hfirst ⟨0, 0⟩
  have hlast := hfoo.last ⟨0, 0⟩
  have hgpio := hfoo.element hzero ⟨0, 0⟩
  rw [helements] at hpin hlast hgpio
  refine ⟨g, h, hfoo, hzero, hfirst, ?_, ?_, ?_, ?_, ?_⟩
  · exact (hfoo.length ⟨0, 0⟩).trans (by rw [hlen]; rfl)
  · exact (hfoo.has_element hfirst ⟨0, 0⟩).trans (by rw [hlen]; rfl)
  · exact (congrArg (·.bind Resolved.int?) hpin).trans hseven
  · exact (congrArg (·.bind Resolved.int?) hlast).trans hflag
  · exact (congrArg (·.bind Resolved.int?) hgpio).trans hnode

end Devicetree.Proofs
