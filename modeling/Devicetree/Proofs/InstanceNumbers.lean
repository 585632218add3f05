import Devicetree.Proofs.IntegerLiterals
import Devicetree.Proofs.NodeStatus
import Devicetree.Proofs.PropertyIndices

namespace Devicetree.Proofs

def ListsCompatible (g : Graph) (ident : String) (n : NodeId) : Prop :=
  ∃ p text, g.liveProperty? n "compatible" = some p ∧ .str text ∈ g.flatValues p ∧ Identifier.ofName text = ident

/-- The nodes are those of the tree that list the compatible, once each, in two stretches of the preorder of the tree,
the first one of length `used`. -/
structure Enumerates (g : Graph) (ident : String) (nodes : List NodeId) (used : Nat) : Prop where
  mem_iff : ∀ n, n ∈ nodes ↔ n ∈ g.descendants Graph.root ∧ ListsCompatible g ident n
  nodup : nodes.Nodup
  within : used ≤ nodes.length
  used_ordered : (nodes.take used).Sublist (preorder g Graph.root)
  rest_ordered : (nodes.drop used).Sublist (preorder g Graph.root)

section Stretches
variable {α : Type} {p : α → Bool} {xs ys : List α}

/-- What a test finds in a list of all that pass it and then of all that do not. -/
theorem filter_stretches (hx : ∀ x ∈ xs, p x = true) (hy : ∀ y ∈ ys, p y = false) : (xs ++ ys).filter p = xs := by
  have hnone : ys.filter p = [] := List.filter_eq_nil_iff.mpr fun y h => by simp [hy y h]
  rw [List.filter_append, List.filter_eq_self.mpr hx, hnone, List.append_nil]

theorem find_stretches (hx : ∀ x ∈ xs, p x = true) (hy : ∀ y ∈ ys, p y = false) :
    (xs ++ ys).find? p = xs.head? := by
  rw [← List.head?_filter, filter_stretches hx hy]

theorem any_stretches (hx : ∀ x ∈ xs, p x = true) (hy : ∀ y ∈ ys, p y = false) :
    (xs ++ ys).any p = decide (0 < xs.length) := by
  rw [Bool.eq_iff_iff, List.any_eq_true, ← List.find?_isSome, find_stretches hx hy]
  cases xs with
  | nil => simp
  | cons x xs => simp

theorem passes_stretches (hx : ∀ x ∈ xs, p x = true) (hy : ∀ y ∈ ys, p y = false) {i : Nat} {z : α}
    (hz : (xs ++ ys)[i]? = some z) : p z = decide (i < xs.length) := by
  rw [List.getElem?_append] at hz
  split at hz
  · rename_i hi
    rw [hx z (List.mem_of_getElem? hz), decide_eq_true hi]
  · rename_i hi
    rw [hy z (List.mem_of_getElem? hz), decide_eq_false hi]

end Stretches

section Instances
variable {g : Graph} {ident : String}

theorem mem_compatibles_iff {n : NodeId} {text : String} : text ∈ g.compatibles n ↔
    ∃ p, g.liveProperty? n "compatible" = some p ∧ .str text ∈ g.flatValues p := by
  have hstr : ∀ v : Value, v.str? = some text ↔ v = .str text := by
    intro v
    cases v <;> simp [Value.str?]
  unfold Graph.compatibles Graph.flatProperty? Graph.propertyValues? Graph.flatValues
  cases g.liveProperty? n "compatible" with
  | none => simp
  | some p => simp [hstr]

theorem listsCompatible_iff {n : NodeId} : ListsCompatible g ident n ↔
    (g.compatibles n).any (fun c => decide (Identifier.ofName c = ident)) = true := by
  simp only [List.any_eq_true, decide_eq_true_eq, mem_compatibles_iff]
  constructor
  · intro h
    obtain ⟨p, text, hp, htext, hident⟩ := h
    exact ⟨text, ⟨p, hp, htext⟩, hident⟩
  · intro h
    obtain ⟨text, ⟨p, hp, htext⟩, hident⟩ := h
    exact ⟨p, text, hp, htext, hident⟩

def listing (g : Graph) (ident : String) : List NodeId :=
  (g.descendants Graph.root).filter fun n => (g.compatibles n).any fun c => decide (Identifier.ofName c = ident)

def usedInstances (g : Graph) (ident : String) : List NodeId := (listing g ident).filter g.isStatusOkay

def idleInstances (g : Graph) (ident : String) : List NodeId :=
  (listing g ident).filter fun n => !g.isStatusOkay n

theorem instances_eq (g : Graph) (ident : String) :
    g.instances ident = usedInstances g ident ++ idleInstances g ident := rfl

theorem used_in_use : ∀ n ∈ usedInstances g ident, g.isStatusOkay n = true := by
  intro n hn
  exact (List.mem_filter.mp hn).2

theorem idle_not_in_use : ∀ n ∈ idleInstances g ident, g.isStatusOkay n = false := by
  intro n hn
  simpa using (List.mem_filter.mp hn).2

/-- The list of instances is a rearrangement of the nodes that list the compatible. -/
theorem instances_perm : (g.instances ident).Perm (listing g ident) :=
  List.filter_append_perm g.isStatusOkay (listing g ident)

theorem Sound.enumerates (hs : Sound g) (ident : String) :
    Enumerates g ident (g.instances ident) (usedInstances g ident).length := by
  have hlisting : (listing g ident).Sublist (preorder g Graph.root) := by
    rw [← hs.descendants_root]
    exact List.filter_sublist
  refine ⟨?_, ?_, ?_, ?_, ?_⟩
  · intro n
    rw [instances_perm.mem_iff, listsCompatible_iff]
    exact List.mem_filter
  · apply instances_perm.nodup_iff.mpr
    exact (hs.preorder_nodup Graph.root).sublist hlisting
  · simp [instances_eq]
  · rw [instances_eq, List.take_left]
    exact List.filter_sublist.trans hlisting
  · rw [instances_eq, List.drop_left]
    exact List.filter_sublist.trans hlisting

end Instances

section Calls
variable {g : Graph} {env : Accessor.Environment} {depth : Nat} {index compatible : CallExpr} {ident : String}
  {i : Nat}

theorem Counts.instance (hi : Counts g env depth index i) (hc : identText? compatible = some ident) (range : Range) :
    Accessor.resolve? g env depth (.call "DT_INST" [index, compatible] range) =
      (g.instances ident)[i]?.map .node := by
  have hform : Form.ofCall? "DT_INST" 2 = some .inst := by decide
  rw [resolve_call hform, Accessor.form?, given_ident rfl hc, hi.read rfl, Option.map_eq_bind]
  rfl

/-- The accessor for an instance says whether it is in use by where it stands. -/
theorem Counts.instance_in_use (hi : Counts g env depth index i) (hc : identText? compatible = some ident)
    (hlt : i < (g.instances ident).length) (range range' : Range) :
    Accessor.resolve? g env depth (.call "DT_NODE_HAS_STATUS_OKAY" [.call "DT_INST" [index, compatible] range] range') =
      some (.ofBool (decide (i < (usedInstances g ident).length))) := by
  obtain ⟨n, hn⟩ : ∃ n, (g.instances ident)[i]? = some n := ⟨_, List.getElem?_eq_getElem hlt⟩
  have hmeans : MeansNode g env depth (.call "DT_INST" [index, compatible] range) n := by
    rw [MeansNode, hi.instance hc, hn]
    rfl
  rw [hmeans.in_use, passes_stretches used_in_use idle_not_in_use hn]

theorem count_instances (hc : identText? compatible = some ident) (range : Range) :
    Accessor.resolve? g env depth (.call "DT_NUM_INST_STATUS_OKAY" [compatible] range) =
      some (.ofCount (usedInstances g ident).length) := by
  have hform : Form.ofCall? "DT_NUM_INST_STATUS_OKAY" 1 = some .countOkay := by decide
  rw [resolve_call hform, Accessor.form?, given_ident rfl hc, Option.map_some, instances_eq,
    filter_stretches used_in_use idle_not_in_use]

theorem has_instance (hc : identText? compatible = some ident) (range : Range) :
    Accessor.resolve? g env depth (.call "DT_HAS_COMPAT_STATUS_OKAY" [compatible] range) =
      some (.ofBool (decide (0 < (usedInstances g ident).length))) := by
  have hform : Form.ofCall? "DT_HAS_COMPAT_STATUS_OKAY" 1 = some .hasOkay := by decide
  rw [resolve_call hform, Accessor.form?, given_ident rfl hc, Option.map_some, instances_eq,
    any_stretches used_in_use idle_not_in_use]

theorem any_instance (hc : identText? compatible = some ident) (range : Range) :
    Accessor.resolve? g env depth (.call "DT_COMPAT_GET_ANY_STATUS_OKAY" [compatible] range) =
      (usedInstances g ident).head?.map .node := by
  have hform : Form.ofCall? "DT_COMPAT_GET_ANY_STATUS_OKAY" 1 = some .anyOkay := by decide
  rw [resolve_call hform, Accessor.form?, given_ident rfl hc, ← find_stretches used_in_use idle_not_in_use,
    Option.map_eq_bind]
  rfl

/-- Every number that fits a signed word is written as a literal. -/
theorem counts_literal (g : Graph) (env : Accessor.Environment) (depth : Nat) {i : Nat} (hi : i < 2 ^ 63)
    (range : Range) : Counts g env depth (.leaf .number (toString i) range) i := by
  have hsize : i < UInt64.size := by
    rw [UInt64.size]
    omega
  have hword : (UInt64.ofNat i).toNat = i := UInt64.toNat_ofNat_of_lt hsize
  have hliteral : Numeral.literal? (toString i) = some (UInt64.ofNat i).toInt64 := literal_toDigits hsize
  refine ⟨.ofInt (UInt64.ofNat i).toInt64, _, ?_, rfl, ?_⟩
  · rw [Accessor.resolve?, Accessor.resolveWithin, Accessor.resolveWith, hliteral]
    rfl
  · rw [toInt_toInt64, hword, if_pos hi]

end Calls

/-- Instances of a compatible in a built graph. They are all nodes of the tree that list it, once each, the nodes in use
first, and both kinds in the order of the tree. An instance is found by its number, no further one is, and it is in
use exactly if its number is below the count of those in use. There is one in use exactly if the count is not zero,
and then the first one is the one that is picked when any will do. -/
theorem instance_numbers {config : BuildConfig} {fragments : List Fragment} {isCancelled : Nat → Bool} {g : Graph}
    (h : Build.build config fragments isCancelled = .ok g) (env : Accessor.Environment) (depth : Nat)
    {compatible : CallExpr} {ident : String} (hc : identText? compatible = some ident) (range range' : Range) :
    ∃ nodes used, Enumerates g ident nodes used ∧
      (∀ index i, Counts g env depth index i →
        Accessor.resolve? g env depth (.call "DT_INST" [index, compatible] range) = nodes[i]?.map .node) ∧
      Accessor.resolve? g env depth (.call "DT_NUM_INST_STATUS_OKAY" [compatible] range) = some (.ofCount used) ∧
      (used < 2 ^ 63 → (Int64.ofNat used).toInt = used) ∧
      (∀ index i, Counts g env depth index i → i < nodes.length →
        Accessor.resolve? g env depth
            (.call "DT_NODE_HAS_STATUS_OKAY" [.call "DT_INST" [index, compatible] range] range') =
          some (.ofBool (decide (i < used)))) ∧
      Accessor.resolve? g env depth (.call "DT_HAS_COMPAT_STATUS_OKAY" [compatible] range) =
        some (.ofBool (decide (0 < used))) ∧
      (0 < used → ∀ index, Counts g env depth index 0 →
        Accessor.resolve? g env depth (.call "DT_COMPAT_GET_ANY_STATUS_OKAY" [compatible] range) =
          Accessor.resolve? g env depth (.call "DT_INST" [index, compatible] range)) := by
  refine ⟨g.instances ident, (usedInstances g ident).length, (built_sound h).enumerates ident, ?_,
    count_instances hc range, Int64.toInt_ofNat_of_lt, ?_, has_instance hc range, ?_⟩
  · intro index i hi
    exact hi.instance hc range
  · intro index i hi hlt
    exact hi.instance_in_use hc hlt range range'
  · intro hpos index hi
    rw [any_instance hc, hi.instance hc, instances_eq, List.getElem?_append_left hpos, List.head?_eq_getElem?]

/-- Five devices. The first one lists the compatible in two spellings and is put to use by an overlay, the second one
has a status without a string, the third one sits deeper and lists another compatible before, the fourth one loses its
status and the last one is deleted. -/
def enlisted : List Fragment :=
  let uart (name : String) (compatibles : List String) (status : List Value) : Item :=
    .child { name := .parse name }
      [.property { name := "compatible", values := compatibles.map .str },
        .property { name := "status", values := status }]
  [⟨⟨0⟩, .root []
      [uart "uart@1" ["vnd,uart", "vnd-uart"] [.str "disabled"],
        .child { name := .parse "bus" }
          [uart "uart@2" ["vnd,uart"] [.cells [number 1]], uart "uart@3" ["vnd,serial", "VND,uart"] [.str "okay"]],
        uart "uart@4" ["vnd,uart"] [.str "disabled"], uart "uart@5" ["vnd,uart"] [.str "okay"]] {}⟩,
    ⟨⟨1⟩, .root []
      [.child { name := .parse "uart@1" } [.property { name := "status", values := [.str "ok"] }],
        .child { name := .parse "uart@4" } [.deleteProperty { name := "status" }],
        .deleteNode { target := .name (.parse "uart@5") }] {}⟩]

def uartInstance (i : Nat) : CallExpr :=
  .call "DT_INST" [.leaf .number (toString i) ⟨0, 0⟩, wordLeaf "vnd_uart"] ⟨0, 0⟩

def inEnlisted (g : Graph) (accessor : String) (e : CallExpr) : Option Resolved :=
  Accessor.resolve? g (.ofDefines {}) 32 (.call accessor [e] ⟨0, 0⟩)

/-- Four instances are left, and the last one of them is not in use. -/
theorem instance_numbers_enlisted :
    ∃ g nodes used, Build.build {} enlisted (fun _ => false) = .ok g ∧ Enumerates g "vnd_uart" nodes used ∧
      nodes.length = 4 ∧ used = 3 ∧
      Accessor.resolve? g (.ofDefines {}) 32 (uartInstance 4) = none ∧
      inEnlisted g "DT_NODE_HAS_STATUS_OKAY" (uartInstance 2) = some (.ofBool true) ∧
      inEnlisted g "DT_NODE_HAS_STATUS_OKAY" (uartInstance 3) = some (.ofBool false) ∧
      inEnlisted g "DT_HAS_COMPAT_STATUS_OKAY" (wordLeaf "vnd_uart") = some (.ofBool true) ∧
      inEnlisted g "DT_COMPAT_GET_ANY_STATUS_OKAY" (wordLeaf "vnd_uart") =
        Accessor.resolve? g (.ofDefines {}) 32 (uartInstance 0) := by
  obtain ⟨g, h, hlisting, htwo, hthree⟩ : ∃ g, Build.build {} enlisted (fun _ => false) = .ok g ∧
      listing g "vnd_uart" = [⟨1⟩, ⟨3⟩, ⟨4⟩, ⟨5⟩] ∧
      (inEnlisted g "DT_NODE_HAS_STATUS_OKAY" (uartInstance 2)).bind Resolved.int? = some 1 ∧
      (inEnlisted g "DT_NODE_HAS_STATUS_OKAY" (uartInstance 3)).bind Resolved.int? = some 0 :=
    exists_built (by decide +kernel)
  have hident : identText? (wordLeaf "vnd_uart") = some "vnd_uart" := by decide
  obtain ⟨nodes, used, henumerates, hinst, -, -, hstatus, hany, hfirst⟩ :=
    instance_numbers h (.ofDefines {}) 32 hident ⟨0, 0⟩ ⟨0, 0⟩
  have hcounts : ∀ i < 5, Counts g (.ofDefines {}) 32 (.leaf .number (toString i) ⟨0, 0⟩) i :=
    fun i hi => counts_literal g (.ofDefines {}) 32 (by omega) ⟨0, 0⟩
  have hlength : nodes.length = 4 := by
    have hsame : nodes.Perm (listing g "vnd_uart") := by
      apply (List.perm_ext_iff_of_nodup henumerates.nodup (by rw [hlisting]; decide)).mpr
      intro n
      rw [henumerates.mem_iff, listsCompatible_iff, listing, List.mem_filter]
    rw [hsame.length_eq, hlisting]
    rfl
  have hlater : inEnlisted g "DT_NODE_HAS_STATUS_OKAY" (uartInstance 2) = some (.ofBool (decide (2 < used))) :=
    hstatus _ 2 (hcounts 2 (by omega)) (by omega)
  have hlast : inEnlisted g "DT_NODE_HAS_STATUS_OKAY" (uartInstance 3) = some (.ofBool (decide (3 < used))) :=
    hstatus _ 3 (hcounts 3 (by omega)) (by omega)
  have hused : used = 3 := by
    have hin : 2 < used := by
      by_contra hout
      rw [decide_eq_false hout] at hlater
      rw [hlater] at htwo
      cases htwo
    have hout : ¬ 3 < used := by
      intro hin
      rw [decide_eq_true hin] at hlast
      rw [hlast] at hthree
      cases hthree
    omega
  subst hused
  refine ⟨g, nodes, 3, h, henumerates, hlength, rfl, ?_, hlater, hlast, hany, ?_⟩
  · refine (hinst _ 4 (hcounts 4 (by omega))).trans ?_
    rw [List.getElem?_eq_none (by omega)]
    rfl
  · exact hfirst (by omega) _ (hcounts 0 (by omega))

end Devicetree.Proofs
