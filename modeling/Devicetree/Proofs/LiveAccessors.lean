import Devicetree.Accessor.Resolve
import Devicetree.Proofs.LiveLookups

namespace Devicetree.Proofs

mutual

def nodesIn : AccessorValue → List NodeId
  | .node id => [id]
  | .array items => nodesInAll items
  | .int _ | .bool _ | .str _ | .token _ | .bytes _ | .expr _ => []

def nodesInAll : List AccessorValue → List NodeId
  | [] => []
  | v :: vs => nodesIn v ++ nodesInAll vs

end

theorem nodes_in_all_eq (vs : List AccessorValue) : nodesInAll vs = vs.flatMap nodesIn := by
  induction vs with
  | nil => rfl
  | cons v vs ih => rw [nodesInAll, ih, List.flatMap_cons]

def LiveValue (g : Graph) (v : AccessorValue) : Prop := ∀ n ∈ nodesIn v, LiveNode g n

def nodesOf : Resolved → List NodeId
  | .node id => [id]
  | .value v _ => nodesIn v

/-- The nodes of a result are live, and so is the property that it was read from. -/
structure LiveResult (g : Graph) (r : Resolved) : Prop where
  nodes : ∀ n ∈ nodesOf r, LiveNode g n
  source : ∀ p, r.source? = some p → LiveProperty g p

section Values
variable {g : Graph}

/-- A value without nodes. -/
theorem live_of_no_nodes {v : AccessorValue} (h : nodesIn v = []) : LiveValue g v := by
  intro n hn
  rw [h] at hn
  cases hn

theorem live_array {vs : List AccessorValue} (h : ∀ v ∈ vs, LiveValue g v) : LiveValue g (.array vs) := by
  intro n hn
  rw [nodesIn, nodes_in_all_eq] at hn
  obtain ⟨v, hv, hnv⟩ := List.mem_flatMap.mp hn
  exact h v hv n hnv

theorem live_node_value {n : NodeId} (hn : LiveNode g n) : LiveValue g (.node n) := by
  intro m hm
  obtain rfl := List.mem_singleton.mp hm
  exact hn

theorem live_of_node {n : NodeId} (hn : LiveNode g n) : LiveResult g (.node n) :=
  ⟨live_node_value hn, nofun⟩

/-- The result of an accessor that yields no node and names no property. -/
theorem live_plain {v : AccessorValue} (h : nodesIn v = []) : LiveResult g (.ofValue v) :=
  ⟨live_of_no_nodes h, nofun⟩

theorem live_of_property {v : AccessorValue} {p : PropertyId} (hv : LiveValue g v) (hp : LiveProperty g p) :
    LiveResult g (.ofProperty v p) :=
  ⟨hv, fun _ he => Option.some.inj he ▸ hp⟩

mutual

theorem Coherent.value_live (hc : Coherent g) : (v : Value) → LiveValue g (g.accessorValue v)
  | .str _ => live_of_no_nodes rfl
  | .expr e => by
    unfold Graph.accessorValue
    split <;> exact live_of_no_nodes rfl
  | .label l => by
    unfold Graph.accessorValue
    split
    · rename_i id hfound
      exact live_node_value (hc.reference_live _ id hfound)
    · exact live_of_no_nodes rfl
  | .path p => by
    unfold Graph.accessorValue
    split
    · rename_i id hfound
      exact live_node_value (hc.reference_live _ id hfound)
    · exact live_of_no_nodes rfl
  | .cells cs => by
    unfold Graph.accessorValue
    exact live_array (hc.values_live cs)
  | .bytes _ => live_of_no_nodes rfl

theorem Coherent.values_live (hc : Coherent g) : (vs : List Value) → ∀ v ∈ g.accessorValues vs, LiveValue g v
  | [] => nofun
  | v :: vs => by
    intro w hw
    rcases List.mem_cons.mp hw with rfl | hrest
    · exact hc.value_live v
    · exact hc.values_live vs w hrest

end

theorem Coherent.element_live (hc : Coherent g) (p : PropertyId) : ∀ v ∈ g.elements p, LiveValue g v := by
  intro v hv
  obtain ⟨w, _, hw⟩ := List.mem_flatMap.mp hv
  unfold Graph.elementsOf at hw
  split at hw
  · obtain ⟨b, _, rfl⟩ := List.mem_map.mp hw
    exact live_of_no_nodes rfl
  · obtain rfl := List.mem_singleton.mp hw
    exact hc.value_live w

theorem Coherent.property_value_live (hc : Coherent g) (p : PropertyId) : LiveValue g (g.propertyValue p) := by
  have helements := hc.element_live p
  unfold Graph.propertyValue
  split
  · exact live_of_no_nodes rfl
  · exact live_of_no_nodes rfl
  · simp only
    split
    · rename_i v _ hv
      exact helements v (hv ▸ List.mem_singleton_self v)
    · exact live_array helements

end Values

section Forms
variable {g : Graph} {a : Accessor.Args} {env : Accessor.Surroundings}

def LiveArgs (g : Graph) (a : Accessor.Args) : Prop := ∀ i, Finds (a.resolve? i) (LiveResult g)

theorem LiveArgs.node (ha : LiveArgs g a) (i : Nat) : Finds (a.node? i) (LiveNode g) := by
  refine (ha i).bind fun r hr => ?_
  cases r with
  | node id => exact .some (hr.nodes id (List.mem_singleton_self id))
  | value v source =>
    cases v with
    | node id => exact .some (hr.nodes id (List.mem_singleton_self id))
    | int | bool | str | token | bytes | array | expr => exact .none _

theorem LiveArgs.fallback (ha : LiveArgs g a) (i : Nat) : Finds (a.fallback? i) (LiveResult g) := by
  refine (ha i).orElse ?_
  split
  · exact .some (live_plain rfl)
  · exact .some (live_plain rfl)
  · exact .none _

theorem LiveArgs.property (ha : LiveArgs g a) (hc : Coherent g) : Finds (a.property? g) (LiveProperty g) :=
  (ha.node 0).bind fun _ hn => .after _ fun ident => hc.property_by_ident_live hn ident

theorem nodes_in_styled (style : TextStyle) (text : String) : nodesIn (Accessor.styled style text) = [] := by
  cases style <;> rfl

theorem Coherent.target_live (hc : Coherent g) (p : PropertyId) (i : Nat) :
    Finds (Accessor.target? g p i) (LiveNode g) :=
  (Finds.get (hc.group_target_live p) i).bind fun _ hgroup => hgroup

theorem Coherent.group_of_args_live (hc : Coherent g) (a : Accessor.Args) (pick : Selector) :
    Finds (Accessor.groupTarget? g a pick) (LiveNode g) :=
  .after _ fun p => .after _ fun i => hc.target_live p i

theorem Coherent.property_of_live (hc : Coherent g) {n : NodeId} (hn : LiveNode g n) (ident : String) :
    Finds (Accessor.property? g n ident) (LiveResult g) := by
  unfold Accessor.property?
  split
  · rename_i p hp
    exact .some (live_of_property (hc.property_value_live p) (hc.property_by_ident_live hn ident p hp))
  · refine .after _ fun type => .after _ fun found => ?_
    obtain ⟨_, spec⟩ := found
    simp only
    split
    · exact .some (live_plain rfl)
    · exact .none _

theorem LiveArgs.named_property (ha : LiveArgs g a) (hc : Coherent g) :
    Finds (Accessor.namedProperty? g a) (LiveResult g) :=
  (ha.node 0).bind fun _ hn => .after _ fun ident => hc.property_of_live hn ident

theorem live_length {p : PropertyId} (hp : LiveProperty g p) : LiveResult g (Accessor.lengthOf g p) :=
  live_of_property (live_of_no_nodes rfl) hp

theorem LiveArgs.text (ha : LiveArgs g a) (hc : Coherent g) (style : TextStyle) (byIndex : Bool) :
    Finds (Accessor.text? g a style byIndex) (LiveResult g) := by
  refine (ha.property hc).bind fun p hp => ?_
  have hfound : ∀ i : Nat, Finds (((g.flatValues p).filterMap Value.str?)[i]?.bind fun text =>
      some (.ofProperty (Accessor.styled style text) p)) (LiveResult g) := fun _ =>
    .after _ fun text => .some (live_of_property (live_of_no_nodes (nodes_in_styled style text)) hp)
  cases byIndex with
  | false => exact hfound 0
  | true => exact .after _ hfound

theorem LiveArgs.enum_index (ha : LiveArgs g a) (hc : Coherent g) (i : Nat) :
    Finds (Accessor.enumIndex? g a i) (LiveResult g) :=
  .after _ fun _ => (ha.property hc).bind fun _ hp => .after _ fun _ => .after _ fun _ =>
    .after _ fun _ => .after _ fun _ => .after _ fun _ => .some (live_of_property (live_of_no_nodes rfl) hp)

theorem Coherent.cell_of_live (hc : Coherent g) {p : PropertyId} (hp : LiveProperty g p) (i : Nat) (name : String) :
    Finds (Accessor.cellOf? g p i name) (LiveResult g) :=
  .after _ fun v => .some (live_of_property (hc.value_live v) hp)

theorem LiveArgs.cell (ha : LiveArgs g a) (hc : Coherent g) (group : Option Nat) (cell : Nat) :
    Finds (Accessor.cell? g a group cell) (LiveResult g) :=
  (ha.property hc).bind fun _ hp => .after _ fun i => .after _ fun name => hc.cell_of_live hp i name

theorem LiveArgs.cell_named (ha : LiveArgs g a) (hc : Coherent g) :
    Finds (Accessor.cellNamed? g a) (LiveResult g) :=
  (ha.property hc).bind fun _ hp => .after _ fun _ => .after _ fun i => .after _ fun name =>
    hc.cell_of_live hp i name

theorem Coherent.property_through_live (hc : Coherent g) (a : Accessor.Args) (group : Option Nat) (name : Nat) :
    Finds (Accessor.propertyThrough? g a group name) (LiveResult g) :=
  .after _ fun p => .after _ fun i => (hc.target_live p i).bind fun _ hn => .after _ fun ident =>
    (hc.property_by_ident_live hn ident).bind fun q hq => .some (live_of_property (hc.property_value_live q) hq)

theorem Coherent.instance_live (hc : Coherent g) (compatible : String) :
    ∀ n ∈ g.instances compatible, LiveNode g n := by
  intro n hn
  apply hc.descendant_live
  rcases List.mem_append.mp hn with hm | hm
  · exact (List.mem_filter.mp (List.mem_filter.mp hm).1).1
  · exact (List.mem_filter.mp (List.mem_filter.mp hm).1).1

/-- Each form of the vocabulary, applied to arguments whose meanings are live, yields what is live. -/
theorem LiveArgs.form (ha : LiveArgs g a) (hc : Coherent g) (form : Form) :
    Finds (Accessor.form? g env a form) (LiveResult g) := by
  cases form with
  | root => exact .some (live_of_node hc.root_live)
  | path =>
    exact .after _ fun idents =>
      (Finds.walk (fun _ ident hn => hc.child_by_ident_live hn ident) hc.root_live idents).bind
        fun _ hn => .some (live_of_node hn)
  | aliasNode => exact (Finds.after _ fun name => hc.well_known_live _ name).map fun _ hn => live_of_node hn
  | nodeLabel => exact (Finds.after _ hc.label_live).map fun _ hn => live_of_node hn
  | child =>
    exact (ha.node 0).bind fun _ hn => .after _ fun ident =>
      (hc.child_by_ident_live hn ident).bind fun _ hchild => .some (live_of_node hchild)
  | parent => exact ((ha.node 0).bind fun _ hn => hc.parent_live hn).map fun _ hp => live_of_node hp
  | grandparent =>
    exact (((ha.node 0).bind fun _ hn => hc.parent_live hn).bind fun _ hp => hc.parent_live hp).map
      fun _ hp => live_of_node hp
  | inst =>
    exact .after _ fun c => .after _ fun i =>
      (Finds.get (hc.instance_live c) i).bind fun _ hn => .some (live_of_node hn)
  | driverInst =>
    exact .after _ fun c => .after _ fun i =>
      (Finds.get (hc.instance_live _) i).bind fun _ hn => .some (live_of_node hn)
  | anyOkay => exact .after _ fun c => (Finds.find (hc.instance_live c)).bind fun _ hn => .some (live_of_node hn)
  | chosen => exact (Finds.after _ fun name => hc.well_known_live _ name).map fun _ hn => live_of_node hn
  | bus =>
    exact (ha.node 0).bind fun _ hn => (hc.parent_live hn).bind fun _ hp =>
      .after _ fun _ => .after _ fun _ => .some (live_of_node hp)
  | phandle pick => exact (hc.group_of_args_live a pick).map fun _ hn => live_of_node hn
  | sameNode => exact .after _ fun _ => .after _ fun _ => .some (live_plain rfl)
  | nodeExists => exact .some (live_plain rfl)
  | hasChosen => exact .after_map _ fun _ => live_plain rfl
  | onBus => exact .after _ fun _ => .after _ fun _ => .after _ fun _ => .some (live_plain rfl)
  | hasProperty => exact .after _ fun _ => .after _ fun _ => .some (live_plain rfl)
  | hasCompatible => exact .after _ fun _ => .after _ fun _ => .some (live_plain rfl)
  | hasStatus => exact .after _ fun _ => .after _ fun _ => .some (live_plain rfl)
  | isOkay => exact .after_map _ fun _ => live_plain rfl
  | hasOkay => exact .after_map _ fun _ => live_plain rfl
  | countOkay => exact .after_map _ fun _ => live_plain rfl
  | childCount => exact .after_map _ fun _ => live_plain rfl
  | okayChildCount => exact .after_map _ fun _ => live_plain rfl
  | fullName style => exact .after_map _ fun _ => live_plain (nodes_in_styled style _)
  | nodePath => exact .after_map _ fun _ => live_plain rfl
  | property => exact ha.named_property hc
  | propertyOr => exact (ha.named_property hc).orElse (ha.fallback 2)
  | element =>
    exact (ha.property hc).bind fun p hp => .after _ fun i =>
      (Finds.get (hc.element_live p) i).bind fun _ hv => .some (live_of_property hv hp)
  | lastElement =>
    exact (ha.property hc).bind fun p hp => Finds.bind (P := LiveValue g)
      (fun v hv => hc.element_live p v (List.mem_of_getLast? hv)) fun _ hv => .some (live_of_property hv hp)
  | length => exact (ha.property hc).bind fun _ hp => .some (live_length hp)
  | lengthOr =>
    rw [Accessor.form?]
    split
    · rename_i p hp
      exact .some (live_length (ha.property hc p hp))
    · exact ha.fallback 2
  | hasElement => exact .after _ fun _ => .some (live_plain rfl)
  | hasGroup => exact .after _ fun _ => .after _ fun _ => .after _ fun _ => .some (live_plain rfl)
  | text style byIndex hasFallback =>
    have hfound := ha.text hc style byIndex
    cases hasFallback with
    | false => exact hfound
    | true => exact hfound.orElse (ha.fallback _)
  | enumIndex => exact ha.enum_index hc 0
  | enumIndexOr => exact (ha.enum_index hc 0).orElse (ha.fallback 2)
  | enumIndexAt => exact .after _ (ha.enum_index hc)
  | enumIndexAtOr => exact (Finds.after _ (ha.enum_index hc)).orElse (ha.fallback 3)
  | cell => exact ha.cell hc _ _
  | cellOr => exact (ha.cell hc _ _).orElse (ha.fallback 3)
  | cellAt => exact ha.cell hc _ _
  | cellAtOr => exact (ha.cell hc _ _).orElse (ha.fallback 4)
  | cellNamed => exact ha.cell_named hc
  | cellNamedOr => exact (ha.cell_named hc).orElse (ha.fallback 4)
  | propertyThrough => exact hc.property_through_live a _ _
  | propertyThroughAt => exact hc.property_through_live a _ _
  | propertyThroughAtOr => exact (hc.property_through_live a _ _).orElse (ha.fallback 4)
  | regCount => exact .after_map _ fun _ => live_plain rfl
  | hasReg => exact .after _ fun _ => .after _ fun _ => .some (live_plain rfl)
  | reg part pick =>
    refine (ha.node 0).bind fun _ hn => .after _ fun _ => .after _ fun _ => ?_
    cases part <;>
      exact .after _ fun _ => .after _ fun _ => (hc.property_live hn "reg").bind fun _ hp =>
        .some (live_of_property (live_of_no_nodes rfl) hp)
  | irqCount => exact .after_map _ fun _ => live_plain rfl
  | hasIrq => exact .after _ fun _ => .after _ fun _ => .some (live_plain rfl)
  | irq pick cell =>
    refine (ha.node 0).bind fun _ hn => .after _ fun _ => ?_
    have hsource := (hc.property_live hn "interrupts-extended").orElse (hc.property_live hn "interrupts")
    cases cell <;>
      exact .after _ fun _ => .after _ fun _ => hsource.bind fun _ hp =>
        .some (live_of_property (live_of_no_nodes rfl) hp)

end Forms

section Resolution
variable {g : Graph} {env : Accessor.Surroundings} {deeper : CallExpr → Option Resolved}

theorem Coherent.node_token_live (hc : Coherent g) (text : String) :
    Finds (Accessor.nodeToken? g text) (LiveNode g) := by
  refine .after _ fun rest => ?_
  split
  · exact .some hc.root_live
  · exact .after _ fun names =>
      .walk (fun _ name hn => hc.child_by_ident_live hn (String.ofList name)) hc.root_live _

/-- A call yields what is live if its arguments and all that it may expand to do. -/
theorem Coherent.call_live (hc : Coherent g) (hdeeper : ∀ e, Finds (deeper e) (LiveResult g)) {a : Accessor.Args}
    (ha : LiveArgs g a) (e : CallExpr) (i : Nat) (name : String) :
    Finds (Accessor.call? g env deeper e i name a) (LiveResult g) := by
  unfold Accessor.call?
  split
  · rename_i form _
    exact ha.form hc form
  · exact (Finds.after _ hdeeper).orElse (.after _ hdeeper)

mutual

/-- A part of an expression yields what is live if all that parts may expand to does. -/
theorem Coherent.expr_live (hc : Coherent g) (hdeeper : ∀ e, Finds (deeper e) (LiveResult g)) (e : CallExpr) (i : Nat) :
    (p : CallExpr) → Finds (Accessor.resolveWith g env deeper e i p) (LiveResult g)
  | .leaf .ident name range => by
    unfold Accessor.resolveWith
    refine Finds.orElse ?_ (.orElse ?_ ?_)
    · exact (hc.node_token_live name).map fun _ hn => live_of_node hn
    · exact .after_map _ fun _ => live_plain rfl
    · exact .after _ hdeeper
  | .leaf .number _ _ => .after_map _ fun _ => live_plain rfl
  | .leaf .str _ _ => .some (live_plain rfl)
  | .leaf .raw _ _ => .after_map _ fun _ => live_plain rfl
  | .call name args range => by
    have hargs : LiveArgs g ⟨args, fun k => Accessor.resolveArg g env deeper e (i + 1) args k⟩ :=
      hc.arg_live hdeeper e (i + 1) args
    unfold Accessor.resolveWith
    exact hc.call_live hdeeper hargs e i name

theorem Coherent.arg_live (hc : Coherent g) (hdeeper : ∀ e, Finds (deeper e) (LiveResult g)) (e : CallExpr)
    (next : Nat) : (args : List CallExpr) → ∀ k, Finds (Accessor.resolveArg g env deeper e next args k) (LiveResult g)
  | [], _ => .none _
  | a :: _, 0 => hc.expr_live hdeeper e next a
  | a :: as, k + 1 => hc.arg_live hdeeper e (next + a.size) as k

end

/-- Expansions that end at some depth yield what is live. -/
theorem Coherent.within_live (hc : Coherent g) (env : Accessor.Surroundings) (depth : Nat) (e : CallExpr) :
    Finds (Accessor.resolveWithin g env depth e) (LiveResult g) := by
  induction depth generalizing e with
  | zero => exact .none _
  | succ depth ih => exact hc.expr_live ih e 0 e

end Resolution

/-- Accessors honour deletions. In every built graph, for every environment, bound on the depth of expansions and
text: a node that the text resolves to is live, every node in a value that it resolves to is live, and the property
that the value was read from is neither superseded nor deleted and belongs to a live node. -/
theorem resolved_live {config : BuildConfig} {fragments : List Fragment} {isCancelled : Nat → Bool} {g : Graph}
    (h : Build.build config fragments isCancelled = .ok g) (env : Accessor.Surroundings) (depth : Nat)
    (text : String) :
    (∀ n, Accessor.resolveText? g env depth text = some (.node n) → HasNode g n ∧ g.isLive n = true) ∧
      ∀ v source, Accessor.resolveText? g env depth text = some (.value v source) →
        (∀ n ∈ nodesIn v, HasNode g n ∧ g.isLive n = true) ∧
          ∀ p, source = some p → HasProperty g p ∧ (g.property p).isLive = true ∧
            HasNode g (g.property p).owner ∧ g.isLive (g.property p).owner = true := by
  have hlive : Finds (Accessor.resolveText? g env depth text) (LiveResult g) :=
    .after _ fun e => (built_coherent h).within_live env (depth + 1) e
  refine ⟨?_, ?_⟩
  · intro n hn
    have hnode := (hlive _ hn).nodes n (List.mem_singleton_self n)
    exact ⟨hnode.has, hnode.live⟩
  · intro v source hv
    have hresult := hlive _ hv
    refine ⟨fun n hn => ⟨(hresult.nodes n hn).has, (hresult.nodes n hn).live⟩, ?_⟩
    intro p hp
    have hproperty := hresult.source p hp
    exact ⟨hproperty.has, hproperty.live, hproperty.owner.has, hproperty.owner.live⟩

instance (r : Option Resolved) (n : NodeId) : Decidable (r = some (.node n)) :=
  match r with
  | some (.node m) => decidable_of_iff (m = n) (by simp)
  | some (.value _ _) => isFalse nofun
  | none => isFalse nofun

def relit : List Fragment :=
  [⟨⟨0⟩, .root []
      [.child { name := { name := "gpio" }, labels := [{ name := "port" }] } [],
        .child { name := { name := "led" }, labels := [{ name := "lamp" }] }
          [.property { name := "gpios", values := [.label "port"] }]] {}⟩,
    ⟨⟨1⟩, .delete { target := .ref (.label "lamp") }⟩,
    ⟨⟨1⟩, .root []
      [.child { name := { name := "led" }, labels := [{ name := "lamp" }] }
        [.property { name := "gpios", values := [.label "lamp"] },
          .property { name := "gpios", values := [.cells [.label "port"], .label "lamp"] }]] {}⟩]

def lampDefines : Defines := Defines.define {} "LAMP" "DT_NODELABEL(lamp)"

/-- The define leads to the new node, and its property to the second version with the nodes in it. -/
theorem resolved_live_relit :
    ∃ g, Build.build {} relit (fun _ => false) = .ok g ∧
      (g.isLive ⟨2⟩ = false ∧ (g.property ⟨1⟩).isLive = false) ∧
      (Accessor.resolveText? g lampDefines 1 "LAMP" = some (.node ⟨3⟩) ∧ g.isLive ⟨3⟩ = true) ∧
      ∃ v, Accessor.resolveText? g lampDefines 1 "DT_PROP(LAMP, gpios)" = some (.value v (some ⟨2⟩)) ∧
        nodesIn v = [⟨1⟩, ⟨3⟩] ∧ (∀ n ∈ nodesIn v, g.isLive n = true) ∧ (g.property ⟨2⟩).isLive = true := by
  obtain ⟨g, h, hgone, hlamp, hgpios⟩ : ∃ g, Build.build {} relit (fun _ => false) = .ok g ∧
      (g.isLive ⟨2⟩ = false ∧ (g.property ⟨1⟩).isLive = false) ∧
      Accessor.resolveText? g lampDefines 1 "LAMP" = some (.node ⟨3⟩) ∧
      (Accessor.resolveText? g lampDefines 1 "DT_PROP(LAMP, gpios)").map (fun r => (nodesOf r, r.source?)) =
        some ([⟨1⟩, ⟨3⟩], some ⟨2⟩) := exists_built (by decide +kernel)
  have hnode := ((resolved_live h lampDefines 1 "LAMP").1 ⟨3⟩ hlamp).2
  obtain ⟨r, hr, hshown⟩ := Option.map_eq_some_iff.mp hgpios
  obtain ⟨hnodes, hsource⟩ := Prod.mk.inj hshown
  cases r with
  | node n => cases hsource
  | value v source =>
    obtain rfl : source = some ⟨2⟩ := hsource
    obtain ⟨hlive, hproperty⟩ := (resolved_live h lampDefines 1 "DT_PROP(LAMP, gpios)").2 v _ hr
    exact ⟨g, h, hgone, ⟨hlamp, hnode⟩, v, hr, hnodes, fun n hn => (hlive n hn).2, (hproperty ⟨2⟩ rfl).2.1⟩

end Devicetree.Proofs
