import Devicetree.Graph.Specifier
import Devicetree.Proofs.TreeOrder

namespace Devicetree.Proofs

/-- Whatever the option holds satisfies `P`. -/
def Finds {α : Type} (x : Option α) (P : α → Prop) : Prop := ∀ a, x = some a → P a

section Finds
variable {α β : Type} {P : α → Prop} {Q : β → Prop}

theorem Finds.none (P : α → Prop) : Finds none P := nofun

theorem Finds.some {a : α} (h : P a) : Finds (some a) P :=
  fun _ hb => Option.some.inj hb ▸ h

theorem Finds.bind {x : Option α} {f : α → Option β} (hx : Finds x P) (hf : ∀ a, P a → Finds (f a) Q) :
    Finds (x.bind f) Q := by
  intro b hb
  obtain ⟨a, ha, hfa⟩ := Option.bind_eq_some_iff.mp hb
  exact hf a (hx a ha) b hfa

/-- A step whose outcome does not matter. -/
theorem Finds.after (x : Option α) {f : α → Option β} (hf : ∀ a, Finds (f a) Q) : Finds (x.bind f) Q := by
  intro b hb
  obtain ⟨a, _, hfa⟩ := Option.bind_eq_some_iff.mp hb
  exact hf a b hfa

theorem Finds.map {x : Option α} {f : α → β} (hx : Finds x P) (hf : ∀ a, P a → Q (f a)) :
    Finds (x.map f) Q := by
  intro b hb
  obtain ⟨a, ha, rfl⟩ := Option.map_eq_some_iff.mp hb
  exact hf a (hx a ha)

theorem Finds.after_map (x : Option α) {f : α → β} (hf : ∀ a, Q (f a)) : Finds (x.map f) Q := by
  intro b hb
  obtain ⟨a, _, rfl⟩ := Option.map_eq_some_iff.mp hb
  exact hf a

theorem Finds.orElse {x y : Option α} (hx : Finds x P) (hy : Finds y P) : Finds (x <|> y) P := by
  cases x with
  | none => exact hy
  | some a => exact hx

theorem Finds.find {xs : List α} {p : α → Bool} (h : ∀ a ∈ xs, P a) : Finds (xs.find? p) P :=
  fun a ha => h a (List.mem_of_find?_eq_some ha)

theorem Finds.get {xs : List α} (h : ∀ a ∈ xs, P a) (i : Nat) : Finds xs[i]? P :=
  fun a ha => h a (List.mem_of_getElem? ha)

/-- A walk whose steps lead from what satisfies `P` to what does. -/
theorem Finds.walk {step : α → β → Option α} (hstep : ∀ a b, P a → Finds (step a b) P) {a : α} (ha : P a)
    (bs : List β) : Finds (bs.foldlM step a) P := by
  induction bs generalizing a with
  | nil => exact .some ha
  | cons b bs ih => exact (hstep a b ha).bind fun c hc => ih hc

end Finds

/-- A node of the graph that is not deleted, with no deleted node above it. -/
structure LiveNode (g : Graph) (id : NodeId) : Prop where
  has : HasNode g id
  live : g.isLive id = true

/-- A version of a property of a live node that is neither superseded nor deleted. -/
structure LiveProperty (g : Graph) (id : PropertyId) : Prop where
  has : HasProperty g id
  live : (g.property id).isLive = true
  owner : LiveNode g (g.property id).owner

structure Coherent (g : Graph) : Prop where
  sound : Sound g
  ledger : Ledger g

theorem built_coherent {config : BuildConfig} {fragments : List Fragment} {isCancelled : Nat → Bool}
    {g : Graph} (h : Build.build config fragments isCancelled = .ok g) : Coherent g :=
  ⟨built_sound h, built_ledger h⟩

section Nodes
variable {g : Graph} {n : NodeId}

theorem Coherent.root_live (hc : Coherent g) : LiveNode g Graph.root :=
  ⟨hc.sound.bounded.root, hc.sound.linked.live_top hc.sound.root_top⟩

theorem Coherent.child_live (hc : Coherent g) (hn : LiveNode g n) : ∀ c ∈ g.children n, LiveNode g c := by
  intro c hm
  have hp := hc.sound.linked.child n c hm
  exact ⟨(hc.sound.bounded.node n).children c hm,
    (hc.sound.linked.live_child hp).mpr ⟨hc.sound.linked.child_kept hm, hn.live⟩⟩

theorem Coherent.parent_live (hc : Coherent g) (hn : LiveNode g n) : Finds (g.parent? n) (LiveNode g) := by
  intro p hp
  exact ⟨(hc.sound.bounded.node n).parent p hp, ((hc.sound.linked.live_child hp).mp hn.live).2⟩

theorem Coherent.child_by_ident_live (hc : Coherent g) (hn : LiveNode g n) (ident : String) :
    Finds (g.childByIdent? n ident) (LiveNode g) :=
  .find (hc.child_live hn)

theorem Coherent.get_node_live (hc : Coherent g) (path : String) : Finds (g.getNode? path) (LiveNode g) := by
  unfold Graph.getNode?
  split
  · rename_i habsolute
    rw [Graph.getChild?, Graph.startOf, if_pos habsolute]
    exact .walk (fun a name ha c hfound => hc.child_live ha c (child_by_name_mem hfound)) hc.root_live _
  · exact .none _

theorem Coherent.label_live (hc : Coherent g) (l : String) : Finds (g.resolveLabel? l) (LiveNode g) := by
  intro n hn
  obtain ⟨hbound, hlive⟩ := Option.filter_eq_some_iff.mp hn
  exact ⟨hc.sound.bounded.bound_label hbound, hlive⟩

theorem Coherent.descendant_live (hc : Coherent g) : ∀ n ∈ g.descendants Graph.root, LiveNode g n := by
  intro n hn
  obtain ⟨names, ht⟩ := hc.sound.mem_descendants.mp hn
  induction ht with
  | root => exact hc.root_live
  | child above listed ih => exact hc.child_live (ih (hc.sound.mem_descendants.mpr ⟨_, above⟩)) _ listed

/-- A component refers to live nodes only, whether by label, by path or by phandle. -/
theorem Coherent.reference_live (hc : Coherent g) (v : Value) : Finds (g.resolveReference? v) (LiveNode g) := by
  fun_induction g.resolveReference? v with
  | case1 l => exact hc.label_live l
  | case2 p => exact hc.get_node_live p
  | case3 e => exact .after _ fun _ => .find hc.descendant_live
  | case4 v ih => exact ih
  | case5 => exact .none _

theorem Coherent.well_known_live (hc : Coherent g) (holder name : String) :
    Finds (g.wellKnown? holder name) (LiveNode g) := by
  unfold Graph.wellKnown?
  refine .after _ fun id => .after _ fun p => .after _ fun v => ?_
  cases v with
  | str path => exact (hc.get_node_live path).orElse (hc.label_live path)
  | expr | label | path | cells | bytes => exact hc.reference_live _

theorem Coherent.group_target_live (hc : Coherent g) (p : PropertyId) :
    ∀ group ∈ g.groups p, Finds group.target (LiveNode g) := by
  unfold Graph.groups
  fun_induction g.splitGroups (g.specifierSpace p) (g.flatValues p) with
  | case1 => nofun
  | case2 v vs hnone =>
    intro group hm
    obtain rfl := List.mem_singleton.mp hm
    exact .none _
  | case3 v vs target hfound count ih =>
    intro group hm
    rcases List.mem_cons.mp hm with rfl | hrest
    · exact .some (hc.reference_live v target hfound)
    · exact ih group hrest

end Nodes

section Properties
variable {g : Graph} {n : NodeId}

theorem Coherent.property_live (hc : Coherent g) (hn : LiveNode g n) (name : String) :
    Finds (g.liveProperty? n name) (LiveProperty g) := by
  intro p hp
  have hcurrent := hc.ledger.current n name p hp
  refine ⟨hc.sound.bounded.live_property hp, ?_, ?_⟩
  · simp [Property.isLive, hcurrent.not_replaced, hcurrent.not_deleted]
  · rw [hc.ledger.owner n name p hp]
    exact hn

theorem Coherent.property_by_ident_live (hc : Coherent g) (hn : LiveNode g n) (ident : String) :
    Finds (g.propertyByIdent? n ident) (LiveProperty g) := by
  refine Finds.map (P := fun e => LiveProperty g e.2) (.find fun e he => ?_) fun e he => he
  exact hc.property_live hn e.1 e.2 ((Table.mem_entries_iff (hc.ledger.keys n)).mp he)

end Properties

end Devicetree.Proofs
