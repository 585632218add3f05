import Mathlib.Data.List.Induction
import Devicetree.Graph.Cursor
import Devicetree.Proofs.Access

namespace Devicetree.Proofs

/-- The location is that of something that belongs to the entity: a definition of a node or the name in it, a
reference to the node or the target in it, a version of a property, a directive. -/
inductive WrittenAt (g : Graph) : Hit → Location → Prop
  | definition {id : NodeId} {d : Definition} (h : d ∈ (g.node id).definitions) :
      WrittenAt g (.node id) d.site.location
  | definitionName {id : NodeId} {d : Definition} (h : d ∈ (g.node id).definitions) :
      WrittenAt g (.node id) d.site.nameLocation
  | reference {id : NodeId} {d : Definition} (h : d ∈ (g.node id).referencedBy) :
      WrittenAt g (.node id) d.site.location
  | referenceTarget {id : NodeId} {d : Definition} (h : d ∈ (g.node id).referencedBy) :
      WrittenAt g (.node id) d.site.nameLocation
  | property {id : PropertyId} (h : HasProperty g id) : WrittenAt g (.property id) (g.property id).site.location
  | directive {id : DirectiveId} (h : HasDirective g id) :
      WrittenAt g (.directive id) (g.directive id).site.location

inductive NotAfter : Hit → Hit → Prop
  | nodes {i j : NodeId} (h : i.index ≤ j.index) : NotAfter (.node i) (.node j)
  | properties {i j : PropertyId} (h : i.index ≤ j.index) : NotAfter (.property i) (.property j)
  | directives {i j : DirectiveId} (h : i.index ≤ j.index) : NotAfter (.directive i) (.directive j)
  | node_property (i : NodeId) (j : PropertyId) : NotAfter (.node i) (.property j)
  | node_directive (i : NodeId) (j : DirectiveId) : NotAfter (.node i) (.directive j)
  | property_directive (i : PropertyId) (j : DirectiveId) : NotAfter (.property i) (.directive j)

/-- The entity is written at the location, which is around the position. Of all that is written around the position,
what lies inside the location has the same span, and nothing with the same span belongs to a later entity. -/
structure Deepest (g : Graph) (file : FileId) (p : Position) (hit : Hit) (l : Location) : Prop where
  written : WrittenAt g hit l
  around : l.contains file p = true
  minimal : ∀ {other : Hit} {m : Location}, WrittenAt g other m → m.contains file p = true →
    l.span.encloses m.span = true → m.span = l.span
  last : ∀ {other : Hit} {m : Location}, WrittenAt g other m → m.contains file p = true →
    m.span = l.span → NotAfter other hit

section Search

/-- Of the stretches before this one, those that lie inside of it have its span, and none of those after it lies
inside of it. -/
def Innermost (ss : List (Location × Hit)) (s : Location × Hit) : Prop :=
  ∃ before after, ss = before ++ s :: after ∧
    (∀ t ∈ before, s.1.span.encloses t.1.span = true → t.1.span = s.1.span) ∧
    ∀ t ∈ after, s.1.span.encloses t.1.span = false

variable {ss : List (Location × Hit)} {s t : Location × Hit}

theorem Innermost.mem (h : Innermost ss s) : s ∈ ss := by
  obtain ⟨before, after, rfl, -, -⟩ := h
  simp

theorem Innermost.minimal (h : Innermost ss s) (ht : t ∈ ss) (hin : s.1.span.encloses t.1.span = true) :
    t.1.span = s.1.span := by
  obtain ⟨before, after, rfl, hbefore, hafter⟩ := h
  rcases List.mem_append.mp ht with ht | ht
  · exact hbefore t ht hin
  · rcases List.mem_cons.mp ht with rfl | ht
    · rfl
    · rw [hafter t ht] at hin
      cases hin

/-- A stretch that is not inside the one kept so far is passed over. -/
theorem Innermost.keep (h : Innermost ss s) (hout : s.1.span.encloses t.1.span = false) :
    Innermost (ss ++ [t]) s := by
  obtain ⟨before, after, rfl, hbefore, hafter⟩ := h
  refine ⟨before, after ++ [t], by simp, hbefore, ?_⟩
  intro u hu
  rcases List.mem_append.mp hu with hu | hu
  · exact hafter u hu
  · rw [List.mem_singleton.mp hu]
    exact hout

/-- A stretch inside the one kept so far takes its place. What it encloses was enclosed by that one too, so nothing
that was passed over is deeper. -/
theorem Innermost.replace (h : Innermost ss s) (hin : s.1.span.encloses t.1.span = true) :
    Innermost (ss ++ [t]) t := by
  refine ⟨ss, [], rfl, ?_, by simp⟩
  intro u hu hinside
  have hsame : u.1.span = s.1.span := h.minimal hu (Span.encloses_trans hin hinside)
  rw [← hsame] at hin
  exact Span.encloses_antisymm hin hinside

theorem foldl_deeper_eq_none : ss.foldl Graph.deeper none = none ↔ ss = [] := by
  induction ss using List.reverseRecOn with
  | nil => simp
  | append_singleton ss t ih =>
    rw [List.foldl_append, List.foldl_cons, List.foldl_nil, Graph.deeper.eq_def]
    split
    · split <;> simp
    · simp

theorem innermost_of_foldl (h : ss.foldl Graph.deeper none = some s) : Innermost ss s := by
  induction ss using List.reverseRecOn generalizing s with
  | nil => cases h
  | append_singleton ss t ih =>
    rw [List.foldl_append, List.foldl_cons, List.foldl_nil, Graph.deeper.eq_def] at h
    split at h
    · rename_i b hb
      split at h
      · rename_i hin
        obtain rfl := Option.some.inj h
        exact (ih hb).replace hin
      · rename_i hout
        obtain rfl := Option.some.inj h
        exact (ih hb).keep (by simpa using hout)
    · rename_i hnone
      obtain rfl := Option.some.inj h
      obtain rfl := foldl_deeper_eq_none.mp hnone
      exact ⟨[], [], rfl, by simp, by simp⟩

theorem NotAfter.refl (hit : Hit) : NotAfter hit hit := by
  cases hit with
  | node => exact .nodes (Nat.le_refl _)
  | property => exact .properties (Nat.le_refl _)
  | directive => exact .directives (Nat.le_refl _)

/-- In a list in scan order, no stretch with the same span belongs to a later entity. -/
theorem Innermost.last (h : Innermost ss s) (hsorted : ss.Pairwise fun t u => NotAfter t.2 u.2) (ht : t ∈ ss)
    (hsame : t.1.span = s.1.span) : NotAfter t.2 s.2 := by
  obtain ⟨before, after, rfl, -, hafter⟩ := h
  rcases List.mem_append.mp ht with ht | ht
  · exact (List.pairwise_append.mp hsorted).2.2 t ht s List.mem_cons_self
  · rcases List.mem_cons.mp ht with rfl | ht
    · exact .refl _
    · have hout := hafter t ht
      rw [hsame, Span.encloses_refl] at hout
      cases hout

end Search

section Numbers
variable {α : Type} {mk : Nat → α} {index : α → Nat} {n : Nat}

theorem mem_numbers (hindex : ∀ i, index (mk i) = i) (hmk : ∀ a, mk (index a) = a) {a : α} :
    a ∈ (List.range n).map mk ↔ index a < n := by
  rw [List.mem_map]
  constructor
  · rintro ⟨i, hi, rfl⟩
    rw [hindex]
    exact List.mem_range.mp hi
  · intro h
    exact ⟨index a, List.mem_range.mpr h, hmk a⟩

theorem numbers_sorted (hindex : ∀ i, index (mk i) = i) :
    ((List.range n).map mk).Pairwise fun a b => index a ≤ index b := by
  rw [List.pairwise_map]
  simpa only [hindex] using List.pairwise_le_range

end Numbers

section Stretches
variable {g : Graph}

theorem written_at_node_iff {id : NodeId} {l : Location} : WrittenAt g (.node id) l ↔
    ∃ d ∈ (g.node id).allDefinitions, l = d.site.location ∨ l = d.site.nameLocation := by
  constructor
  · intro h
    cases h with
    | definition h => exact ⟨_, List.mem_append_left _ h, .inl rfl⟩
    | definitionName h => exact ⟨_, List.mem_append_left _ h, .inr rfl⟩
    | reference h => exact ⟨_, List.mem_append_right _ h, .inl rfl⟩
    | referenceTarget h => exact ⟨_, List.mem_append_right _ h, .inr rfl⟩
  · rintro ⟨d, hd, rfl | rfl⟩
    · rcases List.mem_append.mp hd with hd | hd
      · exact .definition hd
      · exact .reference hd
    · rcases List.mem_append.mp hd with hd | hd
      · exact .definitionName hd
      · exact .referenceTarget hd

theorem has_node_of_definition {id : NodeId} {d : Definition} (h : d ∈ (g.node id).allDefinitions) : HasNode g id := by
  apply Classical.byContradiction
  intro hn
  rw [node_of_not_has hn] at h
  cases h

theorem mem_stretches {hit : Hit} {l : Location} : (l, hit) ∈ g.stretches ↔ WrittenAt g hit l := by
  have hnodes : ∀ id, id ∈ g.nodeIds ↔ HasNode g id := fun _ => mem_numbers (fun _ => rfl) fun _ => rfl
  have hproperties : ∀ id, id ∈ g.propertyIds ↔ HasProperty g id := fun _ => mem_numbers (fun _ => rfl) fun _ => rfl
  have hdirectives : ∀ id, id ∈ g.directiveIds ↔ HasDirective g id := fun _ => mem_numbers (fun _ => rfl) fun _ => rfl
  simp only [Graph.stretches, List.mem_append, List.mem_flatMap, List.mem_map, hnodes, hproperties, hdirectives,
    List.mem_cons, List.not_mem_nil, or_false, Prod.mk.injEq]
  constructor
  · rintro ((⟨id, -, d, hd, ⟨rfl, rfl⟩ | ⟨rfl, rfl⟩⟩ | ⟨id, hid, rfl, rfl⟩) | ⟨id, hid, rfl, rfl⟩)
    · exact written_at_node_iff.mpr ⟨d, hd, .inl rfl⟩
    · exact written_at_node_iff.mpr ⟨d, hd, .inr rfl⟩
    · exact .property hid
    · exact .directive hid
  · intro h
    cases hit with
    | node id =>
      obtain ⟨d, hd, hl⟩ := written_at_node_iff.mp h
      exact .inl (.inl ⟨id, has_node_of_definition hd, d, hd, by simpa using hl⟩)
    | property id =>
      cases h with
      | property hid => exact .inl (.inr ⟨id, hid, rfl, rfl⟩)
    | directive id =>
      cases h with
      | directive hid => exact .inr ⟨id, hid, rfl, rfl⟩

/-- The search goes over the stretches in the order of their entities. -/
theorem stretches_sorted (g : Graph) : g.stretches.Pairwise fun t u => NotAfter t.2 u.2 := by
  have hnodes : ∀ (id : NodeId) (t : Location × Hit), t ∈ ((g.node id).allDefinitions.flatMap fun d =>
      [(d.site.location, Hit.node id), (d.site.nameLocation, Hit.node id)]) → t.2 = .node id := by
    intro id t ht
    obtain ⟨d, -, ht⟩ := List.mem_flatMap.mp ht
    simp only [List.mem_cons, List.not_mem_nil, or_false] at ht
    rcases ht with rfl | rfl <;> rfl
  rw [Graph.stretches, List.pairwise_append, List.pairwise_append]
  refine ⟨⟨?_, ?_, ?_⟩, ?_, ?_⟩
  · rw [List.pairwise_flatMap]
    constructor
    · intro id _
      apply List.pairwise_of_forall_mem_list
      intro t ht u hu
      rw [hnodes id t ht, hnodes id u hu]
      exact .refl _
    · have hids : g.nodeIds.Pairwise fun i j => i.index ≤ j.index := numbers_sorted fun _ => rfl
      refine hids.imp ?_
      intro i j hle t ht u hu
      rw [hnodes i t ht, hnodes j u hu]
      exact .nodes hle
  · rw [List.pairwise_map]
    exact (numbers_sorted fun _ => rfl).imp .properties
  · intro t ht u hu
    obtain ⟨i, -, ht⟩ := List.mem_flatMap.mp ht
    obtain ⟨j, -, rfl⟩ := List.mem_map.mp hu
    rw [hnodes i t ht]
    exact .node_property i j
  · rw [List.pairwise_map]
    exact (numbers_sorted fun _ => rfl).imp .directives
  · intro t ht u hu
    obtain ⟨j, -, rfl⟩ := List.mem_map.mp hu
    rcases List.mem_append.mp ht with ht | ht
    · obtain ⟨i, -, ht⟩ := List.mem_flatMap.mp ht
      rw [hnodes i t ht]
      exact .node_directive i j
    · obtain ⟨i, -, rfl⟩ := List.mem_map.mp ht
      exact .property_directive i j

end Stretches

section Hits
variable {g : Graph} {file : FileId} {p : Position}

def stretchesAround (g : Graph) (file : FileId) (p : Position) : List (Location × Hit) :=
  g.stretches.filter fun s => s.1.contains file p

theorem mem_stretchesAround {hit : Hit} {l : Location} :
    (l, hit) ∈ stretchesAround g file p ↔ WrittenAt g hit l ∧ l.contains file p = true := by
  rw [stretchesAround, List.mem_filter, mem_stretches]

theorem no_hit_iff :
    g.hitAt? file p = none ↔ ∀ hit l, WrittenAt g hit l → l.contains file p = false := by
  rw [Graph.hitAt?, Option.map_eq_none_iff, foldl_deeper_eq_none, List.filter_eq_nil_iff]
  constructor
  · intro hnone hit l hl
    simpa using hnone (l, hit) (mem_stretches.mpr hl)
  · intro hnone s hs
    simp [hnone s.2 s.1 (mem_stretches.mp hs)]

theorem deepest_of_innermost {s : Location × Hit} (h : Innermost (stretchesAround g file p) s) :
    Deepest g file p s.2 s.1 := by
  have hsorted : (stretchesAround g file p).Pairwise fun t u => NotAfter t.2 u.2 :=
    (stretches_sorted g).sublist List.filter_sublist
  obtain ⟨hwritten, haround⟩ := mem_stretchesAround.mp h.mem
  refine ⟨hwritten, haround, ?_, ?_⟩
  · intro other m hm hin
    exact h.minimal (mem_stretchesAround.mpr ⟨hm, hin⟩)
  · intro other m hm hin
    exact h.last hsorted (mem_stretchesAround.mpr ⟨hm, hin⟩)

end Hits

/-- The search finds nothing exactly if nothing is written around the position. Otherwise what it finds is written
around the position, nothing that is written there lies deeper, and of what is written in the same span it is the
last. -/
theorem hit_deepest (g : Graph) (file : FileId) (p : Position) :
    (g.hitAt? file p = none ↔ ∀ hit l, WrittenAt g hit l → l.contains file p = false) ∧
      ∀ hit, g.hitAt? file p = some hit → ∃ l, Deepest g file p hit l := by
  refine ⟨no_hit_iff, ?_⟩
  intro hit hfound
  obtain ⟨s, hs, rfl⟩ := Option.map_eq_some_iff.mp hfound
  exact ⟨s.1, deepest_of_innermost (innermost_of_foldl hs)⟩

/-- Where two spans overlap and neither lies in the other, the one that is searched first is kept. -/
example :
    let lines (first last : Nat) : Site := { location := ⟨⟨0⟩, ⟨⟨first, 0⟩, ⟨last, 0⟩⟩⟩ }
    let g : Graph :=
      { properties := #[{ name := "status", owner := Graph.root, site := lines 1 3 }],
        directives := #[{ kind := .property, target := "model", site := lines 2 4 }] }
    g.hitAt? ⟨0⟩ ⟨2, 5⟩ = some (.property ⟨0⟩) ∧ g.hitAt? ⟨0⟩ ⟨3, 5⟩ = some (.directive ⟨0⟩) := by
  decide

end Devicetree.Proofs
