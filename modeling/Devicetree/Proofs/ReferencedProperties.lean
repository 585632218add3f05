import Devicetree.Proofs.AccessorArguments
import Devicetree.Proofs.LiveAccessors

namespace Devicetree.Proofs

structure LacksFlag (g : Graph) (n : NodeId) (ident : String) : Prop where
  absent : g.propertyByIdent? n ident = none
  declared : ∃ type name spec, g.resolvedType? n = some type ∧
    type.propertyByIdent? ident = some (name, spec) ∧ spec.kind = .boolean

def AsksForFlag (g : Graph) (env : Accessor.Environment) (depth : Nat) (target name : CallExpr) : Prop :=
  ∃ n ident, Accessor.resolve? g env depth target = some (.node n) ∧ identText? name = some ident ∧
    LacksFlag g n ident

/-- How the direct accessor and the property of the target compare. -/
structure Composes (g : Graph) (env : Accessor.Environment) (depth : Nat) (direct target name : CallExpr)
    (range : Range) : Prop where
  agree_iff : Accessor.resolve? g env depth (.call "DT_PROP" [target, name] range) =
    Accessor.resolve? g env depth direct ↔ ¬ AsksForFlag g env depth target name
  flag (h : AsksForFlag g env depth target name) : Accessor.resolve? g env depth direct = none ∧
    Accessor.resolve? g env depth (.call "DT_PROP" [target, name] range) = some (.ofBool false)

section Flags
variable {g : Graph} {n : NodeId} {ident : String}

theorem LacksFlag.read (h : LacksFlag g n ident) : Accessor.property? g n ident = some (.ofBool false) := by
  obtain ⟨type, name, spec, htype, hspec, hkind⟩ := h.declared
  simp [Accessor.property?, h.absent, htype, hspec, hkind]

/-- Apart from such booleans, only properties that are there are read. -/
theorem read_of_no_flag (h : ¬ LacksFlag g n ident) : Accessor.property? g n ident =
    (g.propertyByIdent? n ident).map fun p => .ofProperty (g.propertyValue p) p := by
  unfold Accessor.property?
  cases hp : g.propertyByIdent? n ident with
  | some p => rfl
  | none =>
    rw [Option.map_none, Option.eq_none_iff_forall_ne_some]
    intro r hr
    obtain ⟨type, htype, hr⟩ := Option.bind_eq_some_iff.mp hr
    obtain ⟨⟨name, spec⟩, hspec, hr⟩ := Option.bind_eq_some_iff.mp hr
    by_cases hkind : spec.kind = .boolean
    · exact h ⟨hp, type, name, spec, htype, hspec, hkind⟩
    · simp [hkind] at hr

end Flags

section Composition
variable {g : Graph} {env : Accessor.Environment} {depth : Nat} {xs : List CallExpr} {name : CallExpr}

/-- The accessor that asks for the node of a reference and the one that goes on to a property pick the same group. -/
structure SamePick (pick : Selector) (through : Form) (n : Nat) : Prop where
  arity : formArity (.phandle pick) = some n
  form (g : Graph) (env : Accessor.Surroundings) (a : Accessor.Args) : Accessor.form? g env a through =
    (Accessor.groupTarget? g a pick).bind fun id => (a.ident? n).bind fun ident =>
      (g.propertyByIdent? id ident).map fun p => .ofProperty (g.propertyValue p) p

theorem through_eq (g : Graph) (a : Accessor.Args) (pick : Selector) (name : Nat)
    (hpick : ∀ indexOf, a.select? indexOf pick = a.select? (fun _ => none) pick) :
    Accessor.propertyThrough? g a (a.select? (fun _ => none) pick) name =
      (Accessor.groupTarget? g a pick).bind fun n => (a.ident? name).bind fun ident =>
        (g.propertyByIdent? n ident).map fun p => .ofProperty (g.propertyValue p) p := by
  rw [Accessor.propertyThrough?, Accessor.groupTarget?]
  simp only [hpick, Option.bind_eq_bind, Option.bind_assoc, Option.map_eq_bind]
  rfl

theorem samePick_first : SamePick .first .propertyThrough 2 :=
  ⟨rfl, fun g _ a => through_eq g a .first 2 fun _ => rfl⟩

theorem samePick_index : SamePick (.index 2) .propertyThroughAt 3 :=
  ⟨rfl, fun g _ a => through_eq g a (.index 2) 3 fun _ => rfl⟩

/-- What the direct accessor reads of the node that its first arguments lead to. -/
theorem direct_eq {pick : Selector} {through : Form} (hpick : SamePick pick through xs.length) :
    Accessor.form? g env (given g env depth (xs ++ [name])) through =
      (Accessor.groupTarget? g (given g env depth xs) pick).bind fun n => (identText? name).bind fun ident =>
        (g.propertyByIdent? n ident).map fun p => .ofProperty (g.propertyValue p) p := by
  have htarget : Accessor.groupTarget? g (given g env depth (xs ++ [name])) pick =
      Accessor.groupTarget? g (given g env depth xs) pick :=
    target_alike pick (fun i hi => given_alike (List.getElem?_append_left (Option.some.inj hpick.arity ▸ hi))) g
  have hident : (given g env depth (xs ++ [name])).ident? xs.length = identText? name := by
    rw [ident_eq]
    simp [given]
  rw [hpick.form, htarget, hident]

/-- What the composed accessor reads of the node that the inner one means. -/
theorem composed_eq {target : CallExpr} {found : Option NodeId}
    (htarget : Accessor.resolve? g env depth target = found.map .node) (name : CallExpr) (range : Range) :
    Accessor.resolve? g env depth (.call "DT_PROP" [target, name] range) =
      found.bind fun n => (identText? name).bind fun ident => Accessor.property? g n ident := by
  have hform : Form.ofCall? "DT_PROP" 2 = some .property := by decide
  have hnode : (given g env depth [target, name]).node? 0 = found := by
    rw [Accessor.Args.node?, given]
    cases found <;> simp [htarget, Resolved.node?]
  have hident : (given g env depth [target, name]).ident? 1 = identText? name := ident_eq _ 1
  rw [resolve_call hform, Accessor.form?, Accessor.namedProperty?, hnode, hident]
  rfl

/-- An accessor of the vocabulary that reads a property through a reference, and the one that asks for the node. -/
theorem composes (xs : List CallExpr) {through toNode : String} {pick : Selector} {form : Form}
    (hpick : SamePick pick form xs.length) (hthrough : Form.ofCall? through (xs.length + 1) = some form)
    (htoNode : Form.ofCall? toNode xs.length = some (.phandle pick)) (range range' range'' : Range) :
    Composes g env depth (.call through (xs ++ [name]) range) (.call toNode xs range') name range'' := by
  have htarget : Accessor.resolve? g env depth (.call toNode xs range') =
      (Accessor.groupTarget? g (given g env depth xs) pick).map .node := by
    rw [resolve_call htoNode, Accessor.form?]
  have hdirect : Accessor.resolve? g env depth (.call through (xs ++ [name]) range) = _ :=
    (resolve_call (by rw [List.length_append]; exact hthrough) range).trans (direct_eq hpick)
  have hcomposed := composed_eq htarget name range''
  have hflag (h : AsksForFlag g env depth (.call toNode xs range') name) :
      Accessor.resolve? g env depth (.call through (xs ++ [name]) range) = none ∧
        Accessor.resolve? g env depth (.call "DT_PROP" [.call toNode xs range', name] range'') =
          some (.ofBool false) := by
    obtain ⟨n, ident, hn, hident, hlacks⟩ := h
    rw [htarget] at hn
    obtain ⟨m, hm, ⟨⟩⟩ := Option.map_eq_some_iff.mp hn
    rw [hdirect, hcomposed, hm, hident, Option.bind_some, Option.bind_some, Option.bind_some, Option.bind_some,
      hlacks.absent, hlacks.read]
    exact ⟨rfl, rfl⟩
  refine ⟨⟨?_, ?_⟩, hflag⟩
  · intro heq hasks
    obtain ⟨hnone, hfalse⟩ := hflag hasks
    rw [hnone, hfalse] at heq
    cases heq
  · intro hno
    rw [hdirect, hcomposed]
    cases hn : Accessor.groupTarget? g (given g env depth xs) pick with
    | none => rfl
    | some n =>
      cases hident : identText? name with
      | none => rfl
      | some ident => exact read_of_no_flag fun h => hno ⟨n, ident, by rw [htarget, hn]; rfl, hident, h⟩

end Composition

/-- Reading a property through a reference, the one with an index or the first one, has the same result as reading it
from the node that the reference leads to, unless that node lacks a declared boolean with the name: there the first
way finds nothing and the second way false. -/
theorem through_references (g : Graph) (env : Accessor.Environment) (depth : Nat) (node list index name : CallExpr)
    (range range' range'' : Range) :
    Composes g env depth (.call "DT_PROP_BY_PHANDLE_IDX" [node, list, index, name] range)
        (.call "DT_PHANDLE_BY_IDX" [node, list, index] range') name range'' ∧
      Composes g env depth (.call "DT_PROP_BY_PHANDLE" [node, list, name] range)
        (.call "DT_PHANDLE" [node, list] range') name range'' := by
  have hindexed : Form.ofCall? "DT_PROP_BY_PHANDLE_IDX" 4 = some .propertyThroughAt ∧
      Form.ofCall? "DT_PHANDLE_BY_IDX" 3 = some (.phandle (.index 2)) := by decide
  have hfirst : Form.ofCall? "DT_PROP_BY_PHANDLE" 3 = some .propertyThrough ∧
      Form.ofCall? "DT_PHANDLE" 2 = some (.phandle .first) := by decide
  constructor
  · exact composes [node, list, index] samePick_index hindexed.1 hindexed.2 range range' range''
  · exact composes [node, list] samePick_first hfirst.1 hfirst.2 range range' range''

def unlit : List Fragment :=
  [⟨⟨0⟩, .root []
    [.child { name := .parse "button", labels := [{ name := "b0" }] }
        [.property { name := "compatible", values := [.str "vnd,button"] }],
      .child { name := .parse "dev" } [.property { name := "input", values := [.label "b0"] }]] {}⟩]

def unlitConfig : BuildConfig :=
  { bindings := Bindings.ofList
      [.mk (some "vnd,button") none none (.ofList [("wakeup-source", { kind := .boolean })]) {} {}] }

def unlitArgs : List CallExpr := [.call "DT_PATH" [wordLeaf "dev"] ⟨0, 0⟩, wordLeaf "input"]

/-- The boolean is absent when it is read through the reference and false when it is read from the button. -/
theorem through_references_unlit :
    ∃ g, Build.build unlitConfig unlit (fun _ => false) = .ok g ∧
      AsksForFlag g (.ofDefines {}) 32 (.call "DT_PHANDLE" unlitArgs ⟨0, 0⟩) (wordLeaf "wakeup_source") ∧
      Accessor.resolve? g (.ofDefines {}) 32
        (.call "DT_PROP_BY_PHANDLE" (unlitArgs ++ [wordLeaf "wakeup_source"]) ⟨0, 0⟩) = none ∧
      Accessor.resolve? g (.ofDefines {}) 32
        (.call "DT_PROP" [.call "DT_PHANDLE" unlitArgs ⟨0, 0⟩, wordLeaf "wakeup_source"] ⟨0, 0⟩) =
          some (.ofBool false) := by
  obtain ⟨g, h, htarget, habsent, type, htype, spec, hspec, hkind⟩ :
      ∃ g, Build.build unlitConfig unlit (fun _ => false) = .ok g ∧
        Accessor.resolve? g (.ofDefines {}) 32 (.call "DT_PHANDLE" unlitArgs ⟨0, 0⟩) = some (.node ⟨1⟩) ∧
        g.propertyByIdent? ⟨1⟩ "wakeup_source" = none ∧
        ∃ type ∈ g.resolvedType? ⟨1⟩, ∃ spec ∈ type.propertyByIdent? "wakeup_source", spec.2.kind = .boolean :=
    exists_built (by decide +kernel)
  have hident : identText? (wordLeaf "wakeup_source") = some "wakeup_source" := by decide
  have hasks : AsksForFlag g (.ofDefines {}) 32 (.call "DT_PHANDLE" unlitArgs ⟨0, 0⟩) (wordLeaf "wakeup_source") :=
    ⟨⟨1⟩, "wakeup_source", htarget, hident, habsent, type, spec.1, spec.2, htype, hspec, hkind⟩
  have hforms : Form.ofCall? "DT_PROP_BY_PHANDLE" 3 = some .propertyThrough ∧
      Form.ofCall? "DT_PHANDLE" 2 = some (.phandle .first) := by decide
  exact ⟨g, h, hasks, (composes unlitArgs samePick_first hforms.1 hforms.2 ⟨0, 0⟩ ⟨0, 0⟩ ⟨0, 0⟩).flag hasks⟩

end Devicetree.Proofs
