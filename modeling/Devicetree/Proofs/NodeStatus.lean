import Devicetree.Proofs.AccessorArguments
import Devicetree.Proofs.SpecifierGroups

namespace Devicetree.Proofs

def MeansNode (g : Graph) (env : Accessor.Environment) (depth : Nat) (e : CallExpr) (n : NodeId) : Prop :=
  (Accessor.resolve? g env depth e).bind Resolved.node? = some n

instance (g : Graph) (env : Accessor.Environment) (depth : Nat) (e : CallExpr) (n : NodeId) :
    Decidable (MeansNode g env depth e n) := inferInstanceAs (Decidable (_ = _))

/-- The node has a status, but none of the components of the status is a string. -/
def Wordless (g : Graph) (n : NodeId) : Prop :=
  ∃ p, g.liveProperty? n "status" = some p ∧ ∀ v ∈ (g.property p).values, v.str? = none

/-- What the accessor for a status answers when each of some nodes is asked for `okay`, whatever the expressions are. -/
def AnswersOkay (g : Graph) (env : Accessor.Environment) (nodes : List NodeId) (answer : NodeId → Bool) : Prop :=
  ∀ n ∈ nodes, ∀ a : Accessor.Args, a.node? 0 = some n → a.raw? 1 = some "okay" →
    Accessor.form? g env a .hasStatus = some (.ofBool (answer n))

section Words
variable {g : Graph} {env : Accessor.Environment} {n : NodeId}

theorem no_string_iff : g.stringProperty? n "status" = none ↔ g.liveProperty? n "status" = none ∨ Wordless g n := by
  unfold Graph.stringProperty? Graph.propertyValues? Wordless
  cases g.liveProperty? n "status" with
  | none => simp
  | some p => simp [List.findSome?_eq_none_iff]

theorem wordless_iff :
    Wordless g n ↔ g.stringProperty? n "status" = none ∧ g.liveProperty? n "status" ≠ none := by
  constructor
  · intro h
    obtain ⟨p, hp, hvalues⟩ := h
    exact ⟨no_string_iff.mpr (Or.inr ⟨p, hp, hvalues⟩), by simp [hp]⟩
  · intro h
    exact (no_string_iff.mp h.1).resolve_left h.2

instance (g : Graph) (n : NodeId) : Decidable (Wordless g n) := decidable_of_iff' _ wordless_iff

/-- The status as the word that it is taken for when it is asked for by its word. -/
def statusWord (g : Graph) (n : NodeId) : String := (g.stringProperty? n "status").getD "okay"

/-- Both words for a node in use ask for the same. -/
theorem status_asked {a : Accessor.Args} {word : String} (hn : a.node? 0 = some n) (hw : a.raw? 1 = some word)
    (hword : Graph.isOkay word = true) :
    Accessor.form? g env a .hasStatus = some (.ofBool (Graph.isOkay (statusWord g n))) := by
  have hsame : decide (statusWord g n = word) = true → Graph.isOkay (statusWord g n) = true := by
    intro h
    rw [of_decide_eq_true h]
    exact hword
  have hor : (decide (statusWord g n = word) || (Graph.isOkay (statusWord g n) && Graph.isOkay word)) =
      Graph.isOkay (statusWord g n) := by
    rw [hword, Bool.and_true]
    cases hdecide : decide (statusWord g n = word) with
    | false => rfl
    | true => rw [hsame hdecide, Bool.or_true]
  rw [Accessor.form?, hn, hw]
  exact congrArg (fun b => some (Resolved.ofBool b)) hor

theorem answers_okay (g : Graph) (env : Accessor.Environment) (nodes : List NodeId) :
    AnswersOkay g env nodes fun n => Graph.isOkay (statusWord g n) := by
  intro n _ a hn hw
  exact status_asked hn hw (by decide)

theorem Wordless.taken_as_okay (h : Wordless g n) : Graph.isOkay (statusWord g n) = true := by
  rw [statusWord, (wordless_iff.mp h).1]
  decide

theorem Wordless.not_in_use (h : Wordless g n) : g.isStatusOkay n = false := by
  obtain ⟨hnone, hthere⟩ := wordless_iff.mp h
  simpa [Graph.isStatusOkay, hnone, Option.isSome_iff_ne_none] using hthere

/-- Without a status, or with a string in it, both answers are the same. -/
theorem in_use_eq (h : ¬ Wordless g n) : g.isStatusOkay n = Graph.isOkay (statusWord g n) := by
  unfold Graph.isStatusOkay statusWord
  cases hs : g.stringProperty? n "status" with
  | some word => rfl
  | none =>
    have hnone := (no_string_iff.mp hs).resolve_right h
    rw [hnone]
    decide

theorem taken_as_okay (h : g.isStatusOkay n = true) : Graph.isOkay (statusWord g n) = true := by
  by_cases hw : Wordless g n
  · exact hw.taken_as_okay
  · rw [← in_use_eq hw]
    exact h

theorem agree_iff : Graph.isOkay (statusWord g n) = g.isStatusOkay n ↔ ¬ Wordless g n := by
  constructor
  · intro h hw
    rw [hw.taken_as_okay, hw.not_in_use] at h
    cases h
  · intro hw
    exact (in_use_eq hw).symm

end Words

section Counts

/-- Of two tests the stricter one is passed as often exactly if it is passed by all that pass the other. -/
theorem filter_length_eq_iff {α : Type} {p q : α → Bool} (h : ∀ x, p x = true → q x = true) (xs : List α) :
    (xs.filter p).length = (xs.filter q).length ↔ ∀ x ∈ xs, q x = p x := by
  have hsub : (xs.filter p).Sublist (xs.filter q) := List.monotone_filter_right xs h
  constructor
  · intro hlen x hx
    have heq := hsub.eq_of_length hlen
    rw [Bool.eq_iff_iff]
    refine ⟨fun hq => ?_, h x⟩
    have hmem : x ∈ xs.filter p := heq ▸ List.mem_filter.mpr ⟨hx, hq⟩
    exact (List.mem_filter.mp hmem).2
  · intro hsame
    rw [List.filter_congr hsame]

end Counts

section Calls
variable {g : Graph} {env : Accessor.Environment} {depth : Nat} {node word : CallExpr} {n : NodeId}

theorem MeansNode.first (h : MeansNode g env depth node n) (xs : List CallExpr) :
    (given g env depth (node :: xs)).node? 0 = some n := by
  exact h

theorem MeansNode.has_status (h : MeansNode g env depth node n) {text : String} (hw : rawText? word = some text)
    (hword : Graph.isOkay text = true) (range : Range) :
    Accessor.resolve? g env depth (.call "DT_NODE_HAS_STATUS" [node, word] range) =
      some (.ofBool (Graph.isOkay (statusWord g n))) := by
  have hform : Form.ofCall? "DT_NODE_HAS_STATUS" 2 = some .hasStatus := by decide
  have hraw : (given g env depth [node, word]).raw? 1 = some text := by
    rw [raw_eq]
    exact hw
  rw [resolve_call hform]
  exact status_asked (h.first [word]) hraw hword

theorem MeansNode.in_use (h : MeansNode g env depth node n) (range : Range) :
    Accessor.resolve? g env depth (.call "DT_NODE_HAS_STATUS_OKAY" [node] range) =
      some (.ofBool (g.isStatusOkay n)) := by
  have hform : Form.ofCall? "DT_NODE_HAS_STATUS_OKAY" 1 = some .isOkay := by decide
  rw [resolve_call hform, Accessor.form?, h.first]
  rfl

theorem MeansNode.children_in_use (h : MeansNode g env depth node n) (range : Range) :
    Accessor.resolve? g env depth (.call "DT_CHILD_NUM_STATUS_OKAY" [node] range) =
      some (.ofCount ((g.children n).filter g.isStatusOkay).length) := by
  have hform : Form.ofCall? "DT_CHILD_NUM_STATUS_OKAY" 1 = some .okayChildCount := by decide
  rw [resolve_call hform, Accessor.form?, h.first]
  rfl

end Calls

/-- The three questions for a node in use each have one answer, and the first two the same one, whatever the node's
status looks like. The third one has that answer too exactly if the node does not have a status without a string; a
node with such a status has the status `okay` but is not in use. So the count of the children in use is the number of
those that have the status `okay` exactly if none of them has such a status. -/
theorem status_forms {g : Graph} {env : Accessor.Environment} {depth : Nat} {node okay ok : CallExpr} {n : NodeId}
    (h : MeansNode g env depth node n) (hokay : rawText? okay = some "okay") (hok : rawText? ok = some "ok")
    (range : Range) : ∃ has : Bool, ∃ answer : NodeId → Bool,
    Accessor.resolve? g env depth (.call "DT_NODE_HAS_STATUS" [node, okay] range) = some (.ofBool has) ∧
      Accessor.resolve? g env depth (.call "DT_NODE_HAS_STATUS" [node, ok] range) = some (.ofBool has) ∧
      Accessor.resolve? g env depth (.call "DT_NODE_HAS_STATUS_OKAY" [node] range) =
        some (.ofBool (g.isStatusOkay n)) ∧
      (has = g.isStatusOkay n ↔ ¬ Wordless g n) ∧ (Wordless g n → has = true ∧ g.isStatusOkay n = false) ∧
      AnswersOkay g env (g.children n) answer ∧
      Accessor.resolve? g env depth (.call "DT_CHILD_NUM_STATUS_OKAY" [node] range) =
        some (.ofCount ((g.children n).filter g.isStatusOkay).length) ∧
      (((g.children n).filter g.isStatusOkay).length = ((g.children n).filter answer).length ↔
        ∀ c ∈ g.children n, ¬ Wordless g c) := by
  refine ⟨_, _, h.has_status hokay (by decide) range, h.has_status hok (by decide) range, h.in_use range,
    agree_iff, ?_, answers_okay g env (g.children n), h.children_in_use range, ?_⟩
  · intro hw
    exact ⟨hw.taken_as_okay, hw.not_in_use⟩
  · rw [filter_length_eq_iff fun c => taken_as_okay]
    simp only [agree_iff]

def hushed : List Fragment :=
  let status (values : List Value) : Item := .property { name := "status", values }
  [⟨⟨0⟩, .root []
      [.child { name := .parse "soc" }
          [.child { name := .parse "plain" } [],
            .child { name := .parse "mixed" } [status [.cells [number 1], .str "ok"]],
            .child { name := .parse "late" } [status [.str "disabled"]],
            .child { name := .parse "freed" } [status [.str "disabled"]]],
        .child { name := .parse "mute" } [status [.cells [number 1]]]] {}⟩,
    ⟨⟨1⟩, .root []
      [.child { name := .parse "soc" }
        [.child { name := .parse "late" } [status [.str "okay"]],
          .child { name := .parse "freed" } [.deleteProperty { name := "status" }]]] {}⟩]

def inHushed (g : Graph) (accessor : String) (path words : List String) : Option Resolved :=
  Accessor.resolve? g (.ofDefines {}) 32
    (.call accessor (.call "DT_PATH" (path.map wordLeaf) ⟨0, 0⟩ :: words.map wordLeaf) ⟨0, 0⟩)

/-- All answers for the bus are the same, and so is the count of its devices, while the other node has the status `okay`
and is not in use. -/
theorem status_forms_overlaid :
    ∃ g, Build.build {} hushed (fun _ => false) = .ok g ∧
      (∀ c ∈ g.children ⟨1⟩, ¬ Wordless g c) ∧ Wordless g ⟨6⟩ ∧
      inHushed g "DT_NODE_HAS_STATUS" ["soc"] ["okay"] = inHushed g "DT_NODE_HAS_STATUS_OKAY" ["soc"] [] ∧
      (∃ answer, AnswersOkay g (.ofDefines {}) (g.children ⟨1⟩) answer ∧
        inHushed g "DT_CHILD_NUM_STATUS_OKAY" ["soc"] [] =
          some (.ofCount ((g.children ⟨1⟩).filter answer).length)) ∧
      inHushed g "DT_NODE_HAS_STATUS" ["mute"] ["ok"] = some (.ofBool true) ∧
      inHushed g "DT_NODE_HAS_STATUS_OKAY" ["mute"] [] = some (.ofBool false) := by
  obtain ⟨g, h, ⟨hsoc, hsays, hchildren⟩, hmute, hwordless⟩ :
      ∃ g, Build.build {} hushed (fun _ => false) = .ok g ∧
        (MeansNode g (.ofDefines {}) 32 (.call "DT_PATH" [wordLeaf "soc"] ⟨0, 0⟩) ⟨1⟩ ∧ ¬ Wordless g ⟨1⟩ ∧
          ∀ c ∈ g.children ⟨1⟩, ¬ Wordless g c) ∧
        MeansNode g (.ofDefines {}) 32 (.call "DT_PATH" [wordLeaf "mute"] ⟨0, 0⟩) ⟨6⟩ ∧ Wordless g ⟨6⟩ :=
    exists_built (by decide +kernel)
  have hwords : rawText? (wordLeaf "okay") = some "okay" ∧ rawText? (wordLeaf "ok") = some "ok" := by decide
  obtain ⟨has, answer, hhas, -, huses, hagree, -, hanswer, hcount, hall⟩ :=
    status_forms hsoc hwords.1 hwords.2 ⟨0, 0⟩
  obtain ⟨_, _, -, hok, hunused, -, hapart, -⟩ := status_forms hmute hwords.1 hwords.2 ⟨0, 0⟩
  obtain ⟨rfl, hmuted⟩ := hapart hwordless
  obtain rfl := hagree.mpr hsays
  rw [hmuted] at hunused
  rw [hall.mpr hchildren] at hcount
  exact ⟨g, h, hchildren, hwordless, hhas.trans huses.symm, ⟨answer, hanswer, hcount⟩, hok, hunused⟩

/-- The node whose status is a cell has the status `okay`, is not in use, and is not counted among the two children of
the root in use. -/
theorem status_forms_hushed :
    ∃ g, Build.build {} hushed (fun _ => false) = .ok g ∧
      inHushed g "DT_NODE_HAS_STATUS" ["mute"] ["okay"] = some (.ofBool true) ∧
      inHushed g "DT_NODE_HAS_STATUS_OKAY" ["mute"] [] = some (.ofBool false) ∧
      g.children Graph.root = [⟨1⟩, ⟨6⟩] ∧
      Accessor.resolve? g (.ofDefines {}) 32 (.call "DT_CHILD_NUM_STATUS_OKAY" [.call "DT_ROOT" [] ⟨0, 0⟩] ⟨0, 0⟩) =
        some (.ofCount 1) := by
  obtain ⟨g, h, hroot, hmute, hwordless, hchildren, hcount⟩ :
      ∃ g, Build.build {} hushed (fun _ => false) = .ok g ∧
        MeansNode g (.ofDefines {}) 32 (.call "DT_ROOT" [] ⟨0, 0⟩) Graph.root ∧
        MeansNode g (.ofDefines {}) 32 (.call "DT_PATH" [wordLeaf "mute"] ⟨0, 0⟩) ⟨6⟩ ∧ Wordless g ⟨6⟩ ∧
        g.children Graph.root = [⟨1⟩, ⟨6⟩] ∧ ((g.children Graph.root).filter g.isStatusOkay).length = 1 :=
    exists_built (by decide +kernel)
  have hword : rawText? (wordLeaf "okay") = some "okay" := by decide
  have hhas := hmute.has_status hword (by decide) ⟨0, 0⟩
  have huses := hmute.in_use ⟨0, 0⟩
  have hchildrenUse := hroot.children_in_use ⟨0, 0⟩
  rw [hwordless.taken_as_okay] at hhas
  rw [hwordless.not_in_use] at huses
  rw [hcount] at hchildrenUse
  exact ⟨g, h, hhas, huses, hchildren, hchildrenUse⟩

end Devicetree.Proofs
