import Devicetree.CallTree.Parse
import Devicetree.Proofs.CallGrammar
import Devicetree.Proofs.CallNesting

namespace Devicetree.Proofs
open CallExpr

section Nodes

theorem modify_middle (left : List CallNode) (n : CallNode) (right : List CallNode) (f : CallNode → CallNode) :
    (left ++ n :: right).modify left.length f = left ++ f n :: right := by
  induction left with
  | nil => rfl
  | cons m left ih => simpa using ih

theorem setArgs_middle (left : List CallNode) (n : CallNode) (right : List CallNode) (args : List Nat) :
    (⟨left ++ n :: right⟩ : CallTree).setArgs left.length args = ⟨left ++ { n with args } :: right⟩ :=
  congrArg CallTree.mk (modify_middle ..)

theorem setRange_middle (left : List CallNode) (n : CallNode) (right : List CallNode) (range : Range) :
    (⟨left ++ n :: right⟩ : CallTree).setRange left.length range = ⟨left ++ { n with range } :: right⟩ :=
  congrArg CallTree.mk (modify_middle ..)

theorem truncate_append (ns left : List CallNode) : (⟨ns ++ left⟩ : CallTree).truncate ns.length = ⟨ns⟩ := by
  rw [CallTree.truncate, List.take_left]

end Nodes

section Pushing
variable {source : List Char} {n p j : Nat} {ts rest : List Token} {ns : List CallNode} {parent : Option Nat}
  {r : Option Nat × CallTree.State}

/-- What is read is pushed under the number that is next. Where nothing is read, none of the nodes is lost. -/
def Pushes (ns : List CallNode) (parent : Option Nat) (j : Nat) :
    Option (CallExpr × List Token) → Option Nat × CallTree.State → Prop
  | some (e, rest), r => r = (some ns.length, ⟨rest, ⟨ns ++ nodesFrom ns.length parent j e⟩⟩)
  | none, r => ∃ rest left, r = (none, ⟨rest, ⟨ns ++ left⟩⟩)

/-- The arguments that are read are pushed behind those that the call has, and the call is filled in. -/
def Fills (before : List CallNode) (call : CallNode) (done : List CallNode) (start : Nat) (args : List Nat) :
    Option (List CallExpr × Nat × List Token) → Option Nat × CallTree.State → Prop
  | some (es, stop, rest), r =>
    let next := (before ++ call :: done).length
    let filled := { call with args := args ++ argNumbers next es, range := ⟨start, stop⟩ }
    r = (some before.length,
      ⟨rest, ⟨before ++ filled :: (done ++ argNodes before.length next args.length es)⟩⟩)
  | none, r => ∃ rest left, r = (none, ⟨rest, ⟨before ++ left⟩⟩)

/-- With `n` units of fuel the tree gets what is read. -/
structure InTandem (source : List Char) (n : Nat) : Prop where
  expr (ts : List Token) (ns : List CallNode) (parent : Option Nat) (j : Nat) :
    Pushes ns parent j (CallExpr.parseExpr source n ts) (CallTree.parseExpr source n parent j ⟨ts, ⟨ns⟩⟩)
  args (ts : List Token) (before : List CallNode) (call : CallNode) (done : List CallNode) (start : Nat)
    (args : List Nat) :
    Fills before call done start args (CallExpr.parseArgs source n ts)
      (CallTree.parseArgs source n before.length start args ⟨ts, ⟨before ++ call :: done⟩⟩)

theorem rawArg_pushes :
    Pushes ns (some p) j (CallExpr.rawArg? source ts) (CallTree.rawArg source p j ⟨ts, ⟨ns⟩⟩) := by
  cases ts with
  | nil => exact ⟨[], [], by rw [List.append_nil]; rfl⟩
  | cons t ts => rfl

theorem settleArg_pushes (h : Pushes ns (some p) j (CallExpr.parseExpr source n ts) r) :
    Pushes ns (some p) j (parseArg source n ts) (CallTree.settleArg source p j ⟨ts, ⟨ns⟩⟩ r) := by
  unfold parseArg
  -- the attempt has left nodes behind, and the raw argument comes in their place
  have hraw : ∀ left, Pushes ns (some p) j (CallExpr.rawArg? source ts)
      (CallTree.rawArg source p j ⟨ts, (⟨ns ++ left⟩ : CallTree).truncate ns.length⟩) := by
    intro left
    rw [truncate_append]
    exact rawArg_pushes
  rcases hread : CallExpr.parseExpr source n ts with _ | ⟨e, rest⟩
  · rw [hread] at h
    obtain ⟨rest, left, rfl⟩ := h
    exact hraw left
  · rw [hread] at h
    obtain rfl := h
    cases rest with
    | nil => exact hraw _
    | cons t rest =>
      cases hends : CallExpr.endsArg t with
      | true => simp [CallTree.settleArg, hends, Pushes]
      | false =>
        simp only [CallTree.settleArg, List.head?_cons, Option.any_some, hends]
        exact hraw _

end Pushing

section Steps
variable {source : List Char} {n : Nat}

/-- One more argument has been pushed, and then the others. -/
theorem Fills.cons {before done : List CallNode} {call : CallNode} {start next : Nat} {args : List Nat} {e : CallExpr}
    {read : Option (List CallExpr × Nat × List Token)} {r : Option Nat × CallTree.State}
    (hnext : (before ++ call :: done).length = next)
    (h : Fills before call (done ++ nodesFrom next (some before.length) args.length e) start (args ++ [next]) read r) :
    Fills before call done start args (read.bind fun m => some (e :: m.1, m.2)) r := by
  rcases read with _ | ⟨es, stop, rest⟩
  · exact h
  · have hlength : (before ++ call :: (done ++ nodesFrom next (some before.length) args.length e)).length =
        next + e.size := by
      simp [← hnext, length_nodesFrom]
      omega
    simpa [Fills, argNumbers, argNodes_cons, hnext, hlength] using h

/-- With all of its arguments a call is pushed as a whole. -/
theorem Fills.call {before : List CallNode} {name : String} {parent : Option Nat} {j start : Nat} {range : Range}
    {read : Option (List CallExpr × Nat × List Token)} {r : Option Nat × CallTree.State}
    (h : Fills before ⟨.call, name, [], parent, j, range⟩ [] start [] read r) :
    Pushes before parent j (read.bind fun m => some (.call name m.1 ⟨start, m.2.1⟩, m.2.2)) r := by
  rcases read with _ | ⟨es, stop, rest⟩
  · exact h
  · simpa [Fills, Pushes, nodesFrom_call] using h

theorem InTandem.args_succ (h : InTandem source n) (ts : List Token) (before : List CallNode) (call : CallNode)
    (done : List CallNode) (start : Nat) (args : List Nat) :
    Fills before call done start args (CallExpr.parseArgs source (n + 1) ts)
      (CallTree.parseArgs source (n + 1) before.length start args ⟨ts, ⟨before ++ call :: done⟩⟩) := by
  have harg := settleArg_pushes (h.expr ts (before ++ call :: done) (some before.length) args.length)
  rw [parseArgs_succ, CallTree.parseArgs.eq_def]
  rcases hread : parseArg source n ts with _ | ⟨e, rest⟩
  · rw [hread] at harg
    obtain ⟨rest, left, hr⟩ := harg
    simp only [hr]
    exact ⟨rest, call :: done ++ left, by rw [List.append_assoc]⟩
  · rw [hread] at harg
    obtain ⟨next, hnext⟩ : ∃ next, (before ++ call :: done).length = next := ⟨_, rfl⟩
    simp only [show _ = _ from harg, hnext, Option.bind_some]
    have hpushed : before ++ call :: done ++ nodesFrom next (some before.length) args.length e =
        before ++ call :: (done ++ nodesFrom next (some before.length) args.length e) := by simp
    rw [hpushed]
    cases rest with
    | nil => exact ⟨_, _, rfl⟩
    | cons t after =>
      dsimp only
      cases t.kind with
      | comma => exact (h.args after before call _ start (args ++ [next])).cons hnext
      | rparen =>
        dsimp only
        rw [setArgs_middle, setRange_middle]
        simp [Fills, argNumbers, hnext, argNodes_cons, argNodes_nil]
      | _ => exact ⟨_, _, rfl⟩

theorem parseExpr_succ {t : Token} {ts : List Token} :
    CallExpr.parseExpr source (n + 1) (t :: ts) = (CallExpr.leafKind? t.kind).bind fun kind =>
      if CallExpr.startsCall (t :: ts) then
        match ts.tail with
        | [] => none
        | q :: after =>
          if q.kind = .rparen then some (.call t.text [] ⟨t.offset, q.stop⟩, after)
          else (CallExpr.parseArgs source n (q :: after)).bind fun m =>
            some (.call t.text m.1 ⟨t.offset, m.2.1⟩, m.2.2)
      else some (.leaf kind t.text ⟨t.offset, t.stop⟩, ts) := by
  rw [CallExpr.parseExpr.eq_def]
  dsimp only [Option.bind_eq_bind]
  cases hkind : CallExpr.leafKind? t.kind with
  | none => rfl
  | some kind =>
    have hident : kind = .ident ↔ t.kind = .ident := by rw [← leafKind_ident, hkind, Option.some_inj]
    by_cases ht : t.kind = .ident
    · rcases ts with _ | ⟨left, ts⟩
      · simp [CallExpr.startsCall]
      · by_cases hleft : left.kind = .lparen
        · cases ts <;> simp [CallExpr.startsCall, hident, ht, hleft]
        · simp [CallExpr.startsCall, ht, hleft]
    · have hstarts : CallExpr.startsCall (t :: ts) = false := by cases ts <;> simp [CallExpr.startsCall, ht]
      simp [hident, ht, hstarts]

theorem InTandem.expr_succ (h : InTandem source n) (ts : List Token) (ns : List CallNode) (parent : Option Nat) (j : Nat) :
    Pushes ns parent j (CallExpr.parseExpr source (n + 1) ts)
      (CallTree.parseExpr source (n + 1) parent j ⟨ts, ⟨ns⟩⟩) := by
  cases ts with
  | nil => exact ⟨[], [], by rw [List.append_nil]; rfl⟩
  | cons t ts =>
    rw [parseExpr_succ, CallTree.parseExpr.eq_def]
    dsimp only
    cases CallExpr.leafKind? t.kind with
    | none => exact ⟨t :: ts, [], by rw [List.append_nil]⟩
    | some kind =>
      cases CallExpr.startsCall (t :: ts) with
      | false => simp [Pushes, nodesFrom_leaf, CallTree.push, CallTree.size]
      | true =>
        cases ts.tail with
        | nil => exact ⟨[], _, rfl⟩
        | cons q after =>
          by_cases hright : q.kind = .rparen
          · simp [hright, CallTree.push, CallTree.size, setRange_middle, Pushes, nodesFrom_call, argNumbers,
              argNodes_nil]
          · simpa [hright, CallTree.push, CallTree.size] using (h.args (q :: after) ns _ [] t.offset []).call

theorem inTandem (source : List Char) (n : Nat) : InTandem source n := by
  induction n with
  | zero =>
    refine ⟨fun ts ns parent j => ⟨ts, [], ?_⟩, fun ts before call done start args => ⟨ts, call :: done, rfl⟩⟩
    rw [List.append_nil]
    rfl
  | succ n ih => exact ⟨ih.expr_succ, ih.args_succ⟩

/-- The parser's tree lists the parts of the expression, and nothing else. -/
theorem parse_tree (text : String) : CallTree.parse? text = (CallExpr.parse? text).map treeOf := by
  have h := (inTandem text.toList (2 * (Token.tokenize text).length + 2)).expr (Token.tokenize text) [] none 0
  unfold CallTree.parse? CallExpr.parse? CallExpr.parseTokens?
  rcases hread : CallExpr.parseExpr text.toList (2 * (Token.tokenize text).length + 2) (Token.tokenize text)
    with _ | ⟨e, rest⟩
  · rw [hread] at h
    obtain ⟨rest, left, hr⟩ := h
    simp only [hr]
    rfl
  · rw [hread] at h
    simp only [show _ = _ from h]
    rfl

end Steps

/-- The nodes of a parsed tree are numbered from the outside in, their ranges lie inside each other as the nodes do,
and the calls around an offset are exactly the innermost one and the nodes around it. -/
theorem parsed_tree {text : String} {tree : CallTree} (h : CallTree.parse? text = some tree) :
    Numbered tree ∧ RangesNest tree ∧ ∀ offset,
      (∀ i j, Around tree offset i → Around tree offset j → Above tree i j ∨ Above tree j i) ∧
      (∀ i, tree.innermostCall? offset = some i ↔ ∀ j, Around tree offset j ↔ Above tree j i) ∧
      (tree.innermostCall? offset = none ↔ ∀ i, ¬ Around tree offset i) := by
  rw [parse_tree, Option.map_eq_some_iff] at h
  obtain ⟨_, hparse, rfl⟩ := h
  obtain ⟨⟨e, rest⟩, hread, rfl⟩ := Option.map_eq_some_iff.mp hparse
  obtain ⟨g, hts, hg, _⟩ := parseTokens_iff.mp hread
  have hspaced : Spaced g := (tokenize_spaced text).sublist (hts ▸ List.sublist_append_left ..)
  have hn := numbered e
  have hr := rangesNest (hg.lies hspaced).1
  refine ⟨hn, hr, fun offset => ⟨?_, fun i => innermost_iff hn hr, ?_⟩⟩
  · rintro i j ⟨n, hi, _, hni⟩ ⟨m, hj, _, hmj⟩
    exact hr.chain hn hi hni hj hmj
  · rcases innermost_cases (treeOf e) offset with ⟨hnone, hall⟩ | ⟨i, _, hsome, haround, _⟩
    · exact ⟨fun _ => hall, fun _ => hnone⟩
    · rw [hsome]
      exact ⟨nofun, fun hall => absurd haround (hall i)⟩

def layered : CallTree where
  nodes := [
    ⟨.call, "F", [1, 2, 5], none, 0, ⟨0, 21⟩⟩,
    ⟨.leaf .raw, "a b", [], some 0, 0, ⟨2, 5⟩⟩,
    ⟨.call, "G", [3, 4], some 0, 1, ⟨7, 18⟩⟩,
    ⟨.leaf .number, "'x'", [], some 2, 0, ⟨9, 12⟩⟩,
    ⟨.call, "H", [], some 2, 1, ⟨14, 17⟩⟩,
    ⟨.leaf .raw, "", [], some 0, 2, ⟨20, 20⟩⟩]

theorem parsed_tree_layered : CallTree.parse? "F(a b, G('x', H()), )" = some layered ∧
    layered.innermostCall? 16 = some 4 ∧ Numbered layered ∧ RangesNest layered ∧
    ∀ j, Around layered 16 j ↔ Above layered j 4 := by
  have hparse : CallTree.parse? "F(a b, G('x', H()), )" = some layered := by decide +kernel
  obtain ⟨hn, hr, hall⟩ := parsed_tree hparse
  have hinnermost : layered.innermostCall? 16 = some 4 := by decide
  exact ⟨hparse, hinnermost, hn, hr, ((hall 16).2.1 4).mp hinnermost⟩

end Devicetree.Proofs
