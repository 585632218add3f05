import Devicetree.CallTree

namespace Devicetree.Proofs
open CallExpr

mutual

def decidableEqExpr : (a b : CallExpr) → Decidable (a = b)
  | .leaf kind text range, .leaf kind' text' range' =>
    decidable_of_iff (kind = kind' ∧ text = text' ∧ range = range') (by simp)
  | .leaf _ _ _, .call _ _ _ => isFalse nofun
  | .call _ _ _, .leaf _ _ _ => isFalse nofun
  | .call name args range, .call name' args' range' =>
    have := decidableEqArgs args args'
    decidable_of_iff (name = name' ∧ args = args' ∧ range = range') (by simp)

def decidableEqArgs : (as bs : List CallExpr) → Decidable (as = bs)
  | [], [] => isTrue rfl
  | [], _ :: _ => isFalse nofun
  | _ :: _, [] => isFalse nofun
  | a :: as, b :: bs =>
    have := decidableEqExpr a b
    have := decidableEqArgs as bs
    decidable_of_iff (a = b ∧ as = bs) (by simp)

end

instance : DecidableEq CallExpr := decidableEqExpr

def argsOf : CallExpr → List CallExpr
  | .leaf _ _ _ => []
  | .call _ args _ => args

/-- The part with the number `i` of an expression: the part that it is an argument of, its place there, and what
it is. -/
inductive PartAt (e : CallExpr) : Nat → Option Nat → Nat → CallExpr → Prop
  | outermost : PartAt e 0 none 0 e
  | arg {i j k m : Nat} {parent : Option Nat} {call a : CallExpr} (h : PartAt e i parent j call)
      (ha : (argsOf call)[k]? = some a) (hm : (argNumbers (i + 1) (argsOf call))[k]? = some m) :
      PartAt e m (some i) k a

def kindOf : CallExpr → CallKind
  | .leaf kind _ _ => .leaf kind
  | .call _ _ _ => .call

def partNode (q : Part) : CallNode := ⟨kindOf q.expr, q.expr.name, q.args, q.parent, q.argIndex, q.expr.range⟩

def nodesFrom (n : Nat) (parent : Option Nat) (j : Nat) (e : CallExpr) : List CallNode :=
  (partsFrom n parent j e).map partNode

def argNodes (parent next j : Nat) (es : List CallExpr) : List CallNode := (argParts parent next j es).map partNode

/-- The tree that lists the parts of an expression. -/
def treeOf (e : CallExpr) : CallTree := ⟨e.parts.map partNode⟩

/-- From the numbers that wait, always going on with the first one and its arguments leads through the second
list. -/
inductive Visits (tree : CallTree) : List Nat → List Nat → Prop
  | done : Visits tree [] []
  | next {i : Nat} {n : CallNode} {waiting visited : List Nat} (h : tree.nodes[i]? = some n)
      (hrest : Visits tree (n.args ++ waiting) visited) : Visits tree (i :: waiting) (i :: visited)

/-- The nodes are numbered in the order of a walk from the outermost node, and their links agree. -/
structure Numbered (tree : CallTree) : Prop where
  preorder : Visits tree [0] (List.range tree.size)
  outermost {n : CallNode} (h : tree.nodes[0]? = some n) : n.parent = none
  parent {i : Nat} {n : CallNode} (h : tree.nodes[i]? = some n) (hi : 0 < i) : ∃ p, n.parent = some p ∧ p < i
  arg_iff {p k i : Nat} : (∃ n, tree.nodes[p]? = some n ∧ n.args[k]? = some i) ↔
    ∃ n, tree.nodes[i]? = some n ∧ n.parent = some p ∧ n.argIndex = k
  call {i : Nat} {n : CallNode} (h : tree.nodes[i]? = some n) (hargs : n.args ≠ []) : n.kind = .call

section Numbers
variable {next k m : Nat} {args : List CallExpr}

theorem length_argNumbers (next : Nat) (args : List CallExpr) :
    (argNumbers next args).length = args.length := by
  induction args generalizing next with
  | nil => rfl
  | cons a as ih => simp [argNumbers, ih]

theorem le_of_argNumbers (h : (argNumbers next args)[k]? = some m) : next ≤ m := by
  induction args generalizing next k with
  | nil => simp [argNumbers] at h
  | cons a as ih =>
    cases k with
    | zero =>
      obtain rfl : next = m := by simpa [argNumbers] using h
      exact Nat.le_refl _
    | succ k => exact Nat.le_trans (Nat.le_add_right _ _) (ih (by simpa [argNumbers] using h))

theorem arg_of_number (h : (argNumbers next args)[k]? = some m) : ∃ a, args[k]? = some a := by
  obtain ⟨hk, _⟩ := List.getElem?_eq_some_iff.mp h
  rw [length_argNumbers] at hk
  exact ⟨args[k], List.getElem?_eq_getElem hk⟩

end Numbers

section Parts

theorem partsFrom_eq (n : Nat) (parent : Option Nat) (j : Nat) (e : CallExpr) : partsFrom n parent j e =
    ⟨e, parent, j, argNumbers (n + 1) (argsOf e)⟩ :: argParts n (n + 1) 0 (argsOf e) := by
  cases e <;> rfl

mutual

theorem length_partsFrom (n : Nat) (parent : Option Nat) (j : Nat) :
    (e : CallExpr) → (partsFrom n parent j e).length = e.size
  | .leaf _ _ _ => rfl
  | .call _ args _ => by rw [partsFrom, size, List.length_cons, length_argParts]

theorem length_argParts (parent next j : Nat) :
    (args : List CallExpr) → (argParts parent next j args).length = sizes args
  | [] => rfl
  | a :: as => by rw [argParts, sizes, List.length_append, length_partsFrom, length_argParts]

end

/-- The parts of one argument stand together among those of all arguments. -/
theorem argParts_split {parent next j k m : Nat} {args : List CallExpr} {a : CallExpr}
    (ha : args[k]? = some a) (hm : (argNumbers next args)[k]? = some m) :
    ∃ left right, argParts parent next j args = left ++ partsFrom m (some parent) (j + k) a ++ right ∧
      next + left.length = m := by
  induction args generalizing next j k with
  | nil => simp at ha
  | cons b bs ih =>
    cases k with
    | zero =>
      obtain rfl : b = a := by simpa using ha
      obtain rfl : next = m := by simpa [argNumbers] using hm
      exact ⟨[], _, rfl, rfl⟩
    | succ k =>
      have hrest : (argNumbers (next + b.size) bs)[k]? = some m := by simpa [argNumbers] using hm
      obtain ⟨left, right, hsplit, hleft⟩ := ih (j := j + 1) (by simpa using ha) hrest
      refine ⟨partsFrom next (some parent) j b ++ left, right, ?_, ?_⟩
      · rw [argParts, hsplit, show j + (k + 1) = j + 1 + k by omega]
        simp
      · rw [List.length_append, length_partsFrom]
        omega

theorem PartAt.split {e p : CallExpr} {i j : Nat} {parent : Option Nat} (h : PartAt e i parent j p) :
    ∃ left right, e.parts = left ++ partsFrom i parent j p ++ right ∧ left.length = i := by
  induction h with
  | outermost => exact ⟨[], [], by simp [parts], rfl⟩
  | @arg i j k m parent call a _ ha hm ih =>
    obtain ⟨left, right, hsplit, hleft⟩ := ih
    obtain ⟨before, after, hargs, hbefore⟩ := argParts_split ha hm
    refine ⟨left ++ ⟨call, parent, j, argNumbers (i + 1) (argsOf call)⟩ :: before, after ++ right, ?_, ?_⟩
    · rw [hsplit, partsFrom_eq i, hargs]
      simp
    · simp
      omega

theorem PartAt.get {e p : CallExpr} {i j : Nat} {parent : Option Nat} (h : PartAt e i parent j p) :
    e.parts[i]? = some ⟨p, parent, j, argNumbers (i + 1) (argsOf p)⟩ := by
  obtain ⟨left, right, hsplit, rfl⟩ := h.split
  rw [hsplit, partsFrom_eq]
  simp

theorem PartAt.above {e p : CallExpr} {i j : Nat} {parent : Option Nat} (h : PartAt e i parent j p) :
    (i = 0 ∧ parent = none) ∨ ∃ k, parent = some k ∧ k < i := by
  cases h with
  | outermost => exact .inl ⟨rfl, rfl⟩
  | arg _ _ hm => exact .inr ⟨_, rfl, le_of_argNumbers hm⟩

def ArgsAt (e : CallExpr) (parent next j : Nat) (args : List CallExpr) : Prop :=
  ∀ {k m : Nat} {a : CallExpr}, args[k]? = some a → (argNumbers next args)[k]? = some m →
    PartAt e m (some parent) (j + k) a

theorem PartAt.args {e p : CallExpr} {i j : Nat} {parent : Option Nat} (h : PartAt e i parent j p) :
    ArgsAt e i (i + 1) 0 (argsOf p) := by
  intro k m a ha hm
  rw [Nat.zero_add]
  exact .arg h ha hm

theorem ArgsAt.head {e a : CallExpr} {as : List CallExpr} {parent next j : Nat}
    (h : ArgsAt e parent next j (a :: as)) : PartAt e next (some parent) j a :=
  h (k := 0) rfl rfl

theorem ArgsAt.tail {e a : CallExpr} {as : List CallExpr} {parent next j : Nat}
    (h : ArgsAt e parent next j (a :: as)) : ArgsAt e parent (next + a.size) (j + 1) as := by
  intro k m b hb hm
  rw [show j + 1 + k = j + (k + 1) by omega]
  exact h (k := k + 1) hb hm

mutual

theorem partAt_of_partsFrom {e : CallExpr} {n i j : Nat} {parent : Option Nat} {q : Part} : (p : CallExpr) →
    PartAt e n parent j p → (partsFrom n parent j p)[i]? = some q →
    PartAt e (n + i) q.parent q.argIndex q.expr
  | .leaf _ _ _, h, hq => by
    cases i with
    | zero =>
      cases hq
      exact h
    | succ i => simp [partsFrom] at hq
  | .call _ args _, h, hq => by
    cases i with
    | zero =>
      cases hq
      exact h
    | succ i =>
      have harg := partAt_of_argParts args h.args (by simpa [partsFrom] using hq)
      rwa [show n + (i + 1) = n + 1 + i by omega]

theorem partAt_of_argParts {e : CallExpr} {parent next i j : Nat} {q : Part} : (args : List CallExpr) →
    ArgsAt e parent next j args → (argParts parent next j args)[i]? = some q →
    PartAt e (next + i) q.parent q.argIndex q.expr
  | [], _, hq => by simp [argParts] at hq
  | a :: as, h, hq => by
    rw [argParts, List.getElem?_append, length_partsFrom] at hq
    split at hq
    · exact partAt_of_partsFrom a h.head hq
    · rename_i hlt
      have harg := partAt_of_argParts as h.tail hq
      rwa [show next + a.size + (i - a.size) = next + i by omega] at harg

end

/-- What the listing has under a number is that part of the expression. -/
theorem partAt_of_get {e : CallExpr} {i : Nat} {q : Part} (h : e.parts[i]? = some q) :
    PartAt e i q.parent q.argIndex q.expr := by
  simpa using partAt_of_partsFrom e .outermost h

theorem args_of_get {e : CallExpr} {i : Nat} {q : Part} (h : e.parts[i]? = some q) :
    q.args = argNumbers (i + 1) (argsOf q.expr) := by
  have hget := (partAt_of_get h).get
  rw [h, Option.some.injEq] at hget
  exact congrArg Part.args hget

end Parts

section Nodes

theorem nodesFrom_leaf (n : Nat) (parent : Option Nat) (j : Nat) (kind : LeafKind) (text : String) (range : Range) :
    nodesFrom n parent j (.leaf kind text range) = [⟨.leaf kind, text, [], parent, j, range⟩] := rfl

theorem nodesFrom_call (n : Nat) (parent : Option Nat) (j : Nat) (name : String) (es : List CallExpr) (range : Range) :
    nodesFrom n parent j (.call name es range) =
      ⟨.call, name, argNumbers (n + 1) es, parent, j, range⟩ :: argNodes n (n + 1) 0 es := rfl

theorem argNodes_nil (parent next j : Nat) : argNodes parent next j [] = [] := rfl

theorem argNodes_cons (parent next j : Nat) (e : CallExpr) (es : List CallExpr) :
    argNodes parent next j (e :: es) =
      nodesFrom next (some parent) j e ++ argNodes parent (next + e.size) (j + 1) es := by
  rw [argNodes, argParts, List.map_append]
  rfl

theorem length_nodesFrom (n : Nat) (parent : Option Nat) (j : Nat) (e : CallExpr) :
    (nodesFrom n parent j e).length = e.size := by
  rw [nodesFrom, List.length_map, length_partsFrom]

theorem kindOf_eq_call {p : CallExpr} : kindOf p = .call ↔ p.isCall = true := by
  cases p <;> simp [kindOf, isCall]

/-- The node of a part. -/
theorem PartAt.node {e p : CallExpr} {i j : Nat} {parent : Option Nat} (h : PartAt e i parent j p) :
    (treeOf e).nodes[i]? = some ⟨kindOf p, p.name, argNumbers (i + 1) (argsOf p), parent, j, p.range⟩ := by
  rw [treeOf, List.getElem?_map, h.get]
  rfl

/-- Every node is that of a part. -/
theorem partAt_of_node {e : CallExpr} {i : Nat} {n : CallNode} (h : (treeOf e).nodes[i]? = some n) :
    ∃ p, PartAt e i n.parent n.argIndex p ∧
      n = ⟨kindOf p, p.name, argNumbers (i + 1) (argsOf p), n.parent, n.argIndex, p.range⟩ := by
  rw [treeOf, List.getElem?_map, Option.map_eq_some_iff] at h
  obtain ⟨q, hq, rfl⟩ := h
  refine ⟨q.expr, partAt_of_get hq, ?_⟩
  rw [← args_of_get hq]
  rfl

theorem size_treeOf (e : CallExpr) : (treeOf e).size = e.size := by
  rw [CallTree.size, treeOf, List.length_map, parts, length_partsFrom]

end Nodes

section Walks

mutual

theorem visits_part {e : CallExpr} {n j : Nat} {parent : Option Nat} {waiting visited : List Nat} :
    (p : CallExpr) → PartAt e n parent j p → Visits (treeOf e) waiting visited →
    Visits (treeOf e) (n :: waiting) (List.range' n p.size ++ visited)
  | .leaf _ _ _, h, hrest => .next h.node hrest
  | .call _ args _, h, hrest => .next h.node (visits_args args h.args hrest)

theorem visits_args {e : CallExpr} {parent next j : Nat} {waiting visited : List Nat} :
    (args : List CallExpr) → ArgsAt e parent next j args → Visits (treeOf e) waiting visited →
    Visits (treeOf e) (argNumbers next args ++ waiting) (List.range' next (sizes args) ++ visited)
  | [], _, hrest => hrest
  | a :: as, h, hrest => by
    have hall := visits_part a h.head (visits_args as h.tail hrest)
    rwa [← List.append_assoc, List.range'_append_1] at hall

end

theorem numbered (e : CallExpr) : Numbered (treeOf e) where
  preorder := by
    have hall := visits_part e .outermost .done
    rwa [List.append_nil, ← List.range_eq_range', ← size_treeOf e] at hall
  outermost := by
    intro n h
    obtain ⟨p, hp, _⟩ := partAt_of_node h
    rcases hp.above with ⟨_, hnone⟩ | ⟨k, _, hk⟩
    · exact hnone
    · omega
  parent := by
    intro i n h hi
    obtain ⟨p, hp, _⟩ := partAt_of_node h
    rcases hp.above with ⟨hzero, _⟩ | habove
    · omega
    · exact habove
  arg_iff := by
    intro p k i
    constructor
    · rintro ⟨n, hn, hk⟩
      obtain ⟨call, hcall, heq⟩ := partAt_of_node hn
      rw [heq] at hk
      obtain ⟨a, ha⟩ := arg_of_number hk
      exact ⟨_, (hcall.arg ha hk).node, rfl, rfl⟩
    · rintro ⟨n, hn, hparent, hk⟩
      obtain ⟨a, hat, _⟩ := partAt_of_node hn
      rw [hparent, hk] at hat
      cases hat with
      | arg h _ hm => exact ⟨_, h.node, hm⟩
  call := by
    intro i n h hargs
    obtain ⟨p, _, heq⟩ := partAt_of_node h
    rw [heq] at hargs ⊢
    cases p with
    | leaf => exact absurd rfl hargs
    | call => rfl

end Walks

end Devicetree.Proofs
