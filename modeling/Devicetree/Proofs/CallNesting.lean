import Devicetree.Proofs.CallGrammar
import Devicetree.Proofs.CallListing
import Devicetree.Proofs.Lexemes

namespace Devicetree.Proofs

inductive Nested : CallExpr → Prop
  | intro {e : CallExpr}
      (hinside : ∀ a ∈ argsOf e, e.range.start < a.range.start ∧ a.range.stop < e.range.stop)
      (hordered : ∀ a ∈ argsOf e, a.range.start ≤ a.range.stop)
      (hapart : (argsOf e).Pairwise fun a b => a.range.stop < b.range.start)
      (hargs : ∀ a ∈ argsOf e, Nested a) : Nested e

structure RangesNest (tree : CallTree) : Prop where
  inside {i p : Nat} {n m : CallNode} (hn : tree.nodes[i]? = some n) (hp : n.parent = some p)
    (hm : tree.nodes[p]? = some m) :
    m.range.start < n.range.start ∧ n.range.start ≤ n.range.stop ∧ n.range.stop < m.range.stop
  apart {p k l i j : Nat} {m a b : CallNode} (hm : tree.nodes[p]? = some m) (hkl : k < l)
    (hi : m.args[k]? = some i) (hj : m.args[l]? = some j) (ha : tree.nodes[i]? = some a)
    (hb : tree.nodes[j]? = some b) : a.range.stop < b.range.start

/-- The node `i` is the node `j` itself or one of those around it. -/
inductive Above (tree : CallTree) (i : Nat) : Nat → Prop
  | self : Above tree i i
  | above {j k : Nat} {n : CallNode} (h : Above tree i j) (hn : tree.nodes[k]? = some n)
      (hparent : n.parent = some j) : Above tree i k

/-- The two nodes are in different arguments of one call. -/
inductive SetApart (tree : CallTree) (i j : Nat) : Prop
  | intro {p k l c d : Nat} {m : CallNode} (hm : tree.nodes[p]? = some m) (hkl : k ≠ l)
      (hc : m.args[k]? = some c) (hd : m.args[l]? = some d) (hi : Above tree c i) (hj : Above tree d j)

def Around (tree : CallTree) (offset i : Nat) : Prop :=
  ∃ n, tree.nodes[i]? = some n ∧ n.kind = .call ∧ n.range.contains offset = true

section Ranges
variable {t next : Token} {ts us : List Token}

theorem Spaced.order (h : Spaced (ts ++ us)) {a b : Token} (ha : a ∈ ts) (hb : b ∈ us) : a.stop ≤ b.offset :=
  (List.pairwise_append.mp h.apart).2.2 a ha b hb

def Lies : Reading → List Token → Prop
  | .expr e, ts => Spaced ts → Nested e ∧ e.range.start < e.range.stop ∧
      (∃ t ∈ ts, e.range.start = t.offset) ∧ ∃ t ∈ ts, e.range.stop = t.stop
  | .arg next e, ts => Spaced (ts ++ [next]) → Nested e ∧ e.range.start ≤ e.range.stop ∧
      (∃ t ∈ ts ++ [next], e.range.start = t.offset) ∧ e.range.stop ≤ next.offset
  | .args close es, ts => Spaced (ts ++ [close]) →
      (es.Pairwise fun a b => a.range.stop < b.range.start) ∧
        ∀ e ∈ es, Nested e ∧ e.range.start ≤ e.range.stop ∧
          (∃ t ∈ ts ++ [close], e.range.start = t.offset) ∧ e.range.stop ≤ close.offset

theorem nested_of_no_args {e : CallExpr} (h : argsOf e = []) : Nested e :=
  .intro (by simp [h]) (by simp [h]) (by simp [h]) (by simp [h])

theorem lies_raw (source : List Char) (next : Token) (ts : List Token) :
    Lies (.arg next (rawLeaf source ts next)) ts := by
  intro hs
  refine ⟨nested_of_no_args rfl, ?_⟩
  cases ts with
  | nil => exact ⟨Nat.le_refl _, ⟨next, by simp, rfl⟩, Nat.le_refl _⟩
  | cons t ts =>
    have hpos := hs.nonempty t (by simp)
    cases hlast : ts.getLast? with
    | none =>
      obtain rfl := List.getLast?_eq_none_iff.mp hlast
      exact ⟨Nat.le_of_lt hpos, ⟨t, by simp, rfl⟩, hs.order (by simp) (by simp)⟩
    | some last =>
      have hmem := List.mem_of_getLast? hlast
      have hstop : last.stop ≤ next.offset := hs.order (by simp [hmem]) (by simp)
      have hlpos := hs.nonempty last (by simp [hmem])
      have horder : t.stop ≤ last.offset := (List.pairwise_cons.mp hs.apart).1 last (by simp [hmem])
      have hend : (rawLeaf source (t :: ts) next).range.stop = last.stop := by
        simp [rawLeaf, CallExpr.range, List.getLast?_cons, hlast]
      have hfirst : (rawLeaf source (t :: ts) next).range.start = t.offset := rfl
      rw [hfirst, hend]
      exact ⟨by omega, ⟨t, by simp, rfl⟩, hstop⟩

theorem Spells.lies {source : List Char} {r : Reading} {ts : List Token} (h : Spells source r ts) : Lies r ts := by
  induction h with
  | @leaf t kind h =>
    intro hs
    exact ⟨nested_of_no_args rfl, hs.nonempty t (by simp), ⟨t, by simp, rfl⟩, t, by simp, rfl⟩
  | @empty t left right ht hleft hright =>
    intro hs
    have hname := hs.nonempty t (by simp)
    have hpos := hs.nonempty right (by simp)
    have horder : t.stop ≤ right.offset := (List.pairwise_cons.mp hs.apart).1 right (by simp)
    refine ⟨nested_of_no_args rfl, ?_, ⟨t, by simp, rfl⟩, right, by simp, rfl⟩
    exact Nat.lt_of_lt_of_le hname (Nat.le_trans horder (Nat.le_of_lt hpos))
  | @call ts t left right args ht hleft hne h hright ih =>
    intro hs
    have hname := hs.nonempty t (by simp)
    have hpos := hs.nonempty right (by simp)
    have hopen : ∀ u ∈ ts ++ [right], t.stop ≤ u.offset :=
      fun u hu => (List.pairwise_cons.mp hs.apart).1 u (List.mem_cons_of_mem _ hu)
    have horder := hopen right (by simp)
    obtain ⟨hapart, hargs⟩ := ih (hs.sublist (by simp))
    refine ⟨.intro ?_ ?_ hapart ?_, ?_, ⟨t, by simp, rfl⟩, right, by simp, rfl⟩
    · intro a ha
      obtain ⟨_, _, ⟨u, hu, hstart⟩, hstop⟩ := hargs a ha
      have := hopen u hu
      exact ⟨by rw [hstart]; exact Nat.lt_of_lt_of_le hname this, Nat.lt_of_le_of_lt hstop hpos⟩
    · intro a ha
      exact (hargs a ha).2.1
    · intro a ha
      exact (hargs a ha).1
    · exact Nat.lt_of_lt_of_le hname (Nat.le_trans horder (Nat.le_of_lt hpos))
  | @whole ts next e h ih =>
    intro hs
    obtain ⟨hn, hlt, ⟨t, ht, hstart⟩, u, hu, hstop⟩ := ih (hs.sublist (List.sublist_append_left ..))
    refine ⟨hn, Nat.le_of_lt hlt, ⟨t, List.mem_append_left _ ht, hstart⟩, ?_⟩
    rw [hstop]
    exact hs.order hu (by simp)
  | @raw ts next hflat hwhole => exact lies_raw source next ts
  | @last ts close e h ih =>
    intro hs
    refine ⟨List.pairwise_singleton .., ?_⟩
    intro a ha
    obtain rfl := List.mem_singleton.mp ha
    exact ih hs
  | @more ts us close comma e es h hcomma hus ih ihus =>
    intro hs
    rw [List.append_assoc] at hs
    have hcpos := hs.nonempty comma (by simp)
    have hafter : ∀ t ∈ us ++ [close], comma.stop ≤ t.offset := by
      intro t ht
      have htail : Spaced ([comma] ++ (us ++ [close])) := hs.sublist (List.sublist_append_right ..)
      exact htail.order (by simp) ht
    obtain ⟨hn, hle, ⟨t, ht, hstart⟩, hstop⟩ := ih (hs.sublist (by simp))
    obtain ⟨hapart, hes⟩ := ihus (hs.sublist (by simp))
    constructor
    · refine List.pairwise_cons.mpr ⟨?_, hapart⟩
      intro b hb
      obtain ⟨_, _, ⟨u, hu, hbstart⟩, _⟩ := hes b hb
      have := hafter u hu
      omega
    · intro a ha
      rcases List.mem_cons.mp ha with rfl | ha
      · have := hafter close (by simp)
        refine ⟨hn, hle, ⟨t, ?_, hstart⟩, by omega⟩
        simp only [List.mem_append, List.mem_singleton] at ht
        rcases ht with ht | rfl <;> simp [*]
      · obtain ⟨hna, hlea, ⟨u, hu, hastart⟩, hastop⟩ := hes a ha
        refine ⟨hna, hlea, ⟨u, ?_, hastart⟩, hastop⟩
        rw [List.append_assoc, List.cons_append]
        exact List.mem_append_right _ (List.mem_cons_of_mem _ hu)

theorem PartAt.nested {e p : CallExpr} {i j : Nat} {parent : Option Nat} (h : PartAt e i parent j p)
    (he : Nested e) : Nested p := by
  induction h with
  | outermost => exact he
  | arg _ ha _ ih =>
    cases ih with
    | intro _ _ _ hargs => exact hargs _ (List.mem_of_getElem? ha)

theorem rangesNest {e : CallExpr} (he : Nested e) : RangesNest (treeOf e) where
  inside := by
    intro i p n m hn hp hm
    obtain ⟨a, hi, heq⟩ := partAt_of_node hn
    rw [hp] at hi
    rw [heq]
    cases hi with
    | arg h ha _ =>
      rw [h.node] at hm
      cases hm
      have hmem := List.mem_of_getElem? ha
      cases h.nested he with
      | intro hinside hordered _ _ => exact ⟨(hinside _ hmem).1, hordered _ hmem, (hinside _ hmem).2⟩
  apart := by
    intro p k l i j m a b hm hkl hi hj ha hb
    obtain ⟨c, hcall, heq⟩ := partAt_of_node hm
    rw [heq] at hi hj
    obtain ⟨x, hx⟩ := arg_of_number hi
    obtain ⟨y, hy⟩ := arg_of_number hj
    rw [(hcall.arg hx hi).node] at ha
    rw [(hcall.arg hy hj).node] at hb
    cases ha
    cases hb
    cases hcall.nested he with
    | intro _ _ hapart _ =>
      obtain ⟨hk, rfl⟩ := List.getElem?_eq_some_iff.mp hx
      obtain ⟨hl, rfl⟩ := List.getElem?_eq_some_iff.mp hy
      exact List.pairwise_iff_getElem.mp hapart k l hk hl hkl

end Ranges

section Chains
variable {tree : CallTree} {i j c p : Nat} {q r : CallNode}

theorem Above.le (hn : Numbered tree) (h : Above tree i j) : i ≤ j := by
  induction h with
  | self => exact Nat.le_refl _
  | @above j k q _ hq hparent ih =>
    cases k with
    | zero =>
      rw [hn.outermost hq] at hparent
      cases hparent
    | succ k =>
      obtain ⟨p, hp, hlt⟩ := hn.parent hq (Nat.succ_pos k)
      rw [hp, Option.some.injEq] at hparent
      omega

theorem Above.trans (h : Above tree i j) (hj : Above tree j c) : Above tree i c := by
  induction hj with
  | self => exact h
  | above _ hq hparent ih => exact .above ih hq hparent

/-- Below a node, or at one of its arguments or below that. -/
theorem Above.through (h : Above tree p i) :
    i = p ∨ ∃ c q, tree.nodes[c]? = some q ∧ q.parent = some p ∧ Above tree c i := by
  induction h with
  | self => exact .inl rfl
  | @above j k q _ hq hparent ih =>
    rcases ih with rfl | ⟨c, r, hr, hc, habove⟩
    · exact .inr ⟨k, q, hq, hparent, .self⟩
    · exact .inr ⟨c, r, hr, hc, .above habove hq hparent⟩

theorem Numbered.parent_get (hn : Numbered tree) (hq : tree.nodes[i]? = some q) (hp : q.parent = some p) :
    ∃ r, tree.nodes[p]? = some r ∧ r.args[q.argIndex]? = some i :=
  hn.arg_iff.mpr ⟨q, hq, hp, rfl⟩

/-- The range of a node lies strictly inside those of the nodes around it. -/
theorem Above.inside (hn : Numbered tree) (hr : RangesNest tree) (h : Above tree i j)
    (hi : tree.nodes[i]? = some r) (hj : tree.nodes[j]? = some q) :
    i = j ∨ (r.range.start < q.range.start ∧ q.range.stop < r.range.stop) := by
  induction h generalizing q with
  | self => exact .inl rfl
  | above _ hq hparent ih =>
    rw [hj, Option.some.injEq] at hq
    subst hq
    obtain ⟨s, hs, _⟩ := hn.parent_get hj hparent
    have hstep := hr.inside hj hparent hs
    rcases ih hs with rfl | hbelow
    · rw [hs, Option.some.injEq] at hi
      subst hi
      exact .inr ⟨hstep.1, hstep.2.2⟩
    · exact .inr ⟨by omega, by omega⟩

theorem Numbered.root_above (hn : Numbered tree) (hq : tree.nodes[i]? = some q) : Above tree 0 i := by
  induction i using Nat.strongRecOn generalizing q with
  | ind i ih =>
    cases i with
    | zero => exact .self
    | succ i =>
      obtain ⟨p, hp, hlt⟩ := hn.parent hq (Nat.succ_pos i)
      obtain ⟨r, hr, _⟩ := hn.parent_get hq hp
      exact .above (ih p hlt hr) hq hp

/-- Of two nodes, one is around the other, or they are in different arguments of one call. -/
theorem Numbered.related (hn : Numbered tree) (hi : tree.nodes[i]? = some q) (hj : tree.nodes[j]? = some r) :
    Above tree i j ∨ Above tree j i ∨ SetApart tree i j := by
  induction j using Nat.strongRecOn generalizing r with
  | ind j ih =>
    cases j with
    | zero => exact .inr (.inl (hn.root_above hi))
    | succ j =>
      obtain ⟨p, hp, hlt⟩ := hn.parent hj (Nat.succ_pos j)
      obtain ⟨s, hs, hl⟩ := hn.parent_get hj hp
      rcases ih p hlt hs with habove | habove | ⟨hr, hkl, hc, hd, hci, hdp⟩
      · exact .inl (.above habove hj hp)
      · rcases habove.through with rfl | ⟨c, q', hq', hc, hci⟩
        · exact .inl (.above .self hj hp)
        · by_cases hcj : c = j + 1
          · subst hcj
            exact .inr (.inl hci)
          · obtain ⟨s', hs', hk⟩ := hn.parent_get hq' hc
            rw [hs, Option.some.injEq] at hs'
            subst hs'
            refine .inr (.inr (.intro hs ?_ hk hl hci .self))
            intro hkl
            rw [hkl, hl, Option.some.injEq] at hk
            exact hcj hk.symm
      · exact .inr (.inr (.intro hr hkl hc hd hci (.above hdp hj hp)))

/-- Nodes in two arguments of one call have no offset in common. -/
theorem RangesNest.disjoint (hr : RangesNest tree) (hn : Numbered tree) {k l d : Nat} {s : CallNode}
    (hs : tree.nodes[p]? = some s) (hkl : k < l) (hc : s.args[k]? = some c) (hd : s.args[l]? = some d)
    (hci : Above tree c i) (hdj : Above tree d j) (hi : tree.nodes[i]? = some q) (hj : tree.nodes[j]? = some r) :
    q.range.stop < r.range.start := by
  obtain ⟨x, hx, _⟩ := hn.arg_iff.mp ⟨s, hs, hc⟩
  obtain ⟨y, hy, _⟩ := hn.arg_iff.mp ⟨s, hs, hd⟩
  have hapart := hr.apart hs hkl hc hd hx hy
  have hleft : q.range.stop ≤ x.range.stop := by
    rcases hci.inside hn hr hx hi with rfl | ⟨_, hlt⟩
    · rw [hx, Option.some.injEq] at hi
      exact Nat.le_of_eq (congrArg (·.range.stop) hi.symm)
    · exact Nat.le_of_lt hlt
  have hright : y.range.start ≤ r.range.start := by
    rcases hdj.inside hn hr hy hj with rfl | ⟨hlt, _⟩
    · rw [hy, Option.some.injEq] at hj
      exact Nat.le_of_eq (congrArg (·.range.start) hj)
    · exact Nat.le_of_lt hlt
  omega

theorem contains_iff {range : Range} {offset : Nat} :
    range.contains offset = true ↔ range.start ≤ offset ∧ offset ≤ range.stop := by
  simp [Range.contains]

/-- Nodes around one offset are around each other. -/
theorem RangesNest.chain (hr : RangesNest tree) (hn : Numbered tree) {offset : Nat}
    (hi : tree.nodes[i]? = some q) (hqo : q.range.contains offset = true)
    (hj : tree.nodes[j]? = some r) (hro : r.range.contains offset = true) :
    Above tree i j ∨ Above tree j i := by
  rw [contains_iff] at hqo hro
  rcases hn.related hi hj with h | h | ⟨hs, hkl, hc, hd, hci, hdj⟩
  · exact .inl h
  · exact .inr h
  · rcases Nat.lt_or_gt_of_ne hkl with hlt | hlt
    · have := hr.disjoint hn hs hlt hc hd hci hdj hi hj
      omega
    · have := hr.disjoint hn hs hlt hd hc hdj hci hj hi
      omega

end Chains

section Innermost
variable {tree : CallTree} {offset i : Nat}

theorem mem_calls {c : Nat × Range} : c ∈ tree.calls ↔
    ∃ n, tree.nodes[c.1]? = some n ∧ n.kind = .call ∧ n.range = c.2 := by
  obtain ⟨number, range⟩ := c
  simp only [CallTree.calls, List.mem_map, List.mem_filter, Prod.exists, List.mem_zipIdx_iff_getElem?,
    Prod.mk.injEq, decide_eq_true_eq]
  constructor
  · rintro ⟨n, _, ⟨hn, hcall⟩, rfl, rfl⟩
    exact ⟨n, hn, hcall, rfl⟩
  · rintro ⟨n, hn, hcall, rfl⟩
    exact ⟨n, number, ⟨hn, hcall⟩, rfl, rfl⟩

/-- What is left of the best so far and the rest is one of them, and none is shorter. -/
theorem foldl_shorter (cs : List (Nat × Range)) (b : Nat × Range) : ∃ c ∈ b :: cs,
    cs.foldl CallExpr.shorter (some b) = some c ∧ ∀ d ∈ b :: cs, c.2.length ≤ d.2.length := by
  induction cs generalizing b with
  | nil => exact ⟨b, by simp, rfl, by simp⟩
  | cons a cs ih =>
    obtain ⟨x, hx, hmem, hxb, hxa⟩ : ∃ x, CallExpr.shorter (some b) a = some x ∧ (x = b ∨ x = a) ∧
        x.2.length ≤ b.2.length ∧ x.2.length ≤ a.2.length := by
      by_cases hlt : a.2.length < b.2.length
      · exact ⟨a, by simp [CallExpr.shorter, hlt], .inr rfl, by omega, by omega⟩
      · exact ⟨b, by simp [CallExpr.shorter, hlt], .inl rfl, by omega, by omega⟩
    obtain ⟨c, hc, hfold, hle⟩ := ih x
    refine ⟨c, ?_, by rw [List.foldl_cons, hx, hfold], ?_⟩
    · rcases List.mem_cons.mp hc with rfl | hc
      · rcases hmem with rfl | rfl <;> simp
      · exact List.mem_cons_of_mem _ (List.mem_cons_of_mem _ hc)
    · have hcx := hle x (by simp)
      intro d hd
      rcases List.mem_cons.mp hd with rfl | hd
      · omega
      · rcases List.mem_cons.mp hd with rfl | hd
        · omega
        · exact hle d (List.mem_cons_of_mem _ hd)

theorem innermost_cases (tree : CallTree) (offset : Nat) :
    (tree.innermostCall? offset = none ∧ ∀ i, ¬ Around tree offset i) ∨
      ∃ i q, tree.innermostCall? offset = some i ∧ Around tree offset i ∧ tree.nodes[i]? = some q ∧
        ∀ j r, Around tree offset j → tree.nodes[j]? = some r → q.range.length ≤ r.range.length := by
  have hmem : ∀ {c : Nat × Range}, c ∈ tree.calls.filter (fun c => c.2.contains offset) ↔
      Around tree offset c.1 ∧ ∃ q, tree.nodes[c.1]? = some q ∧ q.range = c.2 := by
    intro c
    rw [List.mem_filter, mem_calls]
    constructor
    · rintro ⟨⟨q, hq, hcall, hrange⟩, hcontains⟩
      exact ⟨⟨q, hq, hcall, by rwa [hrange]⟩, q, hq, hrange⟩
    · rintro ⟨⟨q, hq, hcall, hcontains⟩, r, hr, hrange⟩
      rw [hq, Option.some.injEq] at hr
      subst hr
      exact ⟨⟨q, hq, hcall, hrange⟩, by rwa [← hrange]⟩
  have hall : ∀ j r, Around tree offset j → tree.nodes[j]? = some r →
      (j, r.range) ∈ tree.calls.filter (fun c => c.2.contains offset) :=
    fun j r hj hr => hmem.mpr ⟨hj, r, hr, rfl⟩
  unfold CallTree.innermostCall?
  cases hcalls : tree.calls.filter (fun c => c.2.contains offset) with
  | nil =>
    refine .inl ⟨rfl, ?_⟩
    intro i hi
    obtain ⟨q, hq, _⟩ := id hi
    have hin := hall i q hi hq
    rw [hcalls] at hin
    cases hin
  | cons b cs =>
    obtain ⟨c, hc, hfold, hle⟩ := foldl_shorter cs b
    obtain ⟨haround, q, hq, hrange⟩ := hmem.mp (hcalls ▸ hc)
    refine .inr ⟨c.1, q, ?_, haround, hq, ?_⟩
    · rw [List.foldl_cons]
      exact congrArg (Option.map _) hfold
    · intro j r hj hr
      have hin := hle _ (hcalls ▸ hall j r hj hr)
      rwa [← hrange] at hin

/-- The nodes around a call that contains an offset are such calls, too. -/
theorem Around.of_above {j : Nat} (hn : Numbered tree) (hr : RangesNest tree) (hi : Around tree offset i)
    (h : Above tree j i) : Around tree offset j := by
  rcases h.through with rfl | ⟨c, q, hq, hparent, _⟩
  · exact hi
  · obtain ⟨r, hget, harg⟩ := hn.parent_get hq hparent
    have hcall : r.kind = .call := by
      apply hn.call hget
      intro hnil
      rw [hnil] at harg
      simp at harg
    obtain ⟨s, hs, _, hcontains⟩ := id hi
    rw [contains_iff] at hcontains
    rcases h.inside hn hr hget hs with rfl | hinside
    · exact hi
    · exact ⟨r, hget, hcall, contains_iff.mpr (by omega)⟩

theorem innermost_iff (hn : Numbered tree) (hr : RangesNest tree) :
    tree.innermostCall? offset = some i ↔ ∀ j, Around tree offset j ↔ Above tree j i := by
  constructor
  · intro h
    rcases innermost_cases tree offset with ⟨hnone, _⟩ | ⟨i', q, hsome, haround, hq, hle⟩
    · rw [hnone] at h
      cases h
    · rw [hsome, Option.some.injEq] at h
      subst h
      intro j
      refine ⟨fun hj => ?_, haround.of_above hn hr⟩
      obtain ⟨r, hget, _, hcontains⟩ := id hj
      obtain ⟨s, hs, _, hqo⟩ := id haround
      rw [hq, Option.some.injEq] at hs
      subst hs
      rcases hr.chain hn hget hcontains hq hqo with habove | habove
      · exact habove
      · rcases habove.inside hn hr hq hget with rfl | hinside
        · exact .self
        · -- a call inside the innermost one would be shorter
          have hshort := hle j r hj hget
          rw [contains_iff] at hcontains
          simp only [Range.length] at hshort
          omega
  · intro h
    have hi : Around tree offset i := (h i).mpr .self
    rcases innermost_cases tree offset with ⟨_, hall⟩ | ⟨i', q, hsome, haround, hq, hle⟩
    · exact absurd hi (hall i)
    · have habove := (h i').mp haround
      obtain ⟨s, hs, _, hcontains⟩ := id hi
      rw [contains_iff] at hcontains
      rcases habove.inside hn hr hq hs with rfl | hinside
      · exact hsome
      · have hshort := hle i s hi hs
        simp only [Range.length] at hshort
        omega

theorem calls_treeOf (e : CallExpr) : (treeOf e).calls = e.calls := by
  have hkind (p : CallExpr) : decide (kindOf p = .call) = p.isCall := by
    cases p <;> rfl
  rw [CallTree.calls, CallExpr.calls, treeOf, List.zipIdx_map, List.filter_map, List.map_map]
  congr 2
  funext q
  exact hkind q.1.expr

theorem innermostCall_treeOf (e : CallExpr) (offset : Nat) :
    (treeOf e).innermostCall? offset = e.innermostCall? offset := by
  rw [CallTree.innermostCall?, calls_treeOf, CallExpr.innermostCall?]

end Innermost

end Devicetree.Proofs
