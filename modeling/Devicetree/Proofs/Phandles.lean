import Devicetree.Proofs.PlacesAndOptions
import Devicetree.Proofs.ReportedKinds
import Devicetree.Proofs.TreeOrder
import Mathlib.Data.List.Forall2

namespace Devicetree.Proofs

/-- The nodes that the walk down from the root comes to before a node. -/
def earlier (g : Graph) (n : NodeId) : List NodeId :=
  (g.descendants Graph.root).takeWhile fun m => decide (m ≠ n)

def holdsAgain (g : Graph) (n : NodeId) : Bool :=
  (g.node n).phandle.any fun k => (earlier g n).any fun m => decide ((g.node m).phandle = some k)

/-- The issue on a node whose phandle another one held first, at the property that says so. -/
def TellsOf (g : Graph) (i : Issue) (n : NodeId) : Prop :=
  ∃ k p first, (g.node n).phandle = some k ∧ g.liveProperty? n "phandle" = some p ∧
    g.phandleHolder? k = some first ∧
    i = .ofFault (.duplicatePhandle k (g.pathOf first)) (g.property p).site.location

def PhandlesDerived (g : Graph) : Prop := ∀ n, (g.node n).phandle = g.derivedPhandle? (g.node n)

section Walk
variable {g : Graph}

theorem PhandlesDerived.live_property (hd : PhandlesDerived g) {n : NodeId} {k : UInt64}
    (hk : (g.node n).phandle = some k) :
    ∃ p, g.liveProperty? n "phandle" = some p := by
  rw [hd n, Graph.derivedPhandle?] at hk
  obtain ⟨p, hp, _⟩ := Option.bind_eq_some_iff.mp hk
  exact ⟨p, hp⟩

/-- Where the walk splits at a node, the first part is what comes before it. -/
theorem earlier_eq {before after : List NodeId} {n : NodeId}
    (hlist : g.descendants Graph.root = before ++ n :: after) (hn : (g.descendants Graph.root).Nodup) :
    earlier g n = before := by
  rw [hlist] at hn
  have hbefore : ∀ m ∈ before, decide (m ≠ n) = true := by
    intro m hm
    have hne := (List.nodup_append.mp hn).2.2 m hm n List.mem_cons_self
    exact decide_eq_true hne
  rw [earlier, hlist, List.takeWhile_append_of_pos hbefore]
  simp

/-- The walk reports the nodes that hold a phandle again, given that it has noted the first holders so far. -/
theorem duplicate_phandles_tell (hd : PhandlesDerived g) (hn : (g.descendants Graph.root).Nodup) (ids : List NodeId) :
    ∀ (before : List NodeId) (holders : Table UInt64 NodeId),
      g.descendants Graph.root = before ++ ids →
      (∀ k, holders.get? k = before.find? fun m => decide ((g.node m).phandle = some k)) →
      List.Forall₂ (TellsOf g) (g.duplicatePhandles holders ids) (ids.filter (holdsAgain g)) := by
  induction ids with
  | nil => exact fun _ _ _ _ => .nil
  | cons n ids ih =>
    intro before holders hlist hholders
    have hrest : g.descendants Graph.root = (before ++ [n]) ++ ids := by rw [hlist, List.append_assoc]; rfl
    have hagain : holdsAgain g n = (g.node n).phandle.any fun k => (holders.get? k).isSome := by
      simp only [holdsAgain, earlier_eq hlist hn, hholders]
      congr 1
      funext k
      rw [Bool.eq_iff_iff, List.any_eq_true, List.find?_isSome]
    unfold Graph.duplicatePhandles
    rw [List.filter_cons, hagain]
    cases hk : (g.node n).phandle with
    | none =>
      refine ih (before ++ [n]) holders hrest fun k => ?_
      simp [List.find?_append, hholders, hk]
    | some k =>
      rcases Option.eq_none_or_eq_some (holders.get? k) with hfirst | ⟨first, hfirst⟩
      · simp only [hfirst, Option.any_some, Option.isSome_none, Bool.false_eq_true, if_false]
        refine ih (before ++ [n]) (holders.insert k n) hrest fun k' => ?_
        rw [Table.get?_insert, List.find?_append, ← hholders]
        by_cases hkk : k = k'
        · subst hkk
          simp [hfirst, hk]
        · simp [hk, hkk]
      · simp only [hfirst, Option.any_some, Option.isSome_some, if_true]
        obtain ⟨p, hp⟩ := hd.live_property hk
        refine .cons ⟨k, p, first, hk, hp, ?_, by simp [hp]⟩ (ih (before ++ [n]) holders hrest fun k' => ?_)
        · rw [Graph.phandleHolder?, hlist, List.find?_append, ← hholders, hfirst]
          rfl
        · rw [List.find?_append, ← hholders]
          by_cases hkk : k = k'
          · subst hkk
            simp [hfirst]
          · simp [hk, hkk]

/-- A node that holds no phandle again is the first holder of its own. -/
theorem holder_of_not_again {n : NodeId} {k : UInt64} (hn : n ∈ g.descendants Graph.root)
    (hnodup : (g.descendants Graph.root).Nodup) (hk : (g.node n).phandle = some k) (hfirst : holdsAgain g n = false) :
    g.phandleHolder? k = some n := by
  obtain ⟨before, after, hlist⟩ := List.append_of_mem hn
  have hnone : before.find? (fun m => decide ((g.node m).phandle = some k)) = none := by
    refine List.find?_eq_none.mpr fun m hm hmk => ?_
    have hagain : holdsAgain g n = true := by
      rw [holdsAgain, earlier_eq hlist hnodup, hk, Option.any_some]
      exact List.any_eq_true.mpr ⟨m, hm, hmk⟩
    rw [hfirst] at hagain
    cases hagain
  rw [Graph.phandleHolder?, hlist, List.find?_append, hnone]
  simp [hk]

/-- An expression with the value of a phandle refers to the first holder. -/
theorem reference_of_value {e : Expr} {x : Int64} {k : UInt64} (he : g.evaluate? e = some x)
    (hx : x.toInt = k.toNat) : g.resolveReference? (.expr e) = g.phandleHolder? k := by
  have hvalue : g.valueOf? (.expr e) = some x := by simpa [Graph.valueOf?, Value.expr?] using he
  have hnat : g.natOf? (.expr e) = some k.toNat := by
    rw [Graph.natOf?, hvalue, Option.bind_some, if_pos (by omega), hx]
    rfl
  simp [Graph.resolveReference?, hnat]

end Walk

section Finish
variable (g : Graph) (options : BuildOptions)

/-- Phandles are derived from what they do not change. -/
theorem derived_finish : PhandlesDerived (g.finish options) := by
  have hassign : PhandlesDerived g.assignPhandles := by
    intro n
    have hflat : ∀ m, g.assignPhandles.derivedPhandle? m = g.derivedPhandle? m := fun _ => rfl
    rw [hflat]
    simp only [Graph.node, Graph.assignPhandles, Array.getD_eq_getD_getElem?, Array.getElem?_map]
    cases g.nodes[n.index]? with
    | none => rfl
    | some x => rfl
  unfold Graph.finish
  simp only
  split
  · exact hassign
  · exact hassign

/-- The walk that reports phandles finds the same in the finished graph. -/
theorem issues_finish (ho : options.duplicatePhandles = true) :
    (g.finish options).issues = g.issues ++
      (g.finish options).duplicatePhandles {} ((g.finish options).descendants Graph.root) := by
  let silent : BuildOptions := { duplicatePhandles := false }
  have hfinish : g.finish options = { g.assignPhandles with
      issues := g.assignPhandles.issues ++
        g.assignPhandles.duplicatePhandles {} (g.assignPhandles.descendants Graph.root) } := by
    simp only [Graph.finish, ho, if_true]
  have hshown : ∀ i ∈ g.assignPhandles.duplicatePhandles {} (g.assignPhandles.descendants Graph.root),
      isShown silent i = false := by
    intro i hi
    simp only [isShown, kind_duplicatePhandles _ _ _ i hi, silent]
  have hsame : muted silent (g.finish options) = muted silent g.assignPhandles := by
    rw [hfinish, muted_more silent g.assignPhandles hshown]
    rfl
  have hwalk : (g.finish options).duplicatePhandles {} ((g.finish options).descendants Graph.root) =
      g.assignPhandles.duplicatePhandles {} (g.assignPhandles.descendants Graph.root) := by
    rw [← duplicate_phandles_muted silent (g.finish options), ← descendants_muted silent (g.finish options), hsame,
      duplicate_phandles_muted, descendants_muted]
  rw [hwalk, hfinish]
  rfl

end Finish

/-- Phandles of a graph that was built with duplicates reported. Each is what the node's live property says. The
issues on them match, one by one in the order of the walk down the tree, the nodes whose phandle an earlier node
holds, and each stands at the node's live property. Looking a phandle up gives the first of all its holders. And
without such issues, a phandle on a node of the tree leads back to that node, as does every expression with its
value. -/
theorem built_phandles {config : BuildConfig} (ho : config.options.duplicatePhandles = true)
    {fragments : List Fragment} {isCancelled : Nat → Bool} {g : Graph}
    (h : Build.build config fragments isCancelled = .ok g) :
    PhandlesDerived g ∧
    List.Forall₂ (TellsOf g) (g.issues.filter fun i => decide (i.kind = .duplicatePhandle))
      ((g.descendants Graph.root).filter (holdsAgain g)) ∧
    (∀ k, g.phandleHolder? k = (g.phandleHolders k).head?) ∧
    ((∀ i ∈ g.issues, i.kind ≠ .duplicatePhandle) → ∀ n ∈ g.descendants Graph.root, ∀ k,
      (g.node n).phandle = some k →
        g.phandleHolder? k = some n ∧
        ∀ e x, g.evaluate? e = some x → x.toInt = k.toNat → g.resolveReference? (.expr e) = some n) := by
  have hsound := built_sound h
  have hnodup : (g.descendants Graph.root).Nodup := by
    rw [hsound.descendants_root]
    exact hsound.preorder_nodup Graph.root
  obtain ⟨s, hrun, _, _, rfl⟩ := built_of_run h
  have hderived := derived_finish s.graph config.options
  have hmerge : s.graph.issues.filter (fun i => decide (i.kind = .duplicatePhandle)) = [] := by
    have hnone : .duplicatePhandle ∉ (Edit.ofFragments 0 fragments).flatMap reportable := by
      simp [List.mem_flatMap, duplicate_phandle_not_reportable]
    exact (run_reports hrun).filter_kind hnone
  have hwalk := duplicate_phandles_tell hderived hnodup _ [] {} rfl fun _ => rfl
  have htell : List.Forall₂ (TellsOf (s.graph.finish config.options))
      ((s.graph.finish config.options).issues.filter fun i => decide (i.kind = .duplicatePhandle))
      (((s.graph.finish config.options).descendants Graph.root).filter
        (holdsAgain (s.graph.finish config.options))) := by
    rw [issues_finish s.graph config.options ho, List.filter_append, hmerge, List.nil_append,
      List.filter_eq_self.mpr fun i hi => decide_eq_true (kind_duplicatePhandles _ _ _ i hi)]
    exact hwalk
  refine ⟨hderived, htell, fun k => (List.head?_filter ..).symm, ?_⟩
  intro hnone n hn k hk
  have hfirst : holdsAgain (s.graph.finish config.options) n = false := by
    rw [List.filter_eq_nil_iff.mpr (by simpa using hnone), List.forall₂_nil_left_iff,
      List.filter_eq_nil_iff] at htell
    simpa using htell n hn
  have hholder := holder_of_not_again hn hnodup hk hfirst
  refine ⟨hholder, fun e x he hx => ?_⟩
  rw [reference_of_value he hx, hholder]

def handled (value : Int64) : List Fragment :=
  let phandle (n : Int64) (span : Span) : Item :=
    .property { name := "phandle", values := [.cells [.expr (.num n)]], span }
  [⟨⟨0⟩, .root []
      [.child { name := { name := "clock" } } [phandle 1 {}], .child { name := { name := "reset" } } [phandle 7 {}],
        .child { name := { name := "old" } } [phandle 1 {}], .child { name := { name := "plain" } } [phandle 1 {}]]
      {}⟩,
    ⟨⟨0⟩, .reference (.label "nowhere") [] [phandle 1 {}] {} {}⟩,
    ⟨⟨1⟩, .root []
      [.deleteNode { target := .name { name := "old" } },
        .child { name := { name := "plain" } } [.deleteProperty { name := "phandle" }],
        .child { name := { name := "reset" } } [phandle value ⟨⟨9, 4⟩, ⟨9, 20⟩⟩]]
      {}⟩]

/-- With the first value taken there is one issue, and with a value of its own the node is found by it. -/
theorem built_phandles_handled :
    (∃ g i, Build.build {} (handled 1) (fun _ => false) = .ok g ∧
      g.issues.filter (fun i => decide (i.kind = .duplicatePhandle)) = [i] ∧ TellsOf g i ⟨2⟩ ∧
      i.location = ⟨⟨1⟩, ⟨⟨9, 4⟩, ⟨9, 20⟩⟩⟩) ∧
    ∃ g, Build.build {} (handled 4) (fun _ => false) = .ok g ∧ g.phandleHolder? 4 = some ⟨2⟩ ∧
      g.resolveReference? (.expr (.binary (.num 2) .mul (.num 2))) = some ⟨2⟩ := by
  constructor
  · obtain ⟨g, h, hagain, hlocation⟩ : ∃ g, Build.build {} (handled 1) (fun _ => false) = .ok g ∧
        (g.descendants Graph.root).filter (holdsAgain g) = [⟨2⟩] ∧
        (g.liveProperty? ⟨2⟩ "phandle").map (fun p => (g.property p).site.location) =
          some ⟨⟨1⟩, ⟨⟨9, 4⟩, ⟨9, 20⟩⟩⟩ := exists_built (by decide +kernel)
    obtain ⟨_, htell, _⟩ := built_phandles rfl h
    rw [hagain] at htell
    obtain ⟨i, rest, htells, hrest, hissues⟩ := List.forall₂_cons_right_iff.mp htell
    obtain rfl := List.forall₂_nil_right_iff.mp hrest
    refine ⟨g, i, h, hissues, htells, ?_⟩
    obtain ⟨k, p, first, _, hp, _, rfl⟩ := htells
    rw [hp] at hlocation
    exact Option.some.inj hlocation
  · obtain ⟨g, h, hnone, hmem, hk, he⟩ : ∃ g, Build.build {} (handled 4) (fun _ => false) = .ok g ∧
        (∀ i ∈ g.issues, i.kind ≠ .duplicatePhandle) ∧ ⟨2⟩ ∈ g.descendants Graph.root ∧
        (g.node ⟨2⟩).phandle = some 4 ∧ g.evaluate? (.binary (.num 2) .mul (.num 2)) = some 4 :=
      exists_built (by decide +kernel)
    obtain ⟨_, _, _, hfound⟩ := built_phandles rfl h
    obtain ⟨hholder, hreference⟩ := hfound hnone ⟨2⟩ hmem 4 hk
    exact ⟨g, h, hholder, hreference _ 4 he (by decide)⟩

end Devicetree.Proofs
