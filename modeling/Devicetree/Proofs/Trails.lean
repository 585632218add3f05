import Devicetree.Proofs.Directives

namespace Devicetree.Proofs

inductive Trail (g : Graph) : List NodeName → NodeId → Prop
  | root : Trail g [] Graph.root
  | child {names : List NodeName} {parent c : NodeId} (above : Trail g names parent)
      (listed : c ∈ g.children parent) : Trail g (names ++ [(g.node c).name]) c

section Trail
variable {g g' : Graph} {names : List NodeName} {n : NodeId}

theorem Trail.last (h : Trail g names n) : (names = [] ∧ n = Graph.root) ∨
    ∃ above parent, names = above ++ [(g.node n).name] ∧ Trail g above parent ∧ n ∈ g.children parent := by
  cases h with
  | root => exact Or.inl ⟨rfl, rfl⟩
  | child above listed => exact Or.inr ⟨_, _, rfl, above, listed⟩

/-- Names lead to one node. -/
theorem Trail.same_node (hl : Linked g) (h : Trail g names n) {m : NodeId} (h' : Trail g names m) :
    m = n := by
  induction h generalizing m with
  | root =>
    rcases h'.last with ⟨_, hroot⟩ | ⟨above, _, hnames, _⟩
    · exact hroot
    · simp at hnames
  | child above listed ih =>
    rcases h'.last with ⟨hnil, _⟩ | ⟨above', parent', hnames, habove', hlisted'⟩
    · simp at hnil
    · obtain ⟨rfl, hname⟩ := List.append_inj' hnames rfl
      obtain rfl := ih habove'
      exact hl.same_name listed hlisted' (List.singleton_inj.mp hname).symm

theorem Sound.root_top (hs : Sound g) : g.parent? Graph.root = none :=
  (hs.linked.top _ hs.bounded.root).mpr (Or.inl rfl)

/-- A node is reached by one list of names. -/
theorem Trail.same_names (hs : Sound g) (h : Trail g names n) {names' : List NodeName}
    (h' : Trail g names' n) : names' = names := by
  have hroot : ∀ parent, Graph.root ∉ g.children parent := by
    intro parent hm
    have hp := hs.linked.child parent _ hm
    rw [hs.root_top] at hp
    cases hp
  induction h generalizing names' with
  | root =>
    rcases h'.last with ⟨hnil, _⟩ | ⟨_, parent', _, _, hlisted'⟩
    · exact hnil
    · exact absurd hlisted' (hroot parent')
  | child above listed ih =>
    rcases h'.last with ⟨_, he⟩ | ⟨above', parent', rfl, habove', hlisted'⟩
    · subst he
      exact absurd listed (hroot _)
    · have hparent := (hs.linked.child _ _ listed).symm.trans (hs.linked.child _ _ hlisted')
      obtain rfl := Option.some.inj hparent
      rw [ih habove']

theorem Trail.mono (h : Trail g names n) (hc : ∀ parent, ∀ c ∈ g.children parent,
    c ∈ g'.children parent ∧ (g'.node c).name = (g.node c).name) : Trail g' names n := by
  induction h with
  | root => exact .root
  | child above listed ih =>
    obtain ⟨hlisted, hname⟩ := hc _ _ listed
    exact hname ▸ ih.child hlisted

end Trail

section Kept
variable {g g' : Graph}

def AllKept (g : Graph) : Prop := ∀ id, (g.node id).deletedBy = none

theorem AllKept.live (hk : AllKept g) (id : NodeId) : g.isLive id = true := by
  simpa [Graph.isLive] using fun a _ => hk a

theorem AllKept.before (hk : AllKept g') (hs : Since g g') : AllKept g := by
  intro id
  cases hd : (g.node id).deletedBy with
  | none => rfl
  | some d =>
    have hlater := (hs.node id (has_node_of_deleted hd)).deletedBy d hd
    rw [hk id] at hlater
    cases hlater

/-- Where nothing is deleted, ways stay. -/
theorem Trail.later {names : List NodeName} {n : NodeId} (h : Trail g names n) (hsound : Sound g)
    (hs : Since g g') (hl : Linked g') (hk : AllKept g') : Trail g' names n := by
  refine h.mono ?_
  intro parent c hc
  have hsame := hs.node c ((hsound.bounded.node parent).children c hc)
  exact ⟨hl.mem_children (hsame.parent.trans (hsound.linked.child parent c hc)) (hk c), hsame.name⟩

theorem change_labels (h : Change g g') : g'.labels = g.labels ∨ ∃ (id : NodeId) (m : LabelMark),
    (∀ holder, g.labels.nodeOf? m.name = some holder → g.isLive holder = false) ∧
      g'.labels = g.labels.bind m.name id := by
  cases h with
  | hold id m _ free => exact Or.inr ⟨id, m, free, rfl⟩
  | property => exact Or.inl (by simp)
  | directive x =>
    refine Or.inl ?_
    unfold Graph.addDirective
    split <;> rfl
  | _ => exact Or.inl rfl

/-- Where nothing is deleted, a label that is bound stays where it is. -/
theorem Changes.bound_stays (hs : Sound g) (hl : Ledger g) (h : Changes g g') (hk : AllKept g')
    {l : String} {n : NodeId} (hbound : g.labels.nodeOf? l = some n) :
    g'.labels.nodeOf? l = some n := by
  induction h with
  | refl => exact hbound
  | tail hsteps hlast ih =>
    have hkept := hk.before (hlast.since (hs.changes hsteps) (hl.changes hs hsteps))
    have hstill := ih hkept
    rcases change_labels hlast with hsame | ⟨id, m, free, hbind⟩
    · rw [hsame]
      exact hstill
    · have hne : m.name ≠ l := by
        rintro rfl
        have hdead := free n hstill
        rw [hkept.live] at hdead
        cases hdead
      rw [hbind]
      exact (Table.get?_insert _ m.name l id).trans ((if_neg hne).trans hstill)

def Sparing (g : Graph) : Prop := ∀ d id, (g.directive d).removed ≠ some (.node id)

theorem Sparing.all_kept (hn : Sparing g) (hl : Linked g) : AllKept g := by
  intro id
  cases hp : g.parent? id with
  | none => exact hl.top_kept id hp
  | some parent =>
    cases hd : (g.node id).deletedBy with
    | none => rfl
    | some d => exact absurd (hl.deleted id parent d hp hd).2.2 (hn d id)

def Spares (e : Edit) : Prop := ∀ target site, e ≠ .deleteNode target site

instance (e : Edit) : Decidable (Spares e) :=
  match e with
  | .deleteNode target site => isFalse fun h => h target site rfl
  | .enterRoot _ _ | .enterReference _ _ _ | .enterChild _ _ _ | .leave | .property _ _ _ _
  | .deleteProperty _ _ => isTrue nofun

theorem run_sparing {options : BuildOptions} {s s' : Merge.State} {edits : List Edit}
    (hspare : ∀ e ∈ edits, Spares e) (hs : Settled s) (hn : Sparing s.graph)
    (h : Merge.run options s edits = .ok s') : Sparing s'.graph := by
  refine run_keeps ?_ hs hn h
  intro e he t t' ht hkeep hstep d id
  rcases step_directives ht.ready.sound hstep with hsame | ⟨x, hpush, _, hnode⟩
  · rw [Graph.directive, hsame]
    exact hkeep d id
  · have hdirective := directive_push t.graph x d
    rw [Graph.directive] at hdirective ⊢
    rw [hpush, hdirective]
    split
    · exact hnode (hspare e he) id
    · exact hkeep d id

structure Spared (s : Merge.State) : Prop where
  settled : Settled s
  sparing : Sparing s.graph

section Spared
variable {options : BuildOptions} {s s' : Merge.State} {edits : List Edit}

theorem Spared.kept (hs : Spared s) : AllKept s.graph := hs.sparing.all_kept hs.settled.ready.sound.linked

theorem Spared.run (hs : Spared s) (hspare : ∀ e ∈ edits, Spares e)
    (h : Merge.run options s edits = .ok s') : Spared s' :=
  ⟨hs.settled.run h, run_sparing hspare hs.settled hs.sparing h⟩

theorem Spared.step (hs : Spared s) {e : Edit} (hspare : Spares e)
    (h : Merge.step options s e = .ok s') : Spared s' :=
  hs.run (fun _ he => List.mem_singleton.mp he ▸ hspare) (run_cons h [])

theorem Spared.trail (hs : Spared s) (hspare : ∀ e ∈ edits, Spares e)
    (h : Merge.run options s edits = .ok s') {names : List NodeName} {n : NodeId}
    (ht : Trail s.graph names n) : Trail s'.graph names n :=
  ht.later hs.settled.ready.sound (hs.settled.since h) (hs.settled.run h).ready.sound.linked
    (hs.run hspare h).kept

theorem Spared.bound (hs : Spared s) (hspare : ∀ e ∈ edits, Spares e)
    (h : Merge.run options s edits = .ok s') {l : String} {n : NodeId}
    (hbound : s.graph.labels.nodeOf? l = some n) : s'.graph.labels.nodeOf? l = some n :=
  (hs.settled.changes h).bound_stays hs.settled.ready.sound hs.settled.ledger (hs.run hspare h).kept hbound

end Spared

theorem start_sparing (config : BuildConfig) (fragments : List Fragment) :
    Sparing (Build.start config fragments).graph := by
  intro d id
  have hnone : (Build.start config fragments).graph.directive d = default := rfl
  rw [hnone]
  intro h
  cases h

end Kept

section Walk

def fallsBack (g : Graph) : NodeId → List NodeName → Bool
  | _, [] => false
  | id, name :: names =>
    match g.childByName? id name false with
    | some c => !decide ((g.node c).name = name) || fallsBack g c names
    | none => false

theorem falls_back_of_no_children {g : Graph} {id : NodeId} (h : g.children id = [])
    (names : List NodeName) : fallsBack g id names = false := by
  cases names with
  | nil => rfl
  | cons name names => simp [fallsBack, Graph.childByName?, Graph.pick, h]

/-- A walk that creates what is missing ends at a node that is reached by as many names, and by the names of the
walk just if it does not fall back. -/
theorem ensure_trail {g : Graph} (hs : Sound g) {id : NodeId} (hk : Kept g id) {above : List NodeName}
    (h : Trail g above id) (names : List NodeName) :
    ∃ below, Trail (g.ensure id names).1 (above ++ below) (g.ensure id names).2 ∧
      (below = names ↔ fallsBack g id names = false) := by
  induction names generalizing g id above with
  | nil => exact ⟨[], by simpa [Graph.ensure] using h, by simp [fallsBack]⟩
  | cons name names ih =>
    cases hfound : g.childByName? id name false with
    | some c =>
      have hc := child_by_name_mem hfound
      obtain ⟨below, htrail, hiff⟩ := ih hs (hs.child_kept hc) (h.child hc)
      refine ⟨(g.node c).name :: below, ?_, ?_⟩
      · simpa [Graph.ensure, hfound] using htrail
      · simp [fallsBack, hfound, hiff]
    | none =>
      have hfresh := pick_none hfound
      have hnew := add_child_arrives hk.has hfresh
      have hstay : Trail (g.addChild name id) above id := by
        refine h.mono ?_
        intro parent c hc
        have hparent := ((hs.bounded.node c).parent parent (hs.linked.child parent c hc)).ne_next
        have hold := ((hs.bounded.node parent).children c hc).ne_next
        rw [children_addChild name hk.has, name_addChild name hk.has, if_neg hparent, if_neg hold]
        split
        · exact ⟨List.mem_append_left _ hc, rfl⟩
        · exact ⟨hc, rfl⟩
      have hlisted : g.nextNode ∈ (g.addChild name id).children id := by
        simp [children_addChild name hk.has, hk.has.ne_next]
      have hname : ((g.addChild name id).node g.nextNode).name = name := by
        rw [name_addChild name hk.has, if_pos rfl]
      have hempty : (g.addChild name id).children g.nextNode = [] := by
        rw [children_addChild name hk.has, if_pos rfl]
      obtain ⟨below, htrail, hiff⟩ := ih (hs.changes hnew.changes) hnew.kept (hstay.child hlisted)
      obtain rfl := hiff.mpr (falls_back_of_no_children hempty _)
      refine ⟨name :: below, ?_, ?_⟩
      · rw [hname] at htrail
        simpa [Graph.ensure, hfound] using htrail
      · simp [fallsBack, hfound]

end Walk

end Devicetree.Proofs
