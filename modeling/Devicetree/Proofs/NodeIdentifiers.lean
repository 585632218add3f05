import Mathlib.Data.List.Induction
import Devicetree.Accessor.Resolve
import Devicetree.Proofs.ExprText
import Devicetree.Proofs.Labelling
import Devicetree.Proofs.LegibleCalls
import Devicetree.Proofs.Paths

namespace Devicetree.Proofs

section Splitting
variable {mark cs rest : List Char}

theorem dropFront?_eq_some_iff : Text.dropFront? mark cs = some rest ↔ cs = mark ++ rest := by
  unfold Text.dropFront?
  constructor
  · intro h
    split at h
    · rename_i hmark
      obtain ⟨tail, rfl⟩ := List.isPrefixOf_iff_prefix.mp hmark
      simpa using h
    · cases h
  · rintro rfl
    simp

theorem splitAtText_ne_nil (mark cs : List Char) : Text.splitAtText mark cs ≠ [] := by
  fun_cases Text.splitAtText mark cs
  · simp
  · simp
  · cases Text.splitAtText mark _ <;> simp [Text.consFirst]

/-- The pieces with the mark between them are the text. -/
theorem intercalate_splitAtText (hmark : mark ≠ []) (cs : List Char) :
    mark.intercalate (Text.splitAtText mark cs) = cs := by
  fun_induction Text.splitAtText mark cs
  case case1 => rfl
  case case2 c cs hfront ih =>
    obtain ⟨piece, pieces, hpieces⟩ :=
      List.exists_cons_of_ne_nil (splitAtText_ne_nil mark (cs.drop (mark.length - 1)))
    obtain ⟨rest, hrest⟩ := List.isPrefixOf_iff_prefix.mp hfront
    obtain ⟨d, ds, rfl⟩ := List.exists_cons_of_ne_nil hmark
    rw [hpieces] at ih ⊢
    rw [List.intercalate_cons_cons, ih]
    cases hrest
    simp
  case case3 c cs _ ih => rw [intercalate_consFirst mark c (splitAtText_ne_nil mark cs), ih]

def stepMark : List Char := ['_', 'S', '_']

theorem splitAtText_mark (cs : List Char) :
    Text.splitAtText stepMark (stepMark ++ cs) = [] :: Text.splitAtText stepMark cs := by
  rw [stepMark, List.cons_append, Text.splitAtText]
  simp

/-- A piece without the letter of the mark is found whole, even if it ends as the mark begins. -/
theorem splitAtText_append {piece first : List Char} {pieces : List (List Char)} (h : 'S' ∉ piece)
    (hrest : rest.head? ≠ some 'S') (hsplit : Text.splitAtText stepMark rest = first :: pieces) :
    Text.splitAtText stepMark (piece ++ rest) = (piece ++ first) :: pieces := by
  induction piece with
  | nil => exact hsplit
  | cons c piece ih =>
    have hpiece : 'S' ∉ piece := fun hm => h (List.mem_cons_of_mem c hm)
    have hsecond : (piece ++ rest).head? ≠ some 'S' := by
      cases piece with
      | nil => exact hrest
      | cons d piece =>
        rintro ⟨rfl⟩
        simp at hpiece
    have hfront : ¬ stepMark.isPrefixOf (c :: (piece ++ rest)) = true := by
      intro hfront
      obtain ⟨after, hafter⟩ := List.isPrefixOf_iff_prefix.mp hfront
      exact hsecond (by rw [← (List.cons.inj hafter).2]; rfl)
    rw [List.cons_append, Text.splitAtText, if_neg hfront, ih hpiece]
    rfl

theorem splitAtText_intercalate {pieces : List (List Char)} (hne : pieces ≠ [])
    (h : ∀ piece ∈ pieces, 'S' ∉ piece) :
    Text.splitAtText stepMark (stepMark.intercalate pieces) = pieces := by
  induction pieces with
  | nil => contradiction
  | cons piece pieces ih =>
    have hpiece := h piece (by simp)
    cases pieces with
    | nil =>
      have hnil : Text.splitAtText stepMark [] = [[]] := by simp [Text.splitAtText]
      simpa using splitAtText_append hpiece (by simp) hnil
    | cons next pieces =>
      have hnext := ih (by simp) fun p hp => h p (by simp [hp])
      have hrest := splitAtText_mark (stepMark.intercalate (next :: pieces))
      rw [hnext] at hrest
      rw [List.intercalate_cons_cons, List.append_assoc]
      simpa using splitAtText_append hpiece (by simp [stepMark]) hrest

theorem mark_intercalate (mark : List Char) {pieces : List (List Char)} (hne : pieces ≠ []) :
    mark ++ mark.intercalate pieces = pieces.flatMap (mark ++ ·) := by
  induction pieces with
  | nil => contradiction
  | cons piece pieces ih =>
    cases pieces with
    | nil => simp
    | cons next pieces =>
      rw [List.intercalate_cons_cons, List.flatMap_cons, ← ih (by simp)]
      simp

end Splitting

section Characters

def isNameChar (c : Char) : Bool := c.isAlphanum || c = '_' || c = '-' || c = ',' || c = '@'

theorem toNat_lt_of_isNameChar {c : Char} (h : isNameChar c = true) : c.toNat < 128 := by
  have hbelow : ∀ d : Char, d.toNat < 128 → c.val ≤ d.val → c.toNat < 128 :=
    fun d hd hle => Nat.lt_of_le_of_lt (UInt32.le_iff_toNat_le.mp hle) hd
  simp only [isNameChar, Bool.or_eq_true, decide_eq_true_eq] at h
  rcases h with (((hword | rfl) | rfl) | rfl) | rfl
  · rcases Bool.or_eq_true_iff.mp hword with halpha | hdigit
    · rcases Bool.or_eq_true_iff.mp halpha with hupper | hlower
      · exact hbelow 'Z' (by decide) (of_decide_eq_true hupper).2
      · exact hbelow 'z' (by decide) (of_decide_eq_true (Bool.and_eq_true_iff.mp hlower).2)
    · exact hbelow '9' (by decide) (of_decide_eq_true (Bool.and_eq_true_iff.mp hdigit).2)
  all_goals decide

/-- What such a character becomes belongs to identifiers, is no capital and stays as it is. -/
theorem ofNameChar_spec {c : Char} (h : isNameChar c = true) :
    Token.isIdentRest (Identifier.ofNameChar c) = true ∧ Identifier.ofNameChar c ≠ 'S' ∧
      Identifier.ofNameChar (Identifier.ofNameChar c) = Identifier.ofNameChar c := by
  have hall : ∀ n < 128, isNameChar (Char.ofNat n) = true →
      Token.isIdentRest (Identifier.ofNameChar (Char.ofNat n)) = true ∧
        Identifier.ofNameChar (Char.ofNat n) ≠ 'S' ∧
        Identifier.ofNameChar (Identifier.ofNameChar (Char.ofNat n)) = Identifier.ofNameChar (Char.ofNat n) := by
    decide +kernel
  have hthis := hall c.toNat (toNat_lt_of_isNameChar h)
  rw [Char.ofNat_toNat] at hthis
  exact hthis h

def isPlainName (name : String) : Bool := !name.isEmpty && name.toList.all isNameChar

/-- An identifier as it stands in a source, with a digit first or not. -/
structure SourceWord (word : String) : Prop where
  ne_nil : word.toList ≠ []
  chars : ∀ c ∈ word.toList, Token.isIdentRest c = true
  lower : 'S' ∉ word.toList
  fixed : Identifier.ofName word = word

theorem word_of_plain {name : String} (h : isPlainName name = true) : SourceWord (Identifier.ofName name) := by
  simp only [isPlainName, Bool.and_eq_true, List.all_eq_true, Bool.not_eq_true'] at h
  obtain ⟨hne, hchars⟩ := h
  have hlist : (Identifier.ofName name).toList = name.toList.map Identifier.ofNameChar := by
    simp [Identifier.ofName]
  constructor
  · rw [hlist]
    simpa using hne
  · rw [hlist]
    intro c hc
    obtain ⟨d, hd, rfl⟩ := List.mem_map.mp hc
    exact (ofNameChar_spec (hchars d hd)).1
  · rw [hlist]
    intro hc
    obtain ⟨d, hd, he⟩ := List.mem_map.mp hc
    exact (ofNameChar_spec (hchars d hd)).2.1 he
  · rw [Identifier.ofName, hlist, List.map_map, Identifier.ofName]
    exact congrArg String.ofList (List.map_congr_left fun d hd => (ofNameChar_spec (hchars d hd)).2.2)

end Characters

section Tokens
variable {g : Graph} {n : NodeId}

def tokenText (idents : List String) : String := "DT_N" ++ String.join (idents.map ("_S_" ++ ·))

theorem toList_tokenText (idents : List String) :
    (tokenText idents).toList = "DT_N".toList ++ (idents.map String.toList).flatMap (stepMark ++ ·) := by
  have hmark : "_S_".toList = stepMark := rfl
  simp only [tokenText, String.toList_append, String.toList_join, List.flatMap_map, hmark]

/-- The way from the root by the identifiers of children ends at the node. -/
def LeadsTo (g : Graph) (idents : List String) (n : NodeId) : Prop :=
  idents.foldlM g.childByIdent? Graph.root = some n

theorem leadsTo_concat {idents : List String} {ident : String} : LeadsTo g (idents ++ [ident]) n ↔
    ∃ p, LeadsTo g idents p ∧ g.childByIdent? p ident = some n := by
  simp [LeadsTo, Option.bind_eq_some_iff]

/-- A generated token is read as a way from the root. -/
theorem leads_of_nodeToken {text : String} (h : Accessor.nodeToken? g text = some n) :
    ∃ idents, text = tokenText idents ∧ LeadsTo g idents n := by
  obtain ⟨rest, hrest, h⟩ := Option.bind_eq_some_iff.mp h
  have htext := dropFront?_eq_some_iff.mp hrest
  split at h
  · rename_i hempty
    obtain rfl := List.isEmpty_iff.mp hempty
    cases h
    exact ⟨[], String.toList_inj.mp (by simpa [toList_tokenText] using htext), rfl⟩
  · obtain ⟨names, hnames, hwalk⟩ := Option.bind_eq_some_iff.mp h
    have hsplit : stepMark.intercalate (Text.splitAtText stepMark names) = names :=
      intercalate_splitAtText (by simp [stepMark]) names
    have hjoin := mark_intercalate stepMark (splitAtText_ne_nil stepMark names)
    have hback : ((Text.splitAtText stepMark names).map String.ofList).map String.toList =
        Text.splitAtText stepMark names := by simp [Function.comp_def]
    refine ⟨(Text.splitAtText stepMark names).map String.ofList, ?_, ?_⟩
    · apply String.toList_inj.mp
      rw [htext, dropFront?_eq_some_iff.mp hnames, toList_tokenText, hback, ← hjoin, hsplit]
      rfl
    · rw [LeadsTo, List.foldlM_map]
      exact hwalk

/-- The way is read back from its token, since no identifier has the letter of the mark. -/
theorem nodeToken_tokenText {idents : List String} (hlower : ∀ ident ∈ idents, 'S' ∉ ident.toList)
    (h : LeadsTo g idents n) : Accessor.nodeToken? g (tokenText idents) = some n := by
  refine Option.bind_eq_some_iff.mpr ⟨_, dropFront?_eq_some_iff.mpr (toList_tokenText idents), ?_⟩
  by_cases hne : idents = []
  · subst hne
    exact h
  · have hpieces : idents.map String.toList ≠ [] := by simpa using hne
    have hsplit := splitAtText_intercalate hpieces (by simpa using hlower)
    rw [← mark_intercalate stepMark hpieces, if_neg (by simp [stepMark])]
    refine Option.bind_eq_some_iff.mpr ⟨_, dropFront?_eq_some_iff.mpr rfl, ?_⟩
    change List.foldlM _ _ (Text.splitAtText stepMark _) = _
    rw [hsplit, List.foldlM_map]
    simpa [LeadsTo] using h

end Tokens

section Ways
variable {g : Graph} {n : NodeId}

def identOf (g : Graph) (n : NodeId) : String := Identifier.ofName (g.node n).fullName

def pathIdents (g : Graph) (n : NodeId) : List String := (g.segments n).map Identifier.ofName

theorem Sound.pathIdents_root (hs : Sound g) : pathIdents g Graph.root = [] := by
  rw [pathIdents, segments_top hs.root_top]
  rfl

theorem Linked.pathIdents_child (hl : Linked g) {p c : NodeId} (hc : c ∈ g.children p) :
    pathIdents g c = pathIdents g p ++ [identOf g c] := by
  rw [pathIdents, hl.segments_child (hl.child p c hc), List.map_append]
  rfl

def SiblingsDiffer (g : Graph) : Prop :=
  ∀ p ∈ g.descendants Graph.root, ((g.children p).map (identOf g)).Nodup

instance (g : Graph) : Decidable (SiblingsDiffer g) :=
  inferInstanceAs (Decidable (∀ p ∈ g.descendants Graph.root, ((g.children p).map (identOf g)).Nodup))

theorem childByIdent_some {p c : NodeId} {ident : String} (h : g.childByIdent? p ident = some c) :
    c ∈ g.children p ∧ identOf g c = ident := by
  have hident := List.find?_some h
  exact ⟨List.mem_of_find?_eq_some h, of_decide_eq_true hident⟩

theorem childByIdent_own {p c : NodeId} (hd : ((g.children p).map (identOf g)).Nodup) (hc : c ∈ g.children p) :
    g.childByIdent? p (identOf g c) = some c := by
  have hsome : (g.childByIdent? p (identOf g c)).isSome := by
    rw [Graph.childByIdent?, List.find?_isSome]
    exact ⟨c, hc, by simp [identOf]⟩
  obtain ⟨c', hfound⟩ := Option.isSome_iff_exists.mp hsome
  obtain ⟨hc', hident⟩ := childByIdent_some hfound
  rw [hfound, List.inj_on_of_nodup_map hd hc' hc hident]

/-- Where siblings differ, the way to a node leads there. -/
theorem Trail.leads (hs : Sound g) (hd : SiblingsDiffer g) {names : List NodeName} (h : Trail g names n) :
    LeadsTo g (pathIdents g n) n := by
  induction h with
  | root =>
    rw [hs.pathIdents_root]
    rfl
  | @child names parent c above listed ih =>
    have hchild := childByIdent_own (hd parent (hs.mem_descendants.mpr ⟨names, above⟩)) listed
    rw [hs.linked.pathIdents_child listed]
    exact leadsTo_concat.mpr ⟨parent, ih, hchild⟩

/-- A way that leads somewhere is the way to the node there. -/
theorem LeadsTo.ends (hs : Sound g) {idents : List String} (h : LeadsTo g idents n) :
    n ∈ g.descendants Graph.root ∧ idents = pathIdents g n := by
  induction idents using List.reverseRecOn generalizing n with
  | nil =>
    cases h
    exact ⟨hs.mem_descendants.mpr ⟨[], .root⟩, hs.pathIdents_root.symm⟩
  | append_singleton idents ident ih =>
    obtain ⟨p, hp, hlast⟩ := leadsTo_concat.mp h
    obtain ⟨hc, hident⟩ := childByIdent_some hlast
    obtain ⟨hmem, rfl⟩ := ih hp
    obtain ⟨names, above⟩ := hs.mem_descendants.mp hmem
    exact ⟨hs.mem_descendants.mpr ⟨_, above.child hc⟩, by rw [hs.linked.pathIdents_child hc, hident]⟩

end Ways

section Meanings
variable {g : Graph} {env : Accessor.Surroundings} {n p : NodeId}

/-- The expression means the node, wherever it stands in a text or in another expression and whatever expansions
mean. -/
def Denotes (g : Graph) (env : Accessor.Surroundings) (e : CallExpr) (n : NodeId) : Prop :=
  ∀ deeper whole i e', unranged e' = unranged e → Accessor.resolveWith g env deeper whole i e' = some (.node n)

theorem Denotes.resolveText {e : CallExpr} (h : Denotes g env e n) (hl : Legible e) (depth : Nat) :
    Accessor.resolveText? g env depth e.text = some (.node n) := by
  obtain ⟨e', hparse, hplain⟩ := hl.parse_text
  rw [Accessor.resolveText?, hparse]
  exact h _ e' 0 e' hplain

/-- An argument means what it means as the part with its number. -/
theorem resolveArg_eq (g : Graph) (env : Accessor.Surroundings) (deeper : CallExpr → Option Resolved)
    (whole : CallExpr) {next : Nat} {args : List CallExpr} {k m : Nat} {a : CallExpr} (ha : args[k]? = some a)
    (hm : (CallExpr.argNumbers next args)[k]? = some m) :
    Accessor.resolveArg g env deeper whole next args k = Accessor.resolveWith g env deeper whole m a := by
  induction args generalizing next k with
  | nil => simp at ha
  | cons b args ih =>
    cases k with
    | zero =>
      obtain rfl : b = a := by simpa using ha
      obtain rfl : next = m := by simpa [CallExpr.argNumbers] using hm
      rfl
    | succ k => exact ih (by simpa using ha) (by simpa [CallExpr.argNumbers] using hm)

theorem resolveArg_eq_none (g : Graph) (env : Accessor.Surroundings) (deeper : CallExpr → Option Resolved)
    (whole : CallExpr) {next : Nat} {args : List CallExpr} {k : Nat} (ha : args[k]? = none) :
    Accessor.resolveArg g env deeper whole next args k = none := by
  induction args generalizing next k with
  | nil => rfl
  | cons b args ih =>
    cases k with
    | zero => simp at ha
    | succ k => exact ih (by simpa using ha)

theorem exists_argNumber (next : Nat) {args : List CallExpr} {k : Nat} {a : CallExpr} (ha : args[k]? = some a) :
    ∃ m, (CallExpr.argNumbers next args)[k]? = some m := by
  obtain ⟨hk, -⟩ := List.getElem?_eq_some_iff.mp ha
  rw [← length_argNumbers next] at hk
  exact ⟨_, List.getElem?_eq_getElem hk⟩

/-- Arguments that are alike but for ranges are so one by one. -/
theorem exists_arg {xs ys : List CallExpr} (h : xs.map unranged = ys.map unranged) {i : Nat} {y : CallExpr}
    (hy : ys[i]? = some y) : ∃ x, xs[i]? = some x ∧ unranged x = unranged y := by
  have hget := congrArg (·[i]?) h
  simpa only [List.getElem?_map, hy, Option.map_some, Option.map_eq_some_iff] using hget

/-- The arguments are the expected ones but for ranges, and mean what these mean. -/
structure Given (g : Graph) (env : Accessor.Surroundings) (args : List CallExpr) (a : Accessor.Args) : Prop where
  exprs : a.exprs.map unranged = args.map unranged
  nodes : ∀ i e m, args[i]? = some e → Denotes g env e m → a.resolve? i = some (.node m)

/-- A call of the vocabulary means what its form makes of its arguments. -/
theorem Denotes.call {name : String} {args : List CallExpr} {range : Range} (form : Form)
    (hform : Form.ofCall? name args.length = some form)
    (h : ∀ a, Given g env args a → Accessor.form? g env a form = some (.node n)) :
    Denotes g env (.call name args range) n := by
  intro deeper whole i e' hplain
  cases e' with
  | leaf => cases hplain
  | call name' args' range' =>
    simp only [unranged, unrangedArgs_eq_map, CallExpr.call.injEq, and_true] at hplain
    obtain ⟨rfl, hargs⟩ := hplain
    have hlength : args'.length = args.length := by simpa using congrArg List.length hargs
    rw [Accessor.resolveWith, Accessor.call?]
    simp only [hlength, hform]
    refine h _ ⟨hargs, ?_⟩
    intro k e m he hmeans
    obtain ⟨e'', he'', hsame⟩ := exists_arg hargs he
    obtain ⟨number, hnumber⟩ := exists_argNumber (i + 1) he''
    exact (resolveArg_eq g env deeper whole he'' hnumber).trans (hmeans deeper whole number e'' hsame)

def wordLeaf (word : String) : CallExpr :=
  .leaf (if word.toList.head?.any Char.isDigit then .number else .ident) word ⟨0, 0⟩

theorem legible_wordLeaf {word : String} (hne : word.toList ≠ [])
    (h : ∀ c ∈ word.toList, Token.isIdentRest c = true) : Legible (wordLeaf word) := by
  obtain ⟨c, cs, hword⟩ := List.exists_cons_of_ne_nil hne
  rw [hword] at h
  have hrest : ∀ d ∈ cs, Token.isIdentRest d = true := fun d hd => h d (List.mem_cons_of_mem c hd)
  have hdigit : word.toList.head?.any Char.isDigit = c.isDigit := by rw [hword]; rfl
  rw [wordLeaf, hdigit]
  cases hc : c.isDigit with
  | true => exact .leaf _ .number rfl (hword ▸ .number hc hrest)
  | false =>
    have hstart : Token.isIdentStart c = true := by
      simpa [Token.isIdentStart, Token.isIdentRest, Char.isAlphanum, hc] using h c (by simp)
    exact .leaf _ .ident rfl (hword ▸ .ident hstart hrest)

theorem Given.raw {args : List CallExpr} {a : Accessor.Args} (h : Given g env args a) {i : Nat} {word : String}
    (hi : args[i]? = some (wordLeaf word)) : a.raw? i = some word := by
  obtain ⟨e, he, hplain⟩ := exists_arg h.exprs hi
  cases e with
  | call => cases hplain
  | leaf kind text range =>
    simp only [wordLeaf, unranged, CallExpr.leaf.injEq, and_true] at hplain
    obtain ⟨rfl, rfl⟩ := hplain
    rw [Accessor.Args.raw?, he]
    by_cases hdigit : text.toList.head?.any Char.isDigit <;> simp [hdigit]

theorem Given.ident {args : List CallExpr} {a : Accessor.Args} (h : Given g env args a) {i : Nat} {word : String}
    (hword : SourceWord word) (hi : args[i]? = some (wordLeaf word)) : a.ident? i = some word := by
  rw [Accessor.Args.ident?, h.raw hi, Option.map_some, hword.fixed]

theorem denotes_root : Denotes g env (.call "DT_ROOT" [] ⟨0, 0⟩) Graph.root :=
  .call .root (by decide) fun _ _ => rfl

theorem Denotes.child {e : CallExpr} {word : String} {c : NodeId} (h : Denotes g env e p) (hword : SourceWord word)
    (hc : g.childByIdent? p word = some c) : Denotes g env (.call "DT_CHILD" [e, wordLeaf word] ⟨0, 0⟩) c := by
  have hform : Form.ofCall? "DT_CHILD" 2 = some .child := by decide
  refine .call .child hform fun a ha => ?_
  have hnode : a.node? 0 = some p := by
    rw [Accessor.Args.node?, ha.nodes 0 e p rfl h]
    rfl
  have hident : a.ident? 1 = some word := ha.ident hword rfl
  change ((a.node? 0).bind fun id => (a.ident? 1).bind fun ident => (g.childByIdent? id ident).bind fun child =>
    some (Resolved.node child)) = _
  rw [hnode, Option.bind_some, hident, Option.bind_some, hc, Option.bind_some]

theorem denotes_label {label : String} (h : g.resolveLabel? label = some n) :
    Denotes g env (.call "DT_NODELABEL" [wordLeaf label] ⟨0, 0⟩) n := by
  have hform : Form.ofCall? "DT_NODELABEL" 1 = some .nodeLabel := by decide
  refine .call .nodeLabel hform fun a ha => ?_
  have hraw : a.raw? 0 = some label := ha.raw rfl
  change ((a.raw? 0).bind g.resolveLabel?).map Resolved.node = _
  rw [hraw, Option.bind_some, h, Option.map_some]

theorem mapM_range {f : Nat → Option String} {xs : List String} (h : ∀ i x, xs[i]? = some x → f i = some x) :
    (List.range xs.length).mapM f = some xs := by
  induction xs using List.reverseRecOn with
  | nil => rfl
  | append_singleton xs x ih =>
    have hfirst := ih fun i y hy => h i y (by
      rw [List.getElem?_append_left (List.getElem?_eq_some_iff.mp hy).1, hy])
    have hlast : f xs.length = some x := h _ x (by simp)
    rw [List.length_append, List.length_singleton, List.range_succ, List.mapM_append, hfirst]
    simp [hlast]

theorem denotes_path {idents : List String} (hne : idents ≠ []) (hwords : ∀ ident ∈ idents, SourceWord ident)
    (h : LeadsTo g idents n) : Denotes g env (.call "DT_PATH" (idents.map wordLeaf) ⟨0, 0⟩) n := by
  have hlength : 0 < (idents.map wordLeaf).length := by simpa [List.length_pos_iff] using hne
  refine .call .path (by simp only [Form.ofCall?, hlength, if_true]) fun a ha => ?_
  have hargs : a.exprs.length = idents.length := by simpa using congrArg List.length ha.exprs
  have hidents : (List.range a.exprs.length).mapM a.ident? = some idents := by
    rw [hargs]
    refine mapM_range fun i ident hi => ?_
    exact ha.ident (hwords ident (List.mem_of_getElem? hi)) (by simp [hi])
  rw [LeadsTo] at h
  change (((List.range a.exprs.length).mapM a.ident?).bind fun idents =>
    (idents.foldlM g.childByIdent? Graph.root).bind fun id => some (Resolved.node id)) = _
  rw [hidents, Option.bind_some, h, Option.bind_some]

theorem denotes_token {text : String} (h : Accessor.nodeToken? g text = some n) :
    Denotes g env (.leaf .ident text ⟨0, 0⟩) n := by
  intro deeper whole i e' hplain
  cases e' with
  | call => cases hplain
  | leaf kind text' range =>
    simp only [unranged, CallExpr.leaf.injEq, and_true] at hplain
    obtain ⟨rfl, rfl⟩ := hplain
    rw [Accessor.resolveWith, h]
    rfl

end Meanings

section Texts
variable {g : Graph} {env : Accessor.Surroundings} {n p : NodeId}

def pathText (idents : List String) : String := "DT_PATH(" ++ ", ".intercalate idents ++ ")"

def childText (idents : List String) : String :=
  idents.foldl (fun parent ident => "DT_CHILD(" ++ parent ++ ", " ++ ident ++ ")") "DT_ROOT()"

def labelText (label : String) : String := "DT_NODELABEL(" ++ label ++ ")"

def Says (g : Graph) (env : Accessor.Surroundings) (text : String) (n : NodeId) : Prop :=
  ∃ e, Legible e ∧ e.text = text ∧ Denotes g env e n

theorem Says.resolve {text : String} (h : Says g env text n) (depth : Nat) :
    Accessor.resolveText? g env depth text = some (.node n) := by
  obtain ⟨e, hl, rfl, hd⟩ := h
  exact hd.resolveText hl depth

theorem formed_of_identifier {name : String} (h : isIdentifier name = true) : Formed .ident name.toList := by
  obtain ⟨c, cs, hname, hc, hcs⟩ := identifier_cases h
  exact hname ▸ .ident hc hcs

theorem SourceWord.legible {word : String} (h : SourceWord word) : Legible (wordLeaf word) :=
  legible_wordLeaf h.ne_nil h.chars

theorem formed_tokenText {idents : List String} (hwords : ∀ ident ∈ idents, SourceWord ident) :
    Formed .ident (tokenText idents).toList := by
  have hlist := toList_tokenText idents
  have hstart : "DT_N".toList = 'D' :: ['T', '_', 'N'] := rfl
  have hname : ['T', '_', 'N'].all Token.isIdentRest = true := by decide
  have hmark : stepMark.all Token.isIdentRest = true := by decide
  rw [hstart, List.cons_append] at hlist
  rw [hlist]
  refine .ident (by decide) fun c hc => ?_
  rcases List.mem_append.mp hc with hc | hc
  · exact List.all_eq_true.mp hname c hc
  · obtain ⟨piece, hpiece, hc⟩ := List.mem_flatMap.mp hc
    obtain ⟨ident, hident, rfl⟩ := List.mem_map.mp hpiece
    rcases List.mem_append.mp hc with hc | hc
    · exact List.all_eq_true.mp hmark c hc
    · exact (hwords ident hident).chars c hc

theorem says_token {idents : List String} (hwords : ∀ ident ∈ idents, SourceWord ident) (h : LeadsTo g idents n) :
    Says g env (tokenText idents) n := by
  have hread := nodeToken_tokenText (fun ident hi => (hwords ident hi).lower) h
  exact ⟨.leaf .ident (tokenText idents) ⟨0, 0⟩, .leaf _ .ident rfl (formed_tokenText hwords), rfl,
    denotes_token hread⟩

theorem texts_wordLeaf (words : List String) : CallExpr.texts (words.map wordLeaf) = words := by
  induction words with
  | nil => rfl
  | cons word words ih => rw [List.map_cons, CallExpr.texts, ih]; rfl

theorem says_path {idents : List String} (hne : idents ≠ []) (hwords : ∀ ident ∈ idents, SourceWord ident)
    (h : LeadsTo g idents n) : Says g env (pathText idents) n := by
  refine ⟨.call "DT_PATH" (idents.map wordLeaf) ⟨0, 0⟩, .call _ (formed_of_identifier (by decide)) ?_, ?_,
    denotes_path hne hwords h⟩
  · intro e he
    obtain ⟨ident, hident, rfl⟩ := List.mem_map.mp he
    exact (hwords ident hident).legible
  · rw [CallExpr.text, texts_wordLeaf]
    rfl

theorem says_root : Says g env "DT_ROOT()" Graph.root :=
  ⟨.call "DT_ROOT" [] ⟨0, 0⟩, .call _ (formed_of_identifier (by decide)) (by simp), by decide, denotes_root⟩

theorem Says.child {text word : String} {c : NodeId} (h : Says g env text p) (hword : SourceWord word)
    (hc : g.childByIdent? p word = some c) : Says g env ("DT_CHILD(" ++ text ++ ", " ++ word ++ ")") c := by
  obtain ⟨e, hl, rfl, hd⟩ := h
  refine ⟨.call "DT_CHILD" [e, wordLeaf word] ⟨0, 0⟩, .call _ (formed_of_identifier (by decide)) ?_, ?_,
    hd.child hword hc⟩
  · intro a ha
    simp only [List.mem_cons, List.not_mem_nil, or_false] at ha
    rcases ha with rfl | rfl
    · exact hl
    · exact hword.legible
  · simp [CallExpr.text, CallExpr.texts, wordLeaf, String.append_assoc]

/-- Step by step, each child says where its parent's text leads. -/
theorem says_children {idents : List String} (hwords : ∀ ident ∈ idents, SourceWord ident)
    (h : LeadsTo g idents n) : Says g env (childText idents) n := by
  induction idents using List.reverseRecOn generalizing n with
  | nil =>
    cases h
    exact says_root
  | append_singleton idents ident ih =>
    obtain ⟨p, hp, hlast⟩ := leadsTo_concat.mp h
    rw [childText, List.foldl_append]
    exact (ih (fun i hi => hwords i (by simp [hi])) hp).child (hwords ident (by simp)) hlast

theorem says_label {label : String} (hident : isIdentifier label = true) (h : g.resolveLabel? label = some n) :
    Says g env (labelText label) n := by
  obtain ⟨c, cs, hlabel, hc, hcs⟩ := identifier_cases hident
  have hlegible : Legible (wordLeaf label) := by
    refine legible_wordLeaf (by simp [hlabel]) ?_
    rw [hlabel]
    intro d hd
    rcases List.mem_cons.mp hd with rfl | hd
    · exact rest_of_start hc
    · exact hcs d hd
  refine ⟨.call "DT_NODELABEL" [wordLeaf label] ⟨0, 0⟩, .call _ (formed_of_identifier (by decide)) ?_, ?_,
    denotes_label h⟩
  · simpa using hlegible
  · have htexts : CallExpr.texts [wordLeaf label] = [label] := texts_wordLeaf [label]
    rw [CallExpr.text, htexts, String.intercalate_singleton]
    rfl

end Texts

/-- All forms of a node's name agree. Where siblings have different identifiers, the generated token, the path,
the children one by one and every label that is an identifier mean the node, in any environment; and a text is
taken for a generated token only if it is the token of the node that it is taken for. -/
theorem node_forms_agree {config : BuildConfig} {fragments : List Fragment} {isCancelled : Nat → Bool}
    {g : Graph} (h : Build.build config fragments isCancelled = .ok g) (hd : SiblingsDiffer g)
    (env : Accessor.Surroundings) (depth : Nat) :
    (∀ n ∈ g.descendants Graph.root, (∀ name ∈ g.segments n, isPlainName name = true) →
      let idents := (g.segments n).map Identifier.ofName
      let means := fun text => Accessor.resolveText? g env depth text = some (.node n)
      means (tokenText idents) ∧ (idents ≠ [] → means (pathText idents)) ∧ means (childText idents) ∧
        ∀ label ∈ g.labelsOf n, isIdentifier label = true → means (labelText label)) ∧
    ∀ text n, Accessor.nodeToken? g text = some n →
      n ∈ g.descendants Graph.root ∧ text = tokenText ((g.segments n).map Identifier.ofName) := by
  have hs := built_sound h
  refine ⟨?_, ?_⟩
  · intro n hn hnames
    obtain ⟨names, htrail⟩ := hs.mem_descendants.mp hn
    have hleads : LeadsTo g ((g.segments n).map Identifier.ofName) n := htrail.leads hs hd
    have hwords : ∀ ident ∈ (g.segments n).map Identifier.ofName, SourceWord ident := by
      intro ident hident
      obtain ⟨name, hname, rfl⟩ := List.mem_map.mp hident
      exact word_of_plain (hnames name hname)
    refine ⟨(says_token hwords hleads).resolve depth, fun hne => (says_path hne hwords hleads).resolve depth,
      (says_children hwords hleads).resolve depth, ?_⟩
    intro label hlabel hident
    have hlive : g.isLive n = true := ((hs.trail_iff_live n).mp ⟨names, htrail⟩).1
    exact (says_label hident (((built_labelled h).resolve_label_iff label n).mpr ⟨hlive, hlabel⟩)).resolve depth
  · intro text n htoken
    obtain ⟨idents, rfl, hleads⟩ := leads_of_nodeToken htoken
    obtain ⟨hmem, rfl⟩ := hleads.ends hs
    exact ⟨hmem, rfl⟩

/-- A name with underscores at both ends, below it one with a digit first and an address, and one that has the
letter of the mark between underscores. -/
def oddNames : List Fragment :=
  [⟨⟨0⟩, .root []
    [.child { name := .parse "-soc_" }
      [.child { name := .parse "1wire@10,2", labels := [{ name := "Bus_1" }] } [],
        .child { name := .parse "Pin_S_mux" } []]] {}⟩]

theorem node_forms_agree_oddNames :
    ∃ g, Build.build {} oddNames (fun _ => false) = .ok g ∧ SiblingsDiffer g ∧
      (∀ text ∈ ["DT_N_S__soc__S_1wire_10_2", "DT_PATH(_soc_, 1wire_10_2)",
          "DT_CHILD(DT_CHILD(DT_ROOT(), _soc_), 1wire_10_2)", "DT_NODELABEL(Bus_1)"],
        Accessor.resolveText? g (.ofDefines {}) 0 text = some (.node ⟨2⟩)) ∧
      Accessor.resolveText? g (.ofDefines {}) 0 "DT_N_S__soc__S_pin_s_mux" = some (.node ⟨3⟩) := by
  obtain ⟨g, h, hd, hmem, hsegments, hlabel, hmem', hsegments'⟩ :
      ∃ g, Build.build {} oddNames (fun _ => false) = .ok g ∧ SiblingsDiffer g ∧
        ⟨2⟩ ∈ g.descendants Graph.root ∧ g.segments ⟨2⟩ = ["-soc_", "1wire@10,2"] ∧
        "Bus_1" ∈ g.labelsOf ⟨2⟩ ∧
        ⟨3⟩ ∈ g.descendants Graph.root ∧ g.segments ⟨3⟩ = ["-soc_", "Pin_S_mux"] :=
    exists_built (by decide +kernel)
  have hall := (node_forms_agree h hd (.ofDefines {}) 0).1
  obtain ⟨htoken, hpath, hchild, hlabels⟩ := hall ⟨2⟩ hmem (by rw [hsegments]; decide)
  obtain ⟨htoken', -⟩ := hall ⟨3⟩ hmem' (by rw [hsegments']; decide)
  rw [hsegments] at htoken hpath hchild
  rw [hsegments'] at htoken'
  refine ⟨g, h, hd, ?_, htoken'⟩
  intro text htext
  simp only [List.mem_cons, List.not_mem_nil, or_false] at htext
  rcases htext with rfl | rfl | rfl | rfl
  · exact htoken
  · exact hpath (by decide)
  · exact hchild
  · exact hlabels "Bus_1" hlabel (by decide)

end Devicetree.Proofs
