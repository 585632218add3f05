import Devicetree.CallExpr.Parse

namespace Devicetree.Proofs

/-- The depth of parentheses after one more token of an argument. Outside all of its parentheses, a comma or a
closing parenthesis ends the argument. -/
def depthAfter (depth : Nat) (t : Token) : Option Nat :=
  match t.kind, depth with
  | .comma, 0 | .rparen, 0 => none
  | .lparen, d => some (d + 1)
  | .rparen, d + 1 => some d
  | _, d => some d

/-- The tokens can be one argument: they close all parentheses that they open, and no comma stands outside. -/
def Flat (ts : List Token) : Prop := ts.foldlM depthAfter 0 = some 0

/-- The tokens can be the arguments of a call, with commas between them. -/
inductive Pieces : List Token → Prop
  | last {ts : List Token} (h : Flat ts) : Pieces ts
  | more {ts us : List Token} {comma : Token} (h : Flat ts) (hcomma : comma.kind = .comma) (hus : Pieces us) :
      Pieces (ts ++ comma :: us)

/-- The tokens are one expression: a single token, or a call with its closing parenthesis at the end. -/
inductive Whole : List Token → Prop
  | leaf {t : Token} {kind : LeafKind} (h : CallExpr.leafKind? t.kind = some kind) : Whole [t]
  | call {ts : List Token} {t left right : Token} (ht : t.kind = .ident) (hleft : left.kind = .lparen)
      (h : Pieces ts) (hright : right.kind = .rparen) : Whole (t :: left :: ts ++ [right])

inductive Reading where
  | expr (e : CallExpr)
  | arg (next : Token) (e : CallExpr)
  | args (close : Token) (es : List CallExpr)

/-- The raw argument made up of the tokens. Without any tokens it lies where the next one starts. -/
def rawLeaf (source : List Char) (ts : List Token) (next : Token) : CallExpr :=
  let start := (ts.headD next).offset
  let stop := (ts.getLast?.map Token.stop).getD start
  .leaf .raw (String.ofList (Text.trim (Text.slice source start stop))) ⟨start, stop⟩

inductive Spells (source : List Char) : Reading → List Token → Prop
  | leaf {t : Token} {kind : LeafKind} (h : CallExpr.leafKind? t.kind = some kind) :
      Spells source (.expr (.leaf kind t.text ⟨t.offset, t.stop⟩)) [t]
  | empty {t left right : Token} (ht : t.kind = .ident) (hleft : left.kind = .lparen)
      (hright : right.kind = .rparen) :
      Spells source (.expr (.call t.text [] ⟨t.offset, right.stop⟩)) [t, left, right]
  | call {ts : List Token} {t left right : Token} {args : List CallExpr} (ht : t.kind = .ident)
      (hleft : left.kind = .lparen) (hne : ts ≠ []) (h : Spells source (.args right args) ts)
      (hright : right.kind = .rparen) :
      Spells source (.expr (.call t.text args ⟨t.offset, right.stop⟩)) (t :: left :: ts ++ [right])
  | whole {ts : List Token} {next : Token} {e : CallExpr} (h : Spells source (.expr e) ts) :
      Spells source (.arg next e) ts
  | raw {ts : List Token} {next : Token} (hflat : Flat ts) (hwhole : ¬ Whole ts) :
      Spells source (.arg next (rawLeaf source ts next)) ts
  | last {ts : List Token} {close : Token} {e : CallExpr} (h : Spells source (.arg close e) ts) :
      Spells source (.args close [e]) ts
  | more {ts us : List Token} {close comma : Token} {e : CallExpr} {es : List CallExpr}
      (h : Spells source (.arg comma e) ts) (hcomma : comma.kind = .comma)
      (hus : Spells source (.args close es) us) :
      Spells source (.args close (e :: es)) (ts ++ comma :: us)

section Depth
variable {d d' : Nat} {t q : Token} {ts us g rest : List Token}

theorem Flat.nil : Flat [] := rfl

theorem endsArg_iff : CallExpr.endsArg t = true ↔ t.kind = .comma ∨ t.kind = .rparen := by
  simp [CallExpr.endsArg]

theorem depthAfter_eq_none : depthAfter d t = none ↔ d = 0 ∧ CallExpr.endsArg t = true := by
  rw [endsArg_iff]
  cases hkind : t.kind <;> cases d <;> simp [depthAfter, hkind]

theorem depthAfter_succ (h : depthAfter d t = some d') : depthAfter (d + 1) t = some (d' + 1) := by
  cases hkind : t.kind <;> cases d <;> simp_all [depthAfter]

theorem foldlM_succ (h : ts.foldlM depthAfter d = some d') : ts.foldlM depthAfter (d + 1) = some (d' + 1) := by
  induction ts generalizing d with
  | nil => simpa using h
  | cons t ts ih =>
    simp only [List.foldlM_cons, Option.bind_eq_bind, Option.bind_eq_some_iff] at h ⊢
    obtain ⟨e, ht, hts⟩ := h
    exact ⟨e + 1, depthAfter_succ ht, ih hts⟩

theorem splitRaw_cons (d : Nat) (t : Token) (ts : List Token) : CallExpr.splitRaw d (t :: ts) =
    match depthAfter d t with
    | none => ([], t :: ts)
    | some e => (t :: (CallExpr.splitRaw e ts).1, (CallExpr.splitRaw e ts).2) := by
  cases hkind : t.kind <;> cases d <;> simp [CallExpr.splitRaw, depthAfter, hkind]

/-- The split stops at the first token that ends the argument. -/
theorem splitRaw_append (h : g.foldlM depthAfter d = some 0) (hq : CallExpr.endsArg q = true) :
    CallExpr.splitRaw d (g ++ q :: rest) = (g, q :: rest) := by
  induction g generalizing d with
  | nil =>
    obtain rfl : d = 0 := by simpa using h
    rw [List.nil_append, splitRaw_cons, depthAfter_eq_none.mpr ⟨rfl, hq⟩]
  | cons t g ih =>
    simp only [List.foldlM_cons, Option.bind_eq_bind, Option.bind_eq_some_iff] at h
    obtain ⟨e, ht, hg⟩ := h
    rw [List.cons_append, splitRaw_cons, ht]
    simp [ih hg]

theorem splitRaw_eq (h : CallExpr.splitRaw d ts = (g, q :: rest)) :
    ts = g ++ q :: rest ∧ g.foldlM depthAfter d = some 0 ∧ CallExpr.endsArg q = true := by
  induction ts generalizing d g with
  | nil => cases h
  | cons t ts ih =>
    rw [splitRaw_cons] at h
    split at h
    · rename_i hnest
      obtain ⟨rfl, hends⟩ := depthAfter_eq_none.mp hnest
      cases h
      exact ⟨rfl, rfl, hends⟩
    · rename_i e hnest
      obtain ⟨rfl, hrest⟩ := Prod.mk.inj h
      obtain ⟨hts, hg, hq⟩ := ih (Prod.ext rfl hrest)
      refine ⟨by rw [List.cons_append, ← hts], ?_, hq⟩
      rw [List.foldlM_cons, hnest]
      exact hg

/-- Two arguments at the front of the same tokens are the same. -/
theorem flat_unique {g' rest' : List Token} {q' : Token} (hg : Flat g) (hq : CallExpr.endsArg q = true)
    (hg' : Flat g') (hq' : CallExpr.endsArg q' = true) (h : g ++ q :: rest = g' ++ q' :: rest') : g = g' := by
  have hsplit : CallExpr.splitRaw 0 (g ++ q :: rest) = (g, q :: rest) := splitRaw_append hg hq
  rw [h, splitRaw_append hg' hq'] at hsplit
  exact (Prod.mk.inj hsplit).1.symm

/-- In the parentheses of a call, commas are no end. -/
theorem Pieces.inside (h : Pieces ts) : ts.foldlM depthAfter 1 = some 1 := by
  induction h with
  | last h => exact foldlM_succ h
  | more h hcomma _ ih =>
    rw [List.foldlM_append, foldlM_succ h]
    simpa [depthAfter, hcomma] using ih

theorem Whole.flat (h : Whole ts) : Flat ts := by
  cases h with
  | @leaf t kind h =>
    cases hkind : t.kind <;> simp_all [CallExpr.leafKind?, Flat, depthAfter]
  | call ht hleft h hright => simp [Flat, depthAfter, ht, hleft, hright, h.inside]

end Depth

section Kinds
variable {d : Nat} {ts us : List Token}

/-- The kinds of the tokens alone decide how they nest. -/
theorem foldlM_congr (h : ts.map (·.kind) = us.map (·.kind)) :
    ts.foldlM depthAfter d = us.foldlM depthAfter d := by
  induction ts generalizing us d with
  | nil =>
    obtain rfl := List.map_eq_nil_iff.mp h.symm
    rfl
  | cons t ts ih =>
    obtain ⟨u, us, rfl, hkind, hrest⟩ := List.map_eq_cons_iff.mp h.symm
    have hstep : depthAfter d t = depthAfter d u := by
      unfold depthAfter
      rw [show u.kind = t.kind from hkind]
    rw [List.foldlM_cons, List.foldlM_cons, hstep]
    exact congrArg _ (funext fun _ => ih hrest.symm)

theorem Flat.congr (hf : Flat ts) (h : ts.map (·.kind) = us.map (·.kind)) : Flat us :=
  (foldlM_congr h).symm.trans hf

theorem Pieces.congr (hp : Pieces ts) (h : ts.map (·.kind) = us.map (·.kind)) : Pieces us := by
  induction hp generalizing us with
  | last hf => exact .last (hf.congr h)
  | more hf hcomma _ ih =>
    rw [List.map_append, List.map_cons] at h
    obtain ⟨as, bs, rfl, has, hbs⟩ := List.map_eq_append_iff.mp h.symm
    obtain ⟨c, bs, rfl, hc, hbs⟩ := List.map_eq_cons_iff.mp hbs
    exact .more (hf.congr has.symm) (hc.trans hcomma) (ih hbs.symm)

theorem Whole.congr (hw : Whole ts) (h : ts.map (·.kind) = us.map (·.kind)) : Whole us := by
  cases hw with
  | leaf hleaf =>
    obtain ⟨u, rfl, hkind⟩ := List.map_eq_singleton_iff.mp h.symm
    exact .leaf ((congrArg CallExpr.leafKind? hkind).trans hleaf)
  | call ht hleft hp hright =>
    simp only [List.map_append, List.map_cons, List.map_nil] at h
    obtain ⟨as, bs, rfl, has, hbs⟩ := List.map_eq_append_iff.mp h.symm
    obtain ⟨u, as, rfl, hu, has⟩ := List.map_eq_cons_iff.mp has
    obtain ⟨v, as, rfl, hv, has⟩ := List.map_eq_cons_iff.mp has
    obtain ⟨w, rfl, hw⟩ := List.map_eq_singleton_iff.mp hbs
    exact .call (hu.trans ht) (hv.trans hleft) (hp.congr has.symm) (hw.trans hright)

end Kinds

section Steps
variable {source : List Char} {n stop : Nat} {ts rest g after : List Token} {t left right q : Token}
  {e : CallExpr} {es : List CallExpr}

/-- The tokens after a single identifier do not make it the name of a call. -/
def Unopened (ts rest : List Token) : Prop :=
  ∀ t, ts = [t] → t.kind = .ident → ∀ p ∈ rest.head?, p.kind ≠ .lparen

def parseArg (source : List Char) (n : Nat) (ts : List Token) : Option (CallExpr × List Token) :=
  match CallExpr.parseExpr source n ts with
  | some (e, t :: rest) => if CallExpr.endsArg t then some (e, t :: rest) else CallExpr.rawArg? source ts
  | _ => CallExpr.rawArg? source ts

theorem rawArg_append (hg : Flat g) (hq : CallExpr.endsArg q = true) :
    CallExpr.rawArg? source (g ++ q :: rest) = some (rawLeaf source g q, q :: rest) := by
  have hsplit : CallExpr.splitRaw 0 (g ++ q :: rest) = (g, q :: rest) := splitRaw_append hg hq
  cases g with
  | nil => simp_all [CallExpr.rawArg?, rawLeaf]
  | cons t g =>
    rw [List.cons_append] at hsplit ⊢
    simp [CallExpr.rawArg?, rawLeaf, hsplit]

theorem rawArg_cases (h : CallExpr.rawArg? source ts = some (e, q :: rest)) :
    ∃ g, ts = g ++ q :: rest ∧ Flat g ∧ CallExpr.endsArg q = true := by
  unfold CallExpr.rawArg? at h
  split at h
  · cases h
  · rename_i t us
    have hrest : (CallExpr.splitRaw 0 (t :: us)).2 = q :: rest := by simp_all
    exact ⟨_, splitRaw_eq (Prod.ext rfl hrest)⟩

theorem parseArgs_succ : CallExpr.parseArgs source (n + 1) ts = (parseArg source n ts).bind fun p =>
    match p.2 with
    | [] => none
    | t :: after =>
      match t.kind with
      | .comma => (CallExpr.parseArgs source n after).bind fun r => some (p.1 :: r.1, r.2)
      | .rparen => some ([p.1], t.stop, after)
      | _ => none := by
  rw [CallExpr.parseArgs.eq_def, parseArg]
  dsimp only
  rcases CallExpr.parseExpr source n ts with _ | ⟨e, _ | ⟨t, rest⟩⟩
  · rfl
  · rfl
  · cases hends : CallExpr.endsArg t <;> simp only [hends] <;> rfl

theorem parseArgs_cases (h : CallExpr.parseArgs source (n + 1) ts = some (es, stop, rest)) :
    ∃ e q after, parseArg source n ts = some (e, q :: after) ∧
      ((q.kind = .rparen ∧ es = [e] ∧ stop = q.stop ∧ rest = after) ∨
        (q.kind = .comma ∧ ∃ es', es = e :: es' ∧
          CallExpr.parseArgs source n after = some (es', stop, rest))) := by
  rw [parseArgs_succ, Option.bind_eq_some_iff] at h
  obtain ⟨⟨e, left⟩, harg, h⟩ := h
  cases left with
  | nil => cases h
  | cons q after =>
    refine ⟨e, q, after, harg, ?_⟩
    dsimp only at h
    split at h
    · rename_i hcomma
      obtain ⟨⟨es', stop', rest'⟩, hmore, h⟩ := Option.bind_eq_some_iff.mp h
      cases h
      exact .inr ⟨hcomma, es', rfl, hmore⟩
    · rename_i hright
      cases h
      exact .inl ⟨hright, rfl, rfl, rfl⟩
    · cases h

theorem leafKind_ident {kind : Token.Kind} : CallExpr.leafKind? kind = some .ident ↔ kind = .ident := by
  cases kind <;> simp [CallExpr.leafKind?]

/-- An expression is a single token that is not the name of a call, or a call. -/
theorem parseExpr_cases (h : CallExpr.parseExpr source (n + 1) ts = some (e, rest)) :
    (∃ t kind, ts = t :: rest ∧ CallExpr.leafKind? t.kind = some kind ∧ Unopened [t] rest) ∨
      ∃ t left more, ts = t :: left :: more ∧ t.kind = .ident ∧ left.kind = .lparen ∧
        ((∃ right, more = right :: rest ∧ right.kind = .rparen) ∨
          ∃ args stop, CallExpr.parseArgs source n more = some (args, stop, rest)) := by
  cases ts with
  | nil => cases h
  | cons t ts =>
    rw [CallExpr.parseExpr.eq_def] at h
    simp only [Option.bind_eq_bind, Option.bind_eq_some_iff] at h
    obtain ⟨kind, hkind, h⟩ := h
    split at h
    · rename_i hother
      cases h
      refine .inl ⟨t, kind, rfl, hkind, ?_⟩
      rintro _ ⟨⟩ hident
      rw [leafKind_ident.mpr hident] at hkind
      exact absurd (Option.some.inj hkind).symm hother
    · rename_i hident
      have hident : kind = .ident := Decidable.of_not_not hident
      subst hident
      split at h
      · cases h
        exact .inl ⟨t, .ident, rfl, hkind, by simp [Unopened]⟩
      · rename_i left more
        split at h
        · rename_i hleft
          cases h
          refine .inl ⟨t, .ident, rfl, hkind, ?_⟩
          rintro _ _ _ _ ⟨⟩
          exact hleft
        · rename_i hleft
          refine .inr ⟨t, left, more, rfl, leafKind_ident.mp hkind, Decidable.of_not_not hleft, ?_⟩
          split at h
          · cases h
          · rename_i right after
            split at h
            · rename_i hright
              cases h
              exact .inl ⟨right, rfl, hright⟩
            · obtain ⟨⟨args, stop, after⟩, hargs, h⟩ := Option.bind_eq_some_iff.mp h
              cases h
              exact .inr ⟨args, stop, hargs⟩

theorem parseExpr_leaf {kind : LeafKind} (h : CallExpr.leafKind? t.kind = some kind) (hu : Unopened [t] rest) :
    CallExpr.parseExpr source (n + 1) (t :: rest) = some (.leaf kind t.text ⟨t.offset, t.stop⟩, rest) := by
  rw [CallExpr.parseExpr.eq_def]
  simp only [h, Option.bind_eq_bind, Option.bind_some]
  split
  · rfl
  · rename_i hident
    have hident : kind = .ident := Decidable.of_not_not hident
    subst hident
    split
    · rfl
    · rename_i p more
      have hp := hu t rfl (leafKind_ident.mp h) p (by simp)
      simp [hp]

theorem parseExpr_empty (ht : t.kind = .ident) (hleft : left.kind = .lparen) (hright : right.kind = .rparen) :
    CallExpr.parseExpr source (n + 1) (t :: left :: right :: rest) =
      some (.call t.text [] ⟨t.offset, right.stop⟩, rest) := by
  simp [CallExpr.parseExpr.eq_def, CallExpr.leafKind?, ht, hleft, hright]

theorem parseExpr_call {p : Token} (ht : t.kind = .ident) (hleft : left.kind = .lparen) (hp : p.kind ≠ .rparen)
    (h : CallExpr.parseArgs source n (p :: ts) = some (es, stop, rest)) :
    CallExpr.parseExpr source (n + 1) (t :: left :: p :: ts) =
      some (.call t.text es ⟨t.offset, stop⟩, rest) := by
  rw [CallExpr.parseExpr.eq_def]
  simp [CallExpr.leafKind?, ht, hleft, hp, h]

end Steps

section Taking

structure Takes (source : List Char) (n : Nat) : Prop where
  expr {ts rest : List Token} {e : CallExpr} (h : CallExpr.parseExpr source n ts = some (e, rest)) :
    ∃ g, ts = g ++ rest ∧ Whole g ∧ Unopened g rest
  args {ts rest : List Token} {es : List CallExpr} {stop : Nat}
    (h : CallExpr.parseArgs source n ts = some (es, stop, rest)) :
    ∃ g right, ts = g ++ right :: rest ∧ Pieces g ∧ right.kind = .rparen

variable {source : List Char} {n : Nat} {ts rest g : List Token} {q : Token} {e : CallExpr}

theorem Takes.arg (h : Takes source n) (harg : parseArg source n ts = some (e, q :: rest)) :
    ∃ g, ts = g ++ q :: rest ∧ Flat g ∧ CallExpr.endsArg q = true := by
  unfold parseArg at harg
  split at harg
  · rename_i hexpr
    split at harg
    · rename_i hends
      cases harg
      obtain ⟨g, hts, hg, _⟩ := h.expr hexpr
      exact ⟨g, hts, hg.flat, hends⟩
    · exact rawArg_cases harg
  · exact rawArg_cases harg

theorem takes (source : List Char) (n : Nat) : Takes source n := by
  induction n with
  | zero => exact ⟨fun h => by simp [CallExpr.parseExpr] at h, fun h => by simp [CallExpr.parseArgs] at h⟩
  | succ n ih =>
    constructor
    · intro ts rest e h
      rcases parseExpr_cases h with ⟨t, kind, rfl, hkind, hu⟩ | ⟨t, left, more, rfl, ht, hleft, hmore⟩
      · exact ⟨[t], rfl, .leaf hkind, hu⟩
      · obtain ⟨g, right, rfl, hg, hright⟩ : ∃ g right, more = g ++ right :: rest ∧ Pieces g ∧
            right.kind = .rparen := by
          rcases hmore with ⟨right, rfl, hright⟩ | ⟨args, stop, hargs⟩
          · exact ⟨[], right, rfl, .last .nil, hright⟩
          · exact ih.args hargs
        refine ⟨t :: left :: g ++ [right], by simp, .call ht hleft hg hright, ?_⟩
        intro u hu
        simp at hu
    · intro ts rest es stop h
      obtain ⟨e, q, after, harg, hrest⟩ := parseArgs_cases h
      obtain ⟨g, rfl, hg, _⟩ := ih.arg harg
      rcases hrest with ⟨hright, -, -, rfl⟩ | ⟨hcomma, es', -, hmore⟩
      · exact ⟨g, q, rfl, .last hg, hright⟩
      · obtain ⟨us, right, rfl, hus, hright⟩ := ih.args hmore
        exact ⟨g ++ q :: us, right, by simp, .more hg hcomma hus, hright⟩

end Taking

section Spelling

/-- Tokens that can be read are read as something. -/
theorem exists_spells (source : List Char) {ts : List Token} (h : Whole ts) :
    ∃ e, Spells source (.expr e) ts := by
  induction hn : ts.length using Nat.strongRecOn generalizing ts with
  | ind n ih =>
    have harg : ∀ {us : List Token} (next : Token), us.length < n → Flat us →
        ∃ e, Spells source (.arg next e) us := by
      intro us next hlt hus
      by_cases hwhole : Whole us
      · obtain ⟨e, he⟩ := ih us.length hlt hwhole rfl
        exact ⟨e, .whole he⟩
      · exact ⟨_, .raw hus hwhole⟩
    have hargs : ∀ {us : List Token} (close : Token), Pieces us → us.length < n →
        ∃ es, Spells source (.args close es) us := by
      intro us close hus
      induction hus with
      | last h =>
        intro hlt
        obtain ⟨e, he⟩ := harg close hlt h
        exact ⟨_, .last he⟩
      | more h hcomma _ ihus =>
        intro hlt
        rw [List.length_append, List.length_cons] at hlt
        obtain ⟨e, he⟩ := harg _ (by omega) h
        obtain ⟨es, hes⟩ := ihus (by omega)
        exact ⟨_, .more he hcomma hes⟩
    cases h with
    | leaf h => exact ⟨_, .leaf h⟩
    | @call us t left right ht hleft hus hright =>
      cases us with
      | nil => exact ⟨_, .empty ht hleft hright⟩
      | cons u us =>
        obtain ⟨es, hes⟩ := hargs right hus (by simp at hn; simp; omega)
        exact ⟨_, .call ht hleft (by simp) hes hright⟩

def Suits : Reading → List Token → Prop
  | .expr _, ts => Whole ts
  | .arg _ _, ts => Flat ts
  | .args _ _, ts => Pieces ts

theorem Spells.suits {source : List Char} {r : Reading} {ts : List Token} (h : Spells source r ts) :
    Suits r ts := by
  induction h with
  | leaf h => exact Whole.leaf h
  | empty ht hleft hright => exact Whole.call ht hleft (.last .nil) hright
  | call ht hleft _ _ hright ih => exact Whole.call ht hleft ih hright
  | whole _ ih => exact Whole.flat ih
  | raw hflat _ => exact hflat
  | last _ ih => exact Pieces.last ih
  | more _ hcomma _ ih ihus => exact Pieces.more ih hcomma ihus

def Reads (source : List Char) : Reading → List Token → Prop
  | .expr e, ts => ∀ n rest, 2 * ts.length ≤ n → Unopened ts rest →
      CallExpr.parseExpr source n (ts ++ rest) = some (e, rest)
  | .arg next e, ts => ∀ n rest, 2 * ts.length ≤ n → CallExpr.endsArg next = true →
      parseArg source n (ts ++ next :: rest) = some (e, next :: rest)
  | .args close es, ts => ∀ n rest, 2 * ts.length < n → close.kind = .rparen →
      CallExpr.parseArgs source n (ts ++ close :: rest) = some (es, close.stop, rest)

theorem unopened_endsArg {ts rest : List Token} {next : Token} (h : CallExpr.endsArg next = true) :
    Unopened ts (next :: rest) := by
  rintro t _ _ p ⟨⟩ hp
  rw [endsArg_iff, hp] at h
  simp at h

/-- The first token of arguments does not close the call. -/
theorem Pieces.head {ts : List Token} (h : Pieces ts) : ∀ t ∈ ts.head?, t.kind ≠ .rparen := by
  have hflat : ∀ {us : List Token}, Flat us → ∀ t ∈ us.head?, t.kind ≠ .rparen := by
    intro us hus t ht
    cases us with
    | nil => cases ht
    | cons u us =>
      cases ht
      intro hright
      simp [Flat, depthAfter, hright] at hus
  cases h with
  | last h => exact hflat h
  | @more us vs comma h hcomma _ =>
    cases us with
    | nil =>
      rintro t ⟨⟩
      simp [hcomma]
    | cons u us =>
      rintro t ⟨⟩
      exact hflat h u rfl

theorem Spells.reads {source : List Char} {r : Reading} {ts : List Token} (h : Spells source r ts) :
    Reads source r ts := by
  induction h with
  | leaf h =>
    intro n rest hn hu
    cases n with
    | zero => simp at hn
    | succ n => exact parseExpr_leaf h hu
  | empty ht hleft hright =>
    intro n rest hn _
    cases n with
    | zero => simp at hn
    | succ n => exact parseExpr_empty ht hleft hright
  | @call ts t left right args ht hleft hne h hright ih =>
    intro n rest hn _
    obtain ⟨p, ps, rfl⟩ := List.exists_cons_of_ne_nil hne
    cases n with
    | zero => simp at hn
    | succ n =>
      have hp := Pieces.head h.suits p (by simp)
      have hargs := ih n rest (by simp at hn ⊢; omega) hright
      simpa using parseExpr_call ht hleft hp hargs
  | @whole ts next e h ih =>
    intro n rest hn hends
    rw [parseArg, ih n _ hn (unopened_endsArg hends)]
    simp [hends]
  | @raw ts next hflat hwhole =>
    intro n rest _ hends
    have hraw : CallExpr.rawArg? source (ts ++ next :: rest) = some (rawLeaf source ts next, next :: rest) :=
      rawArg_append hflat hends
    unfold parseArg
    split
    · rename_i e t after hexpr
      split
      · rename_i ht
        obtain ⟨g, hsplit, hg, _⟩ := (takes source n).expr hexpr
        obtain rfl := flat_unique hflat hends hg.flat ht hsplit
        exact absurd hg hwhole
      · exact hraw
    · exact hraw
  | @last ts close e _ ih =>
    intro n rest hn hright
    cases n with
    | zero => omega
    | succ n =>
      rw [parseArgs_succ, ih n _ (by omega) (endsArg_iff.mpr (.inr hright))]
      simp [hright]
  | @more ts us close comma e es _ hcomma _ ih ihus =>
    intro n rest hn hright
    rw [List.length_append, List.length_cons] at hn
    cases n with
    | zero => omega
    | succ n =>
      rw [List.append_assoc, List.cons_append, parseArgs_succ,
        ih n _ (by omega) (endsArg_iff.mpr (.inl hcomma))]
      simp [hcomma, ihus n rest (by omega) hright]

end Spelling

/-- The parser takes from the front of the tokens exactly what the grammar spells. -/
theorem parseTokens_iff {source : List Char} {ts rest : List Token} {e : CallExpr} :
    CallExpr.parseTokens? source ts = some (e, rest) ↔
      ∃ g, ts = g ++ rest ∧ Spells source (.expr e) g ∧ Unopened g rest := by
  constructor
  · intro h
    obtain ⟨g, rfl, hg, hu⟩ := (takes source _).expr h
    obtain ⟨e', he'⟩ := exists_spells source hg
    have hread : CallExpr.parseTokens? source (g ++ rest) = some (e', rest) :=
      he'.reads _ rest (by simp; omega) hu
    rw [h] at hread
    cases hread
    exact ⟨g, rfl, he', hu⟩
  · rintro ⟨g, rfl, hg, hu⟩
    exact hg.reads _ rest (by simp; omega) hu

end Devicetree.Proofs
