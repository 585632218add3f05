import Devicetree.Proofs.CallGrammar
import Devicetree.Proofs.CallListing
import Devicetree.Proofs.TidySources

namespace Devicetree.Proofs

mutual

def unranged : CallExpr → CallExpr
  | .leaf kind text _ => .leaf kind text ⟨0, 0⟩
  | .call name args _ => .call name (unrangedArgs args) ⟨0, 0⟩

def unrangedArgs : List CallExpr → List CallExpr
  | [] => []
  | a :: as => unranged a :: unrangedArgs as

end

def Closing (cs : List Char) : Prop := ∀ d ∈ cs.head?, d = ',' ∨ d = ')'

def textOf : Reading → List Char
  | .expr e => e.text.toList
  | .arg _ e => e.text.toList
  | .args _ es => (", ".intercalate (CallExpr.texts es)).toList

/-- A listing of the part `i` alone: the parts from that one on, but for ranges and with numbers counted from `i`.
Only the part itself is no argument there. -/
structure Excerpt (parts : List CallExpr.Part) (i : Nat) (p : CallExpr) (alone : List CallExpr.Part) : Prop where
  length : alone.length = p.size
  part {j : Nat} {r : CallExpr.Part} (h : alone[j]? = some r) : ∃ q, parts[i + j]? = some q ∧
    unranged q.expr = unranged r.expr ∧ q.args = r.args.map (i + ·) ∧
    (0 < j → q.parent = r.parent.map (i + ·) ∧ q.argIndex = r.argIndex)

/-- A text falls into the lexemes wherever it is closed, and those that carry meaning are the tokens'. -/
structure Respells (text : List Char) (ts : List Token) (ms : List Lexeme) : Prop where
  carries : ms.filter Lexeme.carries = ts.map Lexeme.ofToken
  lexes {rest : List Char} {ns : List Lexeme} (hc : Closing rest) (hrest : Lexes rest ns) :
    Lexes (text ++ rest) (ms ++ ns)
  start : ∀ c ∈ text.head?, Token.isSpace c = false

/-- The tokens of another source spell the same but for ranges. -/
def SpellsAgain (source : List Char) : Reading → List Token → Prop
  | .expr e, ts => ∃ e', Spells source (.expr e') ts ∧ unranged e' = unranged e
  | .arg _ e, ts => ∀ next, ∃ e', Spells source (.arg next e') ts ∧ unranged e' = unranged e
  | .args _ es, ts => ∀ close, ∃ es', Spells source (.args close es') ts ∧ unrangedArgs es' = unrangedArgs es

/-- The text of what the tokens are read as has the same tokens, and in any surroundings they are read the same. -/
def Rewrites (r : Reading) (ts : List Token) : Prop :=
  ∃ ms, Respells (textOf r) ts ms ∧ ∀ before after,
    SpellsAgain (before ++ textOf r ++ after) r (tokensOf (Text.byteLength before) ms)

section Slices

/-- A stretch of lexemes that starts and ends with solid ones is a raw argument as it stands. -/
theorem rawLeaf_tokensOf {ms : List Lexeme} (hne : ms ≠ []) (hfirst : ∀ m ∈ ms.head?, Solid m)
    (hlast : ∀ m ∈ ms.getLast?, Solid m) (before after : List Char) (next : Token) :
    unranged (rawLeaf (before ++ spelled ms ++ after) (tokensOf (Text.byteLength before) ms) next) =
      .leaf .raw (String.ofList (spelled ms)) ⟨0, 0⟩ := by
  have hstart := offset_tokensOf (Text.byteLength before) hne (fun m hm => (hfirst m hm).carries) next
  have hstop := stop_tokensOf (Text.byteLength before) hne (fun m hm => (hlast m hm).carries)
  simp only [rawLeaf, hstart, hstop, Option.getD_some, slice_append, trim_spelled hne hfirst hlast, unranged]

end Slices

section Texts
variable {a b : List Char} {ts us : List Token} {ms ns : List Lexeme} {t left right comma : Token}

theorem Closing.apart {cs : List Char} (h : Closing cs) : Apart cs := by
  intro d hd
  rcases h d hd with rfl | rfl <;> simp

theorem Closing.nil : Closing [] := by simp [Closing]

theorem Closing.not_space {cs rest : List Char} (h : Closing rest)
    (hcs : ∀ c ∈ cs.head?, Token.isSpace c = false) : ∀ c ∈ (cs ++ rest).head?, Token.isSpace c = false := by
  cases cs with
  | nil =>
    intro c hc
    rcases h c hc with rfl | rfl <;> rfl
  | cons d cs => exact hcs

theorem Respells.spelled (h : Respells a ts ms) : a = Proofs.spelled ms := by
  have hall : Lexes a ms := by simpa using h.lexes .nil .nil
  exact hall.spelled

theorem Respells.tokens (h : Respells a ts ms) (offset : Nat) :
    (tokensOf offset ms).map Lexeme.ofToken = ts.map Lexeme.ofToken := by
  rw [ofToken_tokensOf, h.carries]

theorem Respells.nil : Respells [] [] [] := ⟨rfl, fun _ hrest => hrest, by simp⟩

theorem Respells.token (h : Formed t.kind t.text.toList) (hk : t.kind.isTrivia = false) :
    Respells t.text.toList [t] [Lexeme.ofToken t] := by
  have hblank : t.kind ≠ .blank := by
    intro hkind
    rw [hkind] at hk
    cases hk
  refine ⟨by simp [Lexeme.carries, Lexeme.ofToken, hk], ?_, (h.edges hblank).1⟩
  intro rest ns hc hrest
  exact h.lexes (h.follows_apart hblank hc.apart) hrest

def callLexemes (name : List Char) (ms : List Lexeme) : List Lexeme :=
  ⟨.ident, name⟩ :: ⟨.lparen, ['(']⟩ :: ms ++ [⟨.rparen, [')']⟩]

structure Brackets (t left right : Token) : Prop where
  name : t.kind = .ident
  opens : left.kind = .lparen
  closes : right.kind = .rparen
  formed : ∀ u ∈ [t, left, right], Formed u.kind u.text.toList

theorem Respells.call (hb : Brackets t left right) (h : Respells a ts ms) :
    Respells (t.text.toList ++ '(' :: a ++ [')']) (t :: left :: ts ++ [right]) (callLexemes t.text.toList ms) := by
  have hname : Formed .ident t.text.toList := hb.name ▸ hb.formed t (by simp)
  have ht : Lexeme.ofToken t = ⟨.ident, t.text.toList⟩ := by rw [Lexeme.ofToken, hb.name]
  have hleft : Lexeme.ofToken left = ⟨.lparen, ['(']⟩ := by
    rw [Lexeme.ofToken, hb.opens, (hb.formed left (by simp)).mark.1 hb.opens]
  have hright : Lexeme.ofToken right = ⟨.rparen, [')']⟩ := by
    rw [Lexeme.ofToken, hb.closes, (hb.formed right (by simp)).mark.2.1 hb.closes]
  constructor
  · simp [callLexemes, Lexeme.carries, Token.Kind.isTrivia, ht, hleft, hright, ← h.carries]
  · intro rest ns _ hrest
    have hclose : Lexes (')' :: rest) (⟨.rparen, [')']⟩ :: ns) := Formed.rparen.lexes (by simp [Follows]) hrest
    have hargs := h.lexes (by simp [Closing]) hclose
    have hopen := Formed.lparen.lexes (by simp [Follows]) hargs
    have hall := hname.lexes (hname.follows_apart (by simp) (by simp [Apart])) hopen
    simpa [callLexemes] using hall
  · obtain ⟨c, cs, hchars⟩ := List.exists_cons_of_ne_nil hname.ne_nil
    have hfirst := (hname.edges (by simp)).1
    rw [hchars] at hfirst ⊢
    exact hfirst

def argLexemes (ms ns : List Lexeme) : List Lexeme := ms ++ ⟨.comma, [',']⟩ :: gap :: ns

theorem Respells.more (ha : Respells a ts ms) (hb : Respells b us ns)
    (hcomma : Lexeme.ofToken comma = ⟨.comma, [',']⟩) :
    Respells (a ++ ',' :: ' ' :: b) (ts ++ comma :: us) (argLexemes ms ns) := by
  constructor
  · simp [argLexemes, gap, Lexeme.carries, Token.Kind.isTrivia, hcomma, ← ha.carries, ← hb.carries]
  · intro rest ls hc hrest
    have hnext := gap_lexes (hb.lexes hc hrest) (hc.not_space hb.start)
    have hmark := Formed.comma.lexes (by simp [Follows]) hnext
    have hall := ha.lexes (by simp [Closing]) hmark
    simpa [argLexemes] using hall
  · have hmark : Closing (',' :: ' ' :: b) := by simp [Closing]
    exact hmark.not_space ha.start

theorem tokensOf_call (offset : Nat) (name : List Char) (ms : List Lexeme) : ∃ t left right : Token,
    tokensOf offset (callLexemes name ms) =
      t :: left :: tokensOf (offset + Text.byteLength (name ++ ['('])) ms ++ [right] ∧
    t.kind = .ident ∧ t.text = String.ofList name ∧ left.kind = .lparen ∧ right.kind = .rparen := by
  rw [callLexemes, List.cons_append, List.cons_append, tokensOf_cons rfl, tokensOf_cons rfl, tokensOf_append,
    tokensOf_cons rfl, byteLength_append, ← Nat.add_assoc]
  exact ⟨_, _, _, rfl, rfl, rfl, rfl, rfl⟩

theorem tokensOf_more (offset : Nat) (ms ns : List Lexeme) : ∃ comma : Token,
    tokensOf offset (argLexemes ms ns) = tokensOf offset ms ++
      comma :: tokensOf (offset + Text.byteLength (spelled ms ++ [',', ' '])) ns ∧ comma.kind = .comma := by
  have hgap : ∀ offset, tokensOf offset (gap :: ns) = tokensOf (offset + Text.byteLength [' ']) ns := fun _ => rfl
  have hmark : [',', ' '] = [','] ++ [' '] := rfl
  rw [argLexemes, tokensOf_append, tokensOf_cons rfl, hgap, hmark, byteLength_append, byteLength_append,
    ← Nat.add_assoc, ← Nat.add_assoc]
  exact ⟨_, rfl, rfl⟩

end Texts

section Readings
variable {ts us : List Token} {t left right next comma close : Token} {e : CallExpr} {es : List CallExpr}

theorem Rewrites.leaf {kind : LeafKind} (h : CallExpr.leafKind? t.kind = some kind)
    (ht : Formed t.kind t.text.toList) : Rewrites (.expr (.leaf kind t.text ⟨t.offset, t.stop⟩)) [t] := by
  have hk : t.kind.isTrivia = false := by
    cases hkind : t.kind <;> simp_all [CallExpr.leafKind?, Token.Kind.isTrivia]
  have hcarries : (Lexeme.ofToken t).carries = true := by simp [Lexeme.carries, Lexeme.ofToken, hk]
  refine ⟨[Lexeme.ofToken t], Respells.token ht hk, ?_⟩
  intro before after
  rw [tokensOf_cons hcarries]
  exact ⟨_, .leaf h, by simp [unranged, Lexeme.ofToken]⟩

theorem textOf_call (name : String) (args : List CallExpr) (range : Range) (next : Token) :
    textOf (.expr (.call name args range)) = name.toList ++ '(' :: textOf (.args next args) ++ [')'] := by
  simp [textOf, CallExpr.text]

theorem Rewrites.empty (hb : Brackets t left right) :
    Rewrites (.expr (.call t.text [] ⟨t.offset, right.stop⟩)) [t, left, right] := by
  refine ⟨callLexemes t.text.toList [], ?_, ?_⟩
  · rw [textOf_call t.text [] _ right]
    exact Respells.nil.call hb
  · intro before after
    obtain ⟨t', left', right', htokens, ht', htext', hleft', hright'⟩ :=
      tokensOf_call (Text.byteLength before) t.text.toList []
    rw [htokens]
    exact ⟨_, .empty ht' hleft' hright', by simp [unranged, unrangedArgs, htext']⟩

theorem Rewrites.call (hb : Brackets t left right) (hne : ts ≠ []) (h : Rewrites (.args right es) ts) :
    Rewrites (.expr (.call t.text es ⟨t.offset, right.stop⟩)) (t :: left :: ts ++ [right]) := by
  obtain ⟨ms, hms, hagain⟩ := h
  refine ⟨callLexemes t.text.toList ms, ?_, ?_⟩
  · rw [textOf_call t.text es _ right]
    exact hms.call hb
  · intro before after
    obtain ⟨t', left', right', htokens, ht', htext', hleft', hright'⟩ :=
      tokensOf_call (Text.byteLength before) t.text.toList ms
    have hargs := hagain (before ++ (t.text.toList ++ ['('])) (')' :: after) right'
    rw [byteLength_append] at hargs
    obtain ⟨es', hes', hplain⟩ := hargs
    have hts : tokensOf (Text.byteLength before + Text.byteLength (t.text.toList ++ ['('])) ms ≠ [] := by
      intro hnil
      have htoks := hms.tokens (Text.byteLength before + Text.byteLength (t.text.toList ++ ['(']))
      rw [hnil] at htoks
      exact hne (List.map_eq_nil_iff.mp htoks.symm)
    rw [htokens, textOf_call t.text es _ right]
    refine ⟨.call t'.text es' ⟨t'.offset, right'.stop⟩, .call ht' hleft' hts ?_ hright', ?_⟩
    · simpa using hes'
    · simp [unranged, hplain, htext']

theorem Rewrites.whole (h : Rewrites (.expr e) ts) : Rewrites (.arg next e) ts := by
  obtain ⟨ms, hms, hagain⟩ := h
  refine ⟨ms, hms, ?_⟩
  intro before after next'
  obtain ⟨e', he', hplain⟩ := hagain before after
  exact ⟨e', .whole he', hplain⟩

theorem textOf_last (close : Token) (e : CallExpr) : textOf (.args close [e]) = textOf (.arg close e) := by
  simp [textOf, CallExpr.texts]

theorem Rewrites.last (h : Rewrites (.arg close e) ts) : Rewrites (.args close [e]) ts := by
  obtain ⟨ms, hms, hagain⟩ := h
  refine ⟨ms, textOf_last close e ▸ hms, ?_⟩
  intro before after close'
  obtain ⟨e', he', hplain⟩ := hagain before after close'
  rw [textOf_last]
  exact ⟨[e'], .last he', by simp [unrangedArgs, hplain]⟩

theorem textOf_more (close comma : Token) (e : CallExpr) (hne : es ≠ []) :
    textOf (.args close (e :: es)) = textOf (.arg comma e) ++ ',' :: ' ' :: textOf (.args close es) := by
  obtain ⟨a, es, rfl⟩ := List.exists_cons_of_ne_nil hne
  simp [textOf, CallExpr.texts, String.toList_intercalate]

theorem Rewrites.more (hes : es ≠ []) (h : Rewrites (.arg comma e) ts) (hus : Rewrites (.args close es) us)
    (hcomma : Formed comma.kind comma.text.toList) (hkcomma : comma.kind = .comma) :
    Rewrites (.args close (e :: es)) (ts ++ comma :: us) := by
  obtain ⟨ms, hms, hagain⟩ := h
  obtain ⟨ns, hns, hagainArgs⟩ := hus
  refine ⟨argLexemes ms ns, ?_, ?_⟩
  · rw [textOf_more close comma e hes]
    exact hms.more hns (by rw [Lexeme.ofToken, hkcomma, hcomma.mark.2.2 hkcomma])
  · intro before after close'
    obtain ⟨comma', htokens, hkind⟩ := tokensOf_more (Text.byteLength before) ms ns
    obtain ⟨e', he', hplain⟩ := hagain before (',' :: ' ' :: textOf (.args close es) ++ after) comma'
    have hargs := hagainArgs (before ++ (textOf (.arg comma e) ++ [',', ' '])) after close'
    rw [byteLength_append, hms.spelled] at hargs
    obtain ⟨es', hes', hplains⟩ := hargs
    rw [htokens, textOf_more close comma e hes, hms.spelled]
    rw [hms.spelled] at he'
    refine ⟨e' :: es', .more ?_ hkind ?_, by simp [unrangedArgs, hplain, hplains]⟩
    · simpa using he'
    · simpa using hes'

theorem text_of_unranged {text : String} {range : Range} (h : unranged e = .leaf .raw text range) :
    e.text = text := by
  cases e with
  | leaf kind text' range' =>
    simp only [unranged, CallExpr.leaf.injEq] at h
    exact h.2.1
  | call => simp [unranged] at h

theorem rawLeaf_nil (source : List Char) (next : Token) :
    unranged (rawLeaf source [] next) = .leaf .raw "" ⟨0, 0⟩ := by
  simp [rawLeaf, unranged, slice_empty, Text.trim]

theorem Rewrites.raw_nil (source : List Char) (hflat : Flat []) (hwhole : ¬ Whole []) :
    Rewrites (.arg next (rawLeaf source [] next)) [] := by
  have htext : textOf (.arg next (rawLeaf source [] next)) = [] := by
    rw [textOf, text_of_unranged (rawLeaf_nil source next)]
    rfl
  refine ⟨[], htext ▸ Respells.nil, ?_⟩
  intro before after next'
  exact ⟨_, .raw hflat hwhole, (rawLeaf_nil _ next').trans (rawLeaf_nil source next).symm⟩

theorem Rewrites.raw {source : String} {ls : List Lexeme} (hs : Tidy source) (hl : Lexes source.toList ls)
    (hin : ts <:+: tokensOf 0 ls) (hflat : Flat ts) (hwhole : ¬ Whole ts) :
    Rewrites (.arg next (rawLeaf source.toList ts next)) ts := by
  by_cases hne : ts = []
  · subst hne
    exact .raw_nil source.toList hflat hwhole
  · obtain ⟨first, last, hsplit⟩ := hin
    obtain ⟨before, ms, after, rfl, rfl, hms, hhead, hend⟩ := exists_stretch hsplit.symm hne
    have hmem : ∀ m ∈ ms, m ∈ before ++ ms ++ after := fun m hm => by simp [hm]
    have hfirst : ∀ m ∈ ms.head?, Solid m :=
      fun m hm => hs.solid hl m (hmem m (List.mem_of_mem_head? hm)) (hhead m hm)
    have hlast : ∀ m ∈ ms.getLast?, Solid m :=
      fun m hm => hs.solid hl m (hmem m (List.mem_of_mem_getLast? hm)) (hend m hm)
    have hsource : source.toList = spelled before ++ spelled ms ++ spelled after := by
      rw [hl.spelled, spelled_append, spelled_append]
    have hraw := rawLeaf_tokensOf hms hfirst hlast (spelled before) (spelled after) next
    have htext : textOf (.arg next (rawLeaf source.toList
        (tokensOf (Text.byteLength (spelled before)) ms) next)) = spelled ms := by
      rw [textOf, hsource, text_of_unranged hraw, String.toList_ofList]
    rw [← hsource] at hraw
    refine ⟨ms, ?_, ?_⟩
    · rw [htext]
      refine ⟨(ofToken_tokensOf _ ms).symm, ?_, ?_⟩
      · intro rest ns hc hrest
        rw [List.append_assoc] at hl
        obtain ⟨_, _, hstretch⟩ := hl.after
        exact hstretch.again (fun m hm => hs.clean (by rwa [List.append_assoc]) m (hmem m hm))
          (fun m hm => (hlast m hm).not_blank) hc.apart hrest
      · intro c hc
        exact not_space_of_not_blank (first_spelled hms hfirst c hc)
    · intro before' after' next'
      have hkinds : (tokensOf (Text.byteLength (spelled before)) ms).map (·.kind) =
          (tokensOf (Text.byteLength before') ms).map (·.kind) := by
        have hkind : (fun t : Token => t.kind) = Lexeme.kind ∘ Lexeme.ofToken := rfl
        rw [hkind, ← List.map_map, ← List.map_map, ofToken_tokensOf, ofToken_tokensOf]
      refine ⟨_, .raw (hflat.congr hkinds) (fun hw => hwhole (hw.congr hkinds.symm)), ?_⟩
      rw [hraw, htext, rawLeaf_tokensOf hms hfirst hlast]

theorem Tidy.token {source : String} {ls : List Lexeme} (hs : Tidy source) (hl : Lexes source.toList ls)
    (ht : t ∈ tokensOf 0 ls) : Formed t.kind t.text.toList := by
  have hmem : Lexeme.ofToken t ∈ ls.filter Lexeme.carries := by
    rw [← ofToken_tokensOf 0 ls]
    exact List.mem_map.mpr ⟨t, ht, rfl⟩
  exact hl.formed (hs.clean hl) _ (List.mem_filter.mp hmem).1

theorem Spells.args_ne_nil {source : List Char} (h : Spells source (.args close es) ts) : es ≠ [] := by
  cases h <;> simp

/-- What tokens of a tidy source are read as is read again from its text. -/
theorem Spells.rewrites {source : String} {ls : List Lexeme} {r : Reading} (hs : Tidy source)
    (hl : Lexes source.toList ls) (h : Spells source.toList r ts) (hin : ts <:+: tokensOf 0 ls) :
    Rewrites r ts := by
  have hformed : ∀ {us : List Token}, us <:+: tokensOf 0 ls → ∀ u ∈ us, Formed u.kind u.text.toList :=
    fun hus u hu => hs.token hl (hus.subset hu)
  induction h with
  | leaf h => exact .leaf h (hformed hin _ (by simp))
  | empty ht hleft hright =>
    exact .empty ⟨ht, hleft, hright, hformed hin⟩
  | @call ts t left right args ht hleft hne h hright ih =>
    have hinner : ts <:+: t :: left :: ts ++ [right] := ⟨[t, left], [right], rfl⟩
    refine .call ⟨ht, hleft, hright, fun u hu => hformed hin u ?_⟩ hne (ih (hinner.trans hin))
    simp only [List.mem_cons, List.not_mem_nil, or_false] at hu
    rcases hu with rfl | rfl | rfl <;> simp
  | whole _ ih => exact (ih hin).whole
  | raw hflat hwhole => exact .raw hs hl hin hflat hwhole
  | last _ ih => exact (ih hin).last
  | @more ts us close comma e es h hcomma hus ih ihus =>
    have hfirst : ts <:+: ts ++ comma :: us := (List.prefix_append _ _).isInfix
    have hrest : us <:+: ts ++ comma :: us := ⟨ts ++ [comma], [], by simp⟩
    exact .more hus.args_ne_nil (ih (hfirst.trans hin)) (ihus (hrest.trans hin))
      (hformed hin comma (by simp)) hcomma

end Readings

section Parts

theorem Spells.arg_of_mem {source : List Char} {close : Token} {es : List CallExpr} {ts : List Token}
    {a : CallExpr} (h : Spells source (.args close es) ts) (ha : a ∈ es) :
    ∃ next us, us <:+: ts ∧ Spells source (.arg next a) us := by
  generalize hr : Reading.args close es = r at h
  induction h generalizing es with
  | leaf | empty | call | whole | raw => cases hr
  | @last ts close e h _ =>
    cases hr
    obtain rfl := List.mem_singleton.mp ha
    exact ⟨close, ts, List.infix_rfl, h⟩
  | @more ts us close comma e es h hcomma _ _ ihus =>
    cases hr
    rcases List.mem_cons.mp ha with rfl | ha
    · exact ⟨comma, ts, (List.prefix_append _ _).isInfix, h⟩
    · obtain ⟨next, vs, hvs, hspells⟩ := ihus ha rfl
      exact ⟨next, vs, hvs.trans ⟨ts ++ [comma], [], by simp⟩, hspells⟩

/-- Each part of an expression is raw or spelled by tokens of its own. -/
theorem Spells.part {source : List Char} {e p : CallExpr} {ts : List Token} {i j : Nat} {parent : Option Nat}
    (h : Spells source (.expr e) ts) (hp : PartAt e i parent j p) :
    (∃ us, us <:+: ts ∧ Spells source (.expr p) us) ∨ ∃ text range, p = .leaf .raw text range := by
  induction hp with
  | outermost => exact .inl ⟨ts, List.infix_rfl, h⟩
  | @arg i j k m parent call a _ ha _ ih =>
    have hmem := List.mem_of_getElem? ha
    rcases ih with ⟨us, hus, hcall⟩ | ⟨text, range, rfl⟩
    · cases hcall with
      | leaf | empty => cases hmem
      | @call vs t left right args ht hleft hne hargs hright =>
        obtain ⟨next, ws, hws, harg⟩ := hargs.arg_of_mem hmem
        cases harg with
        | whole hexpr =>
          have hinner : vs <:+: t :: left :: vs ++ [right] := ⟨[t, left], [right], rfl⟩
          exact .inl ⟨ws, (hws.trans hinner).trans hus, hexpr⟩
        | raw => exact .inr ⟨_, _, rfl⟩
    · cases hmem

end Parts

section Renumbering

mutual

theorem size_unranged : (e : CallExpr) → (unranged e).size = e.size
  | .leaf _ _ _ => rfl
  | .call _ args _ => by rw [unranged, CallExpr.size, CallExpr.size, sizes_unranged args]

theorem sizes_unranged : (es : List CallExpr) → CallExpr.sizes (unrangedArgs es) = CallExpr.sizes es
  | [] => rfl
  | a :: as => by rw [unrangedArgs, CallExpr.sizes, CallExpr.sizes, size_unranged a, sizes_unranged as]

end

theorem argNumbers_unranged (next : Nat) (es : List CallExpr) :
    CallExpr.argNumbers next (unrangedArgs es) = CallExpr.argNumbers next es := by
  induction es generalizing next with
  | nil => rfl
  | cons a as ih => rw [unrangedArgs, CallExpr.argNumbers, CallExpr.argNumbers, size_unranged, ih]

def unrangedPart (q : CallExpr.Part) : CallExpr.Part := { q with expr := unranged q.expr }

def movedPart (i : Nat) (q : CallExpr.Part) : CallExpr.Part :=
  { q with parent := q.parent.map (i + ·), args := q.args.map (i + ·) }

theorem argNumbers_moved (i next : Nat) (es : List CallExpr) :
    CallExpr.argNumbers (i + next) es = (CallExpr.argNumbers next es).map (i + ·) := by
  induction es generalizing next with
  | nil => rfl
  | cons a as ih => simp [CallExpr.argNumbers, ← ih, Nat.add_assoc]

mutual

theorem partsFrom_unranged (n : Nat) (parent : Option Nat) (j : Nat) : (e : CallExpr) →
    (CallExpr.partsFrom n parent j e).map unrangedPart = CallExpr.partsFrom n parent j (unranged e)
  | .leaf _ _ _ => rfl
  | .call _ args _ => by
    rw [unranged, CallExpr.partsFrom, CallExpr.partsFrom, List.map_cons, argParts_unranged n (n + 1) 0 args,
      argNumbers_unranged]
    rfl

theorem argParts_unranged (parent next j : Nat) : (es : List CallExpr) →
    (CallExpr.argParts parent next j es).map unrangedPart = CallExpr.argParts parent next j (unrangedArgs es)
  | [] => rfl
  | a :: as => by
    rw [unrangedArgs, CallExpr.argParts, CallExpr.argParts, List.map_append, partsFrom_unranged next _ j a,
      argParts_unranged parent _ _ as, size_unranged]

end

mutual

theorem partsFrom_moved (i n : Nat) (parent : Option Nat) (j : Nat) : (e : CallExpr) →
    CallExpr.partsFrom (i + n) (parent.map (i + ·)) j e = (CallExpr.partsFrom n parent j e).map (movedPart i)
  | .leaf _ _ _ => rfl
  | .call _ args _ => by
    rw [CallExpr.partsFrom, CallExpr.partsFrom, List.map_cons, Nat.add_assoc, argParts_moved i n (n + 1) 0 args,
      argNumbers_moved]
    rfl

theorem argParts_moved (i parent next j : Nat) : (es : List CallExpr) →
    CallExpr.argParts (i + parent) (i + next) j es = (CallExpr.argParts parent next j es).map (movedPart i)
  | [] => rfl
  | a :: as => by
    have hfirst := partsFrom_moved i next (some parent) j a
    rw [Option.map_some] at hfirst
    rw [CallExpr.argParts, CallExpr.argParts, List.map_append, hfirst, Nat.add_assoc,
      argParts_moved i parent _ _ as]

end

theorem argsOf_unranged (e : CallExpr) : argsOf (unranged e) = unrangedArgs (argsOf e) := by
  cases e <;> rfl

/-- An expression that is like a part of another but for ranges is listed like that part. -/
theorem PartAt.excerpt {e e' p : CallExpr} {i j : Nat} {parent : Option Nat} (hp : PartAt e i parent j p)
    (h : unranged e' = unranged p) : Excerpt e.parts i p e'.parts := by
  have hargs : unrangedArgs (argsOf p) = unrangedArgs (argsOf e') := by
    rw [← argsOf_unranged, ← h, argsOf_unranged]
  have hparts : (CallExpr.argParts i (i + 1) 0 (argsOf p)).map unrangedPart =
      ((CallExpr.argParts 0 1 0 (argsOf e')).map unrangedPart).map (movedPart i) := by
    rw [argParts_unranged, argParts_unranged, hargs]
    exact argParts_moved i 0 1 0 (unrangedArgs (argsOf e'))
  constructor
  · rw [CallExpr.parts, length_partsFrom, ← size_unranged, h, size_unranged]
  · intro k r hr
    obtain ⟨left, right, hsplit, rfl⟩ := hp.split
    rw [CallExpr.parts, partsFrom_eq] at hr
    cases k with
    | zero =>
      cases hr
      refine ⟨_, hp.get, h.symm, ?_, fun hlt => absurd hlt (Nat.lt_irrefl 0)⟩
      rw [← argNumbers_unranged, hargs, argNumbers_unranged, argNumbers_moved]
    | succ k =>
      have hget := congrArg (·[k]?) hparts
      simp only [List.getElem?_map, List.getElem?_cons_succ] at hget hr
      rw [hr, Option.map_some, Option.map_some, Option.map_eq_some_iff] at hget
      obtain ⟨q, hq, hmoved⟩ := hget
      obtain ⟨hexpr, hparent, hindex, hnums⟩ := CallExpr.Part.mk.inj hmoved
      refine ⟨q, ?_, hexpr, hnums, fun _ => ⟨hparent, hindex⟩⟩
      have hlt : k < (CallExpr.argParts left.length (left.length + 1) 0 (argsOf p)).length :=
        (List.getElem?_eq_some_iff.mp hq).1
      rw [hsplit, partsFrom_eq, List.append_assoc, List.getElem?_append_right (Nat.le_add_right _ _),
        Nat.add_sub_cancel_left, List.cons_append, List.getElem?_cons_succ, List.getElem?_append_left hlt, hq]

end Renumbering

/-- The text of a part of an expression from a tidy source, unless the part is raw, is read as that part again. -/
theorem parse_part_text {source : String} {e : CallExpr} {i : Nat} {q : CallExpr.Part} (hs : Tidy source)
    (h : CallExpr.parse? source = some e) (hq : e.parts[i]? = some q)
    (hraw : ∀ text range, q.expr ≠ .leaf .raw text range) :
    ∃ e', CallExpr.parse? q.expr.text = some e' ∧ unranged e' = unranged q.expr ∧
      Excerpt e.parts i q.expr e'.parts := by
  obtain ⟨ls, hl⟩ := exists_lexes source.toList
  obtain ⟨⟨e, rest⟩, hread, rfl⟩ := Option.map_eq_some_iff.mp h
  obtain ⟨g, htokens, hg, _⟩ := parseTokens_iff.mp hread
  rw [hl.tokenize] at htokens
  have hat := partAt_of_get hq
  rcases hg.part hat with ⟨ts, hts, hp⟩ | ⟨text, range, hp⟩
  · have hprefix : g <:+: tokensOf 0 ls := ⟨[], rest, by simp [htokens]⟩
    obtain ⟨ms, hms, hagain⟩ := hp.rewrites hs hl (hts.trans hprefix)
    obtain ⟨e', he', hplain⟩ := hagain [] []
    have hscan : Lexes q.expr.text.toList ms := by simpa [textOf] using hms.lexes .nil .nil
    have hall : CallExpr.parseTokens? q.expr.text.toList (Token.tokenize q.expr.text) = some (e', []) := by
      rw [hscan.tokenize, parseTokens_iff]
      exact ⟨tokensOf 0 ms, by simp, by simpa [textOf, Text.byteLength] using he', by simp [Unopened]⟩
    exact ⟨e', by rw [CallExpr.parse?, hall]; rfl, hplain, hat.excerpt hplain⟩
  · exact absurd hp (hraw text range)

/-- Blanks of three kinds, a raw argument with blanks inside, a quoted quote, a string with marks, an empty
argument and a call without arguments. -/
def spread : String := "F (a  << b,\tG( '\\'',\n\"x, (y\" ) , ,H( ) )"

def spreadCall : CallExpr :=
  .call "F"
    [.leaf .raw "a  << b" ⟨3, 10⟩,
      .call "G" [.leaf .number "'\\''" ⟨15, 19⟩, .leaf .str "\"x, (y\"" ⟨21, 28⟩] ⟨12, 30⟩,
      .leaf .raw "" ⟨33, 33⟩,
      .call "H" [] ⟨34, 38⟩] ⟨0, 40⟩

theorem parse_part_text_spread : Tidy spread ∧ CallExpr.parse? spread = some spreadCall ∧
    ∃ q e', spreadCall.parts[2]? = some q ∧ q.expr.text = "G('\\'', \"x, (y\")" ∧
      CallExpr.parse? q.expr.text = some e' ∧ unranged e' = unranged q.expr ∧
      Excerpt spreadCall.parts 2 q.expr e'.parts := by
  have htidy : Tidy spread := by decide +kernel
  have hparse : CallExpr.parse? spread = some spreadCall := by decide +kernel
  obtain ⟨e', hread, hplain, hexcerpt⟩ := parse_part_text (i := 2) htidy hparse rfl (by simp)
  exact ⟨htidy, hparse, _, e', rfl, by decide, hread, hplain, hexcerpt⟩

end Devicetree.Proofs
