import Devicetree.Proofs.CallNesting
import Devicetree.Proofs.CallText

namespace Devicetree.Proofs

/-- The expression is a call that is read somewhere in the tokens. -/
def CallFrom (source : List Char) (ts : List Token) (e : CallExpr) : Prop :=
  ∃ before us rest, ts = before ++ us ∧ CallExpr.startsCall us = true ∧
    CallExpr.parseTokens? source us = some (e, rest)

def CallIn (source : String) (e : CallExpr) : Prop := CallFrom source.toList (Token.tokenize source) e

def LiesIn (r s : Range) : Prop := s.start ≤ r.start ∧ r.stop ≤ s.stop

def tokenRange (ts : List Token) : Range := ⟨(ts.head?.map Token.offset).getD 0, (ts.getLast?.map Token.stop).getD 0⟩

def CallTokens (g : List Token) : Prop :=
  ∃ t left ts right, g = t :: left :: ts ++ [right] ∧ t.kind = .ident ∧ left.kind = .lparen ∧ Pieces ts ∧
    right.kind = .rparen

section Tokens
variable {source : List Char} {ts g g' rest rest' : List Token} {e e' : CallExpr}

theorem CallTokens.ne_nil (h : CallTokens g) : g ≠ [] := by
  obtain ⟨t, left, ts, right, rfl, _⟩ := h
  simp

theorem CallTokens.head {c : Token} (h : CallTokens g) (hsplit : c :: ts = g ++ rest) : c.kind = .ident := by
  obtain ⟨t, left, us, right, rfl, ht, _⟩ := h
  rw [(List.cons.inj hsplit).1, ht]

theorem CallTokens.starts (h : CallTokens g) (rest : List Token) : CallExpr.startsCall (g ++ rest) = true := by
  obtain ⟨t, left, ts, right, rfl, ht, hleft, _⟩ := h
  simp [CallExpr.startsCall, ht, hleft]

theorem CallTokens.unopened (h : CallTokens g) (rest : List Token) : Unopened g rest := by
  obtain ⟨t, left, ts, right, rfl, _⟩ := h
  intro u hu
  simp at hu

theorem Spells.call_tokens (h : Spells source (.expr e) g) (he : e.isCall = true) : CallTokens g := by
  cases h with
  | leaf => cases he
  | empty ht hleft hright => exact ⟨_, _, [], _, rfl, ht, hleft, .last .nil, hright⟩
  | call ht hleft _ hargs hright => exact ⟨_, _, _, _, rfl, ht, hleft, hargs.suits, hright⟩

/-- A call is read where its tokens stand. -/
theorem callFrom_iff : CallFrom source ts e ↔
    ∃ before g rest, ts = before ++ (g ++ rest) ∧ Spells source (.expr e) g ∧ CallTokens g := by
  constructor
  · rintro ⟨before, us, rest, rfl, hstarts, hparse⟩
    obtain ⟨g, rfl, hg, hu⟩ := parseTokens_iff.mp hparse
    refine ⟨before, g, rest, rfl, hg, hg.call_tokens ?_⟩
    cases hg with
    | empty | call => rfl
    | @leaf t kind hkind =>
      cases rest with
      | nil => cases hstarts
      | cons p rest =>
        have hboth : t.kind = .ident ∧ p.kind = .lparen := by simpa [CallExpr.startsCall] using hstarts
        exact absurd hboth.2 (hu t rfl hboth.1 p rfl)
  · rintro ⟨before, g, rest, rfl, hg, hcall⟩
    exact ⟨before, g ++ rest, rest, rfl, hcall.starts rest, parseTokens_iff.mpr ⟨g, rfl, hg, hcall.unopened rest⟩⟩

/-- What is read at one place is one expression. -/
theorem Spells.same (hg : Spells source (.expr e) g) (hcall : CallTokens g) (hg' : Spells source (.expr e') g')
    (hcall' : CallTokens g') (h : g ++ rest = g' ++ rest') : e = e' := by
  have hread := parseTokens_iff.mpr ⟨g, rfl, hg, hcall.unopened rest⟩
  rw [h, parseTokens_iff.mpr ⟨g', rfl, hg', hcall'.unopened rest'⟩] at hread
  exact (Prod.mk.inj (Option.some.inj hread)).1.symm

end Tokens

section Depth
variable {d d' : Nat} {ts x y g rest rest' : List Token}

theorem foldlM_add (h : ts.foldlM depthAfter d = some d') (n : Nat) :
    ts.foldlM depthAfter (d + n) = some (d' + n) := by
  induction n with
  | zero => exact h
  | succ n ih => exact foldlM_succ ih

theorem foldlM_split (h : (x ++ y).foldlM depthAfter d = some d') :
    ∃ k, x.foldlM depthAfter d = some k ∧ y.foldlM depthAfter k = some d' := by
  rw [List.foldlM_append] at h
  exact Option.bind_eq_some_iff.mp h

/-- Between the parentheses of a call, none of them is closed. -/
theorem Pieces.deep (h : Pieces (x ++ y)) : ∃ k, x.foldlM depthAfter 1 = some (k + 1) := by
  generalize hts : x ++ y = ts at h
  have hflat : ∀ {x us y : List Token}, Flat us → us = x ++ y → ∃ k, x.foldlM depthAfter 1 = some (k + 1) := by
    rintro x _ y hus rfl
    obtain ⟨k, hk, _⟩ := foldlM_split hus
    exact ⟨k, foldlM_succ hk⟩
  induction h generalizing x with
  | last h => exact hflat h hts.symm
  | @more us vs comma h hcomma _ ih =>
    rcases List.append_eq_append_iff.mp hts with ⟨as, hus, _⟩ | ⟨bs, rfl, hrest⟩
    · exact hflat h hus
    · cases bs with
      | nil => exact hflat (y := []) h (by simp)
      | cons b bs =>
        obtain ⟨rfl, hvs⟩ := List.cons.inj hrest
        obtain ⟨k, hk⟩ := ih hvs.symm
        have hclosed : us.foldlM depthAfter 1 = some 1 := foldlM_succ h
        refine ⟨k, ?_⟩
        rw [List.foldlM_append, hclosed]
        simpa [depthAfter, hcomma] using hk

/-- A beginning of a call is its name alone, or has opened a parenthesis that it does not close. -/
theorem CallTokens.opened (h : CallTokens (x ++ y)) (hx : x ≠ []) (hy : y ≠ []) :
    (∃ t, x = [t] ∧ ¬ Unopened x y) ∨ ∃ k, x.foldlM depthAfter 0 = some (k + 1) := by
  obtain ⟨t, left, ts, right, hxy, ht, hleft, hts, _⟩ := h
  obtain ⟨init, last, rfl⟩ : ∃ init last, y = init ++ [last] := ⟨_, _, (List.dropLast_concat_getLast hy).symm⟩
  rw [← List.append_assoc] at hxy
  obtain ⟨hinit, _⟩ := List.append_inj' hxy rfl
  obtain ⟨u, x, rfl⟩ := List.exists_cons_of_ne_nil hx
  obtain ⟨rfl, hafter⟩ := List.cons.inj hinit
  cases x with
  | nil =>
    obtain rfl : init = left :: ts := hafter
    exact .inl ⟨u, rfl, fun hu => absurd hleft (hu u rfl ht left rfl)⟩
  | cons v x =>
    obtain ⟨rfl, rfl⟩ := List.cons.inj hafter
    obtain ⟨k, hk⟩ := hts.deep
    exact .inr ⟨k, by simpa [depthAfter, ht, hleft] using hk⟩

/-- A call that starts in an argument ends in it. -/
theorem Flat.holds_call (h : Flat (x ++ y)) (hy : y ≠ []) (hu : Unopened y rest) (hg : CallTokens g)
    (hsplit : y ++ rest = g ++ rest') : ∃ z, y = g ++ z := by
  rcases List.append_eq_append_iff.mp hsplit with ⟨as, rfl, rfl⟩ | ⟨z, hz, _⟩
  · by_cases has : as = []
    · exact ⟨[], by simp [has]⟩
    rcases hg.opened hy has with ⟨t, rfl, hopened⟩ | ⟨k, hk⟩
    · refine absurd (fun u hut hident p hp => ?_) hopened
      obtain ⟨a, as, rfl⟩ := List.exists_cons_of_ne_nil has
      exact hu u hut hident p hp
    · -- the argument would end inside the parentheses of the call
      obtain ⟨d, _, hd⟩ := foldlM_split h
      have hdeep := foldlM_add hk d
      rw [Nat.zero_add, hd] at hdeep
      simp at hdeep
      omega
  · exact ⟨z, hz⟩

/-- A call that starts in an expression ends in it. -/
theorem Whole.holds_call (h : Whole (x ++ y)) (hy : y ≠ []) (hu : Unopened (x ++ y) rest) (hg : CallTokens g)
    (hsplit : y ++ rest = g ++ rest') : ∃ z, y = g ++ z := by
  refine h.flat.holds_call hy ?_ hg hsplit
  rintro t rfl hident
  generalize hxy : x ++ [t] = ts at h hu
  cases h with
  | leaf =>
    obtain ⟨-, hone⟩ := (List.append_eq_singleton_iff.mp hxy).resolve_right (by simp)
    obtain rfl := List.singleton_inj.mp hone
    exact hu t rfl hident
  | call _ _ _ hright =>
    obtain ⟨_, hlast⟩ := List.append_inj' hxy rfl
    obtain rfl := List.singleton_inj.mp hlast
    simp [hident] at hright

end Depth

section Arguments
variable {source : List Char} {ts us g rest rest' x y : List Token} {close : Token} {e : CallExpr}
  {es : List CallExpr}

theorem Spells.holds_call {next : Token} (h : Spells source (.arg next e) (x ++ y))
    (hends : CallExpr.endsArg next = true) (hy : y ≠ []) (hg : CallTokens g)
    (hsplit : y ++ next :: rest = g ++ rest') : g <:+: x ++ y := by
  have hflat : Flat (x ++ y) := h.suits
  obtain ⟨z, rfl⟩ := hflat.holds_call hy (unopened_endsArg hends) hg hsplit
  exact ⟨x, z, by simp⟩

/-- A call that starts in the arguments of another one lies in one of them. -/
theorem Spells.arg_around (h : Spells source (.args close es) ts) (hclose : close.kind = .rparen) (hts : ts = x ++ y)
    (hy : y ≠ []) (hg : CallTokens g) (hsplit : y ++ close :: rest = g ++ rest') :
    ∃ a ∈ es, ∃ next us, us <:+: ts ∧ g <:+: us ∧ Spells source (.arg next a) us := by
  generalize hr : Reading.args close es = r at h
  induction h generalizing x es with
  | leaf | empty | call | whole | raw => cases hr
  | @last us close a h _ =>
    cases hr
    subst hts
    exact ⟨a, by simp, _, _, List.infix_rfl, h.holds_call (endsArg_iff.mpr (.inr hclose)) hy hg hsplit, h⟩
  | @more us vs close comma a as h hcomma hvs _ ih =>
    cases hr
    have hstart : ∀ {ds : List Token}, y = comma :: ds → False := by
      rintro ds rfl
      simpa [hcomma] using hg.head hsplit
    rcases List.append_eq_append_iff.mp hts with ⟨bs, rfl, hrest⟩ | ⟨bs, rfl, hyb⟩
    · cases bs with
      | nil => exact (hstart hrest.symm).elim
      | cons b bs =>
        obtain ⟨rfl, rfl⟩ := List.cons.inj hrest
        obtain ⟨c, hc, next, ws, hws, hin, hspells⟩ := ih rfl rfl
        exact ⟨c, List.mem_cons_of_mem _ hc, next, ws, hws.trans ⟨us ++ [comma], [], by simp⟩, hin, hspells⟩
    · by_cases hbs : bs = []
      · exact (hstart (by rw [hyb, hbs, List.nil_append])).elim
      · have hnext : bs ++ comma :: (vs ++ close :: rest) = g ++ rest' := by rw [← hsplit, hyb]; simp
        have hin := h.holds_call (endsArg_iff.mpr (.inl hcomma)) hbs hg hnext
        exact ⟨a, by simp, comma, x ++ bs, ⟨[], comma :: vs, by simp⟩, hin, h⟩

/-- A call that starts in another one, but not with it, lies in one of its arguments. -/
theorem Spells.inner_call (h : Spells source (.expr e) (x ++ y)) (hx : x ≠ []) (hy : y ≠ []) (hg : CallTokens g)
    (hsplit : y ++ rest = g ++ rest') :
    ∃ a ∈ argsOf e, ∃ next us, us <:+: x ++ y ∧ g <:+: us ∧ Spells source (.arg next a) us := by
  obtain ⟨c, x, rfl⟩ := List.exists_cons_of_ne_nil hx
  obtain ⟨d, y, rfl⟩ := List.exists_cons_of_ne_nil hy
  have hident : d.kind = .ident := hg.head hsplit
  generalize hts : c :: x ++ d :: y = ts at h
  cases h with
  | leaf => simp at hts
  | @empty t left right ht hleft hright =>
    obtain ⟨-, hafter⟩ : c = t ∧ x ++ d :: y = [left, right] := by simpa using hts
    have hmem : d ∈ [left, right] := by simp [← hafter]
    rcases (by simpa using hmem : d = left ∨ d = right) with rfl | rfl
    · simp [hleft] at hident
    · simp [hright] at hident
  | @call us t left right args ht hleft hne hargs hright =>
    obtain ⟨-, hafter⟩ : c = t ∧ x ++ d :: y = left :: us ++ [right] := by simpa using hts
    cases x with
    | nil => simp [(List.cons.inj hafter).1, hleft] at hident
    | cons l x =>
      obtain ⟨-, hinner⟩ : l = left ∧ x ++ d :: y = us ++ [right] := by simpa using hafter
      obtain ⟨init, last, hyl⟩ : ∃ init last, d :: y = init ++ [last] :=
        ⟨_, _, (List.dropLast_concat_getLast (List.cons_ne_nil d y)).symm⟩
      rw [hyl, ← List.append_assoc] at hinner
      obtain ⟨rfl, hlast⟩ := List.append_inj' hinner rfl
      obtain rfl := List.singleton_inj.mp hlast
      have hinit : init ≠ [] := by
        rintro rfl
        simp [(List.cons.inj hyl).1, hright] at hident
      have hnext : init ++ last :: rest = g ++ rest' := by rw [← hsplit, hyl]; simp
      obtain ⟨a, ha, next, vs, hvs, hin, hspells⟩ := hargs.arg_around hright rfl hinit hg hnext
      exact ⟨a, ha, next, vs, hvs.trans ⟨[t, left], [last], rfl⟩, hin, hspells⟩

end Arguments

section Ranges
variable {source : List Char} {ts us g : List Token} {t next : Token} {e : CallExpr}

theorem tokenRange_start (hs : Spaced ts) (ht : t ∈ ts) : (tokenRange ts).start ≤ t.offset := by
  cases ts with
  | nil => cases ht
  | cons u ts =>
    rcases List.mem_cons.mp ht with rfl | ht
    · exact Nat.le_refl _
    · have hpos := hs.nonempty u (by simp)
      have hapart := (List.pairwise_cons.mp hs.apart).1 t ht
      exact Nat.le_of_lt (Nat.lt_of_lt_of_le hpos hapart)

theorem tokenRange_stop (hs : Spaced ts) (ht : t ∈ ts) : t.stop ≤ (tokenRange ts).stop := by
  obtain ⟨init, last, rfl⟩ : ∃ init last, ts = init ++ [last] :=
    ⟨_, _, (List.dropLast_concat_getLast (List.ne_nil_of_mem ht)).symm⟩
  have hlast : (tokenRange (init ++ [last])).stop = last.stop := by simp [tokenRange]
  rw [hlast]
  rcases List.mem_append.mp ht with ht | ht
  · have hpos := hs.nonempty last (by simp)
    exact Nat.le_trans (hs.order ht (List.mem_singleton_self last)) (Nat.le_of_lt hpos)
  · exact Nat.le_of_eq (congrArg Token.stop (List.mem_singleton.mp ht))

theorem exists_tokenRange (h : ts ≠ []) : ∃ t ∈ ts, ∃ u ∈ ts, tokenRange ts = ⟨t.offset, u.stop⟩ :=
  ⟨ts.head h, List.head_mem h, ts.getLast h, List.getLast_mem h, by
    simp [tokenRange, List.head?_eq_some_head h, List.getLast?_eq_some_getLast h]⟩

theorem tokenRange_within (hs : Spaced us) (h : g <:+: us) (hne : g ≠ []) :
    LiesIn (tokenRange g) (tokenRange us) := by
  obtain ⟨t, ht, u, hu, hrange⟩ := exists_tokenRange hne
  rw [hrange]
  exact ⟨tokenRange_start hs (h.subset ht), tokenRange_stop hs (h.subset hu)⟩

theorem Spells.range (h : Spells source (.expr e) g) : e.range = tokenRange g := by
  cases h <;> simp [tokenRange, CallExpr.range, List.getLast?_cons]

theorem Spells.arg_range (h : Spells source (.arg next e) us) (hne : us ≠ []) : e.range = tokenRange us := by
  cases h with
  | whole h => exact h.range
  | raw =>
    obtain ⟨u, us, rfl⟩ := List.exists_cons_of_ne_nil hne
    simp [rawLeaf, tokenRange, CallExpr.range, List.getLast?_cons]

theorem LiesIn.contains {r s : Range} {offset : Nat} (h : LiesIn r s) (hr : r.contains offset = true) :
    s.contains offset = true := by
  rw [contains_iff] at hr ⊢
  exact ⟨Nat.le_trans h.1 hr.1, Nat.le_trans hr.2 h.2⟩

end Ranges

section Outermost
variable {source : List Char} {offset : Nat} {ts us g rest : List Token} {t : Token} {e : CallExpr}
  {found : Option CallExpr}

theorem CallFrom.of_suffix (h : CallFrom source us e) (hus : us <:+ ts) : CallFrom source ts e := by
  obtain ⟨before, vs, rest, rfl, hstarts, hparse⟩ := h
  obtain ⟨first, rfl⟩ := hus
  exact ⟨first ++ before, vs, rest, (List.append_assoc ..).symm, hstarts, hparse⟩

theorem callFrom_cons : CallFrom source (t :: ts) e ↔
    (CallExpr.startsCall (t :: ts) = true ∧ ∃ rest, CallExpr.parseTokens? source (t :: ts) = some (e, rest)) ∨
      CallFrom source ts e := by
  constructor
  · rintro ⟨_ | ⟨u, before⟩, us, rest, hts, hstarts, hparse⟩
    · obtain rfl : t :: ts = us := hts
      exact .inl ⟨hstarts, rest, hparse⟩
    · exact .inr ⟨before, us, rest, (List.cons.inj hts).2, hstarts, hparse⟩
  · rintro (⟨hstarts, rest, hparse⟩ | h)
    · exact ⟨[], t :: ts, rest, rfl, hstarts, hparse⟩
    · exact h.of_suffix (List.suffix_cons t ts)

theorem parseTokens_start {rest : List Token} (h : CallExpr.parseTokens? source (t :: ts) = some (e, rest)) :
    e.range.start = t.offset := by
  obtain ⟨g, hts, hg, _⟩ := parseTokens_iff.mp h
  rw [hg.range]
  cases hg with
  | leaf | empty | call => simp_all [tokenRange]

/-- A call starts with one of the tokens. -/
theorem CallFrom.start (h : CallFrom source ts e) : ∃ t ∈ ts, e.range.start = t.offset := by
  obtain ⟨before, us, rest, rfl, hstarts, hparse⟩ := h
  cases us with
  | nil => cases hstarts
  | cons t us => exact ⟨t, by simp, parseTokens_start hparse⟩

def Outermost (source : List Char) (offset : Nat) (ts : List Token) : Option CallExpr → Prop
  | none => ∀ e, CallFrom source ts e → e.range.contains offset = false
  | some e => CallFrom source ts e ∧ e.range.contains offset = true ∧
      ∀ e', CallFrom source ts e' → e'.range.contains offset = true → e.range.start ≤ e'.range.start

/-- Tokens that no call around the offset starts with can be left out. -/
theorem Outermost.of_suffix (h : Outermost source offset us found) (hus : us <:+ ts)
    (hleft : ∀ e, CallFrom source ts e → e.range.contains offset = true → CallFrom source us e) :
    Outermost source offset ts found := by
  cases found with
  | none =>
    intro e he
    cases hcontains : e.range.contains offset with
    | false => rfl
    | true => exact hcontains.symm.trans (h e (hleft e he hcontains))
  | some e =>
    obtain ⟨he, hcontains, hfirst⟩ := h
    exact ⟨he.of_suffix hus, hcontains, fun e' he' ho => hfirst e' (hleft e' he' ho) ho⟩

/-- No call around the offset starts inside one that is not around it. -/
theorem Spells.skipped {e' : CallExpr} (hs : Spaced (g ++ rest)) (h : Spells source (.expr e) g)
    (hu : Unopened g rest) (hoff : e.range.contains offset = false) (he' : CallFrom source (g ++ rest) e')
    (hcontains : e'.range.contains offset = true) : CallFrom source rest e' := by
  obtain ⟨before, g', rest', hsplit, hg', hcall⟩ := callFrom_iff.mp he'
  rcases List.append_eq_append_iff.mp hsplit with ⟨x, rfl, rfl⟩ | ⟨y, rfl, hnext⟩
  · exact callFrom_iff.mpr ⟨x, g', rest', rfl, hg', hcall⟩
  · by_cases hy : y = []
    · exact callFrom_iff.mpr ⟨[], g', rest', by simpa [hy] using hnext.symm, hg', hcall⟩
    · have hwhole : Whole (before ++ y) := h.suits
      obtain ⟨z, rfl⟩ := hwhole.holds_call hy hu hcall hnext.symm
      have hspaced := hs.sublist (List.sublist_append_left (before ++ (g' ++ z)) rest)
      have hwithin := tokenRange_within hspaced ⟨before, z, by simp⟩ hcall.ne_nil
      rw [← h.range, ← hg'.range] at hwithin
      simp [hwithin.contains hcontains] at hoff

theorem outermostAt_outermost (hs : Spaced ts) :
    Outermost source offset ts (CallExpr.outermostAt? source offset ts) := by
  fun_induction CallExpr.outermostAt? source offset ts with
  | case1 =>
    rintro e ⟨before, us, rest, hts, hstarts, _⟩
    obtain ⟨-, rfl⟩ := List.append_eq_nil_iff.mp hts.symm
    cases hstarts
  | case2 t ts hstarts hparse ih =>
    refine (ih (hs.sublist (List.sublist_cons_self t ts))).of_suffix (List.suffix_cons t ts) ?_
    intro e he _
    refine (callFrom_cons.mp he).resolve_left ?_
    rintro ⟨_, rest, hread⟩
    rw [hparse] at hread
    cases hread
  | case3 t ts hstarts e rest hparse hcontains =>
    have hhead : CallExpr.startsCall (t :: ts) = true := (Bool.and_eq_true_iff.mp hstarts).1
    refine ⟨callFrom_cons.mpr (.inl ⟨hhead, rest, hparse⟩), hcontains, ?_⟩
    intro e' he' _
    obtain ⟨u, hu, hstart⟩ := he'.start
    rw [parseTokens_start hparse, hstart]
    exact tokenRange_start hs hu
  | case4 t ts hstarts e rest hparse hoff hle ih =>
    obtain ⟨g, hts, hg, hu⟩ := parseTokens_iff.mp hparse
    rw [hts] at hs ⊢
    refine (ih (hs.sublist (List.sublist_append_right g rest))).of_suffix (List.suffix_append g rest) ?_
    exact fun e' => hg.skipped hs hu (by simpa using hoff)
  | case5 t ts hstarts e rest hparse hoff hlong =>
    obtain ⟨g, hts, hg, _⟩ := parseTokens_iff.mp hparse
    have hlength := congrArg List.length hts
    have hpos : g ≠ [] := by cases hg <;> simp
    have := List.length_pos_iff.mpr hpos
    simp at hlength
    omega
  | case6 t ts hstarts ih =>
    refine (ih (hs.sublist (List.sublist_cons_self t ts))).of_suffix (List.suffix_cons t ts) ?_
    intro e he hcontains
    refine (callFrom_cons.mp he).resolve_left ?_
    rintro ⟨hhead, rest, hread⟩
    have hstart := parseTokens_start hread
    have hle := (contains_iff.mp hcontains).1
    simp [hhead] at hstarts
    omega

end Outermost

section Inner
variable {source : List Char} {offset i : Nat} {ts us g g' before before' rest rest' : List Token}
  {e e' p : CallExpr} {q : CallExpr.Part}

/-- Tokens that start between the start and the end of others start with one of these. -/
theorem starts_inside (hs : Spaced ts) (h : ts = before ++ (g ++ rest)) (h' : ts = before' ++ (g' ++ rest'))
    (hne : g ≠ []) (hne' : g' ≠ []) (hafter : (tokenRange g).start ≤ (tokenRange g').start)
    (hinside : (tokenRange g').start < (tokenRange g).stop) :
    ∃ x y, g = x ++ y ∧ y ≠ [] ∧ y ++ rest = g' ++ rest' := by
  obtain ⟨t, ht, u, hu, hrange⟩ := exists_tokenRange hne
  obtain ⟨t', ht', u', hu', hrange'⟩ := exists_tokenRange hne'
  simp only [hrange, hrange'] at hafter hinside
  have hnot_after : ∀ as, rest ≠ as ++ (g' ++ rest') := by
    rintro as rfl
    have hspaced : Spaced (g ++ (as ++ (g' ++ rest'))) := hs.sublist (h ▸ List.sublist_append_right ..)
    have := hspaced.order hu (b := t') (by simp [ht'])
    omega
  rcases List.append_eq_append_iff.mp (h.symm.trans h') with ⟨x, rfl, hsplit⟩ | ⟨bs, rfl, hsplit⟩
  · rcases List.append_eq_append_iff.mp hsplit with ⟨as, rfl, hrest⟩ | ⟨y, hy, hnext⟩
    · exact absurd hrest (hnot_after as)
    · refine ⟨x, y, hy, ?_, hnext.symm⟩
      rintro rfl
      exact hnot_after [] hnext.symm
  · cases bs with
    | nil => exact ⟨[], g, rfl, hne, hsplit.symm⟩
    | cons b bs =>
      obtain ⟨b', g', rfl⟩ := List.exists_cons_of_ne_nil hne'
      obtain ⟨rfl, -⟩ := List.cons.inj hsplit
      have hspaced : Spaced ((b' :: bs) ++ (g ++ rest)) := by
        rw [h, List.append_assoc] at hs
        exact hs.sublist (List.sublist_append_right ..)
      have horder := hspaced.order (a := b') (by simp) (List.mem_append_left rest ht)
      have hpos := hspaced.nonempty b' (by simp)
      have hstart : b'.offset = t'.offset := congrArg Range.start hrange'
      omega

/-- What holds a call is more than a single token. -/
theorem Spells.isCall (h : Spells source (.expr e) us) (hin : g <:+: us) (hg : CallTokens g) : e.isCall = true := by
  cases h with
  | empty | call => rfl
  | leaf =>
    obtain ⟨t, left, ts, right, rfl, _⟩ := hg
    have hlength := hin.length_le
    simp at hlength

/-- An argument that holds a call is a call or raw. -/
theorem Spells.call_or_raw {next : Token} (h : Spells source (.arg next e) us) (hin : g <:+: us)
    (hg : CallTokens g) : e.isCall = true ∨ ∃ text range, e = .leaf .raw text range := by
  cases h with
  | whole h => exact .inl (h.isCall hin hg)
  | raw => exact .inr ⟨_, _, rfl⟩

/-- A call that lies inside another one lies in an argument of it. -/
theorem Spells.around_arg (hs : Spaced ts) (hts : ts = before ++ (us ++ rest)) (h : Spells source (.expr p) us)
    (hcall : p.isCall = true) (he : CallFrom source ts e) (hin : LiesIn e.range p.range) (hne : e.range ≠ p.range) :
    ∃ a ∈ argsOf p, LiesIn e.range a.range ∧ (a.isCall = true ∨ ∃ text range, a = .leaf .raw text range) := by
  obtain ⟨before', g, rest', hsplit, hg, htokens⟩ := callFrom_iff.mp he
  have hus := h.call_tokens hcall
  have hspaced : ∀ {vs : List Token}, vs <:+: ts → Spaced vs := fun hvs => hs.sublist hvs.sublist
  have hpos := (hg.lies (hspaced ⟨before', rest', by simp [hsplit]⟩)).2.1
  have hstart : e.range.start < p.range.stop := Nat.lt_of_lt_of_le hpos hin.2
  rw [hg.range, h.range] at hin hstart
  obtain ⟨x, y, rfl, hy, hnext⟩ := starts_inside hs hts hsplit hus.ne_nil htokens.ne_nil hin.1 hstart
  have hx : x ≠ [] := by
    rintro rfl
    obtain rfl := hg.same htokens h hus hnext.symm
    exact hne rfl
  obtain ⟨a, ha, next, vs, hvs, hgvs, harg⟩ := h.inner_call hx hy htokens hnext
  have hwhole : x ++ y <:+: ts := ⟨before, rest, by simp [hts]⟩
  have hvs_ne : vs ≠ [] := by
    rintro rfl
    exact htokens.ne_nil (List.infix_nil.mp hgvs)
  refine ⟨a, ha, ?_, harg.call_or_raw hgvs htokens⟩
  rw [hg.range, harg.arg_range hvs_ne]
  exact tokenRange_within (hspaced (hvs.trans hwhole)) hgvs htokens.ne_nil

/-- No argument of the innermost call around the offset is a call around it. -/
theorem innermost_arg {a : CallExpr} (he : Nested e) (h : e.innermostCall? offset = some i)
    (hq : e.parts[i]? = some q) (ha : a ∈ argsOf q.expr) (hcall : a.isCall = true) :
    a.range.contains offset = false := by
  obtain ⟨k, hk⟩ := List.mem_iff_getElem?.mp ha
  obtain ⟨m, hm⟩ : ∃ m, (CallExpr.argNumbers (i + 1) (argsOf q.expr))[k]? = some m := by
    obtain ⟨hlt, _⟩ := List.getElem?_eq_some_iff.mp hk
    exact ⟨_, List.getElem?_eq_getElem (by rwa [length_argNumbers])⟩
  have hget := (PartAt.arg (partAt_of_get hq) hk hm).node
  have hdeeper : i < m := le_of_argNumbers hm
  refine Bool.eq_false_iff.mpr fun hcontains => ?_
  have haround : Around (treeOf e) offset m := ⟨_, hget, kindOf_eq_call.mpr hcall, hcontains⟩
  rw [← innermostCall_treeOf] at h
  have habove := ((innermost_iff (numbered e) (rangesNest he)).mp h m).mp haround
  exact Nat.not_le_of_lt hdeeper (habove.le (numbered e))

/-- In a call around the offset there is an innermost one. -/
theorem exists_innermost (hcall : e.isCall = true) (hcontains : e.range.contains offset = true) :
    ∃ i q, e.innermostCall? offset = some i ∧ e.parts[i]? = some q ∧ q.expr.isCall = true ∧
      q.expr.range.contains offset = true := by
  rcases innermost_cases (treeOf e) offset with ⟨_, hnone⟩ | ⟨i, _, hi, ⟨n, hn, hncall, hncontains⟩, _⟩
  · exact absurd ⟨_, PartAt.outermost.node, kindOf_eq_call.mpr hcall, hcontains⟩ (hnone 0)
  · obtain ⟨p, hp, heq⟩ := partAt_of_node hn
    rw [heq] at hncall hncontains
    rw [innermostCall_treeOf] at hi
    exact ⟨i, _, hi, hp.get, kindOf_eq_call.mp hncall, hncontains⟩

/-- The calls around the offset inside the innermost part are those in its raw arguments. -/
theorem innermost_raw (hs : Spaced ts) (he : CallFrom source ts e) (hi : e.innermostCall? offset = some i)
    (hq : e.parts[i]? = some q) (hcall : q.expr.isCall = true) :
    CallFrom source ts q.expr ∧ ∀ e', CallFrom source ts e' → e'.range.contains offset = true →
      ((LiesIn e'.range q.expr.range ∧ e'.range ≠ q.expr.range) ↔
        ∃ text range, .leaf .raw text range ∈ argsOf q.expr ∧ LiesIn e'.range range) := by
  obtain ⟨before, g, rest, rfl, hg, htokens⟩ := callFrom_iff.mp he
  have hspaced : Spaced g := hs.sublist (List.IsInfix.sublist ⟨before, rest, by simp⟩)
  have hnested := (hg.lies hspaced).1
  rcases hg.part (partAt_of_get hq) with ⟨us, ⟨left, right, hus⟩, hp⟩ | ⟨text, range, hraw⟩
  · have hsplit : before ++ (g ++ rest) = (before ++ left) ++ (us ++ (right ++ rest)) := by simp [← hus]
    refine ⟨callFrom_iff.mpr ⟨_, us, _, hsplit, hp, hp.call_tokens hcall⟩, fun e' he' hcontains => ⟨?_, ?_⟩⟩
    · rintro ⟨hin, hne⟩
      obtain ⟨a, ha, hwithin, hacall | ⟨text, range, rfl⟩⟩ := hp.around_arg hs hsplit hcall he' hin hne
      · have hoff := innermost_arg hnested hi hq ha hacall
        rw [hwithin.contains hcontains] at hoff
        cases hoff
      · exact ⟨text, range, ha, hwithin⟩
    · rintro ⟨text, range, ha, hstart, hstop⟩
      obtain ⟨hafter, hbefore⟩ : q.expr.range.start < range.start ∧ range.stop < q.expr.range.stop := by
        cases (partAt_of_get hq).nested hnested with
        | intro hinside => exact hinside _ ha
      refine ⟨⟨by omega, by omega⟩, fun heq => ?_⟩
      rw [heq] at hstart
      omega
  · rw [hraw] at hcall
    cases hcall

end Inner

def CallAround (source : String) (offset : Nat) (e : CallExpr) : Prop :=
  CallIn source e ∧ e.range.contains offset = true

/-- Of the calls around an offset, the first one is found, and of the parts of that one the innermost call. The calls
around the offset that lie inside this are those in its raw arguments. -/
theorem call_around (source : String) (offset : Nat) :
    (CallExpr.callAt? source offset = none ↔ ∀ e, ¬ CallAround source offset e) ∧
      ∀ e number, CallExpr.callAt? source offset = some (e, number) → CallAround source offset e ∧
        (∀ e', CallAround source offset e' → e.range.start ≤ e'.range.start) ∧
        ∃ q, e.parts[number]? = some q ∧ CallAround source offset q.expr ∧
          ∀ e', CallAround source offset e' → ((LiesIn e'.range q.expr.range ∧ e'.range ≠ q.expr.range) ↔
            ∃ text range, .leaf .raw text range ∈ argsOf q.expr ∧ LiesIn e'.range range) := by
  have hs := tokenize_spaced source
  have hfound : Outermost source.toList offset _ _ := outermostAt_outermost hs
  cases houter : CallExpr.outermostAt? source.toList offset (Token.tokenize source) with
  | none =>
    have hnone : CallExpr.callAt? source offset = none := by simp [CallExpr.callAt?, houter]
    rw [houter] at hfound
    refine ⟨⟨fun _ e ⟨he, hcontains⟩ => ?_, fun _ => hnone⟩, by simp [hnone]⟩
    rw [hfound e he] at hcontains
    cases hcontains
  | some e =>
    rw [houter] at hfound
    obtain ⟨he, hcontains, hfirst⟩ := hfound
    have hcall : e.isCall = true := by
      obtain ⟨_, g, _, _, hg, htokens⟩ := callFrom_iff.mp he
      exact hg.isCall List.infix_rfl htokens
    obtain ⟨i, q, hi, hq, hqcall, hqcontains⟩ := exists_innermost hcall hcontains
    have hsome : CallExpr.callAt? source offset = some (e, i) := by simp [CallExpr.callAt?, houter, hi]
    rw [hsome]
    refine ⟨⟨nofun, fun hnone => absurd ⟨he, hcontains⟩ (hnone e)⟩, ?_⟩
    rintro _ _ ⟨⟩
    obtain ⟨hqfrom, hraw⟩ := innermost_raw hs he hi hq hqcall
    exact ⟨⟨he, hcontains⟩, fun e' he' => hfirst e' he'.1 he'.2, q, hq, ⟨hqfrom, hqcontains⟩,
      fun e' he' => hraw e' he'.1 he'.2⟩

/-- A call in a sum is missed. -/
theorem call_around_hidden : ∃ e number q e', CallExpr.callAt? "F(a + G(b))" 8 = some (e, number) ∧
    e.parts[number]? = some q ∧ CallAround "F(a + G(b))" 8 e' ∧ LiesIn e'.range q.expr.range ∧
    e'.range ≠ q.expr.range := by
  refine ⟨.call "F" [.leaf .raw "a + G(b)" ⟨2, 10⟩] ⟨0, 11⟩, 0, _, .call "G" [.leaf .ident "b" ⟨8, 9⟩] ⟨6, 10⟩,
    by decide +kernel, rfl, ⟨?_, by decide⟩, ⟨by decide, by decide⟩, by decide⟩
  have hparse : CallExpr.parseTokens? "F(a + G(b))".toList ((Token.tokenize "F(a + G(b))").drop 4) =
      some (.call "G" [.leaf .ident "b" ⟨8, 9⟩] ⟨6, 10⟩, (Token.tokenize "F(a + G(b))").drop 8) := by
    decide +kernel
  exact ⟨_, _, _, (List.take_append_drop 4 _).symm, by decide +kernel, hparse⟩

end Devicetree.Proofs
