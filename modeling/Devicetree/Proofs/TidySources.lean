import Devicetree.Proofs.Lexemes

namespace Devicetree.Proofs

def Quoted (source : String) (n : Nat) : Prop :=
  ∃ t ∈ Token.scan source, (t.kind = .str ∨ t.kind = .char) ∧ t.offset ≤ n ∧ n < t.stop

def places (offset : Nat) : List Char → List (Nat × Char × List Char)
  | [] => []
  | c :: cs => (offset, c, cs) :: places (offset + c.utf8Size) cs

/-- All blanks are blanks of C, and quotes, backslashes and comment marks stand in strings and characters only. -/
structure Tidy (source : String) : Prop where
  blanks : ∀ c ∈ source.toList, Text.isBlank c = true → Token.isSpace c = true
  quotes : ∀ p ∈ places 0 source.toList, p.2.1 = '"' ∨ p.2.1 = '\'' ∨ p.2.1 = '\\' → Quoted source p.1
  slashes : ∀ p ∈ places 0 source.toList, p.2.1 = '/' →
    p.2.2.head? = some '/' ∨ p.2.2.head? = some '*' → Quoted source p.1

instance (source : String) (n : Nat) : Decidable (Quoted source n) :=
  inferInstanceAs
    (Decidable (∃ t ∈ Token.scan source, (t.kind = .str ∨ t.kind = .char) ∧ t.offset ≤ n ∧ n < t.stop))

instance (source : String) : Decidable (Tidy source) :=
  have : Decidable (∀ c ∈ source.toList, Text.isBlank c = true → Token.isSpace c = true) :=
    List.decidableBAll _ _
  decidable_of_iff
    ((∀ c ∈ source.toList, Text.isBlank c = true → Token.isSpace c = true) ∧
      (∀ p ∈ places 0 source.toList, p.2.1 = '"' ∨ p.2.1 = '\'' ∨ p.2.1 = '\\' → Quoted source p.1) ∧
      ∀ p ∈ places 0 source.toList, p.2.1 = '/' →
        p.2.2.head? = some '/' ∨ p.2.2.head? = some '*' → Quoted source p.1)
    ⟨fun h => ⟨h.1, h.2.1, h.2.2⟩, fun h => ⟨h.blanks, h.quotes, h.slashes⟩⟩

section Places

theorem mem_places (before : List Char) (c : Char) (after : List Char) (offset : Nat) :
    (offset + Text.byteLength before, c, after) ∈ places offset (before ++ c :: after) := by
  induction before generalizing offset with
  | nil => simp [places, Text.byteLength]
  | cons b before ih =>
    have := ih (offset + b.utf8Size)
    rw [Nat.add_assoc] at this
    exact List.mem_cons_of_mem _ this

theorem spelled_append (a b : List Lexeme) : spelled (a ++ b) = spelled a ++ spelled b := by
  simp [spelled]

theorem spelled_cons (l : Lexeme) (ls : List Lexeme) : spelled (l :: ls) = l.chars ++ spelled ls := by
  simp [spelled]

theorem lay_append (offset : Nat) (a b : List Lexeme) :
    lay offset (a ++ b) = lay offset a ++ lay (offset + Text.byteLength (spelled a)) b := by
  induction a generalizing offset with
  | nil => simp [lay, spelled, Text.byteLength]
  | cons l a ih => simp [lay, ih, spelled_cons, byteLength_append, Nat.add_assoc]

variable {before after : List Lexeme} {l : Lexeme} {x y : List Char} {c : Char}

theorem mem_places_of_lexeme {text : List Char} (h : Lexes text (before ++ l :: after)) (hl : l.chars = x ++ c :: y) :
    ∃ rest, (Text.byteLength (spelled before ++ x), c, y ++ rest) ∈ places 0 text := by
  refine ⟨spelled after, ?_⟩
  have hplace := mem_places (spelled before ++ x) c (y ++ spelled after) 0
  rw [Nat.zero_add] at hplace
  rw [h.spelled, spelled_append, spelled_cons, hl]
  simpa using hplace

/-- A quoted place in a lexeme makes it a string or a character. -/
theorem kind_of_quoted {source : String} (h : Lexes source.toList (before ++ l :: after))
    (hl : l.chars = x ++ c :: y) (hq : Quoted source (Text.byteLength (spelled before ++ x))) :
    l.kind = .str ∨ l.kind = .char := by
  obtain ⟨t, ht, hkind, hstart, hstop⟩ := hq
  have hspaced := lay_spaced h.ne_nil 0
  rw [Token.scan, h.scan, lay_append, lay] at ht
  rw [lay_append, lay] at hspaced
  have hapart := List.pairwise_append.mp hspaced.apart
  have hpos := byteLength_pos (List.cons_ne_nil c y)
  rw [byteLength_append] at hstart hstop
  rcases List.mem_append.mp ht with ht | ht
  · have := hapart.2.2 t ht _ List.mem_cons_self
    simp only at this
    omega
  · rcases List.mem_cons.mp ht with rfl | ht
    · exact hkind
    · have := (List.pairwise_cons.mp hapart.2.1).1 t ht
      simp only [Token.stop, String.toList_ofList, hl, byteLength_append] at this
      omega

end Places

section Comments
variable {c : Char} {cs rest : List Char}

theorem comment_of_slash {text : List Char} {n : Nat} (h : Token.slashLexeme text = (.comment, n)) :
    0 < n ∧ (text.head? = some '/' ∨ text.head? = some '*') := by
  unfold Token.slashLexeme at h
  split at h
  · obtain ⟨-, rfl⟩ := Prod.mk.inj h
    exact ⟨Nat.succ_pos _, .inl rfl⟩
  · rename_i body
    cases hclosed : (Token.commentBody body).2 with
    | true =>
      simp only [hclosed, if_true] at h
      obtain ⟨-, rfl⟩ := Prod.mk.inj h
      exact ⟨Nat.succ_pos _, .inr rfl⟩
    | false => simp [hclosed] at h
  · simp at h

/-- A comment starts with its mark. -/
theorem comment_start (h : Token.lexeme c (cs ++ rest) = (.comment, cs.length)) :
    c = '/' ∧ (cs.head? = some '/' ∨ cs.head? = some '*') := by
  rcases class_cases c with hc | hc | hc | hc | hc
  · simp [lexeme_blank hc] at h
  · simp [lexeme_ident hc] at h
  · simp [lexeme_number hc] at h
  · simp only [List.mem_cons, List.not_mem_nil, or_false] at hc
    rcases hc with rfl | rfl | rfl | rfl | rfl
    · cases h
    · cases h
    · cases h
    · rw [lexeme_quote] at h
      unfold Token.quoteLexeme at h
      split at h
      · split at h <;> simp at h
      · split at h <;> simp at h
      · simp at h
    · rw [lexeme_string] at h
      split at h <;> simp at h
  · by_cases hne : c = '/'
    · subst hne
      obtain ⟨hpos, hmark⟩ := comment_of_slash h
      cases cs with
      | nil => simp at hpos
      | cons d cs => exact ⟨rfl, hmark⟩
    · rw [hc.lexeme hne] at h
      simp at h

end Comments

section Lexemes
variable {source : String} {ls : List Lexeme}

theorem Lexes.lexeme {before after : List Lexeme} {l : Lexeme} {text : List Char}
    (h : Lexes text (before ++ l :: after)) :
    ∃ c cs rest, l.chars = c :: cs ∧ Token.lexeme c (cs ++ rest) = (l.kind, cs.length) := by
  obtain ⟨rest, rfl, hl⟩ := h.after
  cases hl with
  | cons hlex _ => exact ⟨_, _, _, rfl, hlex⟩

/-- No lexeme of a tidy text is a comment or a mark without its end. -/
theorem Tidy.clean (hs : Tidy source) (h : Lexes source.toList ls) : ∀ l ∈ ls, Clean l.kind l.chars := by
  intro l hl
  obtain ⟨before, after, rfl⟩ := List.append_of_mem hl
  have hquote : ∀ c ∈ l.chars, c = '"' ∨ c = '\'' → l.kind = .str ∨ l.kind = .char := by
    intro c hc hmark
    obtain ⟨x, y, hchars⟩ := List.append_of_mem hc
    obtain ⟨rest, hplace⟩ := mem_places_of_lexeme h hchars
    exact kind_of_quoted h hchars (hs.quotes _ hplace (hmark.imp_right .inl))
  have hslash : ∀ d y, l.chars = '/' :: d :: y → d = '/' ∨ d = '*' → l.kind = .str ∨ l.kind = .char := by
    intro d y hchars hmark
    obtain ⟨rest, hplace⟩ := mem_places_of_lexeme (x := []) h hchars
    exact kind_of_quoted (x := []) h hchars (hs.slashes _ hplace rfl (by simpa using hmark))
  constructor
  · intro hcomment
    obtain ⟨c, cs, rest, hchars, hlex⟩ := h.lexeme
    rw [hcomment] at hlex
    obtain ⟨rfl, hmark⟩ := comment_start hlex
    cases cs with
    | nil => simp at hmark
    | cons d cs =>
      have := hslash d cs hchars (by simpa using hmark)
      simp [hcomment] at this
  · intro hother
    constructor
    · intro hmem
      simpa [hother] using hquote _ hmem (.inl rfl)
    · intro hmem
      simpa [hother] using hquote _ hmem (.inr rfl)
  · rintro hother ⟨y, hy⟩
    simpa [hother] using hslash '*' y hy.symm (.inr rfl)

/-- Clean lexemes end by themselves. -/
theorem Lexes.formed {text : List Char} (h : Lexes text ls) (hclean : ∀ l ∈ ls, Clean l.kind l.chars) :
    ∀ l ∈ ls, Formed l.kind l.chars := by
  intro l hl
  obtain ⟨before, after, rfl⟩ := List.append_of_mem hl
  obtain ⟨c, cs, rest, hchars, hlex⟩ := h.lexeme
  have hl := hclean l hl
  rw [hchars] at hl ⊢
  exact (Formed.of_lexeme hlex hl).1

structure Solid (l : Lexeme) : Prop where
  carries : l.carries = true
  formed : Formed l.kind l.chars
  first : ∀ c ∈ l.chars.head?, Text.isBlank c = false
  last : ∀ c ∈ l.chars.getLast?, Text.isBlank c = false

theorem Solid.not_blank {l : Lexeme} (h : Solid l) : l.kind ≠ .blank := by
  intro hblank
  have := h.carries
  simp [Lexeme.carries, hblank, Token.Kind.isTrivia] at this

theorem Tidy.solid (hs : Tidy source) (h : Lexes source.toList ls) :
    ∀ l ∈ ls, l.carries = true → Solid l := by
  intro l hl hcarries
  have hformed := h.formed (hs.clean h) l hl
  have hkind : l.kind ≠ .blank := by
    intro hblank
    simp [Lexeme.carries, hblank, Token.Kind.isTrivia] at hcarries
  have hblank : ∀ c ∈ l.chars, Token.isSpace c = false → Text.isBlank c = false := by
    intro c hc hspace
    have hmem : c ∈ source.toList := by
      rw [h.spelled]
      exact List.mem_flatMap.mpr ⟨l, hl, hc⟩
    cases hb : Text.isBlank c with
    | false => rfl
    | true =>
      rw [hs.blanks c hmem hb] at hspace
      cases hspace
  obtain ⟨hfirst, hlast⟩ := hformed.edges hkind
  exact ⟨hcarries, hformed, fun c hc => hblank c (List.mem_of_mem_head? hc) (hfirst c hc),
    fun c hc => hblank c (List.mem_of_mem_getLast? hc) (hlast c hc)⟩

end Lexemes

section Stretches
variable {offset : Nat} {ls ms : List Lexeme} {ts left right : List Token}

theorem tokensOf_append (offset : Nat) (a b : List Lexeme) :
    tokensOf offset (a ++ b) = tokensOf offset a ++ tokensOf (offset + Text.byteLength (spelled a)) b := by
  rw [tokensOf, lay_append, List.filter_append, tokensOf, tokensOf]

theorem tokensOf_cons {l : Lexeme} (h : l.carries = true) (offset : Nat) (ls : List Lexeme) :
    tokensOf offset (l :: ls) =
      ⟨l.kind, String.ofList l.chars, offset⟩ :: tokensOf (offset + Text.byteLength l.chars) ls := by
  exact List.filter_cons_of_pos h

/-- The first token starts where its lexemes do. -/
theorem offset_tokensOf (offset : Nat) (hne : ms ≠ []) (h : ∀ m ∈ ms.head?, m.carries = true) (next : Token) :
    ((tokensOf offset ms).headD next).offset = offset := by
  cases ms with
  | nil => exact absurd rfl hne
  | cons m ms => rw [tokensOf_cons (h m rfl), List.headD_cons]

/-- The last token ends where its lexemes do. -/
theorem stop_tokensOf (offset : Nat) (hne : ms ≠ []) (h : ∀ m ∈ ms.getLast?, m.carries = true) :
    (tokensOf offset ms).getLast?.map Token.stop = some (offset + Text.byteLength (spelled ms)) := by
  obtain ⟨init, m, rfl⟩ : ∃ init m, ms = init ++ [m] := ⟨_, _, (List.dropLast_concat_getLast hne).symm⟩
  rw [tokensOf_append, tokensOf_cons (h m (by simp))]
  simp [tokensOf, lay, Token.stop, spelled, byteLength_append, Nat.add_assoc]

/-- The laid out lexemes fall apart where their tokens do. -/
theorem lay_split {a b : List Token} (h : lay offset ls = a ++ b) : ∃ before after, ls = before ++ after ∧
    lay offset before = a ∧ lay (offset + Text.byteLength (spelled before)) after = b := by
  induction a generalizing offset ls with
  | nil => exact ⟨[], ls, rfl, rfl, h⟩
  | cons t a ih =>
    cases ls with
    | nil => cases h
    | cons l ls =>
      obtain ⟨hl, hrest⟩ := List.cons.inj h
      obtain ⟨before, after, rfl, ha, hb⟩ := ih hrest
      refine ⟨l :: before, after, rfl, ?_, ?_⟩
      · rw [lay, hl, ha]
      · rwa [spelled_cons, byteLength_append, ← Nat.add_assoc]

/-- What a filter keeps side by side comes from a stretch that starts and ends with it. -/
theorem filter_stretch {α : Type} {p : α → Bool} {l kept rest : List α} (h : l.filter p = kept ++ rest)
    (hne : kept ≠ []) : ∃ x y z, l = x ++ y ++ z ∧ x.filter p = [] ∧ y.filter p = kept ∧
      y.head? = kept.head? ∧ y.getLast? = kept.getLast? := by
  induction kept generalizing l with
  | nil => exact absurd rfl hne
  | cons k kept ih =>
    obtain ⟨x, after, rfl, hx, hk, hafter⟩ := List.filter_eq_cons_iff.mp h
    have hx : x.filter p = [] := List.filter_eq_nil_iff.mpr hx
    cases kept with
    | nil => exact ⟨x, [k], after, by simp, hx, by simp [hk], rfl, rfl⟩
    | cons k' kept =>
      obtain ⟨x', y, z, rfl, hx', hy, _, hlast⟩ := ih hafter (List.cons_ne_nil _ _)
      have hyne : y ≠ [] := by
        rintro rfl
        cases hy
      refine ⟨x, k :: (x' ++ y), z, by simp, hx, by simp [hk, hx', hy], rfl, ?_⟩
      obtain ⟨b, y, rfl⟩ := List.exists_cons_of_ne_nil hyne
      rw [← List.cons_append, List.getLast?_append, hlast]
      simp [List.getLast?_cons]

/-- Tokens that stand together come from a stretch of lexemes that starts and ends with one of theirs. -/
theorem exists_stretch (h : tokensOf 0 ls = left ++ ts ++ right) (hne : ts ≠ []) :
    ∃ before ms after, ls = before ++ ms ++ after ∧ tokensOf (Text.byteLength (spelled before)) ms = ts ∧
      ms ≠ [] ∧ (∀ m ∈ ms.head?, m.carries = true) ∧ ∀ m ∈ ms.getLast?, m.carries = true := by
  rw [tokensOf, List.append_assoc, List.filter_eq_append_iff] at h
  obtain ⟨first, others, hlay, -, hothers⟩ := h
  obtain ⟨x, y, z, rfl, -, hy, hhead, hlast⟩ := filter_stretch hothers hne
  rw [List.append_assoc, ← List.append_assoc first] at hlay
  obtain ⟨before, others, rfl, -, hothers⟩ := lay_split hlay
  obtain ⟨ms, after, rfl, rfl, -⟩ := lay_split hothers
  rw [Nat.zero_add] at hy hhead hlast
  have hkept : ∀ t ∈ ts, t.kind.isTrivia = false := by
    intro t ht
    rw [← hy] at ht
    simpa using (List.mem_filter.mp ht).2
  refine ⟨before, ms, after, by simp, hy, ?_, ?_, ?_⟩
  · rintro rfl
    exact hne hy.symm
  · intro m hm
    cases ms with
    | nil => cases hm
    | cons l ms =>
      cases hm
      have := hkept _ (List.mem_of_mem_head? hhead.symm)
      simpa [Lexeme.carries] using this
  · intro m hm
    obtain ⟨init, rfl⟩ := List.getLast?_eq_some_iff.mp hm
    rw [lay_append, lay, lay, List.getLast?_append, List.getLast?_singleton, Option.some_or] at hlast
    have := hkept _ (List.mem_of_getLast? hlast.symm)
    simpa [Lexeme.carries] using this

end Stretches

section Slices

theorem dropBytes_append (a b : List Char) : Text.dropBytes (Text.byteLength a) (a ++ b) = b := by
  induction a with
  | nil => cases b <;> rfl
  | cons c a ih =>
    have hpos := c.utf8Size_pos
    rw [List.cons_append, Text.dropBytes, Text.byteLength, if_neg (by omega), Nat.add_sub_cancel_left, ih]

theorem takeBytes_append (a b : List Char) : Text.takeBytes (Text.byteLength a) (a ++ b) = a := by
  induction a with
  | nil => cases b <;> rfl
  | cons c a ih =>
    have hpos := c.utf8Size_pos
    rw [List.cons_append, Text.takeBytes, Text.byteLength, if_neg (by omega), Nat.add_sub_cancel_left, ih]

theorem slice_append (a b c : List Char) :
    Text.slice (a ++ b ++ c) (Text.byteLength a) (Text.byteLength a + Text.byteLength b) = b := by
  rw [Text.slice, List.append_assoc, dropBytes_append, Nat.add_sub_cancel_left, takeBytes_append]

theorem slice_empty (cs : List Char) (n : Nat) : Text.slice cs n n = [] := by
  rw [Text.slice, Nat.sub_self]
  cases Text.dropBytes n cs <;> rfl

theorem dropWhile_of_head {p : Char → Bool} {cs : List Char} (h : ∀ c ∈ cs.head?, p c = false) :
    cs.dropWhile p = cs := by
  cases cs with
  | nil => rfl
  | cons c cs => exact List.dropWhile_cons_of_neg (by simpa using h c rfl)

theorem trim_of_ends {cs : List Char} (hfirst : ∀ c ∈ cs.head?, Text.isBlank c = false)
    (hlast : ∀ c ∈ cs.getLast?, Text.isBlank c = false) : Text.trim cs = cs := by
  have hrev : ∀ c ∈ cs.reverse.head?, Text.isBlank c = false := by simpa using hlast
  rw [Text.trim, dropWhile_of_head hfirst, dropWhile_of_head hrev, List.reverse_reverse]

theorem not_space_of_not_blank {c : Char} (h : Text.isBlank c = false) : Token.isSpace c = false := by
  cases hs : Token.isSpace c with
  | false => rfl
  | true => rcases isSpace_iff.mp hs with rfl | rfl | rfl | rfl <;> revert h <;> decide

variable {ms : List Lexeme}

theorem first_spelled (hne : ms ≠ []) (h : ∀ m ∈ ms.head?, Solid m) :
    ∀ c ∈ (spelled ms).head?, Text.isBlank c = false := by
  obtain ⟨m, ms, rfl⟩ := List.exists_cons_of_ne_nil hne
  have hm := h m rfl
  obtain ⟨c, cs, hchars⟩ := List.exists_cons_of_ne_nil hm.formed.ne_nil
  rw [spelled_cons, hchars]
  rintro d ⟨⟩
  exact hm.first c (by rw [hchars]; rfl)

theorem last_spelled (hne : ms ≠ []) (h : ∀ m ∈ ms.getLast?, Solid m) :
    ∀ c ∈ (spelled ms).getLast?, Text.isBlank c = false := by
  obtain ⟨init, m, rfl⟩ : ∃ init m, ms = init ++ [m] := ⟨_, _, (List.dropLast_concat_getLast hne).symm⟩
  have hm := h m (by simp)
  have hend : m.chars.getLast? = some (m.chars.getLast hm.formed.ne_nil) :=
    List.getLast?_eq_some_getLast _
  intro c hc
  rw [spelled_append, spelled_cons, List.getLast?_append] at hc
  simp only [spelled, List.flatMap_nil, List.append_nil, hend, Option.some_or] at hc
  exact hm.last c (hend ▸ hc)

theorem trim_spelled (hne : ms ≠ []) (hfirst : ∀ m ∈ ms.head?, Solid m) (hlast : ∀ m ∈ ms.getLast?, Solid m) :
    Text.trim (spelled ms) = spelled ms :=
  trim_of_ends (first_spelled hne hfirst) (last_spelled hne hlast)

end Slices

end Devicetree.Proofs
