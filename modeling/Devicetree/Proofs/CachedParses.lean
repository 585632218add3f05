import Mathlib.Data.List.Induction
import Mathlib.Data.Set.Function
import Devicetree.ParseCache

namespace Devicetree.Proofs

variable {hasher : Hasher} {α : Type}

inductive CacheOp where
  | parse (file : FileId) (content : String)
  | invalidate (file : FileId)
  | clear
deriving DecidableEq, Repr

namespace CacheOp

def content? : CacheOp → Option String
  | parse _ content => some content
  | invalidate _ | clear => none

/-- After the operation the cache knows of the file only what the operation itself leaves. -/
def Concerns (file : FileId) : CacheOp → Prop
  | parse f _ | invalidate f => f = file
  | clear => True

instance (file : FileId) (op : CacheOp) : Decidable (op.Concerns file) :=
  match op with
  | parse f _ | invalidate f => inferInstanceAs (Decidable (f = file))
  | clear => .isTrue trivial

end CacheOp

/-- A cache together with the contents its parser was run on, in order. -/
structure InUse (hasher : Hasher) (α : Type) where
  cache : ParseCache hasher α := {}
  parsed : List String := []

def recording (f : String → α) (content : String) : StateM (List String) α := do
  modify (· ++ [content])
  return f content

namespace InUse

def ask (f : String → α) (s : InUse hasher α) (file : FileId) (content : String) : α × InUse hasher α :=
  let ((value, cache), parsed) := (s.cache.getOrParse file content (recording f)).run s.parsed
  (value, ⟨cache, parsed⟩)

def step (f : String → α) (s : InUse hasher α) : CacheOp → InUse hasher α
  | .parse file content => (s.ask f file content).2
  | .invalidate file => { s with cache := (s.cache.invalidate file).2 }
  | .clear => { s with cache := s.cache.clear }

def after (hasher : Hasher) (f : String → α) (ops : List CacheOp) : InUse hasher α := ops.foldl (step f) {}

@[simp] theorem after_nil (f : String → α) : after hasher f [] = {} := rfl

@[simp] theorem after_concat (f : String → α) (ops : List CacheOp) (op : CacheOp) :
    after hasher f (ops ++ [op]) = (after hasher f ops).step f op := by
  simp [after]

/-- The outcome was known: the hit is counted and the parser not run. -/
structure Hit (s t : InUse hasher α) : Prop where
  hits : t.cache.hits = s.cache.hits + 1
  misses : t.cache.misses = s.cache.misses
  parsed : t.parsed = s.parsed

/-- The outcome was not known: the miss is counted and the parser run once, on the content. -/
structure Miss (content : String) (s t : InUse hasher α) : Prop where
  hits : t.cache.hits = s.cache.hits
  misses : t.cache.misses = s.cache.misses + 1
  parsed : t.parsed = s.parsed ++ [content]

theorem Hit.not_miss {s t : InUse hasher α} {content : String} (h : Hit s t) : ¬ Miss content s t := by
  intro hm
  have := h.hits
  have := hm.hits
  omega

/-- All that asking can do: a known outcome is given and the entries stay, an unknown one is parsed and entered. -/
theorem ask_cases (f : String → α) (s : InUse hasher α) (file : FileId) (content : String) :
    (∃ value, s.cache.get? file content = some value ∧
      s.ask f file content = (value, { s with cache := { s.cache with hits := s.cache.hits + 1 } })) ∨
    (s.cache.get? file content = none ∧
      s.ask f file content = (f content,
        ⟨{ s.cache.insert file content (f content) with misses := s.cache.misses + 1 },
          s.parsed ++ [content]⟩)) := by
  unfold ask ParseCache.getOrParse
  cases hc : s.cache.get? file content with
  | some value => exact .inl ⟨value, rfl, rfl⟩
  | none => exact .inr ⟨rfl, rfl⟩

/-- A call is a hit where the cache answers and a miss where it does not. -/
theorem hit_or_miss (f : String → α) (s : InUse hasher α) (file : FileId) (content : String) :
    ((s.cache.get? file content).isSome ∧ Hit s (s.ask f file content).2) ∨
    (¬ (s.cache.get? file content).isSome ∧ Miss content s (s.ask f file content).2) := by
  rcases ask_cases f s file content with ⟨value, hc, ha⟩ | ⟨hc, ha⟩
  · rw [hc, ha]
    exact .inl ⟨rfl, rfl, rfl, rfl⟩
  · rw [hc, ha]
    exact .inr ⟨nofun, rfl, rfl, rfl⟩

structure Counted (calls : Nat) (s : InUse hasher α) : Prop where
  calls : s.cache.hits + s.cache.misses = calls
  runs : s.parsed.length = s.cache.misses

theorem Counted.ask {calls : Nat} {s : InUse hasher α} (h : Counted calls s) (f : String → α) (file : FileId)
    (content : String) : Counted (calls + 1) (s.ask f file content).2 := by
  obtain ⟨hcalls, hruns⟩ := h
  rcases hit_or_miss f s file content with ⟨-, ha⟩ | ⟨-, ha⟩
  · exact ⟨by rw [ha.hits, ha.misses]; omega, by rw [ha.parsed, ha.misses, hruns]⟩
  · exact ⟨by rw [ha.hits, ha.misses]; omega, by rw [ha.parsed, ha.misses, List.length_append, hruns]; rfl⟩

theorem Counted.step {calls : Nat} {s : InUse hasher α} (h : Counted calls s) (f : String → α) (op : CacheOp) :
    Counted (calls + if op.content?.isSome then 1 else 0) (s.step f op) := by
  cases op with
  | parse file content => exact h.ask f file content
  | invalidate file => exact ⟨h.calls, h.runs⟩
  | clear => exact ⟨h.calls, h.runs⟩

theorem after_counted (f : String → α) (ops : List CacheOp) :
    Counted (ops.countP (·.content?.isSome)) (after hasher f ops) := by
  induction ops using List.reverseRecOn with
  | nil => exact ⟨rfl, rfl⟩
  | append_singleton ops op ih => simpa [List.countP_append, List.countP_singleton] using ih.step f op

end InUse

/-- The last call for the file asked for the content, and the file was not forgotten since. -/
def LastAsked (ops : List CacheOp) (file : FileId) (content : String) : Prop :=
  ∃ older newer, ops = older ++ .parse file content :: newer ∧ ∀ op ∈ newer, ¬ op.Concerns file

theorem lastAsked_nil (file : FileId) (content : String) : ¬ LastAsked [] file content := by
  rintro ⟨older, newer, h, -⟩
  simp at h

theorem lastAsked_concat {ops : List CacheOp} {op : CacheOp} {file : FileId} {content : String} :
    LastAsked (ops ++ [op]) file content ↔
      op = .parse file content ∨ (¬ op.Concerns file ∧ LastAsked ops file content) := by
  constructor
  · rintro ⟨older, newer, h, hn⟩
    rcases List.eq_nil_or_concat newer with rfl | ⟨newer, last, rfl⟩
    · exact .inl (by simpa using congrArg List.getLast? h)
    · rw [List.concat_eq_append] at h hn
      rw [← List.cons_append, ← List.append_assoc, List.append_singleton_inj] at h
      obtain ⟨rfl, rfl⟩ := h
      exact .inr ⟨hn op (by simp), older, newer, rfl, fun o ho => hn o (by simp [ho])⟩
  · rintro (rfl | ⟨hc, older, newer, rfl, hn⟩)
    · exact ⟨ops, [], rfl, by simp⟩
    · refine ⟨older, newer ++ [op], by simp, ?_⟩
      intro o ho
      rcases List.mem_append.mp ho with ho | ho
      · exact hn o ho
      · rwa [List.mem_singleton.mp ho]

def asked (ops : List CacheOp) : List String := ops.filterMap CacheOp.content?

theorem LastAsked.mem_asked {ops : List CacheOp} {file : FileId} {content : String}
    (h : LastAsked ops file content) : content ∈ asked ops := by
  obtain ⟨older, newer, rfl, -⟩ := h
  simp [asked, CacheOp.content?]

def ToldApart (hasher : Hasher) (contents : List String) : Prop :=
  Set.InjOn hasher.digest {content | content ∈ contents}

theorem ToldApart.before {older newer : List CacheOp} (h : ToldApart hasher (asked (older ++ newer))) :
    ToldApart hasher (asked older) := by
  refine h.mono fun content hc => ?_
  rw [asked, List.filterMap_append]
  exact List.mem_append_left _ hc

theorem ToldApart.at_call {older newer : List CacheOp} {file : FileId} {content : String}
    (h : ToldApart hasher (asked (older ++ .parse file content :: newer))) : ToldApart hasher (content :: asked older) := by
  refine h.mono fun other ho => ?_
  rw [asked, List.filterMap_append]
  rcases List.mem_cons.mp ho with rfl | ho
  · exact List.mem_append_right _ List.mem_cons_self
  · exact List.mem_append_left _ ho

/-- The cache holds for each file the outcome of the content that was asked for last, and nothing else. -/
def Keeps (f : String → α) (ops : List CacheOp) (c : ParseCache hasher α) : Prop :=
  ∀ file entry, c.entries.get? file = some entry ↔
    ∃ content, LastAsked ops file content ∧ entry = (hasher.digest content, f content)

namespace Keeps

variable {f : String → α} {ops : List CacheOp} {c : ParseCache hasher α}

/-- Where the digests tell contents apart, the cache answers exactly the content that was asked for last. -/
theorem get?_eq_some_iff (h : Keeps f ops c) {file : FileId} {content : String}
    (hd : ToldApart hasher (content :: asked ops)) {value : α} :
    c.get? file content = some value ↔ LastAsked ops file content ∧ value = f content := by
  constructor
  · intro hg
    unfold ParseCache.get? at hg
    split at hg
    · rename_i digest v he
      obtain ⟨content', hl, heq⟩ := (h file _).mp he
      obtain ⟨rfl, rfl⟩ := Prod.mk.inj heq
      split at hg
      · rename_i hsame
        have : content' = content :=
          hd (List.mem_cons_of_mem _ hl.mem_asked) List.mem_cons_self hsame
        subst this
        exact ⟨hl, (Option.some.inj hg).symm⟩
      · cases hg
    · cases hg
  · rintro ⟨hl, rfl⟩
    simp [ParseCache.get?, (h file _).mpr ⟨content, hl, rfl⟩]

theorem isSome_get?_iff (h : Keeps f ops c) {file : FileId} {content : String}
    (hd : ToldApart hasher (content :: asked ops)) :
    (c.get? file content).isSome ↔ LastAsked ops file content := by
  simp [Option.isSome_iff_exists, h.get?_eq_some_iff hd]

/-- What the last operation leaves of a file it concerns is all that the cache knows of it; of the other files it
knows what it knew. -/
theorem concat (h : Keeps f ops c) {op : CacheOp} {c' : ParseCache hasher α}
    (hother : ∀ file, ¬ op.Concerns file → c'.entries.get? file = c.entries.get? file)
    (hthis : ∀ file, op.Concerns file → c'.entries.get? file =
      op.content?.map fun content => (hasher.digest content, f content)) :
    Keeps f (ops ++ [op]) c' := by
  intro file entry
  simp only [lastAsked_concat]
  by_cases hc : op.Concerns file
  · rw [hthis file hc]
    cases op with
    | parse g content =>
      obtain rfl : g = file := hc
      simp [CacheOp.content?, CacheOp.Concerns, eq_comm]
    | invalidate g => simp [CacheOp.content?, hc]
    | clear => simp [CacheOp.content?, CacheOp.Concerns]
  · have hne : ∀ content, op ≠ .parse file content := by
      rintro content rfl
      exact hc rfl
    simp [hother file hc, h file entry, hc, hne]

theorem ask_value {s : InUse hasher α} (h : Keeps f ops s.cache) {file : FileId} {content : String}
    (hd : ToldApart hasher (content :: asked ops)) : (s.ask f file content).1 = f content := by
  rcases InUse.ask_cases f s file content with ⟨value, hg, ha⟩ | ⟨-, ha⟩
  · rw [ha]
    exact ((h.get?_eq_some_iff hd).mp hg).2
  · rw [ha]

theorem ask {s : InUse hasher α} (h : Keeps f ops s.cache) {file : FileId} {content : String}
    (hd : ToldApart hasher (content :: asked ops)) :
    Keeps f (ops ++ [.parse file content]) (s.ask f file content).2.cache := by
  rcases InUse.ask_cases f s file content with ⟨value, hg, ha⟩ | ⟨-, ha⟩
  · -- A hit enters nothing: the entry of the file is the one that a parse of this content would make.
    obtain ⟨hl, -⟩ := (h.get?_eq_some_iff hd).mp hg
    rw [ha]
    refine h.concat (fun _ _ => rfl) ?_
    rintro g (rfl : file = g)
    exact (h file _).mpr ⟨content, hl, rfl⟩
  · rw [ha]
    refine h.concat ?_ ?_
    · intro g hg
      have hne : file ≠ g := hg
      simp [ParseCache.insert, hne]
    · rintro g (rfl : file = g)
      simp [ParseCache.insert, CacheOp.content?]

theorem step {s : InUse hasher α} (h : Keeps f ops s.cache) {op : CacheOp} (hd : ToldApart hasher (asked (ops ++ [op]))) :
    Keeps f (ops ++ [op]) (s.step f op).cache := by
  cases op with
  | parse file content => exact h.ask hd.at_call
  | invalidate file =>
    refine h.concat ?_ ?_
    · intro g hg
      have hne : file ≠ g := hg
      simp [InUse.step, ParseCache.invalidate, hne]
    · rintro g (rfl : file = g)
      simp [InUse.step, ParseCache.invalidate, CacheOp.content?]
  | clear =>
    refine h.concat ?_ ?_
    · intro g hg
      exact absurd trivial hg
    · intro g _
      simp [InUse.step, ParseCache.clear, CacheOp.content?]

end Keeps

theorem after_keeps (f : String → α) {ops : List CacheOp} (hd : ToldApart hasher (asked ops)) :
    Keeps f ops (InUse.after hasher f ops).cache := by
  induction ops using List.reverseRecOn with
  | nil =>
    intro file entry
    simp [lastAsked_nil]
  | append_singleton ops op ih =>
    rw [InUse.after_concat]
    exact (ih hd.before).step hd

/-- Every call gives what the parser gives. It is a hit just where the last call for the file asked for the same
content and the file was not forgotten since; the counters tell the calls and the runs of the parser. -/
theorem asking_is_parsing (hasher : Hasher) (f : String → α) (ops : List CacheOp) (hd : ToldApart hasher (asked ops)) :
    (∀ older file content newer, ops = older ++ .parse file content :: newer →
      let before := InUse.after hasher f older
      let answer := before.ask f file content
      answer.1 = f content ∧ (before.Hit answer.2 ↔ LastAsked older file content) ∧
        (before.Miss content answer.2 ↔ ¬ LastAsked older file content)) ∧
    let done := InUse.after hasher f ops
    done.cache.hits + done.cache.misses = ops.countP (·.content?.isSome) ∧
      done.parsed.length = done.cache.misses := by
  refine ⟨?_, (InUse.after_counted f ops).calls, (InUse.after_counted f ops).runs⟩
  rintro older file content newer rfl
  have hd' : ToldApart hasher (content :: asked older) := hd.at_call
  have hk : Keeps f older (InUse.after hasher f older).cache := after_keeps f hd.before
  refine ⟨hk.ask_value hd', ?_⟩
  have hcall := InUse.hit_or_miss f (InUse.after hasher f older) file content
  rw [hk.isSome_get?_iff hd'] at hcall
  rcases hcall with ⟨hl, hit⟩ | ⟨hl, hmiss⟩
  · exact ⟨iff_of_true hit hl, iff_of_false hit.not_miss (not_not_intro hl)⟩
  · exact ⟨iff_of_false (fun hit => hit.not_miss hmiss) hl, iff_of_true hmiss hl⟩

/-- Two files that share a content, an edit and its undoing, a file that is forgotten and a cache that is cleared. -/
def edits : List CacheOp :=
  let board : FileId := ⟨1⟩
  let soc : FileId := ⟨2⟩
  [.parse board "/ {};", .parse soc "/ {};", .parse board "/ {};", .parse board "", .parse board "/ {};",
    .invalidate soc, .parse board "/ {};", .parse soc "/ {};", .clear, .parse board "/ {};"]

/-- A hasher for the two contents. -/
def sampleHasher : Hasher where
  State := List UInt8
  start := []
  write bytes more := bytes ++ more
  writeNumber bytes _ := bytes
  finish bytes := if bytes = [] then 12721339591675129195 else 12442592554502441514

theorem asking_is_parsing_edits : ToldApart sampleHasher (asked edits) ∧
    ((InUse.after sampleHasher String.length (edits.take 4)).ask String.length ⟨1⟩ "/ {};").1 = 5 ∧
    (InUse.after sampleHasher String.length edits).cache.hits = 2 ∧
    (InUse.after sampleHasher String.length edits).cache.misses = 6 ∧
    (InUse.after sampleHasher String.length edits).parsed.length = 6 := by
  have hd : ToldApart sampleHasher (asked edits) := by
    have hne : sampleHasher.digest "/ {};" ≠ sampleHasher.digest "" := by decide +kernel
    intro x hx y hy h
    simp only [asked, edits, CacheOp.content?, List.filterMap_cons, List.filterMap_nil, Set.mem_ofPred_eq,
      List.mem_cons, List.not_mem_nil, or_false] at hx hy
    grind
  obtain ⟨hcalls, -, hruns⟩ := asking_is_parsing sampleHasher String.length edits hd
  have hmisses : (InUse.after sampleHasher String.length edits).cache.misses = 6 := by decide +kernel
  exact ⟨hd, (hcalls (edits.take 4) ⟨1⟩ "/ {};" (edits.drop 5) rfl).1, by decide +kernel, hmisses,
    hruns.trans hmisses⟩

end Devicetree.Proofs
