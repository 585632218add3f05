import Devicetree.Graph.Cursor
import Devicetree.Proofs.PlacesAndOptions

namespace Devicetree.Proofs

/-- Of the fragments of the file, none starts before one that is processed earlier. -/
def StartInOrder (file : FileId) (ls : List Location) : Prop :=
  ls.Pairwise fun l m => l.file = file → m.file = file → l.span.start ≤ m.span.start

instance (file : FileId) (ls : List Location) : Decidable (StartInOrder file ls) :=
  inferInstanceAs (Decidable (ls.Pairwise _))

section Fragments
variable {file : FileId} {p q : Position} {l : Location} {ls : List Location} {best index : Nat}

theorem fragmentAt_other (h : l.file ≠ file) :
    Graph.fragmentAt file p best index (l :: ls) = Graph.fragmentAt file p best (index + 1) ls := by
  rw [Graph.fragmentAt, if_pos h]

theorem fragmentAt_around (h : l.file = file) (hin : l.span.contains p = true) :
    Graph.fragmentAt file p best index (l :: ls) = index := by
  rw [Graph.fragmentAt, if_neg (not_not.mpr h), if_pos hin]

/-- A fragment that does not contain the position is remembered if it starts before it. -/
theorem fragmentAt_apart (h : l.file = file) (hout : ¬ l.span.contains p = true) :
    Graph.fragmentAt file p best index (l :: ls) =
      Graph.fragmentAt file p (if l.span.start ≤ p then index else best) (index + 1) ls := by
  rw [Graph.fragmentAt, if_neg (not_not.mpr h), if_neg hout]

theorem le_fragmentAt (h : best ≤ index) : best ≤ Graph.fragmentAt file p best index ls := by
  induction ls generalizing best index with
  | nil => exact Nat.le_refl _
  | cons l ls ih =>
    by_cases hfile : l.file = file
    · by_cases hin : l.span.contains p = true
      · rw [fragmentAt_around hfile hin]
        exact h
      · rw [fragmentAt_apart hfile hin]
        split
        · exact Nat.le_trans h (ih (Nat.le_succ index))
        · exact ih (Nat.le_succ_of_le h)
    · rw [fragmentAt_other hfile]
      exact ih (Nat.le_succ_of_le h)

/-- Where no fragment of the file has started, none is found. -/
theorem fragmentAt_before (h : ∀ l ∈ ls, l.file = file → ¬ l.span.start ≤ p) :
    Graph.fragmentAt file p best index ls = best := by
  induction ls generalizing index with
  | nil => rfl
  | cons l ls ih =>
    have hrest : Graph.fragmentAt file p best (index + 1) ls = best :=
      ih fun m hm => h m (List.mem_cons_of_mem _ hm)
    by_cases hfile : l.file = file
    · have hstart := h l List.mem_cons_self hfile
      rw [fragmentAt_apart hfile fun hin => hstart (Span.contains_iff.mp hin).1, if_neg hstart]
      exact hrest
    · rw [fragmentAt_other hfile]
      exact hrest

/-- Two searches side by side, the second for a later position. It is never behind: the one thing that could set it
back is an earlier fragment that contains the later position only, and such a fragment starts between the two, so
that the first search has not come upon any fragment from there on. -/
theorem fragmentAt_mono (h : StartInOrder file ls) (hpq : p ≤ q) {best' : Nat} (hbest : best ≤ best')
    (hindex : best' ≤ index) : Graph.fragmentAt file p best index ls ≤ Graph.fragmentAt file q best' index ls := by
  induction ls generalizing best best' index with
  | nil => exact hbest
  | cons l ls ih =>
    obtain ⟨hfirst, hrest⟩ := List.pairwise_cons.mp h
    by_cases hfile : l.file = file
    · have hnext : ∀ {b b' : Nat}, b ≤ b' → b' ≤ index + 1 →
          Graph.fragmentAt file p b (index + 1) ls ≤ Graph.fragmentAt file q b' (index + 1) ls := ih hrest
      by_cases hinp : l.span.contains p = true
      · have hstart : l.span.start ≤ q := Std.le_trans (Span.contains_iff.mp hinp).1 hpq
        rw [fragmentAt_around hfile hinp]
        by_cases hinq : l.span.contains q = true
        · rw [fragmentAt_around hfile hinq]
        · rw [fragmentAt_apart hfile hinq, if_pos hstart]
          exact le_fragmentAt (Nat.le_succ index)
      · rw [fragmentAt_apart hfile hinp]
        by_cases hinq : l.span.contains q = true
        · -- it starts behind the first position, and so do all that follow
          have hstart : ¬ l.span.start ≤ p := fun hle =>
            hinp (Span.contains_iff.mpr ⟨hle, Std.le_trans hpq (Span.contains_iff.mp hinq).2⟩)
          rw [fragmentAt_around hfile hinq, if_neg hstart, fragmentAt_before]
          · exact Nat.le_trans hbest hindex
          · intro m hm hmfile hle
            exact hstart (Std.le_trans (hfirst m hm hfile hmfile) hle)
        · rw [fragmentAt_apart hfile hinq]
          by_cases hstartp : l.span.start ≤ p
          · rw [if_pos hstartp, if_pos (Std.le_trans hstartp hpq)]
            exact hnext (Nat.le_refl index) (Nat.le_succ index)
          · rw [if_neg hstartp]
            split
            · exact hnext (Nat.le_trans hbest hindex) (Nat.le_succ index)
            · exact hnext hbest (Nat.le_succ_of_le hindex)
    · rw [fragmentAt_other hfile, fragmentAt_other hfile]
      exact ih hrest hbest (Nat.le_succ_of_le hindex)

theorem orderOf_mono {g : Graph} (h : StartInOrder file g.fragments) (hpq : p ≤ q) :
    g.orderOf file p ≤ g.orderOf file q := by
  have hle := fragmentAt_mono h hpq (Nat.le_refl 0) (Nat.le_refl 0)
  rw [Order.le_def]
  rcases Nat.lt_or_eq_of_le hle with hlt | heq
  · exact .inl hlt
  · exact .inr ⟨heq, hpq⟩

end Fragments

/-- In a file whose fragments start in the order in which they are processed, however they touch, overlap or lie apart,
a later position stands for no earlier moment, and whatever directive is in scope stays in scope. -/
theorem scope_grows {config : BuildConfig} {fragments : List Fragment} {isCancelled : Nat → Bool} {g : Graph}
    (hg : Build.build config fragments isCancelled = .ok g) {file : FileId}
    (h : StartInOrder file (fragments.map Fragment.location)) {p q : Position} (hpq : p ≤ q) :
    g.orderOf file p ≤ g.orderOf file q ∧ ∀ d, g.scopeAt file p d = true → g.scopeAt file q d = true := by
  rw [← built_fragments hg] at h
  have hle := orderOf_mono h hpq
  refine ⟨hle, ?_⟩
  intro d hd
  exact decide_eq_true (Std.lt_of_lt_of_le (of_decide_eq_true hd) hle)

def interleaved : List Fragment :=
  [⟨⟨0⟩, .root [] [.child { name := .parse "uart", span := ⟨⟨1, 4⟩, ⟨3, 6⟩⟩ } []] ⟨⟨0, 0⟩, ⟨6, 2⟩⟩⟩,
    ⟨⟨1⟩, .root [] [.deleteProperty { name := "model", span := ⟨⟨8, 4⟩, ⟨8, 28⟩⟩ }] ⟨⟨0, 0⟩, ⟨9, 2⟩⟩⟩,
    ⟨⟨0⟩, .root [] [.deleteNode { target := .name (.parse "uart"), span := ⟨⟨5, 4⟩, ⟨5, 23⟩⟩ }] ⟨⟨4, 0⟩, ⟨8, 2⟩⟩⟩,
    ⟨⟨0⟩, .root [] [.child { name := .parse "spi", span := ⟨⟨13, 4⟩, ⟨14, 6⟩⟩ } []] ⟨⟨12, 0⟩, ⟨15, 2⟩⟩⟩]

/-- Behind the directive, but still in the first fragment, neither directive is in scope. From the gap before the last
fragment on both are. -/
theorem scope_grows_interleaved :
    ∃ g, Build.build {} interleaved (fun _ => false) = .ok g ∧
      StartInOrder ⟨0⟩ (interleaved.map Fragment.location) ∧ (⟨6, 0⟩ : Position) ≤ ⟨10, 0⟩ ∧
      (⟨10, 0⟩ : Position) ≤ ⟨13, 8⟩ ∧ g.orderOf ⟨0⟩ ⟨6, 0⟩ = ⟨0, ⟨6, 0⟩⟩ ∧
      g.orderOf ⟨0⟩ ⟨6, 0⟩ ≤ g.orderOf ⟨0⟩ ⟨10, 0⟩ ∧ g.orderOf ⟨0⟩ ⟨10, 0⟩ = ⟨2, ⟨10, 0⟩⟩ ∧
      (g.scopeAt ⟨0⟩ ⟨6, 0⟩ ⟨0⟩ = false ∧ g.scopeAt ⟨0⟩ ⟨6, 0⟩ ⟨1⟩ = false) ∧
      g.scopeAt ⟨0⟩ ⟨13, 8⟩ ⟨0⟩ = true ∧ g.scopeAt ⟨0⟩ ⟨13, 8⟩ ⟨1⟩ = true := by
  obtain ⟨g, h, hfirst, hgap, hout, hmodel, huart⟩ :
      ∃ g, Build.build {} interleaved (fun _ => false) = .ok g ∧ g.orderOf ⟨0⟩ ⟨6, 0⟩ = ⟨0, ⟨6, 0⟩⟩ ∧
        g.orderOf ⟨0⟩ ⟨10, 0⟩ = ⟨2, ⟨10, 0⟩⟩ ∧
        (g.scopeAt ⟨0⟩ ⟨6, 0⟩ ⟨0⟩ = false ∧ g.scopeAt ⟨0⟩ ⟨6, 0⟩ ⟨1⟩ = false) ∧
        g.scopeAt ⟨0⟩ ⟨10, 0⟩ ⟨0⟩ = true ∧ g.scopeAt ⟨0⟩ ⟨10, 0⟩ ⟨1⟩ = true := exists_built (by decide +kernel)
  have horder : StartInOrder ⟨0⟩ (interleaved.map Fragment.location) := by decide
  have hintoGap : (⟨6, 0⟩ : Position) ≤ ⟨10, 0⟩ := by decide
  have honward : (⟨10, 0⟩ : Position) ≤ ⟨13, 8⟩ := by decide
  have hlater := (scope_grows h horder honward).2
  exact ⟨g, h, horder, hintoGap, honward, hfirst, (scope_grows h horder hintoGap).1, hgap, hout, hlater _ hmodel,
    hlater _ huart⟩

end Devicetree.Proofs
