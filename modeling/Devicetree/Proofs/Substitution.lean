import Devicetree.CallExpr.Expand
import Devicetree.Proofs.TokenRules

namespace Devicetree.Proofs

def namesParameter (params : List String) (t : Token) : Bool :=
  decide (t.kind = .ident) && decide (t.text ∈ params)

def occurrences (params : List String) (body : String) : List Token :=
  (Token.tokenize body).filter (namesParameter params)

def ArgumentOf (params args : List String) (name arg : String) : Prop :=
  ∃ i, StandsFirst params name i ∧ args[i]? = some arg

/-- The characters from byte `start` on, with other texts in the places of some tokens. -/
def splice (cs : List Char) (fill : Token → String) (start : Nat) : List Token → List Char
  | [] => Text.dropBytes start cs
  | t :: ts => Text.slice cs start t.offset ++ (fill t).toList ++ splice cs fill t.stop ts

section Arguments
variable {params args : List String} {name arg : String} {t : Token}

theorem replacement_eq_some_iff :
    replacement? params args t = some arg ↔ t.kind = .ident ∧ ArgumentOf params args t.text arg := by
  rw [replacement?]
  split
  · rename_i hkind
    simp only [Option.bind_eq_some_iff, standsFirst_iff, ArgumentOf, hkind, true_and]
  · rename_i hkind
    simp [hkind]

theorem exists_argument (h : params.length = args.length) (hname : name ∈ params) :
    ∃ arg, ArgumentOf params args name arg := by
  obtain ⟨before, after, rfl, hfirst⟩ := List.eq_append_cons_of_mem hname
  have hlt : before.length < args.length := by
    rw [← h]
    simp
  refine ⟨args[before.length], before.length, ⟨by simp, ?_⟩, List.getElem?_eq_getElem hlt⟩
  intro j hj heq
  rw [List.getElem?_append_left hj] at heq
  exact hfirst (List.mem_of_getElem? heq)

theorem ArgumentOf.mem (h : ArgumentOf params args name arg) : name ∈ params := by
  obtain ⟨i, hi, -⟩ := h
  exact List.mem_of_getElem? hi.here

theorem ArgumentOf.unique {arg' : String} (h : ArgumentOf params args name arg) (h' : ArgumentOf params args name arg') :
    arg = arg' := by
  obtain ⟨i, hi, harg⟩ := h
  obtain ⟨j, hj, harg'⟩ := h'
  obtain rfl := hi.unique hj
  exact Option.some.inj (harg.symm.trans harg')

theorem ArgumentOf.self (h : ArgumentOf params params name arg) : arg = name := by
  obtain ⟨i, hi, harg⟩ := h
  exact Option.some.inj (harg.symm.trans hi.here)

end Arguments

section Splices
variable {fill : Token → String} {cut : Token → Bool}

/-- What lies between the end of the last cut and the next lexeme grows by each lexeme that is not cut. -/
theorem splice_lay (done gap : List Char) (ls : List Lexeme)
    (h : ∀ t ∈ lay (Text.byteLength (done ++ gap)) ls, cut t = false → fill t = t.text) :
    splice (done ++ gap ++ spelled ls) fill (Text.byteLength done)
        ((lay (Text.byteLength (done ++ gap)) ls).filter cut) =
      gap ++ (lay (Text.byteLength (done ++ gap)) ls).flatMap fun t => (fill t).toList := by
  induction ls generalizing done gap with
  | nil => simp [lay, splice, spelled, dropBytes_append]
  | cons l ls ih =>
    let t : Token := ⟨l.kind, String.ofList l.chars, Text.byteLength (done ++ gap)⟩
    have hlay : lay (Text.byteLength (done ++ gap)) (l :: ls) =
        t :: lay (Text.byteLength (done ++ gap ++ l.chars)) ls := by
      rw [lay, byteLength_append (done ++ gap)]
    have htext : done ++ gap ++ spelled (l :: ls) = done ++ gap ++ l.chars ++ spelled ls := by
      rw [spelled_cons, List.append_assoc (done ++ gap)]
    rw [hlay] at h ⊢
    rw [htext]
    have hrest := fun u hu => h u (List.mem_cons_of_mem t hu)
    cases hcut : cut t with
    | true =>
      have hgap : Text.slice (done ++ gap ++ l.chars ++ spelled ls) (Text.byteLength done) t.offset = gap := by
        have hslice := slice_append done gap (l.chars ++ spelled ls)
        rw [← byteLength_append, ← List.append_assoc (done ++ gap)] at hslice
        exact hslice
      have hstop : t.stop = Text.byteLength (done ++ gap ++ l.chars) := by
        rw [Token.stop, String.toList_ofList, byteLength_append (done ++ gap)]
      have htail := ih (done ++ gap ++ l.chars) [] (by simpa using hrest)
      rw [List.append_nil, List.nil_append, ← hstop] at htail
      rw [List.filter_cons_of_pos hcut, splice, hgap, ← hstop, htail, List.flatMap_cons, List.append_assoc]
    | false =>
      have hkept : (fill t).toList = l.chars := by rw [h t List.mem_cons_self hcut, String.toList_ofList]
      have htail := ih done (gap ++ l.chars) (by simpa using hrest)
      rw [← List.append_assoc done] at htail
      rw [List.filter_cons_of_neg (by simp [hcut]), htail, List.flatMap_cons, hkept, List.append_assoc]

/-- The tokens of a body, each filled, are the body with the tokens that are cut filled and the rest as it is. -/
theorem splice_scan (body : String) (h : ∀ t ∈ Token.scan body, cut t = false → fill t = t.text) :
    splice body.toList fill 0 ((Token.scan body).filter cut) =
      (String.join ((Token.scan body).map fill)).toList := by
  obtain ⟨ls, hls⟩ := exists_lexes body.toList
  rw [hls.scanned] at h ⊢
  have hsplice := splice_lay [] [] ls h
  rw [List.append_nil, List.nil_append, List.nil_append, ← hls.spelled] at hsplice
  rw [String.toList_join, List.flatMap_map]
  exact hsplice

end Splices

section Occurrences
variable {params args : List String} {body : String} {t : Token}

theorem occurrences_eq (params : List String) (body : String) :
    occurrences params body = (Token.scan body).filter (namesParameter params) := by
  rw [occurrences, Token.tokenize, List.filter_filter]
  apply List.filter_congr
  intro t _
  cases hkind : t.kind <;> simp [namesParameter, hkind, Token.Kind.isTrivia]

theorem occurrence_cut (h : t ∈ occurrences params body) : CutFrom body t := by
  obtain ⟨ls, hls⟩ := exists_lexes body.toList
  rw [occurrences_eq, hls.scanned] at h
  exact hls.covers.cut t (List.mem_of_mem_filter h)

def filling (params args : List String) (t : Token) : String := (replacement? params args t).getD t.text

theorem filling_occurrence (hlength : params.length = args.length) (h : t ∈ occurrences params body) :
    ArgumentOf params args t.text (filling params args t) := by
  obtain ⟨hkind, hname⟩ := Bool.and_eq_true_iff.mp (List.mem_filter.mp h).2
  obtain ⟨arg, harg⟩ := exists_argument hlength (of_decide_eq_true hname)
  rw [filling, replacement_eq_some_iff.mpr ⟨of_decide_eq_true hkind, harg⟩]
  exact harg

theorem filling_other (h : namesParameter params t = false) : filling params args t = t.text := by
  rw [filling]
  cases hr : replacement? params args t with
  | none => rfl
  | some arg =>
    obtain ⟨hkind, harg⟩ := replacement_eq_some_iff.mp hr
    simp [namesParameter, hkind, harg.mem] at h

theorem filling_self (params : List String) (t : Token) : filling params params t = t.text := by
  rw [filling]
  cases hr : replacement? params params t with
  | none => rfl
  | some arg => exact (replacement_eq_some_iff.mp hr).2.self

theorem substituteFrom_eq (body : List Char) (params args : List String) (out : List Char) (last : Nat)
    (ts : List Token) :
    substituteFrom body params args out last ts = out ++ splice body (filling params args) last ts := by
  induction ts generalizing out last with
  | nil => rfl
  | cons t ts ih =>
    rw [substituteFrom, ih, splice, filling]
    simp

/-- Substitution fills every token of the body, the blanks and comments among them. -/
theorem substitute_eq (body : String) (params args : List String) :
    substitute body params args = String.join ((Token.scan body).map (filling params args)) := by
  rw [substitute, substituteFrom_eq, List.nil_append, Token.tokenize, splice_scan body, String.ofList_toList]
  intro t _ htrivia
  refine filling_other ?_
  cases hkind : t.kind <;> simp_all [namesParameter, Token.Kind.isTrivia]

theorem join_scan (body : String) : String.join ((Token.scan body).map Token.text) = body := by
  obtain ⟨ls, hls⟩ := exists_lexes body.toList
  rw [hls.scanned]
  exact hls.covers.joined

end Occurrences

/-- The places of parameters stand in the body one after the other, and cutting them out and putting them back gives
the body. Substitution puts into each place the argument of the first parameter of its name instead, and it takes all
that lies before, between and behind them from the body as it is. The places do not depend on the arguments, so that
no argument is looked at again, and parameters that stand for themselves give the body. -/
theorem substitute_in_place {params args : List String} (h : params.length = args.length) (body : String) :
    Spaced (occurrences params body) ∧ (∀ t ∈ occurrences params body, CutFrom body t) ∧
      splice body.toList Token.text 0 (occurrences params body) = body.toList ∧
      (∃ fill : Token → String, (∀ t ∈ occurrences params body, ArgumentOf params args t.text (fill t)) ∧
        (substitute body params args).toList = splice body.toList fill 0 (occurrences params body)) ∧
      substitute body params params = body := by
  refine ⟨(tokenize_spaced body).sublist List.filter_sublist, fun t => occurrence_cut, ?_, ?_, ?_⟩
  · rw [occurrences_eq, splice_scan body fun _ _ _ => rfl, join_scan]
  · refine ⟨filling params args, fun t => filling_occurrence h, ?_⟩
    rw [occurrences_eq, splice_scan body fun _ _ => filling_other, substitute_eq]
  · have hself : filling params params = Token.text := funext (filling_self params)
    calc substitute body params params = String.join ((Token.scan body).map (filling params params)) :=
          substitute_eq body params params
      _ = String.join ((Token.scan body).map Token.text) := by rw [hself]
      _ = body := join_scan body

/-- A body with names of parameters in comments, strings, characters, numbers and longer identifiers. -/
def crossed : String := "a /* b: é a */ + ab(b, \"a\", 'b', 1b) // a"

/-- The parameters are exchanged in two places only, and the argument that mentions the other parameter stays as it is.
The second parameter named `a` has no part in it. -/
theorem substitute_in_place_crossed :
    ["a", "b", "a"].length = ["b + 1", "a", "z"].length ∧
      occurrences ["a", "b", "a"] crossed = [⟨.ident, "a", 0⟩, ⟨.ident, "b", 21⟩] ∧
      substitute crossed ["a", "b", "a"] ["b + 1", "a", "z"] =
        "b + 1 /* b: é a */ + ab(a, \"a\", 'b', 1b) // a" ∧
      substitute crossed ["a", "b", "a"] ["a", "b", "a"] = crossed := by
  have hlength : ["a", "b", "a"].length = ["b + 1", "a", "z"].length := rfl
  have hplaces : occurrences ["a", "b", "a"] crossed = [⟨.ident, "a", 0⟩, ⟨.ident, "b", 21⟩] := by decide +kernel
  obtain ⟨-, -, -, ⟨fill, hfill, hresult⟩, hself⟩ := substitute_in_place hlength crossed
  rw [hplaces] at hfill hresult
  have ha : fill ⟨.ident, "a", 0⟩ = "b + 1" :=
    (hfill _ (by simp)).unique ⟨0, ⟨rfl, by simp⟩, rfl⟩
  have hb : fill ⟨.ident, "b", 21⟩ = "a" := (hfill _ (by simp)).unique ⟨1, ⟨rfl, by simp⟩, rfl⟩
  refine ⟨hlength, hplaces, ?_, hself⟩
  rw [← String.toList_inj, hresult, splice, splice, splice, ha, hb]
  decide +kernel

end Devicetree.Proofs
