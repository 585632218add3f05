namespace Devicetree

/-- A finite map whose entries stand in insertion order. -/
structure Table (κ β : Type) where
  entries : List (κ × β) := []
deriving Repr

namespace Table

variable {κ β : Type} [DecidableEq κ]

instance : Inhabited (Table κ β) := ⟨{}⟩

/-- The value of the first entry of `k`. -/
def find (k : κ) : List (κ × β) → Option β
  | [] => none
  | (k', v) :: es => if k' = k then some v else find k es

/-- Writes `v` into the entry of `k`, or a new entry at the end. -/
def put (k : κ) (v : β) : List (κ × β) → List (κ × β)
  | [] => [(k, v)]
  | (k', v') :: es => if k' = k then (k, v) :: es else (k', v') :: put k v es

def get? (t : Table κ β) (k : κ) : Option β := find k t.entries

def contains (t : Table κ β) (k : κ) : Bool := (t.get? k).isSome

def insert (t : Table κ β) (k : κ) (v : β) : Table κ β := ⟨put k v t.entries⟩

def erase (t : Table κ β) (k : κ) : Table κ β :=
  ⟨t.entries.filter fun e => !decide (e.1 = k)⟩

def ofList (es : List (κ × β)) : Table κ β :=
  es.foldl (fun t e => t.insert e.1 e.2) {}

def keys (t : Table κ β) : List κ := t.entries.map (·.1)

def values (t : Table κ β) : List β := t.entries.map (·.2)

def size (t : Table κ β) : Nat := t.entries.length

def isEmpty (t : Table κ β) : Bool := t.entries.isEmpty

@[simp] theorem get?_empty (k : κ) : ({} : Table κ β).get? k = none := rfl

theorem find_put (k k' : κ) (v : β) (es : List (κ × β)) :
    find k' (put k v es) = if k = k' then some v else find k' es := by
  induction es with
  | nil => simp [put, find]
  | cons e es ih =>
    obtain ⟨x, w⟩ := e
    by_cases hx : x = k
    · subst hx
      by_cases hk : x = k' <;> simp [put, find, hk]
    · by_cases hk : x = k'
      · subst hk
        simp [put, find, hx, Ne.symm hx]
      · simp [put, find, hx, hk, ih]

@[simp] theorem get?_insert (t : Table κ β) (k k' : κ) (v : β) :
    (t.insert k v).get? k' = if k = k' then some v else t.get? k' :=
  find_put k k' v t.entries

@[simp] theorem get?_erase (t : Table κ β) (k k' : κ) :
    (t.erase k).get? k' = if k = k' then none else t.get? k' := by
  obtain ⟨es⟩ := t
  simp only [erase, get?]
  induction es with
  | nil => simp [find]
  | cons e es ih =>
    obtain ⟨x, w⟩ := e
    by_cases hx : x = k
    · subst hx
      by_cases hk : x = k' <;> simp_all [find]
    · by_cases hk : x = k'
      · subst hk
        simp [find, hx, Ne.symm hx]
      · simp [find, hx, hk, ih]

theorem mem_of_find {k : κ} {v : β} {es : List (κ × β)} (h : find k es = some v) : (k, v) ∈ es := by
  induction es with
  | nil => simp [find] at h
  | cons e es ih =>
    obtain ⟨x, w⟩ := e
    simp only [find] at h
    split at h
    · simp_all
    · exact List.mem_cons_of_mem _ (ih h)

theorem find_of_mem {k : κ} {v : β} {es : List (κ × β)} (hn : (es.map (·.1)).Nodup)
    (h : (k, v) ∈ es) : find k es = some v := by
  induction es with
  | nil => simp at h
  | cons e es ih =>
    obtain ⟨x, w⟩ := e
    simp only [List.map_cons, List.nodup_cons] at hn
    rcases List.mem_cons.mp h with he | hm
    · simp_all [find]
    · have hx : x ≠ k := by
        rintro rfl
        exact hn.1 (List.mem_map.mpr ⟨_, hm, rfl⟩)
      simp [find, hx, ih hn.2 hm]

theorem ne_of_find_none {k : κ} {es : List (κ × β)} (h : find k es = none) : ∀ e ∈ es, e.1 ≠ k := by
  induction es with
  | nil => simp
  | cons e es ih =>
    obtain ⟨x, w⟩ := e
    simp only [find] at h
    split at h
    · cases h
    · rename_i hx
      intro e he
      rcases List.mem_cons.mp he with rfl | hm
      · exact hx
      · exact ih h e hm

theorem mem_put {k : κ} {v : β} {es : List (κ × β)} {e : κ × β} (h : e ∈ put k v es) :
    e = (k, v) ∨ e ∈ es := by
  induction es with
  | nil => simpa [put] using h
  | cons x es ih =>
    simp only [put] at h
    split at h
    · rcases List.mem_cons.mp h with he | hm
      · exact Or.inl he
      · exact Or.inr (List.mem_cons_of_mem _ hm)
    · rcases List.mem_cons.mp h with he | hm
      · exact Or.inr (by simp [he])
      · exact (ih hm).imp id (List.mem_cons_of_mem _)

theorem keys_put (k : κ) (v : β) (es : List (κ × β)) :
    (put k v es).map (·.1) =
      if k ∈ es.map (·.1) then es.map (·.1) else es.map (·.1) ++ [k] := by
  induction es with
  | nil => simp [put]
  | cons e es ih =>
    obtain ⟨x, w⟩ := e
    by_cases hx : x = k
    · simp [put, hx]
    · simp only [put, if_neg hx, List.map_cons, ih, List.mem_cons, Ne.symm hx, false_or]
      split <;> simp

/-- Where no key stands twice, writing rewrites the entry of the key or adds one at the end. -/
theorem put_eq {es : List (κ × β)} (hn : (es.map (·.1)).Nodup) (k : κ) (v : β) :
    put k v es =
      if es.any fun e => decide (e.1 = k) then es.map fun e => if e.1 = k then (k, v) else e
      else es ++ [(k, v)] := by
  induction es with
  | nil => simp [put]
  | cons e es ih =>
    obtain ⟨x, w⟩ := e
    simp only [List.map_cons, List.nodup_cons] at hn
    by_cases hx : x = k
    · subst hx
      have hrest : es.map (fun e => if e.1 = x then (x, v) else e) = es := by
        refine (List.map_congr_left fun e he => ?_).trans (List.map_id es)
        rw [if_neg]
        · rfl
        · rintro rfl
          exact hn.1 (List.mem_map.mpr ⟨e, he, rfl⟩)
      simp [put, hrest]
    · simp only [put, if_neg hx, ih hn.2, List.any_cons, decide_eq_false hx, Bool.false_or]
      split <;> simp [hx]

/-- Where no key stands twice, the entries are what lookups find. -/
theorem mem_entries_iff {t : Table κ β} (hn : t.keys.Nodup) {k : κ} {v : β} :
    (k, v) ∈ t.entries ↔ t.get? k = some v :=
  ⟨find_of_mem hn, mem_of_find⟩

theorem nodup_keys_insert {t : Table κ β} (hn : t.keys.Nodup) (k : κ) (v : β) :
    (t.insert k v).keys.Nodup := by
  unfold keys at hn
  simp only [keys, insert, keys_put]
  split
  · exact hn
  · rename_i hk
    refine List.nodup_append.mpr ⟨hn, by simp, ?_⟩
    intro x hx y hy he
    rw [List.mem_singleton.mp hy] at he
    exact hk (he ▸ hx)

theorem nodup_keys_erase {t : Table κ β} (hn : t.keys.Nodup) (k : κ) : (t.erase k).keys.Nodup :=
  List.Nodup.sublist (List.Sublist.map _ List.filter_sublist) hn

end Table

/-- The place where a name stands first in a list. -/
structure StandsFirst (names : List String) (name : String) (i : Nat) : Prop where
  here : names[i]? = some name
  first : ∀ j < i, names[j]? ≠ some name

theorem standsFirst_iff {names : List String} {name : String} {i : Nat} :
    names.findIdx? (fun n => decide (n = name)) = some i ↔ StandsFirst names name i := by
  rw [List.findIdx?_eq_some_iff_getElem]
  constructor
  · rintro ⟨hi, hhere, hfirst⟩
    refine ⟨by simpa [List.getElem?_eq_getElem hi] using hhere, ?_⟩
    intro j hj
    simpa [List.getElem?_eq_getElem (Nat.lt_trans hj hi)] using hfirst j hj
  · rintro ⟨hhere, hfirst⟩
    obtain ⟨hi, hname⟩ := List.getElem?_eq_some_iff.mp hhere
    refine ⟨hi, by simpa using hname, ?_⟩
    intro j hj
    simpa [List.getElem?_eq_getElem (Nat.lt_trans hj hi)] using hfirst j hj

theorem StandsFirst.unique {names : List String} {name : String} {i j : Nat} (hi : StandsFirst names name i)
    (hj : StandsFirst names name j) : i = j :=
  Option.some.inj ((standsFirst_iff.mpr hi).symm.trans (standsFirst_iff.mpr hj))

end Devicetree
