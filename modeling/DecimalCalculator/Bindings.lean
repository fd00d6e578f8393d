import DecimalCalculator.Decimal.Printer

/-!
# Variable bindings

The variables in the order of their first assignment, each with its last value. A name stands in
the list once (`distinct`); binding it again keeps its place.
-/

namespace DecimalCalculator

/-! ## lists of bindings -/

/-- `name` bound to `value`: in its old place, or at the end if it is new -/
def putEntry (name : String) (value : Decimal) :
    List (String × Decimal) → List (String × Decimal)
  | [] => [(name, value)]
  | (n, v) :: rest => if n = name then (n, value) :: rest else (n, v) :: putEntry name value rest

theorem putEntry_nil (name : String) (value : Decimal) :
    putEntry name value [] = [(name, value)] := rfl
theorem putEntry_cons (name : String) (value : Decimal) (n : String) (v : Decimal)
    (rest : List (String × Decimal)) :
    putEntry name value ((n, v) :: rest) =
      if n = name then (n, value) :: rest else (n, v) :: putEntry name value rest := rfl

/-- a bound name stays where it is, a new one comes last -/
theorem map_fst_putEntry (name : String) (value : Decimal) (es : List (String × Decimal)) :
    (putEntry name value es).map Prod.fst =
      if name ∈ es.map Prod.fst then es.map Prod.fst else es.map Prod.fst ++ [name] := by
  induction es with
  | nil => rfl
  | cons e es ih =>
    obtain ⟨n, v⟩ := e
    rw [putEntry_cons]
    by_cases h : n = name
    · simp [h]
    · rw [if_neg h, List.map_cons, ih, List.map_cons]
      by_cases hm : name ∈ es.map Prod.fst
      · rw [if_pos hm, if_pos (List.mem_cons_of_mem _ hm)]
      · rw [if_neg hm, if_neg (by simpa [Ne.symm h] using hm), List.cons_append]

theorem nodup_putEntry (name : String) (value : Decimal) {es : List (String × Decimal)}
    (h : (es.map Prod.fst).Nodup) : ((putEntry name value es).map Prod.fst).Nodup := by
  rw [map_fst_putEntry]
  split
  · exact h
  · next hm =>
    rw [List.nodup_append]
    refine ⟨h, by simp, fun a ha b hb e => hm ?_⟩
    rw [List.mem_singleton.mp hb] at e
    exact e ▸ ha

theorem lookup_entry (m : String) (v : Decimal) (n : String) (es : List (String × Decimal)) :
    ((m, v) :: es).lookup n = if n = m then some v else es.lookup n := by
  rw [List.lookup_cons]
  by_cases h : n = m
  · rw [if_pos h, beq_iff_eq.mpr h]
  · rw [if_neg h, beq_eq_false_iff_ne.mpr h]

theorem lookup_putEntry (name : String) (value : Decimal) (n : String)
    (es : List (String × Decimal)) :
    (putEntry name value es).lookup n = if n = name then some value else es.lookup n := by
  induction es with
  | nil =>
    rw [putEntry_nil, lookup_entry]
  | cons e es ih =>
    obtain ⟨m, v⟩ := e
    rw [putEntry_cons]
    by_cases h : m = name
    · subst h
      rw [if_pos rfl, lookup_entry, lookup_entry]
      by_cases hn : n = m
      · rw [if_pos hn, if_pos hn]
      · rw [if_neg hn, if_neg hn, if_neg hn]
    · rw [if_neg h, lookup_entry, lookup_entry, ih]
      by_cases hn : n = m
      · subst hn
        rw [if_pos rfl, if_pos rfl, if_neg h]
      · rw [if_neg hn, if_neg hn]

/-! ## bindings -/

structure Bindings where
  entries : List (String × Decimal)
  distinct : (entries.map Prod.fst).Nodup

namespace Bindings

def empty : Bindings := ⟨[], List.nodup_nil⟩

def get? (b : Bindings) (name : String) : Option Decimal := b.entries.lookup name

def set (b : Bindings) (name : String) (value : Decimal) : Bindings :=
  ⟨putEntry name value b.entries, nodup_putEntry name value b.distinct⟩

def isEmpty (b : Bindings) : Bool := b.entries.isEmpty

def names (b : Bindings) : List String := b.entries.map Prod.fst

/-- one line for each variable, in order -/
def listing (b : Bindings) : List String :=
  b.entries.map fun (name, value) => name ++ " = " ++ value.plain

theorem get?_empty (n : String) : empty.get? n = none := rfl

theorem get?_set (b : Bindings) (name : String) (value : Decimal) (n : String) :
    (b.set name value).get? n = if n = name then some value else b.get? n :=
  lookup_putEntry name value n b.entries

theorem names_set (b : Bindings) (name : String) (value : Decimal) :
    (b.set name value).names = if name ∈ b.names then b.names else b.names ++ [name] :=
  map_fst_putEntry name value b.entries

end Bindings

end DecimalCalculator
