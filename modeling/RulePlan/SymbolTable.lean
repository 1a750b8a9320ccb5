/-!
# RulePlan.SymbolTable — the predicate names of a compilation, numbered by first appearance

A table is a list of distinct names. The id of a name is its place in that list, counted from one,
so interning a new name never changes the id of an older one. `Symbol` is a name together with an
id; symbols are ordered by name first.
-/

namespace RulePlan

/-- Distinct names in order of first appearance. -/
structure SymbolTable where
  names : List String
  nodup : names.Nodup

namespace SymbolTable

/-- No names. -/
def empty : SymbolTable := ⟨[], List.nodup_nil⟩

instance : Inhabited SymbolTable := ⟨empty⟩

theorem nodup_append_singleton {names : List String} {name : String} (h : names.Nodup)
    (hn : name ∉ names) : (names ++ [name]).Nodup := by
  rw [List.nodup_append]
  refine ⟨h, by simp, ?_⟩
  intro a ha b hb
  rw [List.mem_singleton] at hb
  subst hb
  exact fun hab => hn (hab ▸ ha)

/-- Adds a name unless it is known. -/
def intern (t : SymbolTable) (name : String) : SymbolTable :=
  if h : name ∈ t.names then t else ⟨t.names ++ [name], nodup_append_singleton t.nodup h⟩

/-- Adds names one after the other. -/
def internAll (t : SymbolTable) (names : List String) : SymbolTable := names.foldl intern t

/-- The number of names. -/
def size (t : SymbolTable) : Nat := t.names.length

/-- The id of a name, counted from one. -/
def id? (t : SymbolTable) (name : String) : Option Nat := (t.names.idxOf? name).map (· + 1)

/-- Whether a name is known. -/
def contains (t : SymbolTable) (name : String) : Bool := t.names.contains name

end SymbolTable

/-- A name with an id. -/
structure Symbol where
  name : String
  id : Int
deriving DecidableEq, Repr

namespace Symbol

/-- Orders symbols by name, then by id. -/
def compare (a b : Symbol) : Ordering :=
  if a.name < b.name then .lt
  else if b.name < a.name then .gt
  else if a.id < b.id then .lt
  else if b.id < a.id then .gt
  else .eq

/-- The symbols in order. -/
def sort (l : List Symbol) : List Symbol := l.mergeSort (fun a b => compare a b != .gt)

end Symbol

/-- Names as they are listed in messages: `[a b c]`. -/
def bracketed (names : List String) : String := "[" ++ " ".intercalate names ++ "]"

end RulePlan
