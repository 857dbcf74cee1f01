/-! # Catalogs

A catalog keeps values under names in the order in which the names first came.
Entering a name again replaces its value and leaves its place alone.
-/
namespace ConceptQuery

structure Catalog (α : Type) where
  entries : List (String × α) := []
deriving DecidableEq, Inhabited

namespace Catalog
variable {α : Type}

def empty : Catalog α := ⟨[]⟩

def find (name : String) : List (String × α) → Option α
  | [] => none
  | (key, value) :: rest => if key = name then some value else find name rest

def get? (c : Catalog α) (name : String) : Option α :=
  find name c.entries

def contains (c : Catalog α) (name : String) : Bool :=
  (c.get? name).isSome

def put (name : String) (value : α) : List (String × α) → List (String × α)
  | [] => [(name, value)]
  | (key, old) :: rest =>
    if key = name then (key, value) :: rest else (key, old) :: put name value rest

def insert (c : Catalog α) (name : String) (value : α) : Catalog α :=
  ⟨put name value c.entries⟩

def keys (c : Catalog α) : List String :=
  c.entries.map Prod.fst

def values (c : Catalog α) : List α :=
  c.entries.map Prod.snd

def size (c : Catalog α) : Nat :=
  c.entries.length

def erase (c : Catalog α) (name : String) : Catalog α :=
  ⟨c.entries.filter fun entry => entry.1 ≠ name⟩

def ofList (entries : List (String × α)) : Catalog α :=
  entries.foldl (fun c entry => c.insert entry.1 entry.2) empty

end Catalog

/-- The members of a list, each at its first place only. -/
def firstPlaces : List String → List String
  | [] => []
  | name :: rest => name :: (firstPlaces rest).filter (· ≠ name)

end ConceptQuery
