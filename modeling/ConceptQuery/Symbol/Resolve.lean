import ConceptQuery.Symbol.Metadata

/-! # From recorded addresses to symbols

An address as it is recorded at a place of the text need not be a key of the
metadata: a dotted name is kept as written, and a property is recorded behind its
parent while the model keeps it under its short name. Resolving tries the address
itself, then the address split into a namespace and a path, then the last segment
of that path. It does not look at which parent a property belongs to.
-/
namespace ConceptQuery.MetadataMap

/-- The namespace of an address and the path in it. A first segment that no key
starts with is no namespace. -/
def split (map : MetadataMap) (address : String) (first : String) : String × String :=
  if map.keys.any fun key => (Dotted.under? first key).isSome then
    (first, (Dotted.under? first address).getD address)
  else (localSpace, address)

def resolve? (map : MetadataMap) (address : String) : Option Metadata :=
  match map.get? address with
  | some found => some found
  | none =>
    match Dotted.segments address with
    | first :: _ :: _ =>
      let (space, path) := map.split address first
      match map.get? (Dotted.qualify space path) with
      | some found => some found
      | none =>
        if Dotted.isDotted path then map.get? (Dotted.qualify space (Dotted.lastSegment path))
        else none
    | _ => none

def resolveAddress? (map : MetadataMap) (address : String) : Option String :=
  (map.resolve? address).map Metadata.address

end ConceptQuery.MetadataMap
