/-! # Dotted names

A name such as `orders.customer.id` is a list of segments with dots between
them. Splitting and joining are inverse, so a name may be taken apart at its
last dot without losing anything.
-/
namespace ConceptQuery.Dotted

/-- The pieces between the separators; a text without a separator is one piece. -/
def splitOn (separator : Char) : List Char → List (List Char)
  | [] => [[]]
  | c :: rest =>
    if c = separator then [] :: splitOn separator rest
    else match splitOn separator rest with
      | [] => [[c]]
      | piece :: pieces => (c :: piece) :: pieces

def segments (name : String) : List String :=
  (splitOn '.' name.toList).map String.ofList

def join (segments : List String) : String :=
  ".".intercalate segments

def qualify (space name : String) : String :=
  space ++ "." ++ name

def isDotted (name : String) : Bool :=
  name.toList.contains '.'

/-- The parent and the last segment, for a name with at least two segments. -/
def splitLast? (name : String) : Option (String × String) :=
  match (segments name).reverse with
  | last :: parent :: more => some (join (parent :: more).reverse, last)
  | _ => none

def lastSegment (name : String) : String :=
  (segments name).getLastD name

/-- What remains of `name` once `space.` is taken off its front. -/
def under? (space name : String) : Option String :=
  let front := space.toList ++ ['.']
  if front.isPrefixOf name.toList then some (String.ofList (name.toList.drop front.length))
  else none

end ConceptQuery.Dotted
