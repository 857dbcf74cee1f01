/-! # Letters without regard to case

Names of types, functions and roles are compared after ASCII capitals have been
made small; other characters stay as they are.
-/
namespace ConceptQuery.Text

def lowered (s : String) : String :=
  String.ofList (s.toList.map Char.toLower)

/-- Equal up to the case of ASCII letters. -/
def sameLetters (s t : String) : Bool :=
  lowered s = lowered t

end ConceptQuery.Text
