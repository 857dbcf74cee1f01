import ConceptQuery.Model.ExprText
import ConceptQuery.Text.Dotted

/-! # Concepts

A concept is a named and typed value of a model. Its address is its namespace and
its name with a dot between; concepts of the document itself live in `local`.
Seen through an import, a concept moves into the namespace of the import, and so
do all addresses that its lineage and its keys mention.
-/
namespace ConceptQuery

/-- The namespace of what a document declares itself. -/
def localSpace : String := "local"

/-- The namespace of what the compiler adds; users never see it. -/
def internalSpace : String := "__preql_internal"

inductive Purpose where
  | key | property | metric | constant | auto
deriving DecidableEq, Inhabited

namespace Purpose

def ofKeyword? (keyword : String) : Option Purpose :=
  match Text.lowered keyword with
  | "key" => some .key
  | "property" => some .property
  | "metric" => some .metric
  | "const" | "constant" => some .constant
  | "auto" => some .auto
  | _ => none

def name : Purpose → String
  | key => "key"
  | property => "property"
  | metric => "metric"
  | constant => "constant"
  | auto => "auto"

end Purpose

/-- How the values of a concept come about. -/
inductive Derivation where
  /-- Bound to columns of datasources. -/
  | root
  /-- Computed row by row from other concepts. -/
  | basic
  | aggregate
  | constant
deriving DecidableEq, Inhabited

def Derivation.name : Derivation → String
  | root => "root"
  | basic => "basic"
  | aggregate => "aggregate"
  | constant => "constant"

inductive Origin where
  | manual
  /-- Added along with another concept. -/
  | autoDerived
deriving DecidableEq, Inhabited

def Origin.name : Origin → String
  | manual => "manual"
  | autoDerived => "auto_derived"

/-- Where something is declared; lines and columns count from one. -/
structure Site where
  line : Option Nat := none
  column : Option Nat := none
  endLine : Option Nat := none
  endColumn : Option Nat := none
deriving DecidableEq, Inhabited

structure Concept where
  name : String
  space : String
  datatype : DataType
  purpose : Purpose
  lineage : Option Expr := none
  /-- The concepts that a property belongs to, each once. -/
  keys : Option (List String) := none
  nullable : Bool := false
  derivation : Derivation := .root
  site : Site := {}
  description : Option String := none
  origin : Origin := .manual
deriving Inhabited

namespace Concept

def address (c : Concept) : String :=
  Dotted.qualify c.space c.name

def derivationOf (lineage : Expr) : Derivation :=
  if lineage.hasAggregate then .aggregate
  else if lineage.concepts.isEmpty then .constant
  else .basic

/-- A concept that is computed from others. -/
def derived (name space : String) (purpose : Purpose) (datatype : DataType) (lineage : Expr) :
    Concept :=
  { name, space, datatype, purpose, lineage := some lineage, derivation := derivationOf lineage }

def sameLineage : Option Expr → Option Expr → Bool
  | none, none => true
  | some a, some b => a.same b
  | _, _ => false

/-- Two declarations of one address agree if role, type and lineage do. -/
def agrees (a b : Concept) : Bool :=
  a.purpose = b.purpose && a.datatype = b.datatype && sameLineage a.lineage b.lineage

def isInternal (c : Concept) : Bool :=
  internalSpace.toList.isPrefixOf c.space.toList

/-- The names of what modifies the type. -/
def modifiers (c : Concept) : List String :=
  if c.nullable then ["nullable"] else []

end Concept

/-- A namespace of an imported module, seen from the importing one. -/
def requalifySpace (into space : String) : String :=
  if space = localSpace then into else Dotted.qualify into space

/-- An address of an imported module, seen from the importing one. -/
def requalify (into address : String) : String :=
  match Dotted.under? localSpace address with
  | some rest => Dotted.qualify into rest
  | none => Dotted.qualify into address

def Concept.requalified (c : Concept) (into : String) : Concept :=
  { c with
    space := requalifySpace into c.space
    lineage := c.lineage.map (Expr.mapConcepts (requalify into))
    keys := c.keys.map fun keys => firstPlaces (keys.map (requalify into)) }

end ConceptQuery
