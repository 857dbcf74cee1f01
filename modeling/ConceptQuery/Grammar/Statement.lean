import ConceptQuery.Grammar.Expression
import ConceptQuery.Text.Dotted

/-! # Statements

Concept declarations, datasources, imports, selects (alone, merged or persisted)
and raw queries. Each statement starts with a keyword of its own and ends with a
semicolon.
-/
namespace ConceptQuery.Grammar
open Rule

def statementStart : List TokenKind :=
  [word .key, word .property, word .metric, word .auto, word .const, word .root,
   word .datasource, word .importWord, word .select, word .persist, word .rawSql]

def purposes : List TokenKind :=
  [word .key, word .property, word .metric, word .auto, word .const]

/-- What may follow a select item, a comma apart. -/
def itemEnd : List TokenKind :=
  [punct .semicolon, word .whereWord, word .order, word .limit, word .merge, word .align, .stray]

def atDerivation : Look := fun ws =>
  Look.sees [word .const] ws ||
    match ws with
    | _ :: _ :: w :: _ => w.kind = punct .leftArrow
    | _ => false

/-- `property` and a dotted name. -/
def atProperty : Look
  | w :: name :: _ =>
    w.kind = word .property && name.kind = .ident && Dotted.isDotted name.text
  | _ => false

def typedDeclaration (kind : NodeKind) : Rule :=
  node kind (inOrder
    [take, expect .ident, oneToken .datatype .ident,
     optional (.sees [punct .question]) take, expect (punct .semicolon)])

def derivation : Rule :=
  node .conceptDerivation (inOrder
    [take, expect .ident, expect (punct .leftArrow), expression, expect (punct .semicolon)])

def conceptStatement : Rule :=
  branch atDerivation derivation
    (branch atProperty (typedDeclaration .propertyDeclaration)
      (typedDeclaration .conceptDeclaration))

def column : Rule :=
  seq (optional (.and (.sees [.ident, .string]) (.thenSees (punct .colon)))
      (node .columnAlias (seq take take)))
    (expect .ident)

/-- A comma that another column follows. -/
def atNextColumn : Look :=
  .and (.sees [punct .comma]) (.not (.thenSees (punct .rightParen)))

def columnList : Rule :=
  node .columnList (inOrder
    [column, loop atNextColumn (seq take column), optional (.sees [punct .comma]) take])

def grainClause : Rule :=
  node .grainClause (inOrder
    [take, expect (punct .leftParen), separated (punct .comma) (expect .ident),
     expect (punct .rightParen)])

def source : Rule :=
  branch (.sees [word .address]) (node .addressClause (seq take (expect .ident)))
    (branch (.sees [word .query]) (node .queryClause (seq take (expect .string)))
      (refuse [word .address, word .query, word .grain]))

def datasource : Rule :=
  node .datasource (inOrder
    [optional (.sees [word .root]) take, expect (word .datasource), expect .ident,
     expect (punct .leftParen), columnList, expect (punct .rightParen),
     optional (.sees [word .grain]) grainClause, source, expect (punct .semicolon)])

def importStatement : Rule :=
  node .importStatement (inOrder
    [take, expect .ident, optional (.sees [word .asWord]) (seq take (expect .ident)),
     expect (punct .semicolon)])

/-- A name with nothing behind it that could belong to an expression. -/
def atPlainItem : Look
  | [] => false
  | [w] => w.kind = .ident
  | w :: v :: _ => w.kind = .ident && (punct .comma :: itemEnd).contains v.kind

def selectItem : Rule :=
  node .selectItem (seq (loop (.sees [punct .minusMinus]) take)
    (branch atPlainItem (oneToken .conceptAssignment .ident)
      (mark (seq expression
        (branch (.sees [punct .arrow]) (wrap .selectTransform (seq take (expect .ident)))
          (refuse [punct .arrow, punct .comma, punct .semicolon]))))))

/-- A comma that another item follows. -/
def atNextItem : Look :=
  .and (.sees [punct .comma]) fun ws =>
    match ws with
    | _ :: w :: _ => !itemEnd.contains w.kind
    | _ => true

def whereClause : Rule :=
  node .whereClause (seq take expression)

def orderItem : Rule :=
  node .orderItem (seq expression (optional (.sees [word .asc, word .desc]) take))

def orderByClause : Rule :=
  node .orderByClause (inOrder
    [take, expect (word .byWord), separated (punct .comma) orderItem])

def limitClause : Rule :=
  node .limitClause (seq take (expect .integer))

def selectBody : Rule :=
  inOrder
    [expect (word .select), selectItem, loop atNextItem (seq take selectItem),
     optional (.sees [punct .comma]) take,
     optional (.sees [word .whereWord]) whereClause,
     optional (.sees [word .order]) orderByClause,
     optional (.sees [word .limit]) limitClause]

def alignItem : Rule :=
  node .alignItem (inOrder
    [expect .ident, expect (punct .colon),
     separated (punct .comma) (oneToken .conceptLiteral .ident)])

def alignClause : Rule :=
  node .alignClause (seq take (separated (word .and) alignItem))

/-- The first select is wrapped only once it is known whether others are merged
with it. -/
def selectStatement : Rule :=
  mark (seq selectBody
    (branch (.sees [word .merge])
      (seq (wrap .selectStatement done)
        (wrap .multiSelectStatement (inOrder
          [loop (.sees [word .merge]) (seq take (node .selectStatement selectBody)),
           optional (.sees [word .align]) alignClause,
           expect (punct .semicolon)])))
      (wrap .selectStatement (expect (punct .semicolon)))))

def persistStatement : Rule :=
  node .persistStatement (inOrder
    [take, expect .ident, expect (word .into), expect .ident, expect (word .fromWord),
     node .selectStatement selectBody, expect (punct .semicolon)])

def rawSqlStatement : Rule :=
  node .rawSqlStatement (inOrder
    [take, expect (punct .leftParen), expect .string, expect (punct .rightParen),
     expect (punct .semicolon)])

def statement : Rule :=
  branch (.sees purposes) conceptStatement
    (branch (.sees [word .root, word .datasource]) datasource
      (branch (.sees [word .importWord]) importStatement
        (branch (.sees [word .select]) selectStatement
          (branch (.sees [word .persist]) persistStatement
            (branch (.sees [word .rawSql]) rawSqlStatement
              (refuse statementStart))))))

end ConceptQuery.Grammar
