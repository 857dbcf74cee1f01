import ConceptQuery.Model.ExprText
import ConceptQuery.Proofs.Formed
import ConceptQuery.Proofs.Known
import ConceptQuery.Proofs.Seam

/-! # The words of printed expressions

Tokens come out of a printed expression as they went in: `Expr.words` puts them together in the
order of the text, and cutting the text gives just these words. What matters is the character
behind each piece. A name, a keyword or a number ends where nothing stands that would go on with
it, marks that begin no longer mark end anywhere, and everything else is printed with blanks
around it.
-/
namespace ConceptQuery

namespace Word

def ofKeyword (k : Keyword) : Word := ⟨.keyword k, k.text⟩

def ofMark (p : Punctuation) : Word := ⟨.punctuation p, p.text⟩

/-- A name by itself: a keyword if it is one. -/
def ofName (name : String) : Word := ⟨(Keyword.ofText? name).elim .ident .keyword, name⟩

/-- No keyword has a dot. -/
theorem ofName_of_isDotted {name : String} (h : Dotted.isDotted name = true) :
    ofName name = ⟨.ident, name⟩ := by
  have hnone : Keyword.ofText? name = none := by
    by_contra hsome
    obtain ⟨k, hk⟩ := Option.ne_none_iff_exists'.mp hsome
    obtain rfl := Lexer.Keyword.text_of_ofText? hk
    cases k <;> cases h
  rw [ofName, hnone]
  rfl

end Word

theorem Token.not_isTrivia {u : Token} {w : Word} (h : u.word = w) (hw : w.kind.isTrivia = false) :
    u.kind.isTrivia = false := by
  rw [← h] at hw
  exact hw

namespace Lexer
variable {c : Char} {cs rest piece : List Char} {kind : TokenKind}

/-- The words that a text is cut into. -/
def words (cs : List Char) : List Word :=
  ((scan cs.length cs 0).filter fun t => !t.kind.isTrivia).map Token.word

theorem words_cons (c : Char) (cs : List Char) : words (c :: cs) =
    if (next c cs).1.isTrivia then words (next c cs).2.2
    else ⟨(next c cs).1, String.ofList (next c cs).2.1⟩ :: words (next c cs).2.2 := by
  have hlater : ∀ n, ((scan (next c cs).2.2.length (next c cs).2.2 (0 + n)).filter
      fun t => !t.kind.isTrivia).map Token.word = words (next c cs).2.2 := by
    intro n
    rw [Nat.add_comm, scan_later, List.filter_map, List.map_map]
    rfl
  rw [words, scan_first, List.filter_cons]
  split_ifs with hkept htrivia htrivia
  · simp [htrivia] at hkept
  · rw [List.map_cons, hlater]
    rfl
  · exact hlater _
  · simp [htrivia] at hkept

theorem words_of_next (h : next c cs = (kind, piece, rest)) (hk : kind.isTrivia = false) :
    words (c :: cs) = ⟨kind, String.ofList piece⟩ :: words rest := by
  rw [words_cons, h]
  simp [hk]

/-- Blanks make no words. -/
theorem words_space (hc : isSpace c = true) : words (c :: cs) = words cs := by
  have hskip : ∀ {c cs}, isSpace c = true → words (c :: cs) = words (cs.dropWhile isSpace) := by
    intro c cs hc
    rw [words_cons, next_eq, if_pos hc]
    rfl
  rw [hskip hc]
  cases cs with
  | nil => rfl
  | cons d cs =>
    by_cases hd : isSpace d = true
    · rw [List.dropWhile_cons_of_pos hd, hskip hd]
    · rw [List.dropWhile_cons_of_neg hd]

theorem words_blank {gap : List Char} (h : ∀ c ∈ gap, isSpace c = true) :
    words (gap ++ rest) = words rest := by
  induction gap with
  | nil => rfl
  | cons c gap ih =>
    rw [List.forall_mem_cons] at h
    rw [List.cons_append, words_space h.1, ih h.2]

theorem not_continues_of_space (h : isSpace c = true) : continuesName c = false ∧ c ≠ '.' := by
  simp only [isSpace, Bool.or_eq_true, decide_eq_true_eq] at h
  rcases h with ((rfl | rfl) | rfl) | rfl <;> decide

/-- What a name may go on with is no blank. -/
theorem not_space_of_continues (h : continuesName c = true) : isSpace c = false := by
  by_contra hspace
  rw [(not_continues_of_space (eq_true_of_ne_false hspace)).1] at h
  cases h

/-- Nothing that a name or a number would go on with. -/
def Clear (rest : List Char) : Prop :=
  ∀ c ∈ rest.head?, continuesName c = false ∧ c ≠ '.'

theorem clear_cons (h : continuesName c = false ∧ c ≠ '.') : Clear (c :: cs) := by
  rintro d ⟨⟩
  exact h

theorem clear_nil : Clear [] := by
  rintro d ⟨⟩

theorem nameTail_of_clear (h : NameTail cs) (hr : Clear rest) :
    nameTail (cs ++ rest) = (cs, rest) := by
  induction h with
  | nil =>
    cases rest with
    | nil => rfl
    | cons d rest =>
      obtain ⟨hd, hdot⟩ := hr d rfl
      rw [List.nil_append, nameTail_cons_of_ne hdot, if_neg (by simp [hd])]
  | @continues d cs hd h ih =>
    have hdot : d ≠ '.' := by
      rintro rfl
      cases hd
    rw [List.cons_append, nameTail_cons_of_ne hdot, if_pos hd, ih]
  | dot hd h ih => simp [nameTail, hd, ih]

theorem nameKind_of_clear (name : List Char) (hr : Clear rest) :
    nameKind name rest = (Keyword.ofText? (String.ofList name)).elim .ident .keyword := by
  unfold nameKind
  cases Keyword.ofText? (String.ofList name) with
  | none => rfl
  | some k =>
    cases rest with
    | nil => rfl
    | cons d rest => simp [(hr d rfl).2]

theorem words_name (h : IsName cs) (hr : Clear rest) :
    words (cs ++ rest) = .ofName (String.ofList cs) :: words rest := by
  obtain ⟨c, cs, rfl, hc, htail⟩ := h
  have hnospace : isSpace c = false := not_space_of_continues (by simp [continuesName, hc])
  have hnext : next c (cs ++ rest) = (nameKind (c :: cs) rest, c :: cs, rest) := by
    simp [next, hnospace, hc, nameTail_of_clear htail hr]
  rw [nameKind_of_clear _ hr] at hnext
  refine words_of_next hnext ?_
  cases Keyword.ofText? (String.ofList (c :: cs)) <;> rfl

/-- A segment of a name, as a check. -/
theorem isName_of_plain (h : (cs.head?.any startsName && cs.all continuesName) = true) :
    IsName cs := by
  cases cs with
  | nil => cases h
  | cons c cs =>
    simp only [List.head?_cons, Option.any_some, List.all_cons, Bool.and_eq_true] at h
    obtain ⟨hc, -, hall⟩ := h
    refine ⟨c, cs, rfl, hc, ?_⟩
    induction cs with
    | nil => exact .nil
    | cons d cs ih =>
      simp only [List.all_cons, Bool.and_eq_true] at hall
      exact .continues hall.1 (ih hall.2)

theorem words_keyword (k : Keyword) (hr : Clear rest) :
    words (k.text.toList ++ rest) = .ofKeyword k :: words rest := by
  have hname : Word.ofName (String.ofList k.text.toList) = .ofKeyword k := by
    cases k <;> rfl
  rw [words_name (isName_of_plain (by cases k <;> rfl)) hr, hname]

@[simp] theorem words_blank_cons (cs : List Char) : words (' ' :: cs) = words cs :=
  words_space rfl

theorem words_keyword_blank (k : Keyword) (cs : List Char) :
    words (k.text.toList ++ ' ' :: cs) = .ofKeyword k :: words cs := by
  rw [words_keyword k (clear_cons (by decide)), words_blank_cons]

/-- Any mark ends in front of a blank. -/
theorem words_mark_blank (p : Punctuation) (cs : List Char) :
    words (p.text.toList ++ ' ' :: cs) = .ofMark p :: words cs := by
  rw [← words_blank_cons cs]
  cases p <;> exact words_of_next rfl rfl

/-- The marks that begin no longer one. -/
def closed : List Punctuation :=
  [.leftParen, .rightParen, .comma, .semicolon]

theorem words_closed {p : Punctuation} (hp : p ∈ closed) :
    words (p.text.toList ++ rest) = .ofMark p :: words rest := by
  simp only [closed, List.mem_cons, List.not_mem_nil, or_false] at hp
  cases rest with
  | nil => rcases hp with rfl | rfl | rfl | rfl <;> exact words_of_next rfl rfl
  | cons d rest => rcases hp with rfl | rfl | rfl | rfl <;> exact words_of_next rfl rfl

theorem words_minus (hc : c ≠ '-' ∧ c ≠ '>') :
    words ('-' :: c :: rest) = .ofMark .minus :: words (c :: rest) := by
  have hpair : pair? '-' c = none := by
    unfold pair?
    split <;> simp_all
  refine words_of_next ?_ rfl
  simp only [next_eq, slashOrMark, symbol, hpair]
  rfl

theorem stringBody_of_plain {quote : Char} (h : ∀ c ∈ cs, c ≠ quote ∧ c ≠ '\\')
    (hq : quote ≠ '\\') : stringBody quote (cs ++ quote :: rest) = (cs, quote :: rest) := by
  induction cs with
  | nil => rw [List.nil_append, stringBody_cons_of_ne hq, if_pos rfl]
  | cons c cs ih =>
    rw [List.forall_mem_cons] at h
    rw [List.cons_append, stringBody_cons_of_ne h.1.2, if_neg h.1.1, ih h.2]

theorem words_string (h : ∀ c ∈ cs, c ≠ '\'' ∧ c ≠ '\\') :
    words ('\'' :: (cs ++ '\'' :: rest)) =
      ⟨.string, String.ofList ('\'' :: cs ++ ['\''])⟩ :: words rest := by
  refine words_of_next ?_ rfl
  have hbody : stringBody '\'' (cs ++ '\'' :: rest) = (cs, '\'' :: rest) :=
    stringBody_of_plain h (by decide)
  have hstring : string '\'' (cs ++ '\'' :: rest) = (.string, '\'' :: cs ++ ['\''], rest) := by
    simp [string, hbody]
  rw [next_eq, if_neg (by decide), if_neg (by decide), if_neg (by decide), if_pos (by decide),
    hstring]

/-- The characters are those of one number. -/
def IsNumber (cs : List Char) : Prop :=
  ∃ kind, (kind = .integer ∨ kind = .float) ∧
    scan cs.length cs 0 = [⟨kind, String.ofList cs, 0⟩]

theorem digits_of_clear (h : cs.dropWhile isDigit = []) (hr : Clear rest) :
    (cs ++ rest).takeWhile isDigit = cs ∧ (cs ++ rest).dropWhile isDigit = rest := by
  have hall := List.dropWhile_eq_nil_iff.mp h
  rw [List.takeWhile_append_of_pos hall, List.dropWhile_append_of_pos hall]
  cases rest with
  | nil => simp
  | cons d rest =>
    have hd : isDigit d = false := (Bool.or_eq_false_iff.mp (hr d rfl).1).2
    simp [hd]

/-- A number ends where no digit and no dot follows. -/
theorem number_of_clear {digits after : List Char} (h : (number digits after).2.2 = [])
    (hr : Clear rest) :
    number digits (after ++ rest) = ((number digits after).1, (number digits after).2.1, rest) := by
  match after with
  | [] =>
    cases rest with
    | nil => rfl
    | cons d rest => exact number_of_ne (hr d rfl).2
  | [c] =>
    simp [number] at h
  | c :: d :: after =>
    by_cases hfloat : c = '.' ∧ isDigit d = true
    · obtain ⟨rfl, hd⟩ := hfloat
      simp only [number, hd, if_true] at h
      obtain ⟨htake, hdrop⟩ := digits_of_clear h hr
      have hall : after.takeWhile isDigit = after :=
        List.takeWhile_eq_self_iff.mpr (List.dropWhile_eq_nil_iff.mp h)
      simp [number, hd, htake, hdrop, hall]
    · by_cases hc : c = '.'
      · subst hc
        have hd : isDigit d = false := by simpa using hfloat
        simp [number, hd] at h
      · rw [number_of_ne hc] at h
        cases h

/-- A token that is a number begins with a digit. -/
theorem isDigit_of_number (h : (next c cs).1 = .integer ∨ (next c cs).1 = .float) :
    isDigit c = true := by
  have hcuts := next_cuts c cs
  obtain ⟨d, piece, hpiece⟩ := List.exists_cons_of_ne_nil hcuts.2
  obtain rfl : d = c := by
    have hfront := hcuts.1
    rw [hpiece] at hfront
    exact (List.cons.inj hfront).1
  rcases (next_counts d cs h).2 d (by simp [hpiece]) with hd | rfl
  · exact hd
  · -- a dot by itself is a stray
    have hstray : (next '.' cs).1 = .stray := by
      cases cs <;> rfl
    simp [hstray] at h

theorem next_of_digit (h : isDigit c = true) : next c cs =
    number (c :: cs.takeWhile isDigit) (cs.dropWhile isDigit) := by
  have hnospace : isSpace c = false := not_space_of_continues (by simp [continuesName, h])
  have hnoname : ¬ startsName c = true := by
    intro hname
    simp only [isDigit, Bool.and_eq_true, decide_eq_true_eq, Char.le_def,
      UInt32.le_iff_toNat_le] at h
    simp only [startsName, Bool.or_eq_true, Bool.and_eq_true, decide_eq_true_eq, Char.le_def,
      UInt32.le_iff_toNat_le] at hname
    have hbounds : '9'.val.toNat = 57 ∧ 'a'.val.toNat = 97 ∧ 'A'.val.toNat = 65 := by decide
    rcases hname with (hname | hname) | rfl
    · omega
    · omega
    · simp at h
  rw [next_eq, if_neg (by simp [hnospace]), if_neg hnoname, if_pos h]

theorem next_of_number (h : next c cs = (kind, c :: cs, [])) (hk : kind = .integer ∨ kind = .float)
    (hr : Clear rest) : next c (cs ++ rest) = (kind, c :: cs, rest) := by
  have hkind : (next c cs).1 = .integer ∨ (next c cs).1 = .float := by
    rw [h]
    exact hk
  have hdigit := isDigit_of_number hkind
  rw [next_of_digit hdigit] at h
  rw [next_of_digit hdigit]
  by_cases hdigits : cs.dropWhile isDigit = []
  · obtain ⟨htake, hdrop⟩ := digits_of_clear hdigits hr
    have hall : cs.takeWhile isDigit = cs :=
      List.takeWhile_eq_self_iff.mpr (List.dropWhile_eq_nil_iff.mp hdigits)
    have hnumber : number (c :: cs) ([] ++ rest) = _ := number_of_clear rfl hr
    rw [htake, hdrop, ← List.nil_append rest, hnumber]
    rw [hdigits, hall] at h
    cases h
    rfl
  · obtain ⟨htake, hdrop⟩ : (cs ++ rest).takeWhile isDigit = cs.takeWhile isDigit ∧
      (cs ++ rest).dropWhile isDigit = cs.dropWhile isDigit ++ rest := run_before hdigits
    have hnumber := number_of_clear (by rw [h]) hr
    rw [htake, hdrop, hnumber, h]

theorem IsNumber.exists_next (h : IsNumber cs) : ∃ c after kind, cs = c :: after ∧
    (kind = .integer ∨ kind = .float) ∧ next c after = (kind, cs, []) := by
  obtain ⟨kind, hk, hscan⟩ := h
  cases cs with
  | nil => cases hscan
  | cons c cs =>
    rw [scan_first, List.cons.injEq, Token.mk.injEq] at hscan
    obtain ⟨⟨hkind, hpiece, -⟩, -⟩ := hscan
    have hpiece : (next c cs).2.1 = c :: cs := by
      simpa using congrArg String.toList hpiece
    have hrest : (next c cs).2.2 = [] := by
      have hcuts := (next_cuts c cs).1
      rw [hpiece] at hcuts
      exact List.append_right_eq_self.mp hcuts
    exact ⟨c, cs, kind, rfl, hk, Prod.ext hkind (Prod.ext hpiece hrest)⟩

theorem IsNumber.words_append (h : IsNumber cs) : ∃ kind, (kind = .integer ∨ kind = .float) ∧
    ∀ rest, Clear rest → words (cs ++ rest) = ⟨kind, String.ofList cs⟩ :: words rest := by
  obtain ⟨c, after, kind, rfl, hk, hnext⟩ := h.exists_next
  refine ⟨kind, hk, fun rest hr => words_of_next (next_of_number hnext hk hr) ?_⟩
  rcases hk with rfl | rfl <;> rfl

end Lexer

namespace BinaryOp

def kind : BinaryOp → TokenKind
  | or => .keyword .or | and => .keyword .and | like => .keyword .like
  | eq => .punctuation .eq | notEq => .punctuation .bangEq
  | lt => .punctuation .lt | gt => .punctuation .gt
  | ltEq => .punctuation .ltEq | gtEq => .punctuation .gtEq
  | add => .punctuation .plus | sub => .punctuation .minus
  | mul => .punctuation .star | div => .punctuation .slash | mod => .punctuation .percent

/-- The operator as it is printed. -/
def word (op : BinaryOp) : Word :=
  ⟨op.kind, Text.lowered op.sql⟩

theorem words_spaced (op : BinaryOp) (cs : List Char) :
    Lexer.words ((Text.lowered op.sql).toList ++ ' ' :: cs) = op.word :: Lexer.words cs := by
  cases op with
  | or => exact Lexer.words_keyword_blank .or cs
  | and => exact Lexer.words_keyword_blank .and cs
  | like => exact Lexer.words_keyword_blank .like cs
  | eq => exact Lexer.words_mark_blank .eq cs
  | notEq => exact Lexer.words_mark_blank .bangEq cs
  | lt => exact Lexer.words_mark_blank .lt cs
  | gt => exact Lexer.words_mark_blank .gt cs
  | ltEq => exact Lexer.words_mark_blank .ltEq cs
  | gtEq => exact Lexer.words_mark_blank .gtEq cs
  | add => exact Lexer.words_mark_blank .plus cs
  | sub => exact Lexer.words_mark_blank .minus cs
  | mul => exact Lexer.words_mark_blank .star cs
  | div => exact Lexer.words_mark_blank .slash cs
  | mod => exact Lexer.words_mark_blank .percent cs

end BinaryOp

/-- Literals whose text comes back: the characters of one number, and strings without anything
to escape. -/
def Literal.Readable : Literal → Prop
  | number text => Lexer.IsNumber text.toList
  | string text => ∀ c ∈ text.toList, c ≠ '\'' ∧ c ≠ '\\'
  | _ => True

theorem doubled_of_notMem {quote : Char} {cs : List Char} (h : quote ∉ cs) :
    doubled quote cs = cs := by
  induction cs with
  | nil => rfl
  | cons c cs ih =>
    rw [List.mem_cons, not_or] at h
    rw [doubled, if_neg (Ne.symm h.1), ih h.2]

/-- Of this word the compiler makes the literal. -/
def Word.Tells (w : Word) (value : Literal) : Prop :=
  w.kind ∈ Grammar.literalStart ∧ ∀ (text : List Char) (t : Token), t.word = w →
    Compile.literalOf? (Leaf.ofToken text .literal t) = some value

theorem Word.tells {w : Word} {value : Literal} (hk : w.kind ∈ Grammar.literalStart)
    (h : Compile.literalOf? ⟨Leaf.kindOf .literal w.kind, w.text, none, none, none, none⟩ =
      some value) : w.Tells value := by
  refine ⟨hk, ?_⟩
  rintro text t rfl
  exact h

theorem unquote_quoted (body : List Char) :
    Compile.unquote (String.ofList ('\'' :: body ++ ['\''])) = String.ofList body := by
  simp [Compile.unquote]

theorem Literal.Readable.exists_word {value : Literal} (h : value.Readable) :
    ∃ w : Word, (∀ rest, Lexer.Clear rest →
      Lexer.words (value.text.toList ++ rest) = w :: Lexer.words rest) ∧ w.Tells value := by
  cases value with
  | number numeral =>
    obtain ⟨kind, hk, hwords⟩ := h.words_append
    refine ⟨⟨kind, numeral⟩, fun rest hr => ?_, ?_⟩
    · rw [text, hwords rest hr, String.ofList_toList]
    · rcases hk with rfl | rfl
      · exact Word.tells (by simp [Grammar.literalStart]) rfl
      · exact Word.tells (by simp [Grammar.literalStart]) rfl
  | string body =>
    have hdoubled : doubled '\'' body.toList = body.toList :=
      doubled_of_notMem fun hmem => (h _ hmem).1 rfl
    have htext : quoted '\'' body = String.ofList ('\'' :: body.toList ++ ['\'']) := by
      rw [quoted, hdoubled]
    refine ⟨⟨.string, quoted '\'' body⟩, fun rest _ => ?_,
      Word.tells (by simp [Grammar.literalStart]) ?_⟩
    · rw [text, htext, String.toList_ofList, ← Lexer.words_string h]
      simp
    · have hvalue := unquote_quoted body.toList
      rw [← htext, String.ofList_toList] at hvalue
      simp [Compile.literalOf?, Leaf.kindOf, hvalue]
  | bool value =>
    cases value with
    | false => exact ⟨_, fun _ => Lexer.words_keyword .falseWord, Word.tells (by decide) rfl⟩
    | true => exact ⟨_, fun _ => Lexer.words_keyword .trueWord, Word.tells (by decide) rfl⟩
  | null => exact ⟨_, fun _ => Lexer.words_keyword .null, Word.tells (by decide) rfl⟩

namespace Expr

mutual
/-- The names of the expression are those of known concepts, no name of a type stands for none,
its literals come back and no minus stands right in front of another. -/
def Readable (env : Environment) : Expr → Prop
  | concept address =>
    Lexer.IsName address.toList ∧ Dotted.isDotted address = true ∧ env.Knows address
  | literal value => value.Readable
  | type datatype => datatype ≠ .unknown
  | call _ arguments => ReadableAll env arguments
  | binary _ lhs rhs => Readable env lhs ∧ Readable env rhs
  | unary op operand => (op = .neg → ∀ e, operand ≠ unary .neg e) ∧ Readable env operand
  | isNull operand _ | paren operand => Readable env operand
  | inList operand items _ => Readable env operand ∧ ReadableAll env items

def ReadableAll (env : Environment) : List Expr → Prop
  | [] => True
  | e :: es => Readable env e ∧ ReadableAll env es
end

/-- The word `not` of a test, if it is there. -/
def denial (negated : Bool) : List Word :=
  if negated then [.ofKeyword .not] else []

mutual
/-- The words of an expression, in the order of its text. -/
def words : Expr → List Word
  | concept address => [⟨.ident, address⟩]
  | literal value => Lexer.words value.text.toList
  | type datatype => [⟨.ident, datatype.name⟩]
  | call function arguments =>
    .ofName function :: .ofMark .leftParen :: (listed arguments ++ [.ofMark .rightParen])
  | binary op lhs rhs => words lhs ++ op.word :: words rhs
  | unary .not operand => .ofKeyword .not :: words operand
  | unary .neg operand => .ofMark .minus :: words operand
  | isNull operand negated =>
    words operand ++ .ofKeyword .is :: (denial negated ++ [.ofKeyword .null])
  | inList operand items negated =>
    words operand ++ (denial negated ++ .ofKeyword .inWord :: .ofMark .leftParen ::
      (listed items ++ [.ofMark .rightParen]))
  | paren inner => .ofMark .leftParen :: (words inner ++ [.ofMark .rightParen])

/-- The words of some expressions, with commas between them. -/
def listed : List Expr → List Word
  | [] => []
  | [e] => words e
  | e :: es => words e ++ .ofMark .comma :: listed es
end

theorem listed_cons_cons (e next : Expr) (es : List Expr) :
    listed (e :: next :: es) = words e ++ .ofMark .comma :: listed (next :: es) :=
  rfl

section Text
open Lexer
variable {env : Environment} {e : Expr} {rest : List Char}

theorem words_literal {value : Literal} (h : value.Readable) (hr : Clear rest) :
    Lexer.words (value.text.toList ++ rest) =
      Lexer.words value.text.toList ++ Lexer.words rest := by
  obtain ⟨w, hw, -⟩ := h.exists_word
  have halone := hw [] clear_nil
  rw [List.append_nil] at halone
  rw [hw rest hr, halone]
  rfl

theorem isName_of_known {function : String} (h : function ∈ Function.known) :
    IsName function.toList := by
  have hplain : ∀ f ∈ Function.known, (f.toList.head?.any startsName &&
    f.toList.all continuesName) = true := by decide
  exact isName_of_plain (hplain function h)

/-- An atom does not begin like the end of a longer mark. -/
theorem head_text_of_atom (hl : e.level = .atom) (hf : e.Formed) (hs : e.Readable env) :
    ∃ c cs, e.text.toList = c :: cs ∧ c ≠ '-' ∧ c ≠ '>' := by
  have hname : ∀ c, continuesName c = true → c ≠ '-' ∧ c ≠ '>' := by
    rintro c hc
    constructor
    · rintro rfl
      cases hc
    · rintro rfl
      cases hc
  cases e with
  | concept address =>
    obtain ⟨c, cs, heq, hc, -⟩ := hs.1
    exact ⟨c, cs, heq, hname c (by simp [continuesName, hc])⟩
  | literal value =>
    cases value with
    | number numeral =>
      obtain ⟨c, cs, kind, heq, hk, hnext⟩ := IsNumber.exists_next hs
      have hkind : (next c cs).1 = .integer ∨ (next c cs).1 = .float := by
        rw [hnext]
        exact hk
      exact ⟨c, cs, heq, hname c (by simp [continuesName, isDigit_of_number hkind])⟩
    | string body =>
      exact ⟨'\'', doubled '\'' body.toList ++ ['\''], by simp [text, Literal.text, quoted],
        by decide⟩
    | bool value =>
      cases value with
      | false => exact ⟨_, _, rfl, by decide⟩
      | true => exact ⟨_, _, rfl, by decide⟩
    | null => exact ⟨_, _, rfl, by decide⟩
  | type datatype => cases datatype <;> exact ⟨_, _, rfl, by decide⟩
  | call function arguments =>
    obtain ⟨c, cs, heq, hc, -⟩ := isName_of_known hf.1
    have htext : (call function arguments).text.toList = function.toList ++
        '(' :: ((", ".intercalate (texts arguments)).toList ++ [')']) := by
      simp [text]
    rw [heq, List.cons_append] at htext
    exact ⟨c, _, htext, hname c (by simp [continuesName, hc])⟩
  | binary op lhs rhs => cases op <;> cases hl
  | unary op operand => cases op <;> cases hl
  | isNull operand negated => cases hl
  | inList operand items negated => cases hl
  | paren inner => exact ⟨'(', inner.text.toList ++ [')'], by simp [text], by decide⟩

/-- What binds tighter than a minus is an atom. -/
theorem level_of_operand (hl : UnaryOp.neg.level.rank ≤ e.level.rank)
    (hs : ∀ inner, e ≠ unary .neg inner) : e.level = .atom := by
  have hlevel : e.level = .signed ∨ e.level = .atom := by
    generalize e.level = l at hl
    revert hl
    cases l <;> decide
  refine hlevel.resolve_left fun hsigned => ?_
  cases e with
  | binary op lhs rhs => cases op <;> cases hsigned
  | unary op operand =>
    cases op with
    | not => cases hsigned
    | neg => exact hs operand rfl
  | _ => cases hsigned

theorem words_denial (negated : Bool) (cs : List Char) :
    Lexer.words ((if negated then "not " else "").toList ++ cs) =
      denial negated ++ Lexer.words cs := by
  cases negated with
  | false => rfl
  | true => exact words_keyword_blank .not cs

mutual
theorem words_text (e : Expr) (hf : e.Formed) (hs : e.Readable env) (rest : List Char)
    (hr : Clear rest) : Lexer.words (e.text.toList ++ rest) = e.words ++ Lexer.words rest := by
  have hblank : ∀ cs, Clear (' ' :: cs) := fun _ => clear_cons (by decide)
  have hopen : ∀ cs, Lexer.words ('(' :: cs) = .ofMark .leftParen :: Lexer.words cs :=
    fun _ => words_closed (p := .leftParen) (by decide)
  have hclose : ∀ cs, Lexer.words (')' :: cs) = .ofMark .rightParen :: Lexer.words cs :=
    fun _ => words_closed (p := .rightParen) (by decide)
  cases e with
  | concept address =>
    rw [text, words_name hs.1 hr, String.ofList_toList, Word.ofName_of_isDotted hs.2.1, words]
    rfl
  | literal value => exact words_literal hs hr
  | type datatype =>
    have hname : Word.ofName datatype.name = ⟨.ident, datatype.name⟩ := by
      cases datatype <;> rfl
    have hplain : IsName datatype.name.toList := isName_of_plain (by cases datatype <;> rfl)
    rw [text, words_name hplain hr, String.ofList_toList, hname, words]
    rfl
  | call function arguments =>
    simp only [text, words, String.toList_append, String.reduceToList, List.append_assoc,
      List.cons_append, List.nil_append]
    rw [words_name (isName_of_known hf.1) (clear_cons (by decide)),
      String.ofList_toList, hopen, words_texts arguments hf.2 hs rest]
  | binary op lhs rhs =>
    simp only [text, words, String.toList_append, String.reduceToList, List.append_assoc,
      List.cons_append, List.nil_append]
    rw [words_text lhs hf.2.2.1 hs.1 _ (hblank _), words_blank_cons, BinaryOp.words_spaced,
      words_text rhs hf.2.2.2 hs.2 rest hr]
  | unary op operand =>
    cases op with
    | not =>
      have htext : (unary .not operand).text.toList ++ rest =
          Keyword.not.text.toList ++ ' ' :: (operand.text.toList ++ rest) := by
        simp [text, Keyword.text]
      rw [htext, words_keyword_blank, words_text operand hf.2 hs.2 rest hr, words]
      rfl
    | neg =>
      have hatom : operand.level = .atom := level_of_operand hf.1 (hs.1 rfl)
      obtain ⟨c, cs, hhead, hc⟩ := head_text_of_atom hatom hf.2 hs.2
      have hoperand := words_text operand hf.2 hs.2 rest hr
      simp only [text, words, String.toList_append, String.reduceToList, List.cons_append,
        List.nil_append]
      rw [hhead, List.cons_append] at hoperand ⊢
      rw [words_minus hc, hoperand]
  | isNull operand negated =>
    have htext : (isNull operand negated).text.toList ++ rest = operand.text.toList ++ ' ' ::
        (Keyword.is.text.toList ++ ' ' :: ((if negated then "not " else "").toList ++
          (Keyword.null.text.toList ++ rest))) := by
      cases negated <;> simp [text, Keyword.text]
    rw [htext, words_text operand hf.2 hs _ (hblank _), words_blank_cons, words_keyword_blank,
      words_denial, words_keyword _ hr, words]
    simp
  | inList operand items negated =>
    have htext : (inList operand items negated).text.toList ++ rest = operand.text.toList ++ ' ' ::
        ((if negated then "not " else "").toList ++ (Keyword.inWord.text.toList ++ ' ' ::
          '(' :: ((", ".intercalate (texts items)).toList ++ ')' :: rest))) := by
      cases negated <;> simp [text, Keyword.text]
    rw [htext, words_text operand hf.2.1 hs.1 _ (hblank _), words_blank_cons, words_denial,
      words_keyword_blank, hopen, words_texts items hf.2.2.2 hs.2 rest, words]
    simp
  | paren inner =>
    simp only [text, words, String.toList_append, String.reduceToList, List.append_assoc,
      List.cons_append, List.nil_append]
    rw [hopen, words_text inner hf hs _ (clear_cons (by decide)), hclose]

theorem words_texts (es : List Expr) (hf : FormedAll es) (hs : ReadableAll env es)
    (rest : List Char) : Lexer.words ((", ".intercalate (texts es)).toList ++ ')' :: rest) =
      listed es ++ .ofMark .rightParen :: Lexer.words rest := by
  have hclose : Lexer.words (')' :: rest) = .ofMark .rightParen :: Lexer.words rest :=
    words_closed (p := .rightParen) (by decide)
  have hcomma : ∀ cs, Lexer.words (',' :: cs) = .ofMark .comma :: Lexer.words cs :=
    fun _ => words_closed (p := .comma) (by decide)
  match es with
  | [] => exact hclose
  | [e] =>
    simp only [texts, String.intercalate_singleton, listed]
    rw [words_text e hf.1 hs.1 _ (clear_cons (by decide)), hclose]
  | e :: next :: es =>
    have hmore := words_texts (next :: es) hf.2 hs.2 rest
    have htext : (", ".intercalate (texts (e :: next :: es))).toList ++ ')' :: rest =
        e.text.toList ++ ',' :: ' ' ::
          ((", ".intercalate (texts (next :: es))).toList ++ ')' :: rest) := by
      simp [texts, String.toList_intercalate]
    rw [htext, words_text e hf.1 hs.1 _ (clear_cons (by decide)), hcomma, words_blank_cons, hmore,
      listed_cons_cons, List.append_assoc, List.cons_append]
end

end Text
end Expr
end ConceptQuery
