import ConceptQuery.Dialect.DuckDb
import ConceptQuery.Proofs.Expansion
import ConceptQuery.Proofs.Formed
import ConceptQuery.Proofs.SqlText

/-! # Expressions as written terms

The text of an expression is that of a term: `Expr.term` puts it together, with a term given
for each concept. A call of `like` becomes an operator and some other functions get another
form, but what is written of any call has its arguments in their order. So a term is graded
if the terms of all parts of the expression are and no operand in it is too loose.
-/
namespace ConceptQuery

open Grammar (Level)

namespace Sql

section Arguments

/-- Terms with commas between them. -/
def listed : Term → List Term → Arguments
  | first, [] => .last first
  | first, next :: more => .cons first "," (listed next more)

/-- Conditions with their values, and what is left over as the value of all other cases. -/
def branches : Term → Term → List Term → Arguments
  | condition, value, [] => .cons condition "THEN" (.last value)
  | condition, value, [other] => .cons condition "THEN" (.cons value "ELSE" (.last other))
  | condition, value, next :: then' :: more =>
    .cons condition "THEN" (.cons value "WHEN" (branches next then' more))

namespace Arguments

def terms : Arguments → List Term
  | last value => [value]
  | cons value _ more => value :: more.terms

def dividers : Arguments → List String
  | last _ => []
  | cons _ separator more => separator :: more.dividers

variable {a : Arguments}

theorem graded_iff : a.Graded ↔ ∀ t ∈ a.terms, t.Graded := by
  induction a using terms.induct with
  | case1 value => simp [Graded, terms]
  | case2 value separator more ih => simp [Graded, terms, ih]

theorem spaced_iff : a.Spaced ↔ ∀ t ∈ a.terms, t.Spaced := by
  induction a using terms.induct with
  | case1 value => simp [Spaced, terms]
  | case2 value separator more ih => simp [Spaced, terms, ih]

theorem worded_iff : a.Worded ↔ ∀ t ∈ a.terms, t.Worded := by
  induction a using terms.induct with
  | case1 value => simp [Worded, terms]
  | case2 value separator more ih => simp [Worded, terms, ih]

theorem plain_iff {separators : List String} :
    a.Plain separators ↔ (∀ t ∈ a.terms, t.Plain) ∧ ∀ word ∈ a.dividers, word ∈ separators := by
  induction a using terms.induct with
  | case1 value => simp [Plain, terms, dividers]
  | case2 value separator more ih =>
    simp only [Plain, terms, dividers, List.forall_mem_cons, ih]
    tauto

end Arguments

theorem terms_listed (first : Term) (more : List Term) :
    (listed first more).terms = first :: more ∧
      ∀ word ∈ (listed first more).dividers, word = "," := by
  fun_induction listed first more with
  | case1 first => simp [Arguments.terms, Arguments.dividers]
  | case2 first next more ih => simpa [Arguments.terms, Arguments.dividers] using ih

theorem terms_branches (condition value : Term) (more : List Term) :
    (branches condition value more).terms = condition :: value :: more ∧
      ∀ word ∈ (branches condition value more).dividers, word ∈ Head.cases.separators := by
  fun_induction branches condition value more with
  | case1 condition value => simp [Arguments.terms, Arguments.dividers, Head.separators]
  | case2 condition value other => simp [Arguments.terms, Arguments.dividers, Head.separators]
  | case3 condition value next then' more ih =>
    simpa [Arguments.terms, Arguments.dividers, Head.separators] using ih

end Arguments

section Calls

/-- The name that a function has in the dialect. -/
def calledAs (function : String) : String :=
  if function = "date" then "make_date" else function

/-- Counts of a column are counts of its different values. -/
def countHead (argument : Term) : Head :=
  if argument.chars = ['1'] ∨ argument.chars = ['*'] then .named "count" else .distinct

/-- A call as it is written. -/
def callTerm (function : String) : List Term → Term
  | [] =>
    if function = "today" then .atom "current_date"
    else if function = "now" then .atom "current_timestamp"
    else .nullary (calledAs function)
  | [a] =>
    if function = "count" then .call (countHead a) (.last a)
    else .call (.named (calledAs function)) (.last a)
  | a :: b :: rest =>
    if function = "like" ∧ rest.isEmpty = true then .binary .like a b
    else if function = "cast" ∧ rest.isEmpty = true then
      .call (.named "CAST") (.cons a "AS" (.last b))
    else if function = "if" ∨ function = "case" then .call .cases (branches a b rest)
    else .call (.named (calledAs function)) (listed a (b :: rest))

variable {function : String} {ts us : List Term}

/-- What is written for a call: an operator, a word, or something with its arguments in it. -/
theorem callTerm_cases (function : String) (ts : List Term) :
    (function = "like" ∧ ∃ a b, ts = [a, b] ∧ callTerm function ts = .binary .like a b) ∨
    (ts = [] ∧ ∃ word ∈ ["current_date", "current_timestamp"], callTerm function ts = .atom word) ∨
    (ts = [] ∧ callTerm function ts = .nullary (calledAs function)) ∨
    ∃ head a, callTerm function ts = .call head a ∧ a.terms = ts ∧
      (∀ word ∈ a.dividers, word ∈ head.separators) ∧
      (head = .named (calledAs function) ∨
        head ∈ [.named "count", .named "CAST", .distinct, .cases]) := by
  fun_cases callTerm function ts with
  | case1 => exact .inr (.inl ⟨rfl, _, by simp, rfl⟩)
  | case2 => exact .inr (.inl ⟨rfl, _, by simp, rfl⟩)
  | case3 => exact .inr (.inr (.inl ⟨rfl, rfl⟩))
  | case4 a =>
    refine .inr (.inr (.inr ⟨_, _, rfl, rfl, by simp [Arguments.dividers], .inr ?_⟩))
    unfold countHead
    split <;> simp
  | case5 a => exact .inr (.inr (.inr ⟨_, _, rfl, rfl, by simp [Arguments.dividers], .inl rfl⟩))
  | case6 a b rest hlike =>
    obtain rfl := List.isEmpty_iff.mp hlike.2
    exact .inl ⟨hlike.1, a, b, rfl, rfl⟩
  | case7 a b rest _ hcast =>
    obtain rfl := List.isEmpty_iff.mp hcast.2
    exact .inr (.inr (.inr ⟨_, _, rfl, rfl, by simp [Arguments.dividers, Head.separators],
      .inr (by simp)⟩))
  | case8 a b rest =>
    obtain ⟨hterms, hdividers⟩ := terms_branches a b rest
    exact .inr (.inr (.inr ⟨_, _, rfl, hterms, hdividers, .inr (by simp)⟩))
  | case9 a b rest =>
    obtain ⟨hterms, hdividers⟩ := terms_listed a (b :: rest)
    refine .inr (.inr (.inr ⟨_, _, rfl, hterms, fun word hword => ?_, .inl rfl⟩))
    rw [hdividers word hword]
    exact List.mem_cons_self

theorem plain_callTerm (hfunction : function ∈ Function.known) (h : ∀ t ∈ ts, t.Plain) :
    (callTerm function ts).Plain := by
  have hknown : ∀ name ∈ Function.known, calledAs name ∉ reserved := by decide
  obtain ⟨-, a, b, rfl, heq⟩ | ⟨-, word, hword, heq⟩ | ⟨-, heq⟩ |
    ⟨head, a, heq, rfl, hdividers, hhead⟩ := callTerm_cases function ts
  · rw [heq]
    exact ⟨h a (by simp), h b (by simp)⟩
  · rw [heq]
    exact (by decide : ∀ word ∈ ["current_date", "current_timestamp"], word ∉ reserved) word hword
  · rw [heq]
    exact hknown function hfunction
  · rw [heq]
    refine ⟨?_, Arguments.plain_iff.mpr ⟨h, hdividers⟩⟩
    rcases hhead with rfl | hhead
    · exact hknown function hfunction
    · simp only [List.mem_cons, List.not_mem_nil, or_false] at hhead
      rcases hhead with rfl | rfl | rfl | rfl
      · exact (by decide : "count" ∉ reserved)
      · exact (by decide : "CAST" ∉ reserved)
      · trivial
      · trivial

theorem worded_callTerm (hfunction : function ∈ Function.known) (h : ∀ t ∈ ts, t.Worded) :
    (callTerm function ts).Worded := by
  have hknown : ∀ name ∈ Function.known, IsWord (calledAs name).toList := by decide
  obtain ⟨-, a, b, rfl, heq⟩ | ⟨-, word, hword, heq⟩ | ⟨-, heq⟩ |
    ⟨head, a, heq, rfl, -, hhead⟩ := callTerm_cases function ts
  · rw [heq]
    exact ⟨h a (by simp), h b (by simp)⟩
  · rw [heq]
    exact (by decide : ∀ word ∈ ["current_date", "current_timestamp"], IsWord word.toList) word hword
  · rw [heq]
    exact hknown function hfunction
  · rw [heq]
    refine ⟨?_, Arguments.worded_iff.mpr h⟩
    rcases hhead with rfl | hhead
    · exact hknown function hfunction
    · simp only [List.mem_cons, List.not_mem_nil, or_false] at hhead
      rcases hhead with rfl | rfl | rfl | rfl
      · exact (by decide : IsWord "count".toList)
      · exact (by decide : IsWord "CAST".toList)
      · trivial
      · trivial

theorem spaced_callTerm : (callTerm function ts).Spaced ↔ ∀ t ∈ ts, t.Spaced := by
  obtain ⟨-, a, b, rfl, heq⟩ | ⟨rfl, word, -, heq⟩ | ⟨rfl, heq⟩ | ⟨head, a, heq, rfl, -, -⟩ :=
    callTerm_cases function ts
  · simp [heq, Term.Spaced]
  · simp [heq, Term.Spaced]
  · simp [heq, Term.Spaced]
  · rw [heq, Term.Spaced, Arguments.spaced_iff]

/-- A call of `like` has operands, any other is graded if its arguments are. -/
theorem graded_callTerm : (callTerm function ts).Graded ↔
    (∀ a b, function = "like" → ts = [a, b] →
      ∀ t ∈ ts, Level.sum.rank ≤ t.level.rank) ∧ ∀ t ∈ ts, t.Graded := by
  have hnot : ∀ {t : Term}, callTerm function ts = t → (∀ a b, t ≠ .binary .like a b) →
      ∀ a b, function = "like" → ts = [a, b] → ∀ t ∈ ts, Level.sum.rank ≤ t.level.rank := by
    rintro t heq hne a b rfl rfl
    exact absurd heq.symm (hne a b)
  obtain ⟨rfl, a, b, rfl, heq⟩ | ⟨rfl, word, -, heq⟩ | ⟨rfl, heq⟩ | ⟨head, a, heq, rfl, -, -⟩ :=
    callTerm_cases function ts
  · rw [heq]
    have hlevels : BinaryOp.like.left = .sum ∧ BinaryOp.like.right = .sum := by decide
    simp [Term.Graded, hlevels, and_assoc]
  · simp [heq, Term.Graded]
  · simp [heq, Term.Graded]
  · rw [heq, Term.Graded, Arguments.graded_iff]
    exact (and_iff_right (hnot heq (by simp))).symm

/-- A call binds like an atom, unless it is one of `like`. -/
theorem level_callTerm (h : ∀ a b, function = "like" → ts ≠ [a, b]) :
    (callTerm function ts).level = .atom ∧ (callTerm function ts).signed = false := by
  obtain ⟨rfl, a, b, rfl, -⟩ | ⟨-, word, -, heq⟩ | ⟨-, heq⟩ | ⟨head, a, heq, -⟩ :=
    callTerm_cases function ts
  · exact absurd rfl (h a b rfl)
  · rw [heq]
    exact ⟨rfl, rfl⟩
  · rw [heq]
    exact ⟨rfl, rfl⟩
  · rw [heq]
    exact ⟨rfl, rfl⟩

theorem bare_listed {first first' : Term} {more more' : List Term}
    (h : first.bare = first'.bare) (hmore : more.map Term.bare = more'.map Term.bare) :
    (listed first more).bare = (listed first' more').bare := by
  induction more generalizing first first' more' with
  | nil =>
    obtain rfl := List.map_eq_nil_iff.mp hmore.symm
    exact congrArg Arguments.last h
  | cons next more ih =>
    obtain ⟨next', rest, rfl, hnext, hrest⟩ := List.map_eq_cons_iff.mp hmore.symm
    rw [listed, listed, Arguments.bare, Arguments.bare, h, ih hnext.symm hrest.symm]

theorem bare_branches {condition value condition' value' : Term} {more more' : List Term}
    (hcondition : condition.bare = condition'.bare) (hvalue : value.bare = value'.bare)
    (hmore : more.map Term.bare = more'.map Term.bare) :
    (branches condition value more).bare = (branches condition' value' more').bare := by
  fun_induction branches condition value more generalizing condition' value' more' with
  | case1 condition value =>
    obtain rfl := List.map_eq_nil_iff.mp hmore.symm
    rw [branches, Arguments.bare, Arguments.bare, hcondition, hvalue]
    rfl
  | case2 condition value other =>
    obtain ⟨other', rest, rfl, hother, hrest⟩ := List.map_eq_cons_iff.mp hmore.symm
    obtain rfl := List.map_eq_nil_iff.mp hrest
    simp only [branches, Arguments.bare, hcondition, hvalue, hother]
  | case3 condition value next then' more ih =>
    obtain ⟨next', rest, rfl, hnext, hrest⟩ := List.map_eq_cons_iff.mp hmore.symm
    obtain ⟨value'', rest, rfl, hthen, hrest⟩ := List.map_eq_cons_iff.mp hrest
    simp only [branches, Arguments.bare, hcondition, hvalue,
      ih hnext.symm hthen.symm hrest.symm]

theorem bare_countHead (argument : Term) : (countHead argument).bare = .named "count" := by
  unfold countHead
  split <;> rfl

/-- The operations of a call are told by those of its arguments. -/
theorem bare_callTerm (h : ts.map Term.bare = us.map Term.bare) :
    (callTerm function ts).bare = (callTerm function us).bare := by
  match ts with
  | [] =>
    obtain rfl := List.map_eq_nil_iff.mp h.symm
    rfl
  | [a] =>
    obtain ⟨a', rest, rfl, ha, hrest⟩ := List.map_eq_cons_iff.mp h.symm
    obtain rfl := List.map_eq_nil_iff.mp hrest
    rw [callTerm, callTerm]
    split
    · simp only [Term.bare, Arguments.bare, bare_countHead, ha]
    · simp only [Term.bare, Arguments.bare, ha]
  | a :: b :: rest =>
    obtain ⟨a', rest', rfl, ha, hrest⟩ := List.map_eq_cons_iff.mp h.symm
    obtain ⟨b', rest', rfl, hb, hrest⟩ := List.map_eq_cons_iff.mp hrest
    have hempty : rest'.isEmpty = rest.isEmpty := by
      simpa using congrArg List.isEmpty hrest
    rw [callTerm, callTerm, hempty]
    split_ifs
    · simp only [Term.bare, ha, hb]
    · simp only [Term.bare, Arguments.bare, ha, hb]
    · simp only [Term.bare, bare_branches ha.symm hb.symm hrest.symm]
    · have hmore : (b :: rest).map Term.bare = (b' :: rest').map Term.bare := by
        rw [List.map_cons, List.map_cons, hb, hrest]
      simp only [Term.bare, bare_listed ha.symm hmore]

end Calls

section Text
variable {function : String} {ts : List Term} {texts : List String}

theorem chars_listed {first : Term} {more : List Term} {text : String} {rest : List String}
    (h : text.toList = first.chars) (hrest : rest.map String.toList = more.map Term.chars) :
    (", ".intercalate (text :: rest)).toList = (listed first more).chars := by
  rw [String.toList_intercalate, List.map_cons, h, hrest]
  clear h hrest
  induction more generalizing first with
  | nil => simp [listed, Arguments.chars]
  | cons next more ih =>
    rw [List.map_cons, List.intercalate_cons_cons, ih, listed, Arguments.chars, List.append_assoc]
    rfl

theorem toList_plainCall {first : Term} {more : List Term} {text : String} {rest : List String}
    (h : text.toList = first.chars) (hrest : rest.map String.toList = more.map Term.chars) :
    (DuckDb.plainCall function (text :: rest)).toList =
      (Term.call (.named function) (listed first more)).chars := by
  simp [DuckDb.plainCall, Term.chars, Head.front, Head.back, chars_listed h hrest]

theorem toList_caseBranches {condition value : Term} {more : List Term} {text text' : String}
    {rest : List String} (h : text.toList = condition.chars) (h' : text'.toList = value.chars)
    (hrest : rest.map String.toList = more.map Term.chars) :
    (DuckDb.caseBranches (text :: text' :: rest)).toList =
      " WHEN ".toList ++ (branches condition value more).chars := by
  fun_induction branches condition value more generalizing text text' rest with
  | case1 condition value =>
    obtain rfl := List.map_eq_nil_iff.mp hrest
    simp [DuckDb.caseBranches, Arguments.chars, spread, h, h']
  | case2 condition value other =>
    obtain ⟨last, rest, rfl, hlast, hrest⟩ := List.map_eq_cons_iff.mp hrest
    obtain rfl := List.map_eq_nil_iff.mp hrest
    simp [DuckDb.caseBranches, Arguments.chars, spread, h, h', hlast]
  | case3 condition value next then' more ih =>
    obtain ⟨text₁, rest, rfl, hnext, hrest⟩ := List.map_eq_cons_iff.mp hrest
    obtain ⟨text₂, rest, rfl, hthen, hrest⟩ := List.map_eq_cons_iff.mp hrest
    rw [DuckDb.caseBranches, String.toList_append, ih hnext hthen hrest]
    simp [Arguments.chars, spread, h, h']

theorem toList_cases {condition value : Term} {more : List Term} {text text' : String}
    {rest : List String} (h : text.toList = condition.chars) (h' : text'.toList = value.chars)
    (hrest : rest.map String.toList = more.map Term.chars) :
    ("CASE" ++ DuckDb.caseBranches (text :: text' :: rest) ++ " END").toList =
      (Term.call .cases (branches condition value more)).chars := by
  simp [toList_caseBranches h h' hrest, Term.chars, Head.front, Head.back]

/-- Most calls are written the same way. -/
theorem toList_callTerm {name : String} (htexts : texts.map String.toList = ts.map Term.chars)
    (h : function ∉ ["count", "cast", "today", "now", "if", "case", "like"])
    (hname : calledAs function = name) :
    (DuckDb.plainCall name texts).toList = (callTerm function ts).chars := by
  subst hname
  have hne : ∀ name ∈ ["count", "cast", "today", "now", "if", "case", "like"], function ≠ name :=
    fun name hname heq => h (heq ▸ hname)
  match ts with
  | [] =>
    obtain rfl := List.map_eq_nil_iff.mp htexts
    rw [callTerm, if_neg (hne "today" (by simp)), if_neg (hne "now" (by simp))]
    simp [DuckDb.plainCall, Term.chars]
  | [a] =>
    obtain ⟨text, rest, rfl, htext, hrest⟩ := List.map_eq_cons_iff.mp htexts
    rw [callTerm, if_neg (hne "count" (by simp))]
    exact toList_plainCall htext hrest
  | a :: b :: rest =>
    obtain ⟨text, more, rfl, htext, hmore⟩ := List.map_eq_cons_iff.mp htexts
    rw [callTerm, if_neg fun h => hne "like" (by simp) h.1,
      if_neg fun h => hne "cast" (by simp) h.1,
      if_neg (not_or.mpr ⟨hne "if" (by simp), hne "case" (by simp)⟩)]
    exact toList_plainCall htext hmore

theorem withArity_eq_ok {expected sql sql' : String} {ok : Bool}
    (h : DuckDb.withArity function expected texts ok sql = .ok sql') : ok = true ∧ sql' = sql := by
  unfold DuckDb.withArity at h
  split at h
  · rename_i hok
    exact ⟨hok, (Except.ok.inj h).symm⟩
  · cases h

theorem toList_countCall {a : Term} {text : String} (h : text.toList = a.chars) :
    (DuckDb.countCall text).toList = (Term.call (countHead a) (.last a)).chars := by
  have hiff : ∀ word : String, text = word ↔ a.chars = word.toList := fun word => by
    rw [← h, String.toList_inj]
  have hspecial : text = "1" ∨ text = "*" ↔ a.chars = ['1'] ∨ a.chars = ['*'] :=
    or_congr (hiff "1") (hiff "*")
  unfold DuckDb.countCall countHead
  split
  · rename_i hone
    simp [hspecial.mp hone, Term.chars, Arguments.chars, Head.front, Head.back, h]
  · rename_i hone
    simp [mt hspecial.mpr hone, Term.chars, Arguments.chars, Head.front, Head.back, h]

/-- The text that the dialect writes for a call is that of the term. -/
theorem toList_call {sql : String} (htexts : texts.map String.toList = ts.map Term.chars)
    (h : DuckDb.call function texts = .ok sql) : sql.toList = (callTerm function ts).chars := by
  unfold DuckDb.call at h
  dsimp only at h
  split at h
  · rename_i text
    obtain ⟨a, rest, rfl, ha, hrest⟩ := List.map_eq_cons_iff.mp htexts.symm
    obtain rfl := List.map_eq_nil_iff.mp hrest
    rw [← Except.ok.inj h]
    exact toList_countCall ha.symm
  · cases (withArity_eq_ok h).1
  · rename_i text text'
    obtain ⟨a, rest, rfl, ha, hrest⟩ := List.map_eq_cons_iff.mp htexts.symm
    obtain ⟨b, rest, rfl, hb, hrest⟩ := List.map_eq_cons_iff.mp hrest
    obtain rfl := List.map_eq_nil_iff.mp hrest
    rw [← Except.ok.inj h]
    simp [callTerm, Term.chars, Arguments.chars, Head.front, Head.back, spread, ha, hb]
  · cases (withArity_eq_ok h).1
  · obtain ⟨-, rfl⟩ := withArity_eq_ok h
    exact toList_callTerm htexts (by decide) (by decide)
  · obtain ⟨hempty, rfl⟩ := withArity_eq_ok h
    rw [List.isEmpty_iff.mp hempty] at htexts
    obtain rfl := List.map_eq_nil_iff.mp htexts.symm
    rfl
  · obtain ⟨hempty, rfl⟩ := withArity_eq_ok h
    rw [List.isEmpty_iff.mp hempty] at htexts
    obtain rfl := List.map_eq_nil_iff.mp htexts.symm
    rfl
  · rename_i text text' text''
    obtain ⟨a, rest, rfl, ha, hrest⟩ := List.map_eq_cons_iff.mp htexts.symm
    obtain ⟨b, rest, rfl, hb, hrest⟩ := List.map_eq_cons_iff.mp hrest
    obtain ⟨c, rest, rfl, hc, hrest⟩ := List.map_eq_cons_iff.mp hrest
    obtain rfl := List.map_eq_nil_iff.mp hrest
    rw [← Except.ok.inj h]
    simp [callTerm, branches, Term.chars, Arguments.chars, Head.front, Head.back, spread, ha, hb, hc]
  · cases (withArity_eq_ok h).1
  · obtain ⟨hlength, rfl⟩ := withArity_eq_ok h
    have hsame : texts.length = ts.length := by simpa using congrArg List.length htexts
    rw [hsame, decide_eq_true_eq] at hlength
    obtain _ | ⟨a, _ | ⟨b, rest⟩⟩ := ts
    · cases hlength
    · exact absurd hlength (by simp)
    · obtain ⟨text, more, rfl, ha, hmore⟩ := List.map_eq_cons_iff.mp htexts
      obtain ⟨text', more, rfl, hb, hmore⟩ := List.map_eq_cons_iff.mp hmore
      exact toList_cases ha hb hmore
  · rename_i text text'
    obtain ⟨a, rest, rfl, ha, hrest⟩ := List.map_eq_cons_iff.mp htexts.symm
    obtain ⟨b, rest, rfl, hb, hrest⟩ := List.map_eq_cons_iff.mp hrest
    obtain rfl := List.map_eq_nil_iff.mp hrest
    rw [← Except.ok.inj h]
    simp [callTerm, Term.chars, BinaryOp.sql, ha, hb]
  · cases (withArity_eq_ok h).1
  · obtain ⟨-, rfl⟩ := withArity_eq_ok h
    exact toList_callTerm htexts (by decide) (by decide)
  · obtain ⟨-, rfl⟩ := withArity_eq_ok h
    exact toList_callTerm htexts (by decide) (by decide)
  · obtain ⟨-, rfl⟩ := withArity_eq_ok h
    exact toList_callTerm htexts (by decide) (by decide)
  · obtain ⟨-, rfl⟩ := withArity_eq_ok h
    exact toList_callTerm htexts (by decide) (by decide)
  · rename_i hcount hcast hdate htoday hnow hif hcase hlike _ _ _ _ _ _ _ _
    rw [← Except.ok.inj h]
    refine toList_callTerm htexts ?_ (if_neg hdate)
    simp only [List.mem_cons, List.not_mem_nil, or_false, not_or]
    exact ⟨hcount, hcast, htoday, hnow, hif, hcase, hlike⟩

end Text

/-- The members of a list, if there are any. -/
def members : List Term → Arguments
  | [] => .last (.atom "")
  | first :: more => listed first more

end Sql

open Sql Plan

namespace Expr

mutual
/-- An expression as it is written, with a term for each concept. -/
def term (concepts : String → Term) : Expr → Term
  | concept address => concepts address
  | literal value => .atom (literalSql value)
  | type datatype => .atom datatype.sqlName
  | call function arguments => callTerm function (terms concepts arguments)
  | binary op lhs rhs => .binary op (term concepts lhs) (term concepts rhs)
  | unary op operand => .unary op (term concepts operand)
  | isNull operand negated => .isNull (term concepts operand) negated
  | inList operand items negated =>
    .inList (term concepts operand) (members (terms concepts items)) negated
  | paren inner => .paren (term concepts inner)

def terms (concepts : String → Term) : List Expr → List Term
  | [] => []
  | e :: es => term concepts e :: terms concepts es
end

variable {f g : String → Term}

theorem terms_eq_map (es : List Expr) : terms f es = es.map (term f) := by
  induction es with
  | nil => rfl
  | cons e es ih => rw [terms, ih, List.map_cons]

mutual
theorem term_congr (e : Expr) (h : ∀ a ∈ e.mentions, f a = g a) : e.term f = e.term g := by
  cases e with
  | concept address => exact h address (List.mem_singleton_self address)
  | literal value => rfl
  | type datatype => rfl
  | call function arguments => rw [term, term, terms_congr arguments h]
  | binary op lhs rhs =>
    rw [term, term, term_congr lhs fun a ha => h a (List.mem_append_left _ ha),
      term_congr rhs fun a ha => h a (List.mem_append_right _ ha)]
  | unary op operand => rw [term, term, term_congr operand h]
  | isNull operand negated => rw [term, term, term_congr operand h]
  | inList operand items negated =>
    rw [term, term, term_congr operand fun a ha => h a (List.mem_append_left _ ha),
      terms_congr items fun a ha => h a (List.mem_append_right _ ha)]
  | paren inner => rw [term, term, term_congr inner h]

theorem terms_congr (es : List Expr) (h : ∀ a ∈ mentionsAll es, f a = g a) :
    terms f es = terms g es := by
  cases es with
  | nil => rfl
  | cons e es =>
    rw [terms, terms, term_congr e fun a ha => h a (List.mem_append_left _ ha),
      terms_congr es fun a ha => h a (List.mem_append_right _ ha)]
end

mutual
theorem term_subst (put : String → Expr) (e : Expr) :
    (e.subst put).term f = e.term fun a => (put a).term f := by
  cases e with
  | concept address => rfl
  | literal value => rfl
  | type datatype => rfl
  | call function arguments => rw [subst, term, term, terms_substAll put arguments]
  | binary op lhs rhs => rw [subst, term, term, term_subst put lhs, term_subst put rhs]
  | unary op operand => rw [subst, term, term, term_subst put operand]
  | isNull operand negated => rw [subst, term, term, term_subst put operand]
  | inList operand items negated =>
    rw [subst, term, term, term_subst put operand, terms_substAll put items]
  | paren inner => rw [subst, term, term, term_subst put inner]

theorem terms_substAll (put : String → Expr) (es : List Expr) :
    terms f (substAll put es) = terms (fun a => (put a).term f) es := by
  cases es with
  | nil => rfl
  | cons e es => rw [substAll, terms, terms, term_subst put e, terms_substAll put es]
end

theorem bare_members {ts us : List Term} (h : ts.map Term.bare = us.map Term.bare) :
    (members ts).bare = (members us).bare := by
  cases ts with
  | nil =>
    obtain rfl := List.map_eq_nil_iff.mp h.symm
    rfl
  | cons t ts =>
    obtain ⟨u, us, rfl, hu, hus⟩ := List.map_eq_cons_iff.mp h.symm
    exact bare_listed hu.symm hus.symm

mutual
/-- The operations of an expression are told by those that stand for its concepts. -/
theorem bare_term_congr (e : Expr) (h : ∀ a ∈ e.mentions, (f a).bare = (g a).bare) :
    (e.term f).bare = (e.term g).bare := by
  cases e with
  | concept address => exact h address (List.mem_singleton_self address)
  | literal value => rfl
  | type datatype => rfl
  | call function arguments => exact bare_callTerm (bare_terms_congr arguments h)
  | binary op lhs rhs =>
    rw [term, term, Term.bare, Term.bare,
      bare_term_congr lhs fun a ha => h a (List.mem_append_left _ ha),
      bare_term_congr rhs fun a ha => h a (List.mem_append_right _ ha)]
  | unary op operand => rw [term, term, Term.bare, Term.bare, bare_term_congr operand h]
  | isNull operand negated => rw [term, term, Term.bare, Term.bare, bare_term_congr operand h]
  | inList operand items negated =>
    rw [term, term, Term.bare, Term.bare,
      bare_term_congr operand fun a ha => h a (List.mem_append_left _ ha),
      bare_members (bare_terms_congr items fun a ha => h a (List.mem_append_right _ ha))]
  | paren inner => exact bare_term_congr inner h

theorem bare_terms_congr (es : List Expr) (h : ∀ a ∈ mentionsAll es, (f a).bare = (g a).bare) :
    (terms f es).map Term.bare = (terms g es).map Term.bare := by
  cases es with
  | nil => rfl
  | cons e es =>
    rw [terms, terms, List.map_cons, List.map_cons,
      bare_term_congr e fun a ha => h a (List.mem_append_left _ ha),
      bare_terms_congr es fun a ha => h a (List.mem_append_right _ ha)]
end

section Text
variable {concepts : String → Except RenderError String}

mutual
/-- The text of an expression is that of its term. -/
theorem toList_exprSql (hconcepts : ∀ a sql, concepts a = .ok sql → sql.toList = (f a).chars)
    (e : Expr) {sql : String} (h : exprSql DuckDb.call concepts e = .ok sql) :
    sql.toList = (e.term f).chars := by
  cases e with
  | concept address => exact hconcepts address sql h
  | literal value => rw [← Except.ok.inj h]; rfl
  | type datatype => rw [← Except.ok.inj h]; rfl
  | call function arguments =>
    obtain ⟨texts, htexts, h⟩ := except_bind_eq_ok.mp h
    exact toList_call (toList_exprSqls hconcepts arguments htexts) h
  | binary op lhs rhs =>
    obtain ⟨left, hleft, h⟩ := except_bind_eq_ok.mp h
    obtain ⟨right, hright, h⟩ := except_bind_eq_ok.mp h
    rw [← Except.ok.inj h]
    simp [term, Term.chars, toList_exprSql hconcepts lhs hleft, toList_exprSql hconcepts rhs hright]
  | unary op operand =>
    cases op with
    | not =>
      obtain ⟨text, htext, h⟩ := except_bind_eq_ok.mp h
      rw [← Except.ok.inj h]
      simp [term, Term.chars, toList_exprSql hconcepts operand htext]
    | neg =>
      obtain ⟨text, htext, h⟩ := except_bind_eq_ok.mp h
      rw [← Except.ok.inj h]
      simp [term, Term.chars, toList_exprSql hconcepts operand htext]
  | isNull operand negated =>
    obtain ⟨text, htext, h⟩ := except_bind_eq_ok.mp h
    rw [← Except.ok.inj h]
    simp [term, Term.chars, toList_exprSql hconcepts operand htext]
  | inList operand items negated =>
    obtain ⟨texts, htexts, h⟩ := except_bind_eq_ok.mp h
    obtain ⟨text, htext, h⟩ := except_bind_eq_ok.mp h
    have hitems : (", ".intercalate texts).toList = (members (terms f items)).chars := by
      have hmembers := toList_exprSqls hconcepts items htexts
      cases hterms : terms f items with
      | nil =>
        rw [hterms] at hmembers
        rw [List.map_eq_nil_iff.mp hmembers]
        rfl
      | cons first more =>
        rw [hterms] at hmembers
        obtain ⟨text, rest, rfl, hfirst, hmore⟩ := List.map_eq_cons_iff.mp hmembers
        exact chars_listed hfirst hmore
    rw [← Except.ok.inj h]
    simp [term, Term.chars, toList_exprSql hconcepts operand htext, hitems]
  | paren inner =>
    obtain ⟨text, htext, h⟩ := except_bind_eq_ok.mp h
    rw [← Except.ok.inj h]
    simp [term, Term.chars, toList_exprSql hconcepts inner htext]

theorem toList_exprSqls (hconcepts : ∀ a sql, concepts a = .ok sql → sql.toList = (f a).chars)
    (es : List Expr) {texts : List String} (h : exprSqls DuckDb.call concepts es = .ok texts) :
    texts.map String.toList = (terms f es).map Term.chars := by
  cases es with
  | nil => rw [← Except.ok.inj h]; rfl
  | cons e es =>
    obtain ⟨first, hfirst, h⟩ := except_bind_eq_ok.mp h
    obtain ⟨more, hmore, h⟩ := except_bind_eq_ok.mp h
    rw [← Except.ok.inj h, List.map_cons, terms, List.map_cons, toList_exprSql hconcepts e hfirst,
      toList_exprSqls hconcepts es hmore]
end

end Text

section Words

/-- What an expression is put together of. -/
def parts : Expr → List Expr
  | concept _ | literal _ | type _ => []
  | call _ arguments => arguments
  | binary _ lhs rhs => [lhs, rhs]
  | unary _ operand | isNull operand _ | paren operand => [operand]
  | inList operand items _ => operand :: items

theorem notMem_reserved {word : String} {c : Char} {more : List Char}
    (h : word.toList = c :: more) (hc : ∀ w ∈ reserved, w.toList.head? ≠ some c) :
    word ∉ reserved := fun hmem => hc word hmem (by rw [h]; rfl)

theorem isWord_numeral {cs : List Char} (h : IsNumeral cs) : IsWord cs := by
  refine ⟨h.1, closesWord_of_all fun c hc => ?_⟩
  rcases h.2 c hc with hdigit | rfl
  · simp [continuesWord, Lexer.continuesName, hdigit]
  · rfl

theorem plain_literal {value : Literal} (h : value.Formed) :
    literalSql value ∉ reserved ∧ IsWord (literalSql value).toList := by
  cases value with
  | number text =>
    have hnumeral : IsNumeral text.toList := h
    obtain ⟨c, more, htext⟩ := List.exists_cons_of_ne_nil hnumeral.1
    refine ⟨notMem_reserved htext fun w hw hhead => ?_, isWord_numeral hnumeral⟩
    have hnone : ∀ w ∈ reserved, w.toList.head?.any (fun c => Lexer.isDigit c || c == '.') = false := by
      decide
    have hc := hnumeral.2 c (htext ▸ List.mem_cons_self)
    have hstart := hnone w hw
    rw [hhead, Option.any_some] at hstart
    rcases hc with hdigit | rfl
    · rw [hdigit] at hstart
      cases hstart
    · simp at hstart
  | string text =>
    refine ⟨notMem_reserved (c := '\'') (by simp [literalSql, Literal.text, quoted]; rfl) (by decide),
      isWord_literal text⟩
  | bool value => cases value <;> decide
  | null => decide

theorem plain_columnRef (source column : String) :
    columnRef source column ∉ reserved ∧ IsWord (columnRef source column).toList :=
  ⟨notMem_reserved (toList_columnRef source column) (by decide), isWord_columnRef source column⟩

theorem plain_type (datatype : DataType) :
    datatype.sqlName ∉ reserved ∧ IsWord datatype.sqlName.toList := by
  cases datatype <;> decide

theorem plain_members {ts : List Term} (h : ts ≠ []) (hts : ∀ t ∈ ts, t.Plain ∧ t.Worded) :
    (members ts).Plain [","] ∧ (members ts).Worded := by
  obtain ⟨t, ts, rfl⟩ := List.exists_cons_of_ne_nil h
  obtain ⟨hterms, hdividers⟩ := terms_listed t ts
  rw [members, Arguments.plain_iff, Arguments.worded_iff, hterms]
  exact ⟨⟨fun u hu => (hts u hu).1, fun word hword => by simp [hdividers word hword]⟩,
    fun u hu => (hts u hu).2⟩

/-- In what is written for a formed expression all values and functions are words. -/
theorem plain_term_of_parts {e : Expr} (he : ∀ a, e ≠ .concept a) (h : e.Formed)
    (hparts : ∀ x ∈ e.parts, (x.term f).Plain ∧ (x.term f).Worded) :
    (e.term f).Plain ∧ (e.term f).Worded := by
  have hterms : ∀ es : List Expr, (∀ x ∈ es, (x.term f).Plain ∧ (x.term f).Worded) →
      ∀ t ∈ terms f es, t.Plain ∧ t.Worded := by
    intro es hes t ht
    rw [terms_eq_map] at ht
    obtain ⟨x, hx, rfl⟩ := List.mem_map.mp ht
    exact hes x hx
  cases e with
  | concept a => exact absurd rfl (he a)
  | literal value => exact plain_literal h
  | type datatype => exact plain_type datatype
  | call function arguments =>
    have harguments := hterms arguments hparts
    exact ⟨plain_callTerm h.1 fun t ht => (harguments t ht).1,
      worded_callTerm h.1 fun t ht => (harguments t ht).2⟩
  | binary op lhs rhs =>
    have hleft := hparts lhs (by simp [parts])
    have hright := hparts rhs (by simp [parts])
    exact ⟨⟨hleft.1, hright.1⟩, hleft.2, hright.2⟩
  | unary op operand => exact hparts operand (by simp [parts])
  | isNull operand negated => exact hparts operand (by simp [parts])
  | inList operand items negated =>
    have hoperand := hparts operand (by simp [parts])
    have hitems := hterms items fun x hx => hparts x (List.mem_cons_of_mem operand hx)
    have hmembers := plain_members (by simpa [terms_eq_map] using h.2.2.1) hitems
    exact ⟨⟨hoperand.1, hmembers.1⟩, hoperand.2, hmembers.2⟩
  | paren inner => exact hparts inner (by simp [parts])

end Words

section Grading

/-- The operands of an operator, with how tightly each has to bind. -/
def operands : Expr → List (Level × Expr)
  | binary op lhs rhs => [(op.left, lhs), (op.right, rhs)]
  | unary op operand => [(op.level, operand)]
  | isNull operand _ | inList operand _ _ => [(.sum, operand)]
  | concept _ | literal _ | type _ | call _ _ | paren _ => []

theorem graded_members {ts : List Term} : (members ts).Graded ↔ ∀ t ∈ ts, t.Graded := by
  cases ts with
  | nil => simp [members, Arguments.Graded, Term.Graded]
  | cons t ts => rw [members, Arguments.graded_iff, (terms_listed t ts).1]

theorem spaced_members {ts : List Term} : (members ts).Spaced ↔ ∀ t ∈ ts, t.Spaced := by
  cases ts with
  | nil => simp [members, Arguments.Spaced, Term.Spaced]
  | cons t ts => rw [members, Arguments.spaced_iff, (terms_listed t ts).1]

/-- A term is graded if those of all parts are and no operand is too loose. A call of `like`
has operands as well. -/
theorem graded_term_iff {e : Expr} (he : ∀ a, e ≠ .concept a) : (e.term f).Graded ↔
    (∀ o ∈ e.operands, o.1.rank ≤ (o.2.term f).level.rank) ∧
    (∀ x y, e = .call "like" [x, y] → ∀ z ∈ [x, y], Level.sum.rank ≤ (z.term f).level.rank) ∧
    ∀ x ∈ e.parts, (x.term f).Graded := by
  cases e with
  | concept a => exact absurd rfl (he a)
  | literal value => simp [term, Term.Graded, operands, parts]
  | type datatype => simp [term, Term.Graded, operands, parts]
  | call function arguments =>
    have hparts : (∀ t ∈ terms f arguments, t.Graded) ↔ ∀ x ∈ arguments, (x.term f).Graded := by
      simp [terms_eq_map]
    rw [term, graded_callTerm, hparts, operands, parts]
    simp only [List.not_mem_nil, false_implies, implies_true, true_and]
    refine and_congr_left' ⟨?_, ?_⟩
    · intro h x y heq z hz
      obtain ⟨rfl, rfl⟩ := Expr.call.inj heq
      rw [terms_eq_map] at h
      exact h (x.term f) (y.term f) rfl rfl _ (List.mem_map_of_mem hz)
    · rintro h a b rfl hterms t ht
      rw [terms_eq_map] at hterms ht
      obtain ⟨x, rest, rfl, -, hrest⟩ := List.map_eq_cons_iff.mp hterms
      obtain ⟨y, rest, rfl, -, hrest⟩ := List.map_eq_cons_iff.mp hrest
      obtain rfl := List.map_eq_nil_iff.mp hrest
      obtain ⟨z, hz, rfl⟩ := List.mem_map.mp ht
      exact h x y rfl z hz
  | binary op lhs rhs => simp [term, Term.Graded, operands, parts, and_assoc]
  | unary op operand => simp [term, Term.Graded, operands, parts]
  | isNull operand negated => simp [term, Term.Graded, operands, parts]
  | inList operand items negated =>
    simp [term, Term.Graded, operands, parts, graded_members, terms_eq_map]
  | paren inner => simp [term, Term.Graded, operands, parts]

theorem spaced_term_iff {e : Expr} (he : ∀ a, e ≠ .concept a) : (e.term f).Spaced ↔
    (∀ x, e = .unary .neg x → (x.term f).signed = false) ∧ ∀ x ∈ e.parts, (x.term f).Spaced := by
  cases e with
  | concept a => exact absurd rfl (he a)
  | literal value => simp [term, Term.Spaced, parts]
  | type datatype => simp [term, Term.Spaced, parts]
  | call function arguments => simp [term, spaced_callTerm, parts, terms_eq_map]
  | binary op lhs rhs => simp [term, Term.Spaced, parts]
  | unary op operand => cases op <;> simp [term, Term.Spaced, parts]
  | isNull operand negated => simp [term, Term.Spaced, parts]
  | inList operand items negated => simp [term, Term.Spaced, parts, spaced_members, terms_eq_map]
  | paren inner => simp [term, Term.Spaced, parts]

/-- The operands of a formed expression are as tight as they have to be, as they stand. -/
theorem formed_operand {e x : Expr} {level : Level} (h : e.Formed) (hx : (level, x) ∈ e.operands) :
    level.rank ≤ x.level.rank := by
  cases e with
  | binary op lhs rhs =>
    simp only [operands, List.mem_cons, Prod.mk.injEq, List.not_mem_nil, or_false] at hx
    obtain ⟨rfl, rfl⟩ | ⟨rfl, rfl⟩ := hx
    · exact h.1
    · exact h.2.1
  | unary op operand =>
    obtain ⟨rfl, rfl⟩ := Prod.mk.inj (List.mem_singleton.mp hx)
    exact h.1
  | isNull operand negated =>
    obtain ⟨rfl, rfl⟩ := Prod.mk.inj (List.mem_singleton.mp hx)
    exact h.1
  | inList operand items negated =>
    obtain ⟨rfl, rfl⟩ := Prod.mk.inj (List.mem_singleton.mp hx)
    exact h.1
  | _ => cases hx

theorem formed_part {e x : Expr} (h : e.Formed) (hx : x ∈ e.parts) : x.Formed := by
  cases e with
  | call function arguments => exact formedAll_iff.mp h.2 x hx
  | binary op lhs rhs =>
    simp only [parts, List.mem_cons, List.not_mem_nil, or_false] at hx
    rcases hx with rfl | rfl
    · exact h.2.2.1
    · exact h.2.2.2
  | unary op operand =>
    obtain rfl := List.mem_singleton.mp hx
    exact h.2
  | isNull operand negated =>
    obtain rfl := List.mem_singleton.mp hx
    exact h.2
  | inList operand items negated =>
    rcases List.mem_cons.mp hx with rfl | hx
    · exact h.2.1
    · exact formedAll_iff.mp h.2.2.2 x hx
  | paren inner =>
    obtain rfl := List.mem_singleton.mp hx
    exact h
  | _ => cases hx

/-- What is written binds as the expression does, concepts and calls of `like` apart. -/
theorem level_term {x : Expr} (hconcept : ∀ a, x ≠ .concept a)
    (hlike : ∀ y z, x ≠ .call "like" [y, z]) : (x.term f).level = x.level := by
  cases x with
  | concept a => exact absurd rfl (hconcept a)
  | call function arguments =>
    refine (level_callTerm fun a b hfunction hterms => ?_).1
    rw [terms_eq_map] at hterms
    obtain ⟨y, rest, rfl, -, hrest⟩ := List.map_eq_cons_iff.mp hterms
    obtain ⟨z, rest, rfl, -, hrest⟩ := List.map_eq_cons_iff.mp hrest
    obtain rfl := List.map_eq_nil_iff.mp hrest
    exact hlike y z (by rw [hfunction])
  | _ => rfl

end Grading

end Expr

end ConceptQuery
