import ConceptQuery.Proofs.Lossless

/-! # Assembling a tree step by step

`Assembly` is a tree under construction: nodes are opened, tokens are put in, and
nodes are finished. An operation out of order has no result. `Assembly.document`
reads a text with these operations alone. It remembers checkpoints, opens a node
around what came after one of them, and finishes all open nodes when a statement
gets stuck. `document_eq` says that it never runs out of order, that it comes to an
end within a number of rounds linear in the number of tokens, and that its tree
and faults are those of `Parsed.ofText`.
-/
namespace ConceptQuery

/-- The open nodes, innermost first, each with the number of elements there were
before it, and the elements that are complete. -/
structure Assembly where
  opened : List (NodeKind × Nat)
  elements : List (Tree Token)

namespace Assembly

def empty : Assembly := ⟨[], []⟩

def put (a : Assembly) (tokens : List Token) : Assembly :=
  { a with elements := a.elements ++ tokens.map .leaf }

def start (a : Assembly) (kind : NodeKind) : Assembly :=
  { a with opened := (kind, a.elements.length) :: a.opened }

def checkpoint (a : Assembly) : Nat :=
  a.elements.length

/-- Opens a node around all elements since a checkpoint. There must be a
checkpoint, it must not be ahead, and it must not lie outside the innermost open
node. -/
def startAt (a : Assembly) (checkpoint : Option Nat) (kind : NodeKind) : Option Assembly :=
  match checkpoint with
  | none => none
  | some c =>
    if c ≤ a.elements.length ∧ ∀ p ∈ a.opened.head?, p.2 ≤ c then
      some { a with opened := (kind, c) :: a.opened }
    else none

/-- Finishes the innermost node; there must be one. -/
def finish (a : Assembly) : Option Assembly :=
  match a.opened with
  | [] => none
  | (kind, first) :: opened =>
    some ⟨opened, a.elements.take first ++ [.node kind (a.elements.drop first)]⟩

def finishTimes : Nat → Assembly → Option Assembly
  | 0, a => some a
  | n + 1, a => a.finish.bind (finishTimes n)

/-- The tree, once no node is open and there is exactly one element, a node. -/
def root? (a : Assembly) : Option (Tree Token) :=
  match a with
  | ⟨[], [.node kind children]⟩ => some (.node kind children)
  | _ => none

/-- How far a rule got: to its end, or to a lexeme that does not fit. -/
inductive Run where
  | finished (a : Assembly) (rest : List Lexeme)
  | aborted (a : Assembly) (expected : List TokenKind) (rest : List Lexeme)

/-- Follows one rule, given how to follow a rule once more. -/
def follow (rules : Nonterminal → Rule)
    (again : Rule → Option Nat → Assembly → List Lexeme → Option Run) :
    Rule → (checkpoint : Option Nat) → Assembly → List Lexeme → Option Run
  | .done, _, a, input => some (.finished a input)
  | .expect k, _, a, l :: rest =>
    if l.kind = k then some (.finished (a.put l.tokens) rest)
    else some (.aborted a [k] (l :: rest))
  | .expect k, _, a, [] => some (.aborted a [k] [])
  | .take, _, a, l :: rest => some (.finished (a.put l.tokens) rest)
  | .take, _, a, [] => some (.finished a [])
  | .refuse expected, _, a, input => some (.aborted a expected input)
  | .seq first second, c, a, input =>
    match follow rules again first c a input with
    | some (.finished a rest) => follow rules again second c a rest
    | other => other
  | .branch look yes no, c, a, input =>
    if look (Look.words input) then follow rules again yes c a input
    else follow rules again no c a input
  | .loop look body, c, a, input =>
    if look (Look.words input) then
      match follow rules again body c a input with
      | some (.finished a rest) => again (.loop look body) c a rest
      | other => other
    else some (.finished a input)
  | .node kind body, c, a, input =>
    match follow rules again body c (a.start kind) input with
    | some (.finished a rest) => a.finish.map fun a => .finished a rest
    | other => other
  | .mark body, _, a, input => follow rules again body (some a.checkpoint) a input
  | .wrap kind body, c, a, input =>
    (a.startAt c kind).bind fun a =>
      match follow rules again body c a input with
      | some (.finished a rest) => a.finish.map fun a => .finished a rest
      | other => other
  | .call name, _, a, input => again (rules name) none a input

/-- Follows a rule; without a result after more than `rounds` nested calls and
rounds of loops. -/
def followWithin (rules : Nonterminal → Rule) :
    (rounds : Nat) → Rule → Option Nat → Assembly → List Lexeme → Option Run
  | 0, _, _, _, _ => none
  | rounds + 1, rule, c, a, input => follow rules (followWithin rules rounds) rule c a input

/-- Puts in the rest of a statement that got stuck. -/
def swallow (a : Assembly) : List Lexeme → Assembly × List Lexeme
  | [] => (a, [])
  | l :: rest =>
    if Grammar.statementStart.contains l.kind && l.startsLine then (a, l :: rest)
    else if l.kind = Grammar.punct .semicolon then (a.put l.tokens, rest)
    else swallow (a.put l.tokens) rest

/-- Puts the rest of a stuck statement into an error node, and finishes nodes until
no more are open than before the statement. -/
def recover (a : Assembly) (depth : Nat) (input : List Lexeme) :
    Option (Assembly × List Lexeme) :=
  let swallowed := (a.start .error).swallow input
  (swallowed.1.finish.bind fun a => a.finishTimes (a.opened.length - depth)).map
    fun a => (a, swallowed.2)

def statements (textSize rounds : Nat) :
    Nat → Assembly → List Lexeme → Option (Assembly × List Fault)
  | _, a, [] => some (a, [])
  | 0, _, _ :: _ => none
  | n + 1, a, l :: lexemes =>
    match followWithin Grammar.rules rounds Grammar.statement none a (l :: lexemes) with
    | some (.finished a rest) => statements textSize rounds n a rest
    | some (.aborted b expected rest) =>
      (b.recover a.opened.length rest).bind fun r =>
        (statements textSize rounds n r.1 r.2).map fun s =>
          (s.1, Grammar.faultAt textSize expected rest :: s.2)
    | none => none

/-- Reads a text by assembling its tree, in at most so many rounds. -/
def document (rounds : Nat) (text : String) : Option Parsed :=
  let tokens := Token.scan text
  let leading := tokens.takeWhile fun t => t.kind.isTrivia
  let lexemes := Lexeme.group (Lexeme.breaksLine leading) tokens
  let a := (empty.start .sourceFile).put leading
  (statements text.utf8ByteSize rounds rounds a lexemes).bind fun s =>
    s.1.finish.bind fun a => a.root?.map fun tree => ⟨tree, s.2⟩

end Assembly

namespace Rule

/-- Whether every `wrap` has a mark to reach back to, with no node between them;
`marked` says whether there is one around the rule. -/
def anchored : (marked : Bool) → Rule → Bool
  | marked, seq a b => a.anchored marked && b.anchored marked
  | marked, branch _ a b => a.anchored marked && b.anchored marked
  | marked, loop _ body => body.anchored marked
  | _, node _ body => body.anchored false
  | _, mark body => body.anchored true
  | marked, wrap _ body => marked && body.anchored marked
  | _, _ => true

/-- Whether the calls before the next lexeme stay within the budget, where `need`
is what a rule that is called needs, and whether each round of a loop takes a
lexeme. A lexeme is worth four. -/
def fits (need : Nonterminal → Nat) : (more : Bool) → (budget : Nat) → Rule → Bool
  | more, budget, seq a b =>
    a.fits need more budget && b.fits need false (if a.consumes more then budget + 4 else budget)
  | more, budget, branch look a b =>
    a.fits need (more || !look []) budget && b.fits need more budget
  | _, budget, loop look body => !look [] && body.consumes true && body.fits need true budget
  | more, budget, node _ body => body.fits need more budget
  | more, budget, mark body => body.fits need more budget
  | more, budget, wrap _ body => body.fits need more budget
  | _, budget, call name => need name < budget
  | _, _, _ => true

end Rule

namespace Unfinished

/-- The assembly that a stuck reading stands for, on top of what there was. -/
def assembly (opened : List (NodeKind × Nat)) (base : List (Tree Token)) : Unfinished → Assembly
  | here made => ⟨opened, base ++ made⟩
  | inside made kind inner =>
    inner.assembly ((kind, (base ++ made).length) :: opened) (base ++ made)

theorem assembly_after (opened : List (NodeKind × Nat)) (base before : List (Tree Token))
    (u : Unfinished) : (u.after before).assembly opened base = u.assembly opened (base ++ before) := by
  cases u with
  | here made => simp [after, assembly]
  | inside made kind inner => simp [after, assembly]

end Unfinished

namespace Assembly
open Rule

/-- The run that a reading stands for. -/
def Run.ofReading (opened : List (NodeKind × Nat)) (base : List (Tree Token)) : Reading → Run
  | .made elements rest => .finished ⟨opened, base ++ elements⟩ rest
  | .stuck unfinished expected rest => .aborted (unfinished.assembly opened base) expected rest

theorem put_tokens (opened : List (NodeKind × Nat)) (elements : List (Tree Token)) (l : Lexeme) :
    put ⟨opened, elements⟩ l.tokens = ⟨opened, elements ++ l.elements⟩ :=
  rfl

theorem finish_cons (kind : NodeKind) (opened : List (NodeKind × Nat))
    (base inner : List (Tree Token)) :
    finish ⟨(kind, base.length) :: opened, base ++ inner⟩ =
      some ⟨opened, base ++ [.node kind inner]⟩ := by
  simp [finish]

theorem first_le_append {opened : List (NodeKind × Nat)} {base : List (Tree Token)}
    (hfirst : ∀ p ∈ opened.head?, p.2 ≤ base.length) (more : List (Tree Token)) :
    ∀ p ∈ opened.head?, p.2 ≤ (base ++ more).length := by
  intro p hp
  have := hfirst p hp
  rw [List.length_append]
  omega

/-- What is known before a rule is followed: the rule fits its budget, a mark it
may reach back to is the last checkpoint, and no open node starts behind that. -/
structure Ready (need : Nonterminal → Nat) (more marked : Bool) (budget : Nat) (rule : Rule)
    (c : Option Nat) (opened : List (NodeKind × Nat)) (base : List (Tree Token))
    (input : List Lexeme) : Prop where
  fits : rule.fits need more budget = true
  anchored : rule.anchored marked = true
  more : more = true → input ≠ []
  mark : marked = true → c = some base.length
  first : ∀ p ∈ opened.head?, p.2 ≤ base.length

section Simulation
variable {rules : Nonterminal → Rule} {need : Nonterminal → Nat} {rounds fuel : Nat}

/-- With this number of rounds and this fuel, following a rule and reading it come
to the same. -/
def Agree (rules : Nonterminal → Rule) (need : Nonterminal → Nat) (rounds fuel : Nat) : Prop :=
  ∀ {more marked budget rule c opened base input},
    Ready need more marked budget rule c opened base input →
    4 * input.length + budget < rounds → 4 * input.length + budget < fuel →
    ∀ made, followWithin rules rounds rule c ⟨opened, base ++ made⟩ input =
      some (.ofReading opened base (Rule.read rules fuel rule made input))

theorem follow_eq_step (hfits : ∀ name, (rules name).fits need false (need name) = true)
    (hanchored : ∀ name, (rules name).anchored false = true) (ih : Agree rules need rounds fuel) :
    Agree rules need (rounds + 1) (fuel + 1) := by
  intro more marked budget rule c opened base input h hrounds hfuel made
  rw [followWithin, Rule.read]
  have hkeeps : ∀ rule made input, (Rule.read rules fuel rule made input).Keeps made input :=
    read_keeps fuel
  induction rule generalizing more marked budget c opened base input made with
  | done => rfl
  | expect k =>
    cases input with
    | nil => rfl
    | cons l input =>
      rw [follow, step, put_tokens]
      split
      · simp [Run.ofReading]
      · rfl
  | take =>
    cases input with
    | nil => rfl
    | cons l input =>
      rw [follow, step, put_tokens]
      simp [Run.ofReading]
  | refuse expected => rfl
  | seq a b iha ihb =>
    obtain ⟨hfa, hfb⟩ := Bool.and_eq_true_iff.mp h.fits
    obtain ⟨haa, hab⟩ := Bool.and_eq_true_iff.mp h.anchored
    rw [follow, step, iha ⟨hfa, haa, h.more, h.mark, h.first⟩ hrounds hfuel]
    cases ha : step rules (Rule.read rules fuel) a made input with
    | made mid rest =>
      have hle : rest.length ≤ input.length := by
        have hk : (step rules (Rule.read rules fuel) a made input).Keeps made input :=
          step_keeps hkeeps a made input
        rw [ha] at hk
        exact hk.suffix.length_le
      have hready : Ready need false marked (if a.consumes more then budget + 4 else budget) b c
          opened base rest := ⟨hfb, hab, by simp, h.mark, h.first⟩
      by_cases hc : a.consumes more = true
      · have hlt := length_lt_of_consumes hkeeps hc h.more ha
        rw [if_pos hc] at hready
        exact ihb hready (by omega) (by omega) mid
      · rw [if_neg hc] at hready
        exact ihb hready (by omega) (by omega) mid
    | stuck u expected rest => rfl
  | branch look a b iha ihb =>
    obtain ⟨hfa, hfb⟩ := Bool.and_eq_true_iff.mp h.fits
    obtain ⟨haa, hab⟩ := Bool.and_eq_true_iff.mp h.anchored
    rw [follow, step]
    split
    · rename_i hlook
      refine iha ⟨hfa, haa, fun hm => ?_, h.mark, h.first⟩ hrounds hfuel made
      rcases Bool.or_eq_true_iff.mp hm with hm | hm
      · exact h.more hm
      · exact ne_nil_of_look hlook (by simpa using hm)
    · exact ihb ⟨hfb, hab, h.more, h.mark, h.first⟩ hrounds hfuel made
  | loop look body ihbody =>
    have hfits := h.fits
    simp only [Rule.fits, Bool.and_eq_true, Bool.not_eq_true'] at hfits
    obtain ⟨⟨hnil, hconsumes⟩, hbody⟩ := hfits
    rw [follow, step]
    split
    · rename_i hlook
      have hne := ne_nil_of_look hlook hnil
      rw [ihbody ⟨hbody, h.anchored, fun _ => hne, h.mark, h.first⟩ hrounds hfuel]
      cases hb : step rules (Rule.read rules fuel) body made input with
      | made mid rest =>
        have hlt := length_lt_of_consumes hkeeps hconsumes (fun _ => hne) hb
        have hready : Ready need false marked budget (loop look body) c opened base rest :=
          ⟨h.fits, h.anchored, by simp, h.mark, h.first⟩
        exact ih hready (by omega) (by omega) mid
      | stuck u expected rest => rfl
    · rfl
  | node kind body ihbody =>
    have hready : Ready need more false budget body c ((kind, (base ++ made).length) :: opened)
        (base ++ made) input := ⟨h.fits, h.anchored, h.more, by simp, by simp⟩
    have hbody := ihbody hready hrounds hfuel []
    rw [List.append_nil] at hbody
    rw [follow, step, start, hbody]
    cases hb : step rules (Rule.read rules fuel) body [] input with
    | made inner rest =>
      simp only [Run.ofReading, finish_cons, Option.map_some]
      rw [List.append_assoc]
    | stuck u expected rest => rfl
  | mark body ihbody =>
    have hready : Ready need more true budget body (some (base ++ made).length) opened
        (base ++ made) input :=
      ⟨h.fits, h.anchored, h.more, fun _ => rfl, first_le_append h.first made⟩
    have hbody := ihbody hready hrounds hfuel []
    rw [List.append_nil] at hbody
    rw [follow, step, checkpoint, hbody]
    cases hb : step rules (Rule.read rules fuel) body [] input with
    | made inner rest => simp only [Run.ofReading, List.append_assoc]
    | stuck u expected rest => simp only [Run.ofReading, Unfinished.assembly_after]
  | wrap kind body ihbody =>
    obtain ⟨hmarked, hanchored⟩ := Bool.and_eq_true_iff.mp h.anchored
    have hc := h.mark hmarked
    have hstart : startAt ⟨opened, base ++ made⟩ c kind =
        some ⟨(kind, base.length) :: opened, base ++ made⟩ := by
      rw [hc, startAt]
      exact if_pos ⟨by simp, h.first⟩
    have hready : Ready need more marked budget body c ((kind, base.length) :: opened) base input :=
      ⟨h.fits, hanchored, h.more, h.mark, by simp⟩
    rw [follow, step, hstart, Option.bind_some, ihbody hready hrounds hfuel made]
    cases hb : step rules (Rule.read rules fuel) body made input with
    | made inner rest => simp only [Run.ofReading, finish_cons, Option.map_some]
    | stuck u expected rest => simp [Run.ofReading, Unfinished.assembly]
  | call name =>
    have hneed : need name < budget := by simpa [Rule.fits] using h.fits
    exact ih ⟨hfits name, hanchored name, by simp, by simp, h.first⟩ (by omega) (by omega) made

theorem followWithin_eq_read (hfits : ∀ name, (rules name).fits need false (need name) = true)
    (hanchored : ∀ name, (rules name).anchored false = true) (rounds fuel : Nat) :
    Agree rules need rounds fuel := by
  induction rounds generalizing fuel with
  | zero =>
    intro more marked budget rule c opened base input h hrounds
    omega
  | succ rounds ih =>
    cases fuel with
    | zero =>
      intro more marked budget rule c opened base input h hrounds hfuel
      omega
    | succ fuel => exact follow_eq_step hfits hanchored (ih fuel)

end Simulation

section Recovery

/-- The number of open nodes. -/
def depth : Unfinished → Nat
  | .here _ => 0
  | .inside _ _ inner => depth inner + 1

theorem length_opened (opened : List (NodeKind × Nat)) (base : List (Tree Token))
    (u : Unfinished) : (u.assembly opened base).opened.length = opened.length + depth u := by
  induction u generalizing opened base with
  | here made => rfl
  | inside made kind inner ih =>
    rw [Unfinished.assembly, ih, depth, List.length_cons]
    omega

theorem swallow_eq (opened : List (NodeKind × Nat)) (elements : List (Tree Token))
    (input : List Lexeme) :
    swallow ⟨opened, elements⟩ input =
      (⟨opened, elements ++ (Grammar.swallow input).1⟩, (Grammar.swallow input).2) := by
  induction input generalizing elements with
  | nil => simp [swallow, Grammar.swallow]
  | cons l rest ih =>
    rw [swallow, Grammar.swallow]
    split
    · simp
    · split
      · rfl
      · rw [put_tokens, ih]
        simp

/-- Finishing the nodes of a stuck reading closes them around their last element;
`n` more are finished then. -/
theorem finishTimes_assembly (n : Nat) (last : Tree Token) (opened : List (NodeKind × Nat))
    (base : List (Tree Token)) (u : Unfinished) :
    finishTimes (depth u + n) ⟨(u.assembly opened base).opened,
        (u.assembly opened base).elements ++ [last]⟩ =
      finishTimes n ⟨opened, base ++ u.close last⟩ := by
  induction u generalizing n opened base with
  | here made => simp [depth, Unfinished.assembly, Unfinished.close]
  | inside made kind inner ih =>
    have hcount : depth (.inside made kind inner) + n = depth inner + (n + 1) := by
      rw [depth]
      omega
    rw [hcount, Unfinished.assembly, ih, finishTimes, finish_cons, Option.bind_some,
      Unfinished.close, List.append_assoc]

theorem recover_eq (opened : List (NodeKind × Nat)) (base : List (Tree Token)) (u : Unfinished)
    (input : List Lexeme) :
    recover (u.assembly opened base) opened.length input =
      some (⟨opened, base ++ u.close (.node .error (Grammar.swallow input).1)⟩,
        (Grammar.swallow input).2) := by
  have hcount : (u.assembly opened base).opened.length - opened.length = depth u + 0 := by
    rw [length_opened]
    omega
  rw [recover, start, swallow_eq]
  simp only [finish_cons, Option.bind_some]
  rw [hcount, finishTimes_assembly]
  rfl

end Recovery

section Documents
open Grammar

/-- What the rules that are called need before they take a lexeme. -/
def need : Nonterminal → Nat
  | .signed => 0
  | .negation => 1
  | .expression => 2

theorem rules_fit (name : Nonterminal) : (rules name).fits need false (need name) = true := by
  cases name <;> decide

theorem rules_anchored (name : Nonterminal) : (rules name).anchored false = true := by
  cases name <;> decide

theorem followWithin_statement {rounds : Nat} {opened : List (NodeKind × Nat)}
    {base : List (Tree Token)} {l : Lexeme} {lexemes : List Lexeme}
    (hfirst : ∀ p ∈ opened.head?, p.2 ≤ base.length)
    (hrounds : 4 * (l :: lexemes).length + 4 ≤ rounds) :
    followWithin rules rounds statement none ⟨opened, base⟩ (l :: lexemes) =
      some (.ofReading opened base (readStatement (l :: lexemes))) := by
  have hready : Ready need true false 3 statement none opened base (l :: lexemes) :=
    ⟨by decide, by decide, by simp, by simp, hfirst⟩
  have hagree := followWithin_eq_read rules_fit rules_anchored rounds (fuelFor (l :: lexemes))
    hready (by omega) (by rw [fuelFor]; omega) []
  rw [List.append_nil] at hagree
  exact hagree

theorem statements_eq {textSize rounds n fuel : Nat} {opened : List (NodeKind × Nat)}
    {base : List (Tree Token)} {lexemes : List Lexeme}
    (hfirst : ∀ p ∈ opened.head?, p.2 ≤ base.length)
    (hrounds : 4 * lexemes.length + 4 ≤ rounds) (hn : lexemes.length ≤ n)
    (hfuel : lexemes.length ≤ fuel) :
    statements textSize rounds n ⟨opened, base⟩ lexemes =
      some (⟨opened, base ++ (readStatements textSize fuel lexemes).1⟩,
        (readStatements textSize fuel lexemes).2) := by
  induction n generalizing base lexemes fuel with
  | zero =>
    obtain rfl := List.length_eq_zero_iff.mp (Nat.le_zero.mp hn)
    cases fuel <;> simp [statements, readStatements]
  | succ n ih =>
    cases lexemes with
    | nil => cases fuel <;> simp [statements, readStatements]
    | cons l lexemes =>
      cases fuel with
      | zero => simp at hfuel
      | succ fuel =>
        rw [statements, followWithin_statement hfirst hrounds]
        cases hread : readStatement (l :: lexemes) with
        | made elements rest =>
          have hlt := length_rest_lt_of_made hread
          have hrest : rest.length ≤ fuel := by omega
          have hfirst := first_le_append hfirst elements
          rw [readStatements_of_made hread]
          simp only [Run.ofReading]
          rw [ih hfirst (by omega) (by omega) hrest, List.append_assoc]
        | stuck u expected rest =>
          have hlt := length_left_lt_of_stuck hread
          have hrest : (Grammar.swallow rest).2.length ≤ fuel := by omega
          have hfirst := first_le_append hfirst (u.close (.node .error (Grammar.swallow rest).1))
          rw [readStatements_of_stuck hread]
          simp only [Run.ofReading]
          rw [recover_eq, Option.bind_some, ih hfirst (by omega) (by omega) hrest, Option.map_some,
            List.append_assoc]

theorem length_group_le (startsLine : Bool) (tokens : List Token) :
    (Lexeme.group startsLine tokens).length ≤ tokens.length := by
  induction tokens generalizing startsLine with
  | nil => simp [Lexeme.group]
  | cons t rest ih =>
    rw [Lexeme.group]
    split
    · exact (ih startsLine).trans (Nat.le_succ _)
    · exact Nat.succ_le_succ (ih _)

/-- Assembling the tree of a text never goes wrong and comes to an end. -/
theorem document_eq (text : String) {rounds : Nat}
    (h : 4 * (Token.scan text).length + 4 ≤ rounds) :
    document rounds text = some (Parsed.ofText text) := by
  have hle := length_group_le
    (Lexeme.breaksLine ((Token.scan text).takeWhile fun t => t.kind.isTrivia)) (Token.scan text)
  simp only [document, empty, start, put, List.nil_append]
  rw [statements_eq (by simp) (by omega) (by omega) le_rfl]
  simp [finish, root?, Parsed.ofText, readTokens]

end Documents
end Assembly
end ConceptQuery
