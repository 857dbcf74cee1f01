import ConceptQuery.Editor.SignatureHelp
import ConceptQuery.Proofs.Descriptions
import Mathlib.Data.List.DropRight
import Mathlib.Data.List.Induction

/-! # The call at the cursor

The editor reads a line backwards from the cursor and counts the closing parentheses
that it has still to match. A reader from the left keeps a stack of the parentheses that
are open instead. The two agree wherever the backward reader stands: the entry of the
stack that it will find has the number of parentheses that it has to match. At the cursor
that is the top of the stack, so `openCall?_exact` says which call is reported, and
`SignatureHelp.at?_eq_some_iff` on which call help is given.
-/
namespace ConceptQuery

namespace Text
variable {text run : List Char} {call : OpenCall} {i : Nat}

section Trimming

theorem trimLeft_eq_self (h : ∀ c ∈ run, isBlank c = false) : trimLeft run = run := by
  cases run with
  | nil => rfl
  | cons c rest => exact List.dropWhile_cons_of_neg (by simp [h c List.mem_cons_self])

theorem trim_eq_self (h : ∀ c ∈ run, isBlank c = false) : trim run = run := by
  have hreverse : ∀ c ∈ run.reverse, isBlank c = false := fun c hc => h c (List.mem_reverse.mp hc)
  rw [trim, trimLeft_eq_self h, trimLeft_eq_self hreverse, List.reverse_reverse]

theorem not_isBlank_of_isNameCharacter {c : Char} (h : isNameCharacter c = true) :
    isBlank c = false := by
  have hall : Lexer.blanks.all (fun c => !isNameCharacter c) = true := by decide +kernel
  by_contra hblank
  have hno := List.all_eq_true.mp hall c (Lexer.mem_blanks (by simpa using hblank))
  rw [h] at hno
  cases hno

end Trimming

section LastRun

/-- The longest run of name characters that ends where the text ends. -/
structure IsLastRun (text run : List Char) : Prop where
  suffix : run <:+ text
  characters : ∀ c ∈ run, isNameCharacter c = true
  longest : ∀ other, other <:+ text → (∀ c ∈ other, isNameCharacter c = true) →
    other.length ≤ run.length

theorem isLastRun_rtakeWhile (text : List Char) :
    IsLastRun text (text.rtakeWhile isNameCharacter) where
  suffix := List.rtakeWhile_suffix _ _
  characters _ hc := List.mem_rtakeWhile_imp hc
  longest other hother hcharacters := by
    obtain ⟨before, rfl⟩ := hother
    have hreverse : ∀ c ∈ other.reverse, isNameCharacter c = true :=
      fun c hc => hcharacters c (List.mem_reverse.mp hc)
    rw [List.rtakeWhile, List.reverse_append, List.takeWhile_append_of_pos hreverse,
      List.length_reverse, List.length_append, List.length_reverse]
    exact Nat.le_add_right _ _

/-- Both runs are ends of the text, and neither is longer. -/
theorem IsLastRun.unique {run' : List Char} (h : IsLastRun text run) (h' : IsLastRun text run') :
    run = run' := by
  have hle : run.length ≤ run'.length := h'.longest run h.suffix h.characters
  have hge : run'.length ≤ run.length := h.longest run' h'.suffix h'.characters
  exact (List.suffix_of_suffix_length_le h.suffix h'.suffix hle).eq_of_length (hle.antisymm hge)

theorem IsLastRun.trim_eq (h : IsLastRun text run) : trim run = run :=
  trim_eq_self fun c hc => not_isBlank_of_isNameCharacter (h.characters c hc)

end LastRun

section Stack

/-- What the character at an index does to the stack of the open parentheses, which holds
their indices. A closing parenthesis is ignored if none is open. -/
def track (stack : List Nat) (index : Nat) (c : Char) : List Nat :=
  if c = '(' then index :: stack
  else if c = ')' then stack.tail
  else stack

/-- The stack behind a text that starts at an index. -/
def trackAll (stack : List Nat) (index : Nat) : List Char → List Nat
  | [] => stack
  | c :: rest => trackAll (track stack index c) (index + 1) rest

/-- The indices of the parentheses that are open at the end of a text, the innermost first. -/
def opened (text : List Char) : List Nat :=
  trackAll [] 0 text

theorem trackAll_append (front back : List Char) (stack : List Nat) (index : Nat) :
    trackAll stack index (front ++ back) =
      trackAll (trackAll stack index front) (index + front.length) back := by
  induction front generalizing stack index with
  | nil => rfl
  | cons c front ih =>
    rw [List.cons_append, trackAll, ih, trackAll, List.length_cons, Nat.add_right_comm,
      Nat.add_assoc]

theorem opened_snoc (front : List Char) (c : Char) :
    opened (front ++ [c]) = track (opened front) front.length c := by
  rw [opened, trackAll_append, Nat.zero_add]
  rfl

theorem mem_track {stack : List Nat} {index : Nat} {c : Char} (h : i ∈ track stack index c) :
    i ∈ stack ∨ (i = index ∧ c = '(') := by
  unfold track at h
  split_ifs at h with hopen hclose
  · rcases List.mem_cons.mp h with rfl | hmem
    · exact .inr ⟨rfl, hopen⟩
    · exact .inl hmem
  · exact .inl (List.mem_of_mem_tail h)
  · exact .inl h

/-- The stack holds indices of opening parentheses. -/
theorem exists_of_mem_opened (h : i ∈ opened text) :
    ∃ front back, text = front ++ '(' :: back ∧ front.length = i := by
  induction text using List.reverseRecOn with
  | nil => cases h
  | append_singleton text c ih =>
    rw [opened_snoc] at h
    rcases mem_track h with hmem | ⟨rfl, rfl⟩
    · obtain ⟨front, back, rfl, hlength⟩ := ih hmem
      exact ⟨front, back ++ [c], by simp, hlength⟩
    · exact ⟨text, [], rfl, rfl⟩

end Stack

section Call

/-- The parenthesis at an index is that of the call: the name is the longest run of name
characters directly before it, and the commas are those anywhere behind it. -/
def OpenCall.StandsAt (call : OpenCall) (text : List Char) (index : Nat) : Prop :=
  ∃ front back, text = front ++ '(' :: back ∧ front.length = index ∧
    IsLastRun front call.name.toList ∧ call.commas = back.count ','

/-- The call of the parenthesis at an index. -/
def callAt (text : List Char) (index : Nat) : OpenCall :=
  ⟨String.ofList ((text.take index).rtakeWhile isNameCharacter), (text.drop (index + 1)).count ','⟩

theorem callAt_append (front back : List Char) :
    callAt (front ++ '(' :: back) front.length =
      ⟨String.ofList (front.rtakeWhile isNameCharacter), back.count ','⟩ := by
  rw [callAt, List.take_left, List.drop_append, List.drop_of_length_le (Nat.le_succ _),
    Nat.add_sub_cancel_left]
  rfl

theorem callAt_standsAt (h : i ∈ opened text) : (callAt text i).StandsAt text i := by
  obtain ⟨front, back, rfl, rfl⟩ := exists_of_mem_opened h
  rw [callAt_append]
  refine ⟨front, back, rfl, rfl, ?_, rfl⟩
  rw [String.toList_ofList]
  exact isLastRun_rtakeWhile front

theorem OpenCall.StandsAt.eq_callAt (h : call.StandsAt text i) : call = callAt text i := by
  obtain ⟨front, back, rfl, rfl, hname, hcommas⟩ := h
  rw [callAt_append, ← hname.unique (isLastRun_rtakeWhile front), String.ofList_toList, ← hcommas]

end Call

section Backwards

/-- Characters other than parentheses change the number of commas at most. -/
theorem openCallBackwards_cons {c : Char} (hopen : c ≠ '(') (hclose : c ≠ ')')
    (rest back : List Char) (closed : Nat) :
    openCallBackwards (c :: rest) closed (back.count ',') =
      openCallBackwards rest closed ((c :: back).count ',') := by
  by_cases hcomma : c = ','
  · rw [hcomma, List.count_cons_self]
    rfl
  · rw [List.count_cons_of_ne hcomma, openCallBackwards] <;> simp [hopen, hclose, hcomma]

/-- The backward reader has read `back` and goes on into `front`. Of the parentheses that
are open behind `front` it passes over as many as it has closing ones to match. -/
theorem openCallBackwards_reverse (front back : List Char) (closed : Nat) :
    openCallBackwards front.reverse closed (back.count ',') =
      (opened front)[closed]?.map (callAt (front ++ back)) := by
  induction front using List.reverseRecOn generalizing back closed with
  | nil => rfl
  | append_singleton front c ih =>
    -- the character read next moves from `front` to `back`, which changes the count of commas
    have hnext := ih (c :: back)
    rw [List.reverse_append, List.reverse_singleton, List.singleton_append, List.append_assoc,
      List.singleton_append, opened_snoc, track]
    by_cases hopen : c = '('
    · subst hopen
      rw [List.count_cons_of_ne (by decide)] at hnext
      rw [if_pos rfl]
      cases closed with
      | zero =>
        have htrim := (isLastRun_rtakeWhile front).trim_eq
        rw [List.getElem?_cons_zero, Option.map_some, callAt_append, openCallBackwards,
          ← List.rtakeWhile, htrim]
      | succ closed => rw [List.getElem?_cons_succ, ← hnext closed, openCallBackwards]
    · rw [if_neg hopen]
      by_cases hclose : c = ')'
      · subst hclose
        rw [List.count_cons_of_ne (by decide)] at hnext
        rw [if_pos rfl, List.getElem?_tail, ← hnext (closed + 1), openCallBackwards]
      · rw [if_neg hclose, openCallBackwards_cons hopen hclose, hnext]

/-- At the cursor no closing parenthesis has been read yet, so the entry is the top. -/
theorem openCall?_eq (before : List Char) :
    openCall? before = (opened before).head?.map (callAt before) := by
  have hscan := openCallBackwards_reverse before [] 0
  rwa [List.append_nil, ← List.head?_eq_getElem?] at hscan

theorem openCall?_eq_none_iff : openCall? text = none ↔ opened text = [] := by
  rw [openCall?_eq, Option.map_eq_none_iff, List.head?_eq_none_iff]

theorem openCall?_eq_some_iff : openCall? text = some call ↔
    ∃ index, (opened text).head? = some index ∧ call.StandsAt text index := by
  rw [openCall?_eq, Option.map_eq_some_iff]
  constructor
  · rintro ⟨index, htop, rfl⟩
    exact ⟨index, htop, callAt_standsAt (List.mem_of_head? htop)⟩
  · rintro ⟨index, htop, hcall⟩
    exact ⟨index, htop, hcall.eq_callAt.symm⟩

/-- No call is open exactly if no parenthesis is on the stack of a reader from the left.
Otherwise the call is that of the parenthesis on top of the stack, with the longest name
before it and all commas behind it. -/
theorem openCall?_exact (text : List Char) :
    (openCall? text = none ↔ opened text = []) ∧
      ∀ call, openCall? text = some call ↔
        ∃ index, (opened text).head? = some index ∧ call.StandsAt text index :=
  ⟨openCall?_eq_none_iff, fun _ => openCall?_eq_some_iff⟩

/-- A closing parenthesis that closes nothing, and a comma of a call that has closed. -/
example : openCall? "x) f(g(a, b), c".toList = some ⟨"f", 2⟩ := by decide

end Backwards

end Text

namespace SignatureHelp
variable {text : String} {p : Position} {help : SignatureHelp}

/-- Help is given on the call whose parenthesis is on top of the stack where the line is cut
off at the cursor, and on no call further out. -/
theorem at?_eq_some_iff : at? text p = some help ↔
    ∃ line, (Text.lines text.toList)[p.line]? = some line ∧ ∃ index call,
      (Text.opened (line.take p.column)).head? = some index ∧
        call.StandsAt (line.take p.column) index ∧ ofCall? call = some help := by
  simp only [at?, Text.before?, Option.bind_eq_some_iff, Option.map_eq_some_iff,
    Text.openCall?_eq_some_iff]
  constructor
  · rintro ⟨call, ⟨_, ⟨line, hline, rfl⟩, index, htop, hcall⟩, hhelp⟩
    exact ⟨line, hline, index, call, htop, hcall, hhelp⟩
  · rintro ⟨line, hline, index, call, htop, hcall, hhelp⟩
    exact ⟨call, ⟨_, ⟨line, hline, rfl⟩, index, htop, hcall⟩, hhelp⟩

end SignatureHelp
end ConceptQuery
