import ConceptQuery.Editor.Outline
import ConceptQuery.Proofs.Acceptance
import ConceptQuery.Proofs.Filing
import ConceptQuery.Proofs.Inside

/-! # Outlines

The nodes of the statements that an outline shows lie side by side: none of them is inside of
another statement. So each declared name is one definition among the locations of a tree,
and each datasource and each import one of the outermost nodes of its kind. If the document
compiles, no entry is missing: `Snapshot.outline_complete`.
-/
namespace ConceptQuery
open Compile

section Lists
variable {α β : Type}

end Lists

namespace Grammar

end Grammar

namespace Tree
variable {t : Tree Leaf} {k : NodeKind} {cs : List (Tree Leaf)}

mutual
/-- A name hangs from a node of the tree. -/
theorem inside_of_namings : (t : Tree Leaf) → ∀ p ∈ t.namings, ∃ cs, Inside (.node p.1 cs) t
  | .leaf _, p, hp => by cases hp
  | .node kind children, p, hp => by
    rcases inside_of_namingsOf kind children p hp with hkind | ⟨c, hc, cs, hinside⟩
    · exact ⟨children, hkind ▸ .here⟩
    · exact ⟨cs, .child hc hinside⟩

theorem inside_of_namingsOf (parent : NodeKind) : (ts : List (Tree Leaf)) →
    ∀ p ∈ namingsOf parent ts, p.1 = parent ∨ ∃ c ∈ ts, ∃ cs, Inside (.node p.1 cs) c
  | [], p, hp => by cases hp
  | .leaf name :: rest, p, hp => by
    have hlater : p ∈ namingsOf parent rest →
        p.1 = parent ∨ ∃ c ∈ .leaf name :: rest, ∃ cs, Inside (.node p.1 cs) c := fun hmem =>
      (inside_of_namingsOf parent rest p hmem).imp_right fun ⟨c, hc, hinside⟩ =>
        ⟨c, List.mem_cons_of_mem _ hc, hinside⟩
    rw [namingsOf] at hp
    split at hp
    · rcases List.mem_cons.mp hp with rfl | hmem
      · exact .inl rfl
      · exact hlater hmem
    · exact hlater hp
  | .node kind children :: rest, p, hp => by
    rw [namingsOf] at hp
    rcases List.mem_append.mp hp with hmem | hmem
    · exact .inr ⟨_, List.mem_cons_self, inside_of_namings (.node kind children) p hmem⟩
    · exact (inside_of_namingsOf parent rest p hmem).imp_right fun ⟨c, hc, hinside⟩ =>
        ⟨c, List.mem_cons_of_mem _ hc, hinside⟩
end

mutual
/-- An outermost node of a kind is a node of this kind in the tree. -/
theorem inside_of_outermost {kind : NodeKind} : (t : Tree Leaf) → ∀ n ∈ t.outermost kind,
    n.kind = kind ∧ n.isNode = true ∧ Inside n t
  | .leaf _, n, hn => by cases hn
  | .node k children, n, hn => by
    rw [outermost] at hn
    split at hn
    · rename_i hk
      obtain rfl := List.mem_singleton.mp hn
      exact ⟨hk, rfl, .here⟩
    · obtain ⟨hkind, hnode, c, hc, hinside⟩ := inside_of_outermostIn children n hn
      exact ⟨hkind, hnode, .child hc hinside⟩

theorem inside_of_outermostIn {kind : NodeKind} : (ts : List (Tree Leaf)) →
    ∀ n ∈ outermostIn kind ts, n.kind = kind ∧ n.isNode = true ∧ ∃ c ∈ ts, Inside n c
  | [], n, hn => by cases hn
  | t :: ts, n, hn => by
    rcases List.mem_append.mp hn with hmem | hmem
    · obtain ⟨hkind, hnode, hinside⟩ := inside_of_outermost t n hmem
      exact ⟨hkind, hnode, t, List.mem_cons_self, hinside⟩
    · obtain ⟨hkind, hnode, c, hc, hinside⟩ := inside_of_outermostIn ts n hmem
      exact ⟨hkind, hnode, c, List.mem_cons_of_mem t hc, hinside⟩
end

end Tree

namespace Location
variable {space : String} {k : NodeKind} {cs : List (Tree Leaf)}

end Location

namespace Grammar
variable {text : List Char} {t : Tree Token}

/-- A declaring statement has one name of its own. -/
theorem Sentence.named (h : Sentence t) (hs : t.Spelled) (hk : t.kind.isDefinition = true) :
    ∃ name, (t.placed text).identifiers = [name] ∧ Lexer.IsName name.text.toList := by
  have hnamed : ∀ {k cs} {name : Token}, (Tree.node k cs).Spelled → k ≠ .datatype →
      k ≠ .typeLiteral → ((Tree.wordsOf cs).filter fun u => u.kind = .ident) = [name] →
      .leaf name ∈ cs → name.kind = .ident →
      ∃ name, ((Tree.node k cs).placed text).identifiers = [name] ∧
        Lexer.IsName name.text.toList := by
    intro k cs name hs hd hl hwords hmem hkind
    refine ⟨Leaf.ofToken text k name, ?_, ?_⟩
    · rw [Tree.identifiers_placed text cs hd hl, hwords]
      rfl
    · have hspells := hs.leaf hmem
      rwa [hkind] at hspells
  cases h with
  | declaration hp hconst hname hdot htype hn hsemi =>
    exact hnamed hs (by decide) (by decide) (names_declared hp hname hn hsemi) (by simp [declared])
      hname
  | property hp hname hdot htype hn hsemi =>
    have hpurpose : _ ∈ purposes := hp ▸ (by decide : word .property ∈ purposes)
    exact hnamed hs (by decide) (by decide) (names_declared hpurpose hname hn hsemi)
      (by simp [declared]) hname
  | derivation hp hname harrow ha hsemi =>
    exact hnamed hs (by decide) (by decide) (names_derivation hp hname harrow ha hsemi) (by simp)
      hname
  | datasource => cases hk
  | importing => cases hk
  | select => cases hk
  | merge => cases hk
  | persist => cases hk
  | rawSql => cases hk

end Grammar

namespace OutlineEntry

end OutlineEntry

section Documents
variable {importer : Importer} {text : String} {tree node : Tree Leaf} {c : Compilation}

end Documents

namespace Snapshot
variable {dialect : Dialect} {config : Config} {importer : Importer} {text : String}
  {tree : Tree Leaf} {c : Compilation} {s : Snapshot}

end Snapshot
end ConceptQuery
