import ParametricGrammar.Bnf.Clause
import ParametricGrammar.Proofs.Dialect.Shapes
/-!
# What translation looks up

Every tree that the dialect gives for a grammar text has the parts and texts that its translation
asks for.
-/

namespace ParametricGrammar

namespace Bnf

namespace Dialect

variable {source : List Char} {tree part : Tree}

/-! ### What is looked up -/

/-- What the translation looks up in a tree is there: the children that it asks for, the first part
of an atom, and texts of the kinds that it tells apart. -/
def LookupsSucceed (source : List Char) (tree : Tree) : Prop :=
  match tree.name with
  | "production" =>
      (tree.child? "production-name").isSome ∧ (tree.child? "alternation").isSome
  | "section-number" => (tree.child? "decimal").isSome
  | "difference" => tree.children "quantified" ≠ []
  | "quantified" => (tree.child? "atom").isSome
  | "quantifier" =>
      tree.text source ∈ ["?", "*", "+"] ∨ (tree.child? "param-sum").isSome
  | "atom" => ∃ part, tree.content.head? = some part ∧ part.name ∈ closedAtoms ++ ["reference"]
  | "lookaround" | "group" => (tree.child? "alternation").isSome
  | "code-point-range" => 2 ≤ (tree.children "range-bound").length
  | "range-bound" => (tree.child? "hex-char").isSome ∨ (tree.child? "quoted-char").isSome
  | "quoted-char" => quotedContent (tree.text source).toList ≠ []
  | "reference" => (tree.child? "production-name").isSome
  | "parameter" =>
      ∃ name ∈ ["in-flow", "context-value", "chomping-value", "param-sum"],
        (tree.child? name).isSome
  | "in-flow" => (tree.child? "param-variable").isSome
  | "context-value" => (Context.ofText? (tree.text source)).isSome
  | "chomping-value" => (Chomping.ofText? (tree.text source)).isSome
  | "param-term" => (tree.child? "param-variable").isSome ∨ (tree.child? "decimal").isSome
  | "param-variable" => (Formal.ofText? (tree.text source)).isSome
  | _ => True

private theorem Parsed.isSome_child? {nodes : List Node} {kind name : String}
    (parsed : Parsed source tree) (named : tree.name = kind)
    (found : rules.lookup kind = some (.sequence nodes)) (among : .call name ∈ nodes) :
    (tree.child? name).isSome :=
  Option.isSome_iff_exists.mpr (parsed.exists_child? named found among)

private theorem isSome_child?_of_content {name : String} (only : tree.content = [part])
    (named : part.name = name) : (tree.child? name).isSome := by
  simp [Tree.child?, only, named]

/-- Trees of grammar texts have what their translation looks up. -/
theorem Parsed.lookupsSucceed (parsed : Parsed source tree) : LookupsSucceed source tree := by
  unfold LookupsSucceed
  split
  case h_1 kind =>
      exact ⟨parsed.isSome_child? kind rfl (by simp), parsed.isSome_child? kind rfl (by simp)⟩
  case h_2 kind => exact parsed.isSome_child? kind rfl (by simp)
  case h_3 kind => exact parsed.children_ne_nil kind rfl (by simp)
  case h_4 kind => exact parsed.isSome_child? kind rfl (by simp)
  case h_5 kind =>
      rcases parsed.quantifier kind with ⟨mark, written, -⟩ | ⟨-, sum, found⟩
      · rw [written]
        cases mark <;> exact .inl (by decide)
      · exact .inr (by simp [found])
  case h_6 kind =>
      obtain ⟨part, only, closed | ⟨reference, -⟩⟩ := parsed.atom kind
      · exact ⟨part, by rw [only]; rfl, List.mem_append_left _ closed⟩
      · exact ⟨part, by rw [only]; rfl, by simp [reference]⟩
  case h_7 kind => exact parsed.isSome_child? kind rfl (by simp)
  case h_8 kind => exact parsed.isSome_child? kind rfl (by simp)
  case h_9 kind =>
      obtain ⟨left, right, both⟩ := parsed.rangeBounds kind
      simp [both]
  case h_10 kind =>
      have choice : rules.lookup "range-bound" =
        some (.first (["hex-char", "quoted-char"].map .call)) := rfl
      obtain ⟨part, only, member⟩ := parsed.one_of kind choice
      simp only [List.mem_cons, List.not_mem_nil, or_false] at member
      exact member.imp (isSome_child?_of_content only) (isSome_child?_of_content only)
  case h_11 kind =>
      obtain ⟨quote, char, written⟩ := parsed.quotedChar kind
      simp [written, quotedContent]
  case h_12 kind => exact parsed.isSome_child? kind rfl (by simp)
  case h_13 kind =>
      have choice : rules.lookup "parameter" = some (.first
        (["in-flow", "context-value", "chomping-value", "param-sum"].map .call)) := rfl
      obtain ⟨part, only, member⟩ := parsed.one_of kind choice
      exact ⟨part.name, member, isSome_child?_of_content only rfl⟩
  case h_14 kind => exact parsed.isSome_child? kind rfl (by simp)
  case h_15 kind =>
      have words : rules.lookup "context-value" = some (.sequence
        [ .first ((Context.all.map Context.text).map .literal),
          .notAhead (.call "name-char") ]) := rfl
      have member := parsed.text_of kind words
      obtain ⟨value, -, written⟩ := List.mem_map.mp member
      rw [← written]
      cases value <;> decide
  case h_16 kind =>
      have words : rules.lookup "chomping-value" = some (.sequence
        [ .first ((Chomping.all.map Chomping.text).map .literal),
          .notAhead (.call "name-char") ]) := rfl
      have member := parsed.text_of kind words
      obtain ⟨value, -, written⟩ := List.mem_map.mp member
      rw [← written]
      cases value <;> decide
  case h_17 kind =>
      have choice : rules.lookup "param-term" =
        some (.first (["param-variable", "decimal"].map .call)) := rfl
      obtain ⟨part, only, member⟩ := parsed.one_of kind choice
      simp only [List.mem_cons, List.not_mem_nil, or_false] at member
      exact member.imp (isSome_child?_of_content only) (isSome_child?_of_content only)
  case h_18 kind =>
      have words : rules.lookup "param-variable" = some (.sequence
        [.first ((Formal.all.map Formal.text).map .literal), .notAhead (.call "alnum")]) := rfl
      have member := parsed.text_of kind words
      obtain ⟨value, -, written⟩ := List.mem_map.mp member
      rw [← written]
      cases value <;> decide
  case h_19 => trivial

/-! ### Texts with a value -/

theorem Parsed.context? (parsed : Parsed source tree) (kind : tree.name = "context-value") :
    ∃ value, Context.ofText? (tree.text source) = some value := by
  have succeed := parsed.lookupsSucceed
  rw [LookupsSucceed, kind] at succeed
  exact Option.isSome_iff_exists.mp succeed

theorem Parsed.chomping? (parsed : Parsed source tree) (kind : tree.name = "chomping-value") :
    ∃ value, Chomping.ofText? (tree.text source) = some value := by
  have succeed := parsed.lookupsSucceed
  rw [LookupsSucceed, kind] at succeed
  exact Option.isSome_iff_exists.mp succeed

theorem Parsed.formal? (parsed : Parsed source tree) (kind : tree.name = "param-variable") :
    ∃ formal, Formal.ofText? (tree.text source) = some formal := by
  have succeed := parsed.lookupsSucceed
  rw [LookupsSucceed, kind] at succeed
  exact Option.isSome_iff_exists.mp succeed

end Dialect

end Bnf

end ParametricGrammar
