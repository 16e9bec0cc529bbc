import ParametricGrammar.Proofs.Dialect.Bootstrap
import ParametricGrammar.Proofs.Dialect.Translation
/-!
# Translation of clauses

The translation of the tree of a grammar text delivers a compiled grammar or an error about the
text. It never meets a tree that lacks what it looks up.
-/

namespace ParametricGrammar

private theorem Parameters.Fits.bind {pattern next : Parameters} {formals : List Formal}
    {formal : Formal} {value : Value} (fits : pattern.Fits formals) (same : value.formal = formal)
    (bound : pattern.bind formal value = .ok next) : next.Fits (formals ++ [formal]) := by
  intro other found get
  rw [get?_bind bound] at get
  split at get
  · rename_i changed
    cases get
    exact ⟨by simp [changed], same.trans changed.symm⟩
  · exact (fits other found get).imp_left (List.mem_append_left _)

namespace Bnf

namespace Dialect

variable {source : List Char} {tree part : Tree}

/-! ### Heads -/

/-- The formals of a head differ, and its literals fit them. -/
structure HeadFits (head : Head) : Prop where
  distinct : head.formals.Nodup
  fits : head.pattern.Fits head.formals

private theorem headFits_empty : HeadFits {} := ⟨.nil, Parameters.fits_empty []⟩

private theorem delivers_declared (parsed : Parsed source tree) :
    Delivers (fun declared => ∀ value, declared.2 = some value → value.formal = declared.1)
      (Head.declared source tree) := by
  unfold Head.declared
  refine (delivers_literalOf parsed).bind fun literal _ => ?_
  cases literal with
  | some value => simp [Delivers, pure, Except.pure]
  | none =>
      cases found : tree.child? "param-sum" with
      | none => rfl
      | some sum =>
          refine (delivers_sumOf (parsed.of_child? found).1).bind fun total _ => ?_
          cases total.formal? with
          | some formal => simp [Delivers, pure, Except.pure]
          | none =>
              dsimp only
              split
              · simp [Delivers, pure, Except.pure, Value.formal]
              · rfl

private theorem delivers_add {head : Head} (parsed : Parsed source tree) (before : HeadFits head) :
    Delivers HeadFits (head.add source tree) := by
  unfold Head.add
  refine (delivers_declared parsed).bind fun declared fitting => ?_
  obtain ⟨formal, literal⟩ := declared
  dsimp only
  split
  · rfl
  · rename_i fresh
    have distinct : (head.formals ++ [formal]).Nodup := by
      refine List.nodup_append.mpr ⟨before.distinct, by simp, ?_⟩
      rintro other member _ last rfl
      exact fresh (List.mem_singleton.mp last ▸ member)
    cases literal with
    | none =>
        exact ⟨distinct, fun other value found =>
          (before.fits other value found).imp_left (List.mem_append_left _)⟩
    | some value =>
        cases bound : head.pattern.bind formal value with
        | ok pattern =>
            simp only [bound]
            exact ⟨distinct, before.fits.bind (fitting value rfl) bound⟩
        | error cause =>
            simp only [bound]
            rfl

private theorem delivers_head (parsed : Parsed source tree) :
    Delivers HeadFits (Head.ofTree source tree) :=
  .foldlM headFits_empty fun _ member _ before =>
    delivers_add (parsed.of_children member).1 before

/-! ### Clauses -/

/-- What productions need of a clause. -/
structure ClauseFits (source : List Char) (clause : Clause) : Prop where
  name : isName clause.name.toList = true
  distinct : clause.formals.Nodup
  fits : clause.pattern.Fits clause.formals
  body : Delivers Compiled (bodyOf source clause.body)

private theorem Parsed.isName (parsed : Parsed source tree) (kind : tree.name = "production-name") :
    isName (tree.text source).toList = true := by
  obtain ⟨chars, rest, yields⟩ := parsed
  rw [kind] at yields
  obtain ⟨_, same, -, written, -⟩ := yields.inside (by simp [rules]; rfl)
  obtain rfl := (List.cons.inj same).1
  rw [text_of_slice? written, String.toList_ofList]
  exact yields.isName.1

private theorem delivers_sectionNumber (parsed : Parsed source tree)
    (kind : tree.name = "section-number") :
    Delivers (fun _ => True) (sectionNumber source tree) := by
  obtain ⟨decimal, found⟩ := parsed.exists_child? kind rfl (by simp : Node.call "decimal" ∈ _)
  simp only [sectionNumber, Tree.required_eq found, bind, Except.bind]
  split <;> trivial

theorem delivers_clause (parsed : Parsed source tree) (kind : tree.name = "production") :
    Delivers (ClauseFits source) (Clause.ofTree source tree) := by
  obtain ⟨label, name⟩ := parsed.exists_child? kind rfl (by simp : Node.call "production-name" ∈ _)
  obtain ⟨body, alternation⟩ :=
    parsed.exists_child? kind rfl (by simp : Node.call "alternation" ∈ _)
  obtain ⟨parsedLabel, labelled⟩ := parsed.of_child? name
  obtain ⟨parsedBody, bodyNamed⟩ := parsed.of_child? alternation
  have translated := parsedBody.translated (bodyNamed ▸ by decide)
  have finish : ∀ (head : Head) (number : Option UInt32) (span : Span), HeadFits head →
      ClauseFits source ⟨label.text source, head.formals, head.pattern, number, body, span⟩ :=
    fun head _ _ fits => ⟨parsedLabel.isName labelled, fits.distinct, fits.fits, translated.body⟩
  unfold Clause.ofTree
  simp only [Tree.required_eq name, Tree.required_eq alternation]
  cases number : tree.child? "section-number" with
  | none =>
      cases list : tree.child? "parameter-list" with
      | none => exact finish {} _ _ headFits_empty
      | some list =>
          exact (delivers_head (parsed.of_child? ‹_›).1).bind fun head fits => finish head _ _ fits
  | some digits =>
      obtain ⟨inside, named⟩ := parsed.of_child? number
      have numbers : Delivers (fun _ => True) ((sectionNumber source digits).map some) :=
        (delivers_sectionNumber inside named).map
      refine numbers.bind fun number _ => ?_
      cases list : tree.child? "parameter-list" with
      | none => exact finish {} _ _ headFits_empty
      | some list =>
          exact (delivers_head (parsed.of_child? ‹_›).1).bind fun head fits => finish head _ _ fits

/-! ### Productions -/

theorem inconsistent?_eq_none_iff {formals : List Formal} {clauses : List Clause} :
    inconsistent? formals clauses = none ↔ ∀ clause ∈ clauses, clause.formals = formals := by
  simp [inconsistent?]

theorem duplicate?_eq_none_iff {earlier : List Parameters} {clauses : List Clause}
    (distinct : earlier.Nodup) :
    duplicate? earlier clauses = none ↔ (earlier ++ clauses.map Clause.pattern).Nodup := by
  induction clauses generalizing earlier with
  | nil => simpa [duplicate?] using distinct
  | cons clause clauses induction =>
      rw [duplicate?]
      by_cases known : clause.pattern ∈ earlier
      · rw [if_pos known]
        refine iff_of_false (by simp) fun all => ?_
        exact (List.nodup_append.mp all).2.2 _ known _ List.mem_cons_self rfl
      · have more : (earlier ++ [clause.pattern]).Nodup := by
          rw [← List.concat_eq_append]
          exact distinct.concat known
        rw [if_neg known, induction more, List.append_assoc]
        rfl

private theorem duplicate?_wellFormed {earlier : List Parameters} {clauses : List Clause}
    {error : CompileError} (found : duplicate? earlier clauses = some error) :
    error.isMalformed = false := by
  induction clauses generalizing earlier with
  | nil => cases found
  | cons clause clauses induction =>
      rw [duplicate?] at found
      split at found
      · cases found
        rfl
      · exact induction found

/-- The arms of cases that clauses give. -/
theorem delivers_clausesBody {formals : List Formal} {clauses : List Clause} (some : clauses ≠ [])
    (same : ∀ clause ∈ clauses, clause.formals = formals)
    (distinct : (clauses.map Clause.pattern).Nodup)
    (fit : ∀ clause ∈ clauses, ClauseFits source clause) :
    Delivers (CompiledBody formals) (clausesBody source clauses) := by
  have arms : Delivers (List.Forall₂ (fun clause arm => clause ∈ clauses ∧
      arm.1 = clause.pattern ∧ Compiled arm.2) clauses)
      (clauses.mapM fun clause =>
        (bodyOf source clause.body).map fun body => (clause.pattern, body)) :=
    .mapM fun clause member =>
      ((fit clause member).body.imp fun _ _ compiled => ⟨member, rfl, compiled⟩).map
  refine arms.bind fun arms related => ?_
  have patterns : arms.map Prod.fst = clauses.map Clause.pattern :=
    map_eq_of_forall₂ related.flip fun _ _ all => all.2.1
  have each : ∀ arm ∈ arms, arm.1.Fits formals ∧ Compiled arm.2 := by
    refine forall_of_forall₂ related fun clause _ arm ⟨member, pattern, compiled⟩ => ⟨?_, compiled⟩
    rw [pattern, ← same clause member]
    exact (fit clause member).fits
  have nonempty : arms ≠ [] := by
    rintro rfl
    exact some (List.map_eq_nil_iff.mp patterns.symm)
  split
  · rename_i pattern body
    obtain ⟨fits, compiled⟩ := each _ (List.mem_singleton_self _)
    change CompiledBody formals (if _ then _ else _)
    split
    · exact .plain compiled
    · rename_i bound
      refine .cases nonempty (fun arm only => ?_) (patterns ▸ distinct) each
      obtain rfl := (List.cons.inj only).1
      simpa using bound
  · rename_i several
    refine .cases nonempty (fun arm only => ?_) (patterns ▸ distinct) each
    exact absurd only (several arm.1 arm.2)

private theorem delivers_production {clauses : List Clause} (some : clauses ≠ [])
    (fit : ∀ clause ∈ clauses, ClauseFits source clause) :
    Delivers CompiledProduction (productionOf source clauses) := by
  cases clauses with
  | nil => exact absurd rfl some
  | cons first rest =>
      rw [productionOf]
      cases inconsistent : inconsistent? first.formals rest with
      | some error =>
          obtain ⟨clause, -, rfl⟩ := Option.map_eq_some_iff.mp inconsistent
          rfl
      | none =>
          cases duplicate : duplicate? [] (first :: rest) with
          | some error => exact duplicate?_wellFormed duplicate
          | none =>
              have same : ∀ clause ∈ first :: rest, clause.formals = first.formals :=
                List.forall_mem_cons.mpr ⟨rfl, inconsistent?_eq_none_iff.mp inconsistent⟩
              have distinct : ((first :: rest).map Clause.pattern).Nodup :=
                (duplicate?_eq_none_iff .nil).mp duplicate
              exact (delivers_clausesBody (by simp) same distinct fit).bind fun body compiled =>
                ⟨(fit first List.mem_cons_self).distinct, compiled⟩

/-! ### Grammars -/

theorem mem_groups {clauses : List Clause} {group : String × List Clause}
    (member : group ∈ groups clauses) :
    group.2 ≠ [] ∧ (∀ clause ∈ group.2, clause ∈ clauses) ∧
      ∃ clause ∈ clauses, group.1 = clause.name := by
  obtain ⟨name, among, rfl⟩ := List.mem_map.mp member
  obtain ⟨clause, inside, rfl⟩ := List.mem_map.mp (List.mem_eraseDups.mp among)
  refine ⟨?_, fun other found => List.mem_of_mem_filter found, clause, inside, rfl⟩
  exact List.ne_nil_of_mem (List.mem_filter.mpr ⟨inside, by simp⟩)

private theorem delivers_grammar (parsed : Parsed source tree) :
    Delivers CompiledGrammar (grammarOf source tree) := by
  have clauses : Delivers (fun clauses => ∀ clause ∈ clauses, ClauseFits source clause)
      ((tree.children "production").mapM (Clause.ofTree source)) :=
    .all fun _ member =>
      delivers_clause (parsed.of_children member).1 (parsed.of_children member).2
  refine clauses.bind fun clauses fit => ?_
  refine Delivers.bind (?_ : Delivers (fun productions => ∀ entry ∈ productions,
    isName entry.1.toList = true ∧ CompiledProduction entry.2) _)
      fun entries all entry member => all entry (Grammar.mem_ofList member)
  refine .all fun group member => ?_
  obtain ⟨some, among, clause, inside, named⟩ := mem_groups member
  refine ((delivers_production some fun other found => fit other (among other found)).imp
    fun production _ compiled => ⟨?_, compiled⟩).map
  rw [named]
  exact (fit clause inside).name

/-! ### Texts -/

private theorem endOf_wellFormed {session : Session} {offset : ℕ} {node : Node} :
    Delivers (fun _ => True) (endOf session offset node) := by
  unfold endOf
  split <;> trivial

theorem delivers_treeOf (dialect : Grammar) (text : List Char) :
    Delivers (fun tree => ((setting dialect).parseAll "grammar" text).1 = .ok tree)
      (treeOf dialect text) := by
  have located : Delivers (fun _ => True) (locateError dialect text) :=
    endOf_wellFormed.bind fun _ _ => endOf_wellFormed.bind fun _ _ => trivial
  unfold treeOf
  split
  · assumption
  · exact located.bind fun start _ => rfl
  · exact located.bind fun start _ => rfl
  · rfl

theorem parsed_of_parseAll {setting : Setting} {text : List Char} {tree : Tree}
    (dialect : setting.grammar = grammar)
    (parsed : (setting.parseAll "grammar" text).1 = .ok tree) :
    ∀ entry ∈ tree.preorder 0, Parsed text entry.2 := by
  obtain ⟨stop, whole, -, derives⟩ := Setting.derives_of_parseAll parsed
  rw [dialect] at derives
  obtain ⟨chars, spans⟩ := derives.exists_spans
  have yields : TaskYields _ chars stop.rest [tree] _ := yields_of_derives derives rfl spans
  intro entry member
  have named := (yields rfl).parsed 0 entry (by simpa [Tree.preorderAll] using member)
  simpa using named

theorem exists_tree_of_compile {text : String} {compiled : Grammar}
    (compiles : compile text = .ok compiled) :
    ∃ tree, ((setting grammar).parseAll "grammar" text.toList).1 = .ok tree ∧
      grammarOf text.toList tree = .ok compiled := by
  have delivers := delivers_treeOf grammar text.toList
  unfold compile compileWith at compiles
  cases read : treeOf grammar text.toList with
  | ok tree =>
      rw [read] at delivers compiles
      exact ⟨tree, delivers, compiles⟩
  | error error =>
      rw [read] at compiles
      cases compiles

/-- A text is compiled to what it is translated to when it is read without a memory. -/
theorem compile_of_uncached {text : String} {result : Except CompileError Grammar}
    (uncached : ((Setting.parseAll ⟨grammar, false, 1024⟩ "grammar" text.toList).1.toOption.map
      (grammarOf text.toList)) = some result) : compile text = result := by
  obtain ⟨tree, found, rfl⟩ := Option.map_eq_some_iff.mp uncached
  have parsed : (Setting.parseAll ⟨grammar, false, 1024⟩ "grammar" text.toList).1 = .ok tree := by
    cases reply : (Setting.parseAll ⟨grammar, false, 1024⟩ "grammar" text.toList).1 with
    | ok other =>
        rw [reply] at found
        cases found
        rfl
    | error error =>
        rw [reply] at found
        cases found
  have cached := Setting.parseAll_eq_of_uncached true parsed (by simp)
  rw [compile, compileWith, treeOf, setting, cached]
  rfl

/-- What a grammar text is translated to is a compiled grammar. -/
theorem delivers_compile (text : String) : Delivers CompiledGrammar (compile text) := by
  refine (delivers_treeOf grammar text.toList).bind fun tree parsed => ?_
  have all := parsed_of_parseAll rfl parsed
  refine delivers_grammar (all (0, tree) ?_)
  cases tree
  exact List.mem_cons_self

theorem compiledGrammar_of_compile {text : String} {compiled : Grammar}
    (compiles : compile text = .ok compiled) : CompiledGrammar compiled := by
  have delivers := delivers_compile text
  rwa [compiles] at delivers

/-- No grammar text is turned down for a tree that cannot be read: in every tree that the dialect
gives for a text, whatever the limit and the cache, each node covers text and each look of the
translation at a child, a text or a first part finds what it needs. -/
theorem translation_never_malformed :
    (∀ (text expected : String) (span : Span),
      compile text ≠ .error (.malformedTree expected span)) ∧
    ∀ (setting : Setting) (text : List Char) (tree : Tree), setting.grammar = grammar →
      (setting.parseAll "grammar" text).1 = .ok tree →
        (∀ entry ∈ tree.preorder 0, (slice? text entry.2.start entry.2.stop).isSome ∧
          LookupsSucceed text entry.2) ∧
        ∀ expected span, grammarOf text tree ≠ .error (.malformedTree expected span) := by
  refine ⟨fun text => (delivers_compile text).ne_malformed, ?_⟩
  intro setting text tree dialect parses
  have all := parsed_of_parseAll dialect parses
  refine ⟨fun entry member => ⟨?_, (all entry member).lookupsSucceed⟩,
    (delivers_grammar (all (0, tree) (by cases tree; exact List.mem_cons_self))).ne_malformed⟩
  obtain ⟨chars, rest, yields⟩ := all entry member
  cases yields with
  | call _ _ written _ _ => simp [written]

/-- The text of the dialect has such a tree. -/
theorem dialect_never_malformed :
    ∃ tree, ((setting grammar).parseAll "grammar" Dialect.text.toList).1 = .ok tree ∧
      (∀ entry ∈ tree.preorder 0,
        (slice? Dialect.text.toList entry.2.start entry.2.stop).isSome ∧
          LookupsSucceed Dialect.text.toList entry.2) ∧
      ∀ expected span,
        grammarOf Dialect.text.toList tree ≠ .error (.malformedTree expected span) := by
  obtain ⟨tree, parses, -⟩ := exists_tree_of_compile Bootstrap.compile_text
  exact ⟨tree, parses, translation_never_malformed.2 (setting grammar) _ tree rfl parses⟩

end Dialect

end Bnf

end ParametricGrammar
