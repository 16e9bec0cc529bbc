import ParametricGrammar.Grammar.Binary
import ParametricGrammar.Main
import ParametricGrammar.Proofs.Alike
import ParametricGrammar.Proofs.BinaryForm
import ParametricGrammar.Proofs.Brackets
import ParametricGrammar.Proofs.CallStack
import ParametricGrammar.Proofs.CanonicalSets
import ParametricGrammar.Proofs.CharSets
import ParametricGrammar.Proofs.Colours
import ParametricGrammar.Proofs.Dialect.AlikeBodies
import ParametricGrammar.Proofs.Dialect.ClauseTranslation
import ParametricGrammar.Proofs.Dialect.Descents
import ParametricGrammar.Proofs.Dialect.Dispatch
import ParametricGrammar.Proofs.Dialect.Foldings
import ParametricGrammar.Proofs.Dialect.HeadParameters
import ParametricGrammar.Proofs.Dialect.Lookbehinds
import ParametricGrammar.Proofs.Dialect.Modularity
import ParametricGrammar.Proofs.Dialect.ParameterExpressions
import ParametricGrammar.Proofs.Dialect.Prefixes
import ParametricGrammar.Proofs.Dialect.PrintedBindings
import ParametricGrammar.Proofs.Dialect.PrintedBodies
import ParametricGrammar.Proofs.Dialect.PrintedClauses
import ParametricGrammar.Proofs.Dialect.PrintedGrammars
import ParametricGrammar.Proofs.Dialect.PrintedLiterals
import ParametricGrammar.Proofs.Dialect.PrintedSets
import ParametricGrammar.Proofs.Dialect.Referable
import ParametricGrammar.Proofs.Dialect.SyntaxErrors
import ParametricGrammar.Proofs.Dumps
import ParametricGrammar.Proofs.Histories
import ParametricGrammar.Proofs.JsonForm
import ParametricGrammar.Proofs.Layers
import ParametricGrammar.Proofs.Limits
import ParametricGrammar.Proofs.Mentions
import ParametricGrammar.Proofs.NormalForm
import ParametricGrammar.Proofs.Pieces
import ParametricGrammar.Proofs.References
import ParametricGrammar.Proofs.Relocation
import ParametricGrammar.Proofs.Repetitions
import ParametricGrammar.Proofs.SetAlgebra
import ParametricGrammar.Proofs.Subtrees
import ParametricGrammar.Proofs.Termination
import ParametricGrammar.Proofs.TracedTrees
