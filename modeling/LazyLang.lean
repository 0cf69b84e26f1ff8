import LazyLang.Expr.Printer
import LazyLang.Program
import LazyLang.Proofs.Composition
import LazyLang.Proofs.PartialCalls
import LazyLang.Proofs.Soundness.Closed
import LazyLang.Proofs.Soundness.Standard
import LazyLang.Proofs.Subtyping.Regrouping
import LazyLang.Proofs.Grammar.Exactness
import LazyLang.Proofs.Grammar.Parentheses
import LazyLang.Proofs.Grammar.RoundTrip
import LazyLang.Proofs.Currying.InStep
import LazyLang.Proofs.Memoization.Journal
import LazyLang.Proofs.Memoization.Visits
import LazyLang.Proofs.Tokens.Layout
import LazyLang.Proofs.Acyclicity
import LazyLang.Proofs.Evidence.Resolution
import LazyLang.Proofs.Scopes
import LazyLang.Proofs.Subtyping.Members
import LazyLang.Proofs.Slices
import LazyLang.Proofs.Indexing
import LazyLang.Proofs.Arithmetic
import LazyLang.Proofs.Stripping
import LazyLang.Proofs.Grammar.Recovery
import LazyLang.Proofs.Annotation
import LazyLang.Proofs.Grammar.Literals
import LazyLang.Proofs.Grammar.Nesting
import LazyLang.Proofs.Grammar.Progress
import LazyLang.Proofs.Demand
import LazyLang.Proofs.Equality
import LazyLang.Proofs.Iteration
