import Subtyping.Interner
import Subtyping.LogFormat
import Subtyping.Assoc.Sorted
import Subtyping.Signature.Algebra
import Subtyping.Checker
import Subtyping.Unfolding
import Subtyping.Proofs.Signature.Calls
import Subtyping.Proofs.Checker.History
import Subtyping.Proofs.Params.Combine
import Subtyping.Proofs.Signature.Capture
import Subtyping.Proofs.Checker.Ceiling
import Subtyping.Proofs.Goal.Calls
import Subtyping.Proofs.Checker.Derivation
import Subtyping.Proofs.Checker.Room
import Subtyping.Proofs.Checker.WriteOnce
import Subtyping.Proofs.Params.Contents
import Subtyping.Proofs.Relabel.Check
import Subtyping.Proofs.Relabel.Supply
import Subtyping.Proofs.Signature.Hygiene
import Subtyping.Proofs.Checker.ForGood
import Subtyping.Proofs.Params.Aligned
import Subtyping.Proofs.Signature.Spots
import Subtyping.Proofs.Checker.Harmless
import Subtyping.Proofs.Checker.Unified
import Subtyping.Proofs.Params.Coverage
import Subtyping.Proofs.Signature.Unify
import Subtyping.Proofs.Params.Laws
import Subtyping.Proofs.Params.Mapped
import Subtyping.Proofs.Params.Normal
import Subtyping.Proofs.Params.Semilattice
import Subtyping.Proofs.Signature.Normal
import Subtyping.Proofs.Signature.Meaning
import Subtyping.Proofs.Interner
import Subtyping.Proofs.Signature.Outline
import Subtyping.Proofs.Template
import Subtyping.Proofs.Params.PushOrder
