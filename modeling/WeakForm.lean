import WeakForm.Json.Printer
import WeakForm.Json.Reader
import WeakForm.Proofs.Addresses
import WeakForm.Proofs.Allocation
import WeakForm.Proofs.CanonicalSums
import WeakForm.Proofs.Classification
import WeakForm.Proofs.ConstantKernel
import WeakForm.Proofs.DerivativePowers
import WeakForm.Proofs.DocumentNames
import WeakForm.Proofs.ErrorRoutines
import WeakForm.Proofs.FacetSums
import WeakForm.Proofs.FactorOrder
import WeakForm.Proofs.LiveLines
import WeakForm.Proofs.MonomialLaws
import WeakForm.Proofs.OperationCounts
import WeakForm.Proofs.PassageOrder
import WeakForm.Proofs.PassageQuantities
import WeakForm.Proofs.PrintedOperators
import WeakForm.Proofs.Renumbering
import WeakForm.Proofs.ResetOption
import WeakForm.Proofs.RoundTrip
import WeakForm.Proofs.RowMajor
import WeakForm.Proofs.SkippedEntries
import WeakForm.Proofs.SumText
import WeakForm.Sink
import WeakForm.Proofs.StatementReading
