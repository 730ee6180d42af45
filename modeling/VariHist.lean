import VariHist.Histogram.Exact
import VariHist.Main
import VariHist.Table.Recorder
import VariHist.Proofs.Histogram.Content
import VariHist.Proofs.Double
import VariHist.Proofs.Histogram.Accumulation
import VariHist.Proofs.Naming
import VariHist.Proofs.Systematics.Definitions
import VariHist.Proofs.Systematics.Operations
import VariHist.Proofs.Systematics.Shifts
import VariHist.Proofs.Table.Calls
import VariHist.Proofs.Table.Interleaving
import VariHist.Proofs.Table.Denotation
import VariHist.Proofs.Analysis.Contents
import VariHist.Proofs.Analysis.Meaning
import VariHist.Proofs.Formula.Reading
import VariHist.Proofs.Booking.Refused
import VariHist.Proofs.Booking.Unforeseen
import VariHist.Proofs.Systematics.Registrations
import VariHist.Proofs.Systematics.Copies
import VariHist.Proofs.Table.LifeCycle
import VariHist.Proofs.Analysis.Failures
import VariHist.Proofs.Histogram.Ledger
import VariHist.Proofs.Analysis.Inspection
import VariHist.Proofs.Booking.Covered
import VariHist.Proofs.Booking.Buffers
import VariHist.Proofs.Formula.Inputs
import VariHist.Proofs.Table.Formulas
import VariHist.Proofs.Formula.Truth
import VariHist.Proofs.Table.Selections
import VariHist.Proofs.Systematics.Outcomes
import VariHist.Proofs.Systematics.Filters
import VariHist.Proofs.Systematics.Reported
import VariHist.Proofs.Histogram.LinearIndex
import VariHist.Proofs.Systematics.Catalog
import VariHist.Proofs.Output.Written
import VariHist.Proofs.Table.Indexed
import VariHist.Proofs.Table.Reordered
import VariHist.Proofs.Systematics.Commuting
import VariHist.Proofs.Analysis.Shapes
import VariHist.Proofs.Table.Closure
import VariHist.Proofs.Histogram.BinCounts
import VariHist.Proofs.Events.Batches
import VariHist.Proofs.Formula.ByteScan
