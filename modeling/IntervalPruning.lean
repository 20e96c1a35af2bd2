import IntervalPruning.BoundingBox
import IntervalPruning.Grid.Prover
import IntervalPruning.Prover.Scripted
import IntervalPruning.Session
import IntervalPruning.Proofs.Session.Refusal
import IntervalPruning.Proofs.Grid.Lockstep
import IntervalPruning.Proofs.Session.Relay
import IntervalPruning.Proofs.Prover.Traced
import IntervalPruning.Proofs.Session.Counters
import IntervalPruning.Proofs.Session.Exact
import IntervalPruning.Proofs.Interval.Nested
import IntervalPruning.Proofs.Prune.Absorb
import IntervalPruning.Proofs.Interval.Spans
import IntervalPruning.Proofs.Interval.Verdict
import IntervalPruning.Proofs.Prune.ReadOnce
import IntervalPruning.Proofs.Formula.Recognised
import IntervalPruning.Proofs.Formula.Partial
import IntervalPruning.Proofs.Grid.Reads
import IntervalPruning.Proofs.Prune.Normal
import IntervalPruning.Proofs.Prune.Terms
import IntervalPruning.Proofs.Prune.Variables
import IntervalPruning.Proofs.Grid.Least
import IntervalPruning.Proofs.Grid.Core
import IntervalPruning.Proofs.Prune.Known
import IntervalPruning.Proofs.Ranges.Constraints
import IntervalPruning.Proofs.Session.Warnings
import IntervalPruning.Proofs.Session.Variables
import IntervalPruning.Proofs.Interval.Inclusion
import IntervalPruning.Proofs.NameTable
import IntervalPruning.Proofs.NameTable.Interner
import IntervalPruning.Proofs.BoundingBox
import IntervalPruning.Proofs.Session.Brackets
import IntervalPruning.Proofs.Formula.Text
