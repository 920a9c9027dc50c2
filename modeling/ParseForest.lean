import ParseForest.Main
import ParseForest.Number.Rounded
import ParseForest.Proofs.Agreement
import ParseForest.Proofs.Exactness
import ParseForest.Proofs.Posterior.Dominance
import ParseForest.Proofs.Hypergraph.WellFormed
import ParseForest.Proofs.Hypergraph.Yield
import ParseForest.Proofs.Hypergraph.Inlined
import ParseForest.Proofs.Hypergraph.Merging
import ParseForest.Proofs.Selection
import ParseForest.Proofs.Symbol.Coarse
import ParseForest.Proofs.Hypergraph.Unbinarized
import ParseForest.Proofs.Context
import ParseForest.Proofs.Posterior.Inside
import ParseForest.Proofs.Posterior.Estimate
import ParseForest.Proofs.Posterior.Downward
import ParseForest.Proofs.Posterior.Around
import ParseForest.Proofs.Posterior.Exact
import ParseForest.Proofs.Posterior.Chart
import ParseForest.Proofs.Posterior.Useful
import ParseForest.Proofs.Forest.Chains
import ParseForest.Proofs.Hypergraph.Isomorphic
import ParseForest.Proofs.Forest.Counterparts
import ParseForest.Proofs.Forest.Pruned
import ParseForest.Proofs.Cascade.Lossless
import ParseForest.Proofs.Cascade.Image
import ParseForest.Proofs.Cascade.Levels
import ParseForest.Proofs.Cascade.Rounds
import ParseForest.Proofs.Hypergraph.Cycles
import ParseForest.Proofs.Cascade.Relaxation
import ParseForest.Proofs.Forest.InStep
import ParseForest.Proofs.Posterior.Chained
import ParseForest.Proofs.Posterior.Bounded
import ParseForest.Proofs.Posterior.Representation
import ParseForest.Proofs.Forest.RuleOrder
import ParseForest.Proofs.RuleTable.Inserted
import ParseForest.Proofs.RuleTable.Numbering
import ParseForest.Proofs.RuleTable.RoundTrip
import ParseForest.Proofs.Forest.TailPositions
import ParseForest.Proofs.Tables.Matching
import ParseForest.Proofs.Tables.Nodes
import ParseForest.Proofs.Tables.Sorting
import ParseForest.Proofs.Tables.Forest
import ParseForest.Proofs.Tables.Closures
import ParseForest.Proofs.Tables.Scores
import ParseForest.Proofs.Tables.Inside
import ParseForest.Proofs.Tables.Outside
import ParseForest.Proofs.Tables.Posteriors
import ParseForest.Proofs.Tables.Unbinarized
import ParseForest.Proofs.Tables.Graph
import ParseForest.Proofs.Tables.Cascade
import ParseForest.Proofs.Tables.Histories
import ParseForest.Proofs.Forest.Edges
import ParseForest.Proofs.Forest.Arity
import ParseForest.Proofs.Forest.Rounds
import ParseForest.Proofs.Forest.UnaryChains
import ParseForest.Proofs.Distances
import ParseForest.Proofs.Forest.Limits
import ParseForest.Proofs.Forest.LooseLimits
import ParseForest.Proofs.Loop
import ParseForest.Proofs.Posterior.ClosureLoop
import ParseForest.Proofs.Posterior.OutwardPaths
import ParseForest.Proofs.Termination
import ParseForest.Proofs.Forest.WithoutUnary
import ParseForest.Proofs.Posterior.Limits
import ParseForest.Proofs.RuleTable.Lookup
import ParseForest.Proofs.Hypergraph.InsideSum
import ParseForest.Proofs.Forest.Plain
import ParseForest.Proofs.YieldSide
import ParseForest.Proofs.Tables.SearchLoop
