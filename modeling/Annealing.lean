import Annealing.Main
import Annealing.Proofs.Search.Levels
import Annealing.Proofs.Knapsack.Certificate
import Annealing.Proofs.Knapsack.Prices
import Annealing.Proofs.Satisfiability.Certificate
import Annealing.Proofs.Satisfiability.Writing
import Annealing.Proofs.Solving.Detection
import Annealing.Proofs.Batch.Outcome
import Annealing.Proofs.Decimal.Naturals
import Annealing.Proofs.Search.Sizes
import Annealing.Proofs.Solving.Spacing
import Annealing.Proofs.Solving.Measuring
import Annealing.Proofs.Batch.CommandLines
import Annealing.Proofs.Solving.Checking
import Annealing.Proofs.Knapsack.Changes
import Annealing.Proofs.Satisfiability.Safety
import Annealing.Proofs.Batch.Labels
import Annealing.Proofs.Batch.Workers
import Annealing.Proofs.Satisfiability.Changes
import Annealing.Proofs.Satisfiability.Blocks
import Annealing.Proofs.Knapsack.Rows
import Annealing.Proofs.Search.Flips
import Annealing.Proofs.Solving.Rows
import Annealing.Proofs.Random.Reading
import Annealing.Proofs.Search.Replay
import Annealing.Proofs.Decimal.Differences
import Annealing.Proofs.Search.Proposals
import Annealing.Proofs.Satisfiability.Leaving
import Annealing.Proofs.Solving.Differences
import Annealing.Proofs.Text.Squeezing
import Annealing.Proofs.Timing.Protocol
import Annealing.Proofs.Timing.Statistics
import Annealing.Proofs.Batch.Laws
