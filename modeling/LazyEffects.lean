import LazyEffects.Main
import LazyEffects.Scenario.Experiment
import LazyEffects.Proofs.Evaluation
import LazyEffects.Proofs.Slices
import LazyEffects.Proofs.Contents
import LazyEffects.Proofs.Drive
import LazyEffects.Proofs.Ledger
import LazyEffects.Proofs.Agreement
import LazyEffects.Proofs.Overtaking
import LazyEffects.Proofs.Independence
import LazyEffects.Proofs.Pace
import LazyEffects.Proofs.Layers
import LazyEffects.Proofs.TypedSessions
import LazyEffects.Proofs.Fairness
import LazyEffects.Proofs.Agenda
import LazyEffects.Proofs.Costs
import LazyEffects.Proofs.Regrouping
import LazyEffects.Proofs.PumpingOrder
import LazyEffects.Proofs.Lingering
import LazyEffects.Proofs.Unwinding
import LazyEffects.Proofs.Cuts
import LazyEffects.Proofs.Reports
import LazyEffects.Proofs.Refusal
import LazyEffects.Proofs.Abandonment
import LazyEffects.Proofs.LastOwner
import LazyEffects.Proofs.Untyped
import LazyEffects.Proofs.Catching
import LazyEffects.Proofs.Simplification
import LazyEffects.Proofs.Tracing
import LazyEffects.Proofs.NodeByNode
import LazyEffects.Proofs.Finality
import LazyEffects.Proofs.Renditions
import LazyEffects.Proofs.Counting
