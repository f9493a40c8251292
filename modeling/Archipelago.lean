import Archipelago.Annealing
import Archipelago.Binary64.Text
import Archipelago.Migration
import Archipelago.Problem.Box
import Archipelago.Proofs.Acceptance
import Archipelago.Proofs.Accounting
import Archipelago.Proofs.Adaptation
import Archipelago.Proofs.Aftermath
import Archipelago.Proofs.Budgets
import Archipelago.Proofs.Completeness
import Archipelago.Proofs.Containment
import Archipelago.Proofs.Displacement
import Archipelago.Proofs.Elitism
import Archipelago.Proofs.Expenses
import Archipelago.Proofs.Extraction
import Archipelago.Proofs.Extremes
import Archipelago.Proofs.Failures
import Archipelago.Proofs.Fairness
import Archipelago.Proofs.Faults
import Archipelago.Proofs.Freshness
import Archipelago.Proofs.Identifiers
import Archipelago.Proofs.Independence
import Archipelago.Proofs.Layering
import Archipelago.Proofs.LinearExtremes
import Archipelago.Proofs.Metering
import Archipelago.Proofs.Numerals
import Archipelago.Proofs.Overflows
import Archipelago.Proofs.Populating
import Archipelago.Proofs.PreferenceOrder
import Archipelago.Proofs.Quotients
import Archipelago.Proofs.ReadBack
import Archipelago.Proofs.Restoration
import Archipelago.Proofs.RoundToNearest
import Archipelago.Proofs.RoundedArithmetic
import Archipelago.Proofs.Roundings
import Archipelago.Proofs.Settlement
import Archipelago.Proofs.Steps
import Archipelago.Proofs.Successions
import Archipelago.Proofs.Temperatures
import Archipelago.Proofs.Velocities
import Archipelago.Proofs.Violations
import Archipelago.Source.Generator
