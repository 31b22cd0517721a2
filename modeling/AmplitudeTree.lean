import AmplitudeTree.Amplitude
import AmplitudeTree.BasisIndex
import AmplitudeTree.Config.Basic
import AmplitudeTree.Config.Document
import AmplitudeTree.Config.Environment
import AmplitudeTree.Decimal.Basic
import AmplitudeTree.Decimal.Double
import AmplitudeTree.Gate
import AmplitudeTree.Generator
import AmplitudeTree.NodeStore.Basic
import AmplitudeTree.NodeStore.Compare
import AmplitudeTree.NodeStore.Reduce
import AmplitudeTree.NodeStore.Walk
import AmplitudeTree.PendingGates
import AmplitudeTree.Power
import AmplitudeTree.Proofs.BasisIndex
import AmplitudeTree.Proofs.Exchange
import AmplitudeTree.Proofs.Gate
import AmplitudeTree.Proofs.NodeStore.Basic
import AmplitudeTree.Proofs.NodeStore.Compare
import AmplitudeTree.Proofs.NodeStore.Merging
import AmplitudeTree.Proofs.NodeStore.PlainTree
import AmplitudeTree.Proofs.NodeStore.Reachable
import AmplitudeTree.Proofs.NodeStore.Reduce
import AmplitudeTree.Proofs.NodeStore.Representative
import AmplitudeTree.Proofs.NodeStore.Walk
import AmplitudeTree.Proofs.Norm
import AmplitudeTree.Proofs.PendingGates
import AmplitudeTree.Proofs.PendingGates.Split
import AmplitudeTree.Proofs.Register.Action
import AmplitudeTree.Proofs.Register.Addition
import AmplitudeTree.Proofs.Register.Alike.Basic
import AmplitudeTree.Proofs.Register.Alike.Exchange
import AmplitudeTree.Proofs.Register.Alike.Measure
import AmplitudeTree.Proofs.Register.Alike.Resize
import AmplitudeTree.Proofs.Register.Arithmetic
import AmplitudeTree.Proofs.Register.Attainable
import AmplitudeTree.Proofs.Register.Basic
import AmplitudeTree.Proofs.Register.BasisProbability
import AmplitudeTree.Proofs.Register.BinaryCarry
import AmplitudeTree.Proofs.Register.Carry
import AmplitudeTree.Proofs.Register.Compose
import AmplitudeTree.Proofs.Register.DecimalCarry
import AmplitudeTree.Proofs.Register.DecimalInvalid
import AmplitudeTree.Proofs.Register.Exchange
import AmplitudeTree.Proofs.Register.Formed
import AmplitudeTree.Proofs.Register.GateRequest
import AmplitudeTree.Proofs.Register.Gates
import AmplitudeTree.Proofs.Register.ImposedOutcome
import AmplitudeTree.Proofs.Register.ImposedRemoval
import AmplitudeTree.Proofs.Register.LateFailure
import AmplitudeTree.Proofs.Register.Measure
import AmplitudeTree.Proofs.Register.Outcome
import AmplitudeTree.Proofs.Register.Parity
import AmplitudeTree.Proofs.Register.ParityRotation
import AmplitudeTree.Proofs.Register.Projection
import AmplitudeTree.Proofs.Register.RangeMeasurement
import AmplitudeTree.Proofs.Register.RangePreparation
import AmplitudeTree.Proofs.Register.Reachable
import AmplitudeTree.Proofs.Register.Refusal
import AmplitudeTree.Proofs.Register.Resize
import AmplitudeTree.Proofs.Register.Reversible
import AmplitudeTree.Proofs.Register.Sampling
import AmplitudeTree.Proofs.Register.Separable
import AmplitudeTree.Proofs.Register.Session
import AmplitudeTree.Proofs.Register.SignedCarry
import AmplitudeTree.Proofs.Register.SignedSubtraction
import AmplitudeTree.Proofs.Register.Simulation
import AmplitudeTree.Proofs.Register.TableLoad
import AmplitudeTree.Proofs.Register.Vector
import AmplitudeTree.Proofs.Register.Width
import AmplitudeTree.Proofs.Register.WriteBack
import AmplitudeTree.Proofs.Register.ZeroNorm
import AmplitudeTree.Proofs.Scalar
import AmplitudeTree.Proofs.StateVector
import AmplitudeTree.Proofs.StateVector.Arithmetic
import AmplitudeTree.Proofs.StateVector.DecimalAddition
import AmplitudeTree.Proofs.StateVector.FreeRange
import AmplitudeTree.Proofs.StateVector.Mass
import AmplitudeTree.Proofs.StateVector.ModularFunction
import AmplitudeTree.Proofs.StateVector.Move
import AmplitudeTree.Proofs.StateVector.Multiplication
import AmplitudeTree.Proofs.StateVector.Operand
import AmplitudeTree.Proofs.StateVector.Parity
import AmplitudeTree.Proofs.StateVector.Reversible
import AmplitudeTree.Proofs.StateVector.Scatter
import AmplitudeTree.Proofs.StateVector.Signed
import AmplitudeTree.Proofs.StateVector.SignedAddition
import AmplitudeTree.Proofs.StateVector.Substitution
import AmplitudeTree.Proofs.StateVector.TableAddition
import AmplitudeTree.Proofs.StateVector.Update
import AmplitudeTree.Proofs.Tree.Accumulation
import AmplitudeTree.Proofs.Tree.Apply
import AmplitudeTree.Proofs.Tree.Basic
import AmplitudeTree.Proofs.Tree.Branched
import AmplitudeTree.Proofs.Tree.CanonicalForm
import AmplitudeTree.Proofs.Tree.CanonicalThreshold
import AmplitudeTree.Proofs.Tree.Draws
import AmplitudeTree.Proofs.Tree.Extract
import AmplitudeTree.Proofs.Tree.Formed
import AmplitudeTree.Proofs.Tree.FormedResize
import AmplitudeTree.Proofs.Tree.FullDepth
import AmplitudeTree.Proofs.Tree.Hosts
import AmplitudeTree.Proofs.Tree.Insert
import AmplitudeTree.Proofs.Tree.Kept
import AmplitudeTree.Proofs.Tree.Measure
import AmplitudeTree.Proofs.Tree.Mix
import AmplitudeTree.Proofs.Tree.OneQubit
import AmplitudeTree.Proofs.Tree.Probability
import AmplitudeTree.Proofs.Tree.Reduction
import AmplitudeTree.Proofs.Tree.Restrict
import AmplitudeTree.Proofs.Tree.Sample
import AmplitudeTree.Proofs.Tree.Split
import AmplitudeTree.Proofs.Tree.StagedAmplitudes
import AmplitudeTree.Proofs.Tree.Staging
import AmplitudeTree.Proofs.Tree.StagingOrder
import AmplitudeTree.Proofs.Tree.Tolerant
import AmplitudeTree.Proofs.Tree.TwoQubits
import AmplitudeTree.Proofs.Tree.UnitNorm
import AmplitudeTree.Proofs.Unfolding.Basic
import AmplitudeTree.Proofs.Unfolding.Canonical
import AmplitudeTree.Proofs.Unfolding.Graft
import AmplitudeTree.Register.Arithmetic
import AmplitudeTree.Register.Basic
import AmplitudeTree.Register.Exchange
import AmplitudeTree.Register.Measure
import AmplitudeTree.Register.Resize
import AmplitudeTree.Register.Vector
import AmplitudeTree.Scalar
import AmplitudeTree.Scalar.Double
import AmplitudeTree.StateVector.Arithmetic
import AmplitudeTree.StateVector.Basic
import AmplitudeTree.StateVector.Parity
import AmplitudeTree.StoredDouble
import AmplitudeTree.Tree.Apply
import AmplitudeTree.Tree.Basic
import AmplitudeTree.Tree.Measure
import AmplitudeTree.Tree.Resize
import AmplitudeTree.Tree.Staging
import AmplitudeTree.Yaml.Document
import AmplitudeTree.Yaml.Layout
import AmplitudeTree.Yaml.Node
import AmplitudeTree.Yaml.Source
import AmplitudeTree.Yaml.Text
import AmplitudeTree.Yaml.Token
