import AmplitudeTree.Decimal.Double
import AmplitudeTree.Scalar

/-!
# Configuration

The settings of a register, their defaults and their admitted values.
-/

namespace AmplitudeTree

structure Config (R : Type) where
  /-- The squared modulus up to which a scale counts as zero and two scales as equal. -/
  separability : R
  /-- How far the squared child scales of a node may be from one before it is normalized. -/
  normalization : R
  /-- The number of workers, if it is fixed. -/
  workers : Option Nat
  /-- The seed of the register's draws, if it is fixed. -/
  seed : Option Nat
  /-- The width of the widest register whose amplitudes are listed. -/
  denseLimit : Nat
  /-- Whether the tree is reduced after every change of its structure. -/
  autoReduce : Bool

inductive Threshold where
  | separability
  | normalization

def Threshold.label : Threshold → String
  | .separability => "separability_threshold"
  | .normalization => "normalize_threshold"

inductive ConfigError (R : Type) where
  /-- A file cannot be read. -/
  | unreadable
  /-- A text is not a configuration document. -/
  | malformed
  | thresholdOutOfRange (threshold : Threshold) (value : R)
  | noWorkers
  | denseLimitTooLarge

namespace ConfigError

def message : ConfigError Float → String
  | .unreadable => "IO error: the file cannot be read"
  | .malformed => "Parse error: the text is not a configuration document"
  | .thresholdOutOfRange threshold value =>
      s!"Validation error: {threshold.label} must lie in [0, 1), got {Decimal.render value}"
  | .noWorkers => "Validation error: worker_threads must be greater than 0"
  | .denseLimitTooLarge => "Validation error: max_dense_qubits must be below 64"

end ConfigError

namespace Config

variable {R : Type}

def map {S : Type} (f : R → S) (c : Config R) : Config S :=
  ⟨f c.separability, f c.normalization, c.workers, c.seed, c.denseLimit, c.autoReduce⟩

variable [Scalar R]

def default : Config R :=
  ⟨1 / Scalar.ofNat (10 ^ 12), 1 / Scalar.ofNat (10 ^ 10), none, none, 28, true⟩

def checkThreshold (threshold : Threshold) (value : R) : Except (ConfigError R) Unit :=
  if Scalar.le 0 value && Scalar.lt value 1 then .ok ()
  else .error (.thresholdOutOfRange threshold value)

def validate (c : Config R) : Except (ConfigError R) Unit := do
  checkThreshold .separability c.separability
  checkThreshold .normalization c.normalization
  if c.workers == some 0 then throw .noWorkers
  if 64 ≤ c.denseLimit then throw .denseLimitTooLarge

end Config

end AmplitudeTree
