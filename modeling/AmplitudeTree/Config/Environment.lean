import AmplitudeTree.Config.Basic
import AmplitudeTree.Scalar.Double

/-!
# Configuration from the environment

Variables of the environment override settings.  A variable whose value cannot be read is ignored.
-/

namespace AmplitudeTree

abbrev Environment := List (String × String)

namespace Environment

def read? {α : Type} (env : Environment) (name : String) (read : List Char → Option α) :
    Option α :=
  (env.lookup name).bind fun text => read text.toList

def readBool? (text : List Char) : Option Bool :=
  match String.ofList text with
  | "true" => some true
  | "false" => some false
  | _ => none

def readWord? (text : List Char) : Option Nat := Decimal.readNatural? (2 ^ 64) text

end Environment

namespace Config

def override (c : Config StoredDouble) (env : Environment) : Config StoredDouble where
  separability := (env.read? "QBDT_SEPARABILITY_THRESHOLD" Decimal.readDouble?).getD c.separability
  normalization := (env.read? "QBDT_NORMALIZE_THRESHOLD" Decimal.readDouble?).getD c.normalization
  workers := (env.read? "QBDT_THREADS" Environment.readWord?).or c.workers
  seed := (env.read? "QBDT_SEED" Environment.readWord?).or c.seed
  denseLimit := (env.read? "QBDT_MAX_DENSE_QUBITS" Environment.readWord?).getD c.denseLimit
  autoReduce := (env.read? "QBDT_AUTO_PRUNE" Environment.readBool?).getD c.autoReduce

def ofEnvironment (env : Environment) : Config StoredDouble :=
  (Config.default.map .ofFloat).override env

end Config

end AmplitudeTree
