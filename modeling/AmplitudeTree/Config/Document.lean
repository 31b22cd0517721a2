import AmplitudeTree.Config.Environment
import AmplitudeTree.Yaml.Document

/-!
# Configuration documents

A configuration document is a mapping from the names of settings to their values.  Settings that it
does not name keep their defaults, and names that are no settings are ignored.  An empty document
names nothing.

Numbers and truth values are plain scalars, or literal block scalars with the tag of their kind.
-/

namespace AmplitudeTree

namespace Config.Document

/-! ## Values -/

def coreTag (name : String) : Yaml.Tag := .ofString ("tag:yaml.org,2002:" ++ name)

/-- The text of a scalar that may be read as a value of the kind with the given core tag. -/
def valueText? (kind : String) : Yaml.Node → Option (List Char)
  | .scalar .plain _ text => some text.toList
  | .scalar .literal (some tag) text => if tag == coreTag kind then some text.toList else none
  | _ => none

def isNull (text : String) : Bool := ["null", "Null", "NULL", "~"].contains text

def splitBase : List Char → Nat × List Char
  | '0' :: 'x' :: digits => (16, digits)
  | '0' :: 'o' :: digits => (8, digits)
  | '0' :: 'b' :: digits => (2, digits)
  | digits => (10, digits)

/-- Reads a number of 64 bits.  It may have a plus sign; a decimal one has no leading zero. -/
def readWord? (text : List Char) : Option Nat :=
  let unsigned := match text with
    | '+' :: rest => rest
    | _ => text
  match splitBase unsigned with
  | (10, '0' :: _ :: _) => none
  | (base, digits) => (Decimal.readDigits? base digits).filter (· < 2 ^ 64)

/-- Reads a double; a literal beyond the range of the doubles is refused. -/
def readDouble? (text : List Char) : Option Float :=
  let word := String.ofList text
  if [".inf", ".Inf", ".INF", "+.inf", "+.Inf", "+.INF"].contains word then some (1.0 / 0.0)
  else if ["-.inf", "-.Inf", "-.INF"].contains word then some (-1.0 / 0.0)
  else if [".nan", ".NaN", ".NAN"].contains word then some (0.0 / 0.0)
  else ((Decimal.readDouble? text).map (·.value)).filter fun x => x.isFinite

def readBool? (text : List Char) : Option Bool :=
  let word := String.ofList text
  if ["true", "True", "TRUE"].contains word then some true
  else if ["false", "False", "FALSE"].contains word then some false
  else none

def required? {α : Type} (kind : String) (read : List Char → Option α) (node : Yaml.Node) :
    Option α :=
  (valueText? kind node).bind read

/-- A setting that may be left open, by an empty plain scalar or by a null. -/
def optional? {α : Type} (kind : String) (read : List Char → Option α) (node : Yaml.Node) :
    Option (Option α) :=
  match node with
  | .scalar .plain none "" => some none
  | .scalar .plain tag text =>
      if isNull text && tag.all (· == coreTag "null") then some none
      else if tag == some (coreTag "null") then none
      else some <$> required? kind read node
  | _ => some <$> required? kind read node

/-! ## Settings -/

def keyText? : Yaml.Node → Option String
  | .scalar _ _ text => some text
  | _ => none

def replace (c : Config Float) (name : String) (node : Yaml.Node) : Option (Config Float) :=
  match name with
  | "separability_threshold" =>
      (required? "float" readDouble? node).map fun x => { c with separability := x }
  | "normalize_threshold" =>
      (required? "float" readDouble? node).map fun x => { c with normalization := x }
  | "worker_threads" => (optional? "int" readWord? node).map fun n => { c with workers := n }
  | "seed" => (optional? "int" readWord? node).map fun n => { c with seed := n }
  | "max_dense_qubits" => (required? "int" readWord? node).map fun n => { c with denseLimit := n }
  | "auto_prune" => (required? "bool" readBool? node).map fun b => { c with autoReduce := b }
  | _ => some c

def settingNames : List String :=
  ["separability_threshold", "normalize_threshold", "worker_threads", "seed", "max_dense_qubits",
    "auto_prune"]

def replaceAll (document : Yaml.Document) (c : Config Float) (seen : List String) :
    List (Yaml.Node × Yaml.Node) → Option (Config Float)
  | [] => some c
  | (key, value) :: entries => do
      let name ← keyText? (← document.resolve? key)
      if settingNames.contains name && seen.contains name then none
      let c ← replace c name (← document.resolve? value)
      replaceAll document c (name :: seen) entries

def settings? (document : Yaml.Document) : Option (Config Float) :=
  match document.root with
  | .mapping entries => replaceAll document .default [] entries
  | .scalar .plain _ "" => some .default
  | _ => none

end Config.Document

namespace Config

def ofDocument (text : String) : Except (ConfigError Float) (Config Float) := do
  match (Yaml.Document.ofText? text).bind Document.settings? with
  | none => throw .malformed
  | some config =>
      config.validate
      return config

/-- The valid settings of a file; `none` is the content of a file that cannot be read. -/
def ofFile (content : Option String) : Except (ConfigError Float) (Config Float) :=
  match content with
  | some text => ofDocument text
  | none => .error .unreadable

/-- The settings that `base` gives, overridden by those of the environment, if both are valid. -/
def load (base : Except (ConfigError Float) (Config Float)) (env : Environment) :
    Except (ConfigError Float) (Config Float) := do
  let config := (((← base).map .ofFloat).override env).map (·.value)
  config.validate
  return config

end Config

end AmplitudeTree
