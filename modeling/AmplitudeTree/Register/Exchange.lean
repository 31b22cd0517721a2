import AmplitudeTree.Register.Basic

/-!
# Named controlled gates and exchanges

Gates on two and three qubits.  The exchanges act on the amplitudes of `01` and `10`.  A gate that
acts on these two alone is a controlled gate between two negations: a negation of the first qubit,
controlled by the second, turns unequal values into a first qubit that is set.
-/

namespace AmplitudeTree.Register

variable {R : Type} [Scalar R]

def cnot (control target : Nat) : Action R Unit := applyControlled [control] .pauliX target

def antiCnot (control target : Nat) : Action R Unit :=
  applyAntiControlled [control] .pauliX target

def controlledY (control target : Nat) : Action R Unit := applyControlled [control] .pauliY target

def controlledZ (control target : Nat) : Action R Unit :=
  applyControlled [control] (.diagonal 1 (-1)) target

def toffoli (first second target : Nat) : Action R Unit :=
  applyControlled [first, second] .pauliX target

def onPair (first second : Nat) (action : Action R Unit) : Action R Unit := do
  Action.check (·.checkQubit first)
  Action.check (·.checkQubit second)
  if first == second then return
  action

def swap (first second : Nat) : Action R Unit :=
  onPair first second do
    cnot first second
    cnot second first
    cnot first second

/-- Exchanges two qubits, with a factor `i` where they differ. -/
def iSwap (first second : Nat) : Action R Unit :=
  onPair first second do
    swap first second
    controlledZ first second
    apply .phaseS first
    apply .phaseS second

def iSwapInverse (first second : Nat) : Action R Unit :=
  onPair first second do
    swap first second
    controlledZ first second
    apply .phaseSInverse first
    apply .phaseSInverse second

def onUnequal (controls : List Nat) (gate : Gate R) (first second : Nat) : Action R Unit := do
  let reg ← get
  let _ ← Action.ofExcept (reg.checkGate controls true first)
  let _ ← Action.ofExcept (reg.checkGate controls true second)
  if first == second then return
  cnot second first
  applyControlled (controls ++ [first]) gate second
  cnot second first

def sqrtSwap (controls : List Nat) (first second : Nat) : Action R Unit :=
  onUnequal controls .sqrtX first second

def sqrtSwapInverse (controls : List Nat) (first second : Nat) : Action R Unit :=
  onUnequal controls .sqrtXInverse first second

def controlledSwap (controls : List Nat) (first second : Nat) : Action R Unit :=
  if controls.isEmpty then swap first second else onUnequal controls .pauliX first second

/-- Mixes the amplitudes of `01` and `10` by an angle, and turns the phase of `11` back. -/
def fermionic (mixing phase : R) (first second : Nat) : Action R Unit :=
  onPair first second do
    if !Scalar.same mixing 0 then
      cnot first second
      applyControlled [second] (.rotateX (Scalar.two * mixing)) first
      cnot first second
    if !Scalar.same phase 0 then
      applyControlled [first] (.diagonal 1 (.ofPolar 1 (-phase))) second

end AmplitudeTree.Register
