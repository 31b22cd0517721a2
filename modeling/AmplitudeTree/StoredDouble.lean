/-!
# Stored doubles

A double as it is stored.  Its bits tell the sign of every double, also of an undefined one, which
the value does not show.
-/

namespace AmplitudeTree

structure StoredDouble where
  bits : UInt64
deriving DecidableEq

namespace StoredDouble

/-- The bits of a double; those of an undefined one are without a sign. -/
def ofFloat (x : Float) : StoredDouble := ⟨x.toBits⟩

def value (x : StoredDouble) : Float := .ofBits x.bits

def neg (x : StoredDouble) : StoredDouble := ⟨x.bits ^^^ 0x8000000000000000⟩

end StoredDouble

end AmplitudeTree
