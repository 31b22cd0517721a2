/-!
# Powers

The powers of natural numbers and integers are those that the core library computes.  Fixing the
instance gives a power one meaning in all modules, also in those that see another instance through
an algebraic hierarchy, so that definitions and lemmas meet without a conversion.
-/

attribute [instance (default + 1), default_instance (high + 1)] instPowNat
