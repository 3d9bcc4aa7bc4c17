/-! Powers of natural numbers are those of the core library, also beside a library that has powers
of its own. -/

attribute [instance (1100)] instPowNat
