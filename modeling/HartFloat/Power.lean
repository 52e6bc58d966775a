/-!
# Powers of natural numbers

Powers of natural numbers are the core library's own in all of the development, whichever algebraic
structures on the natural numbers a module has in scope besides.
-/
namespace HartFloat

attribute [scoped instance (10000)] instPowNat

end HartFloat
