/-!
# Machines

How many threads there are, and whether they can be had, is a matter of the machine that a table is
worked on.  Nothing is known of it here: it may offer any number of threads, and it may refuse to
start the workers of an event loop.
-/

namespace VariHist

/-- What the event loop needs to know of the machine that it works on. -/
class Machine where
  /-- The number of threads at hand, for tables that ask for none. -/
  threads : Nat
  /-- Why this many workers cannot be started; nothing if they can. -/
  poolFault? : Nat → Option String

/-- A machine with one thread at hand, which starts as many workers as are asked for. -/
@[reducible] def Machine.oneThread : Machine where
  threads := 1
  poolFault? _ := none

end VariHist
