import Mathlib.Tactic.Common
import Mathlib.Tactic.Linarith

/-!
# Fixed-width words and C++ exceptions

The C++ sources compute in `std::uint64_t` (and `std::size_t`, 64 bits on every supported target).
A word is a `Nat`; the unchecked operators of the source are the wrapping `add64`, `sub64`, `mul64`
below, and the lemmas say when they are exact. `Exn` is a thrown standard exception: its class and
its `what()` text.
-/

namespace SpdkConnector

/-- `std::numeric_limits<std::uint64_t>::max()`. -/
def u64Max : Nat := 2 ^ 64 - 1

def add64 (a b : Nat) : Nat := (a + b) % 2 ^ 64
def sub64 (a b : Nat) : Nat := (a + (2 ^ 64 - b % 2 ^ 64)) % 2 ^ 64
def mul64 (a b : Nat) : Nat := a * b % 2 ^ 64

theorem add64_exact {a b : Nat} (h : a + b < 2 ^ 64) : add64 a b = a + b := Nat.mod_eq_of_lt h

theorem sub64_exact {a b : Nat} (h : b ≤ a) (ha : a < 2 ^ 64) : sub64 a b = a - b := by
  unfold sub64; omega

theorem mul64_exact {a b : Nat} (h : a * b < 2 ^ 64) : mul64 a b = a * b := Nat.mod_eq_of_lt h

/-- The standard exception classes the sources throw. -/
inductive ExnKind where
  | invalidArgument | runtimeError | logicError | overflowError
deriving DecidableEq, Repr

/-- A thrown exception: its class and its `what()`. -/
structure Exn where
  kind : ExnKind
  what : String
deriving DecidableEq, Repr

end SpdkConnector
