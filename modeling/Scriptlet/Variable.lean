/-!
# Variables

A declared variable. Its slot is its index among all variables of a program, so
two variables of one program are the same exactly if their slots are.
-/

namespace Scriptlet

/-- Whether a variable may hold null. -/
inductive Nullability where
  /-- Declared without `?`: never null. -/
  | safe
  /-- Declared with `?`, or by a loop. -/
  | nullable
  deriving DecidableEq

/-- The name of a nullability in a listing. -/
def Nullability.label : Nullability → String
  | .safe => "Safe"
  | .nullable => "Unsafe"

/-- A declared variable. -/
structure Variable where
  /-- Its name. -/
  name : String
  /-- The line that declares it. -/
  line : Nat
  /-- Whether it is declared `final`. -/
  constant : Bool
  /-- Whether it may hold null. -/
  nullability : Nullability
  /-- Its index among all variables of the program. -/
  slot : Nat
  deriving DecidableEq

/-- The variable may hold null. -/
def Variable.isNullable (v : Variable) : Bool := v.nullability = .nullable

end Scriptlet
