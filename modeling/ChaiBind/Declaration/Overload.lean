import ChaiBind.Declaration.Param
import ChaiBind.Table

/-!
# Overloads

A member function as a class region declares it. All overloads of one name stand
together in a `MethodTable`, in the order of their declarations; constructors are
those without a return type.
-/

namespace ChaiBind

/-- One declaration of a method. -/
structure Overload where
  /-- The return type without specifiers; empty for a constructor. -/
  returnType : String
  params : List Param
  /-- The name is declared more than once in its file. -/
  isOverloaded : Bool
  isStatic : Bool
  isConst : Bool
deriving DecidableEq, Repr

namespace Overload

/-- Whether it declares a constructor. -/
def isConstructor (o : Overload) : Bool := o.returnType.isEmpty

end Overload

/-- The overloads of each name, names in the order in which they first came. -/
abbrev MethodTable := Table String (List Overload)

namespace MethodTable

/-- The table with one more overload under a name. -/
def push (t : MethodTable) (name : String) (o : Overload) : MethodTable :=
  t.alter name fun os => os.getD [] ++ [o]

end MethodTable

end ChaiBind
