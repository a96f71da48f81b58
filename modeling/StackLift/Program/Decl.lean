import StackLift.Code.Body

/-!
# Declarations

What the program says about one type and about one method.
-/
namespace StackLift

structure TypeFlags where
  final : Bool := false        -- cannot be subclassed
  interface : Bool := false
  abstract : Bool := false     -- cannot be instantiated
deriving DecidableEq, Repr, Inhabited

/-- The flags as a number, lowest bit first. -/
def TypeFlags.bits (f : TypeFlags) : Nat :=
  f.final.toNat + 2 * f.interface.toNat + 4 * f.abstract.toNat

structure TypeDecl where
  id : TypeId
  name : String
  superclass : Option TypeId := none
  interfaces : List TypeId := []
  flags : TypeFlags := {}
deriving DecidableEq, Repr, Inhabited

/-- The types that the declaration names as its direct supertypes. -/
def TypeDecl.parents (t : TypeDecl) : List TypeId := t.superclass.toList ++ t.interfaces

structure MethodFlags where
  static : Bool := false         -- has no receiver
  final : Bool := false          -- cannot be overridden
  abstract : Bool := false       -- not implemented in its type
  native : Bool := false         -- implemented outside of the program
  neverInline : Bool := false
  synchronized : Bool := false   -- holds the receiver's monitor while it runs
deriving DecidableEq, Repr, Inhabited

/-- The flags as a number, lowest bit first. -/
def MethodFlags.bits (f : MethodFlags) : Nat :=
  f.static.toNat + 2 * f.final.toNat + 4 * f.abstract.toNat + 8 * f.native.toNat +
    16 * f.neverInline.toNat + 32 * f.synchronized.toNat

structure MethodDecl where
  id : MethodId
  name : String
  holder : TypeId                   -- the declaring type
  flags : MethodFlags := {}
  params : List ValueKind := []     -- without the receiver
  returns : ValueKind := .void
  body : Option Body := none
deriving DecidableEq, Repr, Inhabited

namespace MethodDecl

def isStatic (m : MethodDecl) : Bool := m.flags.static

def isConcrete (m : MethodDecl) : Bool := !m.flags.abstract

/-- The kinds of all arguments; a receiver comes first. -/
def argKinds (m : MethodDecl) : List ValueKind :=
  if m.isStatic then m.params else .object :: m.params

/-- The number of instructions, if there is a body. -/
def codeSize? (m : MethodDecl) : Option Nat := m.body.map Body.size

end MethodDecl

end StackLift
