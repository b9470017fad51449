import NativeBridge.Fault
import NativeBridge.Kind
import NativeBridge.Name.Basic

/-! # Types of native values

A type is a primitive kind, an inline array, a struct with its fields back to back, an opaque
reference to a managed object, or a generic type applied to arguments. Equality is structural and
decided by a single pass over both trees; the height of a tree counts a leaf as one level.
-/
namespace NativeBridge

mutual

inductive Ty
  | builtin (kind : Kind)
  | array (element : Ty) (dims : UInt32)
  | struct (name : SymbolName) (fields : List Ty)
  | reference (name : SymbolName)
  | cone (generic : Ty) (arguments : List TypeArgument)

inductive TypeArgument
  | star
  | concrete (type : Ty)

end

namespace Ty

instance : Inhabited Ty := ⟨.builtin .void⟩

mutual

def beq : Ty → Ty → Bool
  | builtin k, builtin l => k == l
  | array e d, array f g => beq e f && d == g
  | struct n fs, struct m gs => n == m && beqList fs gs
  | reference n, reference m => n == m
  | cone g as, cone h bs => beq g h && beqArguments as bs
  | _, _ => false

def beqList : List Ty → List Ty → Bool
  | [], [] => true
  | t :: ts, u :: us => beq t u && beqList ts us
  | _, _ => false

def beqArgument : TypeArgument → TypeArgument → Bool
  | .star, .star => true
  | .concrete t, .concrete u => beq t u
  | _, _ => false

def beqArguments : List TypeArgument → List TypeArgument → Bool
  | [], [] => true
  | a :: as, b :: bs => beqArgument a b && beqArguments as bs
  | _, _ => false

end

mutual

theorem beq_eq_true : ∀ t u : Ty, beq t u = true ↔ t = u
  | builtin k, u => by cases u <;> simp [beq]
  | array e d, u => by cases u <;> simp [beq, beq_eq_true e]
  | struct n fs, u => by cases u <;> simp [beq, beqList_eq_true fs]
  | reference n, u => by cases u <;> simp [beq]
  | cone g as, u => by cases u <;> simp [beq, beq_eq_true g, beqArguments_eq_true as]

theorem beqList_eq_true : ∀ ts us : List Ty, beqList ts us = true ↔ ts = us
  | [], us => by cases us <;> simp [beqList]
  | t :: ts, us => by cases us <;> simp [beqList, beq_eq_true t, beqList_eq_true ts]

theorem beqArgument_eq_true : ∀ a b : TypeArgument, beqArgument a b = true ↔ a = b
  | .star, b => by cases b <;> simp [beqArgument]
  | .concrete t, b => by cases b <;> simp [beqArgument, beq_eq_true t]

theorem beqArguments_eq_true : ∀ as bs : List TypeArgument, beqArguments as bs = true ↔ as = bs
  | [], bs => by cases bs <;> simp [beqArguments]
  | a :: as, bs => by
    cases bs <;> simp [beqArguments, beqArgument_eq_true a, beqArguments_eq_true as]

end

instance : DecidableEq Ty := fun t u => decidable_of_iff _ (beq_eq_true t u)

instance : DecidableEq TypeArgument := fun a b => decidable_of_iff _ (beqArgument_eq_true a b)

/-- An array of at least one element. -/
def arrayOf (element : Ty) (dims : UInt32) : Except Fault Ty :=
  if dims = 0 then .error .emptyArray else .ok (array element dims)

/-- A generic applied to arguments; applied to none it is itself. -/
def apply (generic : Ty) (arguments : List TypeArgument) : Ty :=
  if arguments.isEmpty then generic else cone generic arguments

/-- What remains of a type below its generic applications. -/
def head : Ty → Ty
  | cone g _ => head g
  | t => t

def isStruct (t : Ty) : Bool :=
  match t.head with
  | struct _ _ => true
  | _ => false

def builtin? : Ty → Option Kind
  | builtin k => some k
  | _ => none

/-- The name of a struct or reference below its generic applications. -/
def symbolName? (t : Ty) : Option SymbolName :=
  match t.head with
  | struct n _ => some n
  | reference n => some n
  | _ => none

mutual

def height : Ty → Nat
  | builtin _ => 1
  | array e _ => height e + 1
  | struct _ fs => heights fs + 1
  | reference _ => 1
  | cone g as => max (height g) (argumentHeights as) + 1

/-- The height of the tallest type of a list. -/
def heights : List Ty → Nat
  | [] => 0
  | t :: ts => max (height t) (heights ts)

def argumentHeight : TypeArgument → Nat
  | .star => 0
  | .concrete t => height t

def argumentHeights : List TypeArgument → Nat
  | [] => 0
  | a :: as => max (argumentHeight a) (argumentHeights as)

end

mutual

/-- The type as it is written for people, in front of what follows it. -/
def textOnto : Ty → List Char → List Char
  | builtin k, rest => k.name.toList ++ rest
  | array e d, rest => textOnto e ('[' :: ((toString d.toNat).toList ++ ']' :: rest))
  | struct n fs, rest =>
    "struct ".toList ++ (n.full.toList ++ (' ' :: '\x7b' :: textsOnto fs ('\x7d' :: rest)))
  | reference n, rest => n.full.toList ++ rest
  | cone g as, rest => textOnto g ('<' :: argumentTextsOnto as ('>' :: rest))

/-- Types with commas between them. -/
def textsOnto : List Ty → List Char → List Char
  | [], rest => rest
  | t :: ts, rest => textOnto t (moreTextsOnto ts rest)

/-- Types with a comma before each. -/
def moreTextsOnto : List Ty → List Char → List Char
  | [], rest => rest
  | t :: ts, rest => ',' :: ' ' :: textOnto t (moreTextsOnto ts rest)

def argumentTextOnto : TypeArgument → List Char → List Char
  | .star, rest => '*' :: rest
  | .concrete t, rest => textOnto t rest

def argumentTextsOnto : List TypeArgument → List Char → List Char
  | [], rest => rest
  | a :: as, rest => argumentTextOnto a (moreArgumentTextsOnto as rest)

def moreArgumentTextsOnto : List TypeArgument → List Char → List Char
  | [], rest => rest
  | a :: as, rest => ',' :: ' ' :: argumentTextOnto a (moreArgumentTextsOnto as rest)

end

def text (t : Ty) : String := String.ofList (t.textOnto [])

def argumentText (a : TypeArgument) : String := String.ofList (argumentTextOnto a [])

/-- Types with commas between them. -/
def texts (ts : List Ty) : String := String.ofList (textsOnto ts [])

theorem height_pos (t : Ty) : 0 < t.height := by cases t <;> simp [height]

end Ty

instance : ToString Ty := ⟨Ty.text⟩

instance : ToString TypeArgument := ⟨Ty.argumentText⟩

end NativeBridge
