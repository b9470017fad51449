import NativeBridge.Symbol.Signature

/-! # Mangled types

The text by which modules look types up. A primitive is its letter; `A$`, `C$` and `S$` open an
array, a reference and a struct, which close with the same marks turned round; an application
follows its generic between `T$` and `$T`, with an underscore for a wildcard. An array opens once
for each of its elements and closes once. Fields of a struct are not written. The key of a function
joins the mangled parts of its signature, each behind a mark of its own.
-/
namespace NativeBridge

def openMark (letter : Char) : List Char := [letter, '$']
def closeMark (letter : Char) : List Char := ['$', letter]

namespace SymbolName

def mangledBetween (letter : Char) (n : SymbolName) : List Char :=
  openMark letter ++ n.mangledChars ++ closeMark letter

end SymbolName

/-- A mark repeated `n` times. -/
def repeatMark (mark : List Char) (n : Nat) : List Char := (List.replicate n mark).flatten

namespace Ty

mutual

/-- The mangled type in front of what follows it. -/
def mangledOnto : Ty → List Char → List Char
  | builtin k, rest => k.code :: rest
  | array e d, rest =>
    repeatMark (openMark 'A') d.toNat ++ mangledOnto e (closeMark 'A' ++ rest)
  | struct n _, rest => n.mangledBetween 'S' ++ rest
  | reference n, rest => n.mangledBetween 'C' ++ rest
  | cone g as, rest => mangledOnto g (applicationOnto as rest)

def applicationOnto : List TypeArgument → List Char → List Char
  | [], rest => rest
  | a :: as, rest =>
    openMark 'T' ++ mangledArgumentOnto a (mangledArgumentsOnto as (closeMark 'T' ++ rest))

def mangledArgumentOnto : TypeArgument → List Char → List Char
  | .star, rest => '_' :: rest
  | .concrete t, rest => mangledOnto t rest

def mangledArgumentsOnto : List TypeArgument → List Char → List Char
  | [], rest => rest
  | a :: as, rest => mangledArgumentOnto a (mangledArgumentsOnto as rest)

end

def mangledChars (t : Ty) : List Char := t.mangledOnto []

def mangledArguments (as : List TypeArgument) : List Char := mangledArgumentsOnto as []

/-- The arguments of an application between their marks; nothing where there are none. -/
def mangledApplication (as : List TypeArgument) : List Char := applicationOnto as []

mutual

theorem mangledOnto_append : ∀ (t : Ty) (rest more : List Char),
    mangledOnto t rest ++ more = mangledOnto t (rest ++ more)
  | builtin _, _, _ => by simp [mangledOnto]
  | array e _, _, _ => by simp [mangledOnto, mangledOnto_append e]
  | struct _ _, _, _ => by simp [mangledOnto]
  | reference _, _, _ => by simp [mangledOnto]
  | cone g as, _, _ => by simp [mangledOnto, mangledOnto_append g, applicationOnto_append as]

theorem applicationOnto_append : ∀ (as : List TypeArgument) (rest more : List Char),
    applicationOnto as rest ++ more = applicationOnto as (rest ++ more)
  | [], _, _ => by simp [applicationOnto]
  | a :: as, _, _ => by
    simp [applicationOnto, mangledArgumentOnto_append a, mangledArgumentsOnto_append as]

theorem mangledArgumentOnto_append : ∀ (a : TypeArgument) (rest more : List Char),
    mangledArgumentOnto a rest ++ more = mangledArgumentOnto a (rest ++ more)
  | .star, _, _ => by simp [mangledArgumentOnto]
  | .concrete t, _, _ => by simp [mangledArgumentOnto, mangledOnto_append t]

theorem mangledArgumentsOnto_append : ∀ (as : List TypeArgument) (rest more : List Char),
    mangledArgumentsOnto as rest ++ more = mangledArgumentsOnto as (rest ++ more)
  | [], _, _ => by simp [mangledArgumentsOnto]
  | a :: as, _, _ => by
    simp [mangledArgumentsOnto, mangledArgumentOnto_append a, mangledArgumentsOnto_append as]

end

theorem mangledChars_builtin (k : Kind) : mangledChars (builtin k) = [k.code] := by
  simp [mangledChars, mangledOnto]

theorem mangledChars_array (e : Ty) (d : UInt32) : mangledChars (array e d) =
    repeatMark (openMark 'A') d.toNat ++ (e.mangledChars ++ closeMark 'A') := by
  simp [mangledChars, mangledOnto, mangledOnto_append]

theorem mangledChars_struct (n : SymbolName) (fs : List Ty) :
    mangledChars (struct n fs) = n.mangledBetween 'S' := by simp [mangledChars, mangledOnto]

theorem mangledChars_reference (n : SymbolName) :
    mangledChars (reference n) = n.mangledBetween 'C' := by simp [mangledChars, mangledOnto]

theorem mangledChars_cone (g : Ty) (as : List TypeArgument) :
    mangledChars (cone g as) = g.mangledChars ++ mangledApplication as := by
  simp [mangledChars, mangledApplication, mangledOnto, mangledOnto_append]

def mangledListChars (ts : List Ty) : List Char := ts.flatMap mangledChars

def mangled (t : Ty) : String := String.ofList t.mangledChars

def mangledList (ts : List Ty) : String := String.ofList (mangledListChars ts)

end Ty

namespace Signature

/-- The key under which a function of this name and signature is looked up. -/
def keyChars (s : Signature) (name : SymbolName) (typeArguments : List Ty) : List Char :=
  openMark 'F' ++ name.mangledChars ++
    closeMark 'R' ++ s.returns.mangledChars ++
    closeMark 'P' ++ Ty.mangledListChars s.parameters ++
    closeMark 'D' ++ Ty.mangledListChars s.dispatch.toList ++
    closeMark 'E' ++ Ty.mangledListChars s.extension.toList ++
    closeMark 'X' ++ Ty.mangledListChars s.contexts ++
    closeMark 'G' ++ Ty.mangledListChars typeArguments ++
    closeMark 'F'

def key (s : Signature) (name : SymbolName) (typeArguments : List Ty) : String :=
  String.ofList (s.keyChars name typeArguments)

end Signature

end NativeBridge
