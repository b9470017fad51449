import NativeBridge.Wire.Error

/-! # Bits and codes

A stream of bits takes the lowest bit of each byte first. A code is a binary tree with symbols at
its leaves, built from the length that each symbol's code word has: shorter words come first, and
words of one length follow the order of the symbols. A word that leads out of the tree is corrupt,
a stream that ends before a word does is incomplete.
-/
namespace NativeBridge.Deflate

/-- The bits left of the byte at hand, the bytes ahead, and what has been written so far. -/
structure Stream where
  bits : List Bool
  rest : List UInt8
  output : Array UInt8

abbrev Inflater := EStateM InflateError Stream

/-- The bits of a byte, the lowest first. -/
def bitsOf (b : UInt8) : List Bool := (List.range 8).map fun i => b.toNat.testBit i

def bit : Inflater Bool := fun s =>
  match s.bits with
  | b :: bits => .ok b { s with bits }
  | [] =>
    match s.rest with
    | [] => .error .incomplete s
    | byte :: rest => .ok (byte.toNat.testBit 0) { s with bits := (bitsOf byte).tail, rest }

/-- A number of `n` bits, the lowest first. -/
def number : Nat → Inflater Nat
  | 0 => return 0
  | n + 1 => do
    let low ← bit
    let high ← number n
    return low.toNat + 2 * high

/-- Skips the bits left of the byte at hand. -/
def align : Inflater Unit := modify fun s => { s with bits := [] }

def emit (b : UInt8) : Inflater Unit := modify fun s => { s with output := s.output.push b }

inductive Tree
  | absent
  | leaf (symbol : Nat)
  | node (zero one : Tree)

namespace Tree

/-- Puts a symbol at the end of a path. -/
def insert (symbol : Nat) : List Bool → Tree → Tree
  | [], _ => leaf symbol
  | b :: path, t =>
    let (zero, one) := match t with
      | node zero one => (zero, one)
      | _ => (absent, absent)
    if b then node zero (insert symbol path one) else node (insert symbol path zero) one

/-- Follows bits of the stream down to a symbol. -/
def decode : Tree → Inflater Nat
  | absent => throw .corrupt
  | leaf symbol => return symbol
  | node zero one => do if ← bit then decode one else decode zero

end Tree

/-- The longest code word. -/
def maxWord : Nat := 15

/-- `n` bits of a number, the highest first. -/
def path (value : Nat) : Nat → List Bool
  | 0 => []
  | n + 1 => value.testBit n :: path value n

/-- Adds the symbols whose words have `length` bits, starting at the word `next`. -/
def addLength (lengths : List Nat) (length next : Nat) (t : Tree) : Nat × Tree :=
  lengths.zipIdx.foldl
    (fun (next, t) (l, symbol) =>
      if l = length then (next + 1, t.insert symbol (path next length)) else (next, t))
    (next, t)

def treeOf (lengths : List Nat) : Tree :=
  ((List.range' 1 maxWord).foldl
    (fun (next, t) length => addLength lengths length (2 * next) t)
    (0, Tree.node .absent .absent)).2

/-- The space that words of the given lengths take up, in words of sixteen bits. -/
def space : List Nat → Nat
  | [] => 0
  | l :: rest => (if l = 0 then 0 else Nat.pow 2 (16 - l)) + space rest

def wholeSpace : Nat := 0x10000

def used (lengths : List Nat) : Nat := (lengths.filter (· ≠ 0)).length

/-- No words at all, or a lone one of a single bit. -/
def isLone (lengths : List Nat) : Bool := used lengths ≤ 1 && lengths.all (· ≤ 1)

/-- A code that fills its space exactly; a lone bit may leave space over. -/
def code (lengths : List Nat) : Inflater Tree :=
  if space lengths = wholeSpace || isLone lengths then return treeOf lengths else throw .corrupt

/-- A code that fills its space exactly. -/
def fullCode (lengths : List Nat) : Inflater Tree :=
  if space lengths = wholeSpace then return treeOf lengths else throw .corrupt

end NativeBridge.Deflate
