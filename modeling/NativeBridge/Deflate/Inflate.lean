import NativeBridge.Deflate.Code

/-! # Expanding compressed data

Blocks follow each other until one says that it is the last; whatever stands behind it is ignored.
A block is stored as it is, or written in a fixed code, or in a code that it describes itself.
Symbols are bytes, the end of the block, or a length; a distance follows a length, and that many
bytes are repeated from that far back. What lies before the beginning of the output reads as zero.
-/
namespace NativeBridge.Deflate

/-- Extra bits and least length of the length symbols from 257 on. -/
def lengthSymbols : List (Nat × Nat) :=
  [(0, 3), (0, 4), (0, 5), (0, 6), (0, 7), (0, 8), (0, 9), (0, 10), (1, 11), (1, 13), (1, 15),
    (1, 17), (2, 19), (2, 23), (2, 27), (2, 31), (3, 35), (3, 43), (3, 51), (3, 59), (4, 67),
    (4, 83), (4, 99), (4, 115), (5, 131), (5, 163), (5, 195), (5, 227), (0, 258)]

/-- Extra bits and least distance of the distance symbols. -/
def distanceSymbols : List (Nat × Nat) :=
  [(0, 1), (0, 2), (0, 3), (0, 4), (1, 5), (1, 7), (2, 9), (2, 13), (3, 17), (3, 25), (4, 33),
    (4, 49), (5, 65), (5, 97), (6, 129), (6, 193), (7, 257), (7, 385), (8, 513), (8, 769),
    (9, 1025), (9, 1537), (10, 2049), (10, 3073), (11, 4097), (11, 6145), (12, 8193),
    (12, 12289), (13, 16385), (13, 24577)]

/-- The number that a symbol and its extra bits stand for. -/
def extended (symbols : List (Nat × Nat)) (i : Nat) : Inflater Nat :=
  match symbols[i]? with
  | some (extra, least) => do return least + (← number extra)
  | none => throw .corrupt

/-- Repeats `n` bytes from `distance` back. -/
def copyBack (distance : Nat) : Nat → Array UInt8 → Array UInt8
  | 0, out => out
  | n + 1, out =>
    let b := if distance ≤ out.size then (out[out.size - distance]?).getD 0 else 0
    copyBack distance n (out.push b)

def endOfBlock : Nat := 256

/-- The symbols of a block, in fewer than `turns` turns. -/
def symbols (literals distances : Tree) : Nat → Inflater Unit
  | 0 => throw .incomplete
  | turns + 1 => do
    let symbol ← literals.decode
    if symbol < endOfBlock then
      emit (UInt8.ofNat symbol)
      symbols literals distances turns
    else if symbol = endOfBlock then return ()
    else
      let n ← extended lengthSymbols (symbol - 257)
      let distance ← extended distanceSymbols (← distances.decode)
      modify fun s => { s with output := copyBack distance n s.output }
      symbols literals distances turns

def byte : Inflater UInt8 := do return UInt8.ofNat (← number 8)

def storedBytes : Nat → Inflater Unit
  | 0 => return ()
  | n + 1 => do
    emit (← byte)
    storedBytes n

/-- A stored block states its length twice, the second time with every bit turned. -/
def stored : Inflater Unit := do
  align
  let length ← number 16
  let check ← number 16
  if length + check ≠ 0xffff then throw .corrupt
  storedBytes length

def fixedLiterals : Tree :=
  treeOf (List.replicate 144 8 ++ List.replicate 112 9 ++ List.replicate 24 7 ++
    List.replicate 8 8)

def fixedDistances : Tree := treeOf (List.replicate 32 5)

/-- The order in which the lengths of the code for lengths are written. -/
def lengthOrder : List Nat := [16, 17, 18, 0, 8, 7, 9, 6, 10, 5, 11, 4, 12, 3, 13, 2, 14, 1, 15]

def readLengths : Nat → Inflater (List Nat)
  | 0 => return []
  | n + 1 => do
    let l ← number 3
    return l :: (← readLengths n)

/-- Code lengths up to a total of `total`, behind those of `acc`, which has the latest first. -/
def codeLengths (lengths : Tree) (total : Nat) : Nat → List Nat → Inflater (List Nat)
  | 0, _ => throw .incomplete
  | turns + 1, acc => do
    if acc.length = total then return acc.reverse
    if total < acc.length then throw .corrupt
    let symbol ← lengths.decode
    let (count, value) ←
      if symbol < 16 then pure (1, symbol)
      else if symbol = 16 then
        match acc with
        | [] => throw .corrupt
        | previous :: _ => do pure (3 + (← number 2), previous)
      else if symbol = 17 then do pure (3 + (← number 3), 0)
      else do pure (11 + (← number 7), 0)
    codeLengths lengths total turns (List.replicate count value ++ acc)

/-- The codes that a block describes: those for literals and for distances. -/
def describedCodes : Inflater (Tree × Tree) := do
  let literals := 257 + (← number 5)
  let distances := 1 + (← number 5)
  let count := 4 + (← number 4)
  if 286 < literals || 30 < distances then throw .corrupt
  let written ← readLengths count
  let ofSymbol (symbol : Nat) : Nat :=
    ((lengthOrder.zip written).lookup symbol).getD 0
  let lengths ← fullCode ((List.range 19).map ofSymbol)
  let all ← codeLengths lengths (literals + distances) (literals + distances + 1) []
  return (← code (all.take literals), ← code (all.drop literals))

def block (turns : Nat) : Nat → Inflater Unit
  | 0 => stored
  | 1 => symbols fixedLiterals fixedDistances turns
  | 2 => do
    let (literals, distances) ← describedCodes
    symbols literals distances turns
  | _ => throw .corrupt

/-- Blocks up to the last, in fewer than `turns` turns. -/
def blocks (limit : Nat) : Nat → Inflater Unit
  | 0 => throw .incomplete
  | turns + 1 => do
    let last ← bit
    block limit (← number 2)
    if last then return () else blocks limit turns

def inflate (bytes : List UInt8) : Except InflateError (List UInt8) :=
  let limit := 8 * bytes.length + 1
  match blocks limit limit ⟨[], bytes, #[]⟩ with
  | .ok _ s => .ok s.output.toList
  | .error e _ => .error e

end NativeBridge.Deflate
