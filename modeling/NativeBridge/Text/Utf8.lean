/-! # UTF-8

The bytes of a text and the text of bytes. Bytes that are no text are reported with the offset of
the first byte that starts no character and, where the input goes on, with the number of bytes that
already show it; a character that the input cuts off has no such number.
-/
namespace NativeBridge.Text

def utf8 (s : String) : List UInt8 := s.toByteArray.data.toList

/-- Where bytes stop being text: `broken` is the length of the faulty sequence, or `none` where
the bytes end inside a character. -/
structure Utf8Fault where
  offset : Nat
  broken : Option Nat
deriving DecidableEq

def Utf8Fault.message (f : Utf8Fault) : String :=
  match f.broken with
  | some n => "invalid utf-8 sequence of " ++ toString n ++ " bytes from index " ++ toString f.offset
  | none => "incomplete utf-8 byte sequence from index " ++ toString f.offset

/-- What the bytes after a leading byte turn out to be. -/
inductive Sequence
  | complete (following : Nat)
  | broken (length : Nat)
  | cut

def isContinuation (b : UInt8) : Bool := 0x80 ≤ b && b ≤ 0xbf

/-- Checks `n` continuation bytes after a sequence of `done` sound bytes. -/
def continuations (done : Nat) : Nat → List UInt8 → Sequence
  | 0, _ => .complete (done - 1)
  | _ + 1, [] => .cut
  | n + 1, b :: rest => if isContinuation b then continuations (done + 1) n rest else .broken done

/-- Checks the second byte against the range that the leading byte leaves for it. -/
def second (low high : UInt8) (more : Nat) : List UInt8 → Sequence
  | [] => .cut
  | b :: rest => if low ≤ b && b ≤ high then continuations 2 more rest else .broken 1

def sequence (lead : UInt8) (rest : List UInt8) : Sequence :=
  if lead < 0x80 then .complete 0
  else if 0xc2 ≤ lead && lead ≤ 0xdf then second 0x80 0xbf 0 rest
  else if lead = 0xe0 then second 0xa0 0xbf 1 rest
  else if lead = 0xed then second 0x80 0x9f 1 rest
  else if 0xe1 ≤ lead && lead ≤ 0xef then second 0x80 0xbf 1 rest
  else if lead = 0xf0 then second 0x90 0xbf 2 rest
  else if lead = 0xf4 then second 0x80 0x8f 2 rest
  else if 0xf1 ≤ lead && lead ≤ 0xf3 then second 0x80 0xbf 2 rest
  else .broken 1

def utf8Fault (offset : Nat) : List UInt8 → Utf8Fault
  | [] => ⟨offset, none⟩
  | lead :: rest =>
    match sequence lead rest with
    | .complete n => utf8Fault (offset + n + 1) (rest.drop n)
    | .broken n => ⟨offset, some n⟩
    | .cut => ⟨offset, none⟩
termination_by bytes => bytes.length
decreasing_by simp only [List.length_drop, List.length_cons]; omega

def ofUtf8 (bytes : List UInt8) : Except Utf8Fault String :=
  match String.fromUTF8? ⟨bytes.toArray⟩ with
  | some s => .ok s
  | none => .error (utf8Fault 0 bytes)

theorem ofUtf8_utf8 (s : String) : ofUtf8 (utf8 s) = .ok s := by
  have h : (⟨(utf8 s).toArray⟩ : ByteArray) = s.toByteArray := by simp [utf8]
  simp [ofUtf8, h, String.fromUTF8?, s.isValidUTF8, String.fromUTF8]

theorem utf8_of_ofUtf8 {bytes : List UInt8} {s : String} (h : ofUtf8 bytes = .ok s) :
    utf8 s = bytes := by
  unfold ofUtf8 String.fromUTF8? at h
  split at h
  · rename_i heq
    split at heq
    · cases heq; cases h; simp [utf8, String.fromUTF8]
    · cases heq
  · cases h

theorem length_utf8 (s : String) : (utf8 s).length = s.utf8ByteSize := by
  simp only [utf8, Array.length_toList]; rfl

end NativeBridge.Text
