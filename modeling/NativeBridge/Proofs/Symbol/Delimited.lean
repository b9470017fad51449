import NativeBridge.Proofs.Wire.Local
import NativeBridge.Symbol.Table

/-! # Encoded types, symbols and tables are delimited by themselves

All decoders of the format are local, as noting an identifier is. So no accepted input is the beginning
of another, and where an input was cut is told by the error alone.
-/
namespace NativeBridge
open Wire Decoder

theorem Ty.local_decoder : Ty.decoder.Local := Local.nested.type

theorem Symbol.local_decoder : Symbol.decoder.Local := by
  refine Local.position.bind fun offset => Local.peek.bind fun tag => Local.nested.check ?_
  refine Local.byte.bind fun _ => Local.nested.word.bind fun raw => ?_
  exact (Local.noteId raw).bind fun _ => Local.nested.behindId tag raw

theorem SymbolTable.local_decoder : SymbolTable.decoder.Local :=
  (Local.nested.list Symbol.local_decoder).bind fun _ => .pure _

/-- Whatever a table, a symbol or a type is read from is delimited by itself. -/
theorem delimits_of_decode_eq_ok (input : Bytes) :
    (∀ (counter : IdCounter) (t : SymbolTable), (SymbolTable.ofBytes counter input).1 = .ok t →
      Delimits (fun b => (SymbolTable.ofBytes counter b).1) input) ∧
    (∀ s : Symbol, (decodeAll Symbol.decoder input).1 = .ok s →
      Delimits (fun b => (decodeAll Symbol.decoder b).1) input) ∧
    (∀ u : Ty, (decodeAll Ty.decoder input).1 = .ok u →
      Delimits (fun b => (decodeAll Ty.decoder b).1) input) :=
  ⟨fun _ _ h => SymbolTable.local_decoder.delimits h,
    fun _ h => Symbol.local_decoder.delimits h,
    fun _ h => Ty.local_decoder.delimits h⟩

/-- A table of one class, cut within the two bytes of a letter, and with two bytes behind it. -/
theorem delimits_class_table :
    let s : Symbol := ⟨⟨5⟩, ⟨⟨"é.A", "A"⟩, 1, 2, "a"⟩, none, [.reference ⟨"B", "B"⟩], .managedClass⟩
    let input := (⟨[s]⟩ : SymbolTable).encode
    (SymbolTable.ofBytes .start input).1 = .ok ⟨[s]⟩ ∧
      (∃ offset needed remaining, (SymbolTable.ofBytes .start (input.take 14)).1 =
        .error (.unexpectedEnd offset needed remaining) ∧
        offset + remaining = 14 ∧ remaining < needed) ∧
      (SymbolTable.ofBytes .start (input ++ [0, 7])).1 = .error (.trailingBytes 2) := by
  intro s input
  have h : (SymbolTable.ofBytes .start input).1 = .ok ⟨[s]⟩ := by decide +kernel
  have hd := (delimits_of_decode_eq_ok input).1 .start ⟨[s]⟩ h
  exact ⟨h, hd.cut (List.take_prefix 14 input) (by decide), hd.followed (by decide)⟩

end NativeBridge
