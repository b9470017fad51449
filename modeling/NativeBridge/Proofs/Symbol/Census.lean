import NativeBridge.Proofs.Symbol.Representable
import NativeBridge.Proofs.Type.Census

/-! # What is read is paid for in bytes

A symbol has a tag, an identifier, a place, a flag and a number of type arguments, which is thirty
bytes before any type of it is counted, and each of its types costs what it does by itself. So the size
of a table that is accepted is limited by the size of the input alone: no number in the input makes
anything larger than the bytes that are there.
-/
namespace NativeBridge
open Wire

theorem SymbolInfo.spends_decoder : decoder.Spends fun _ => 20 := by
  intro r s i h
  have hp := (decoder_eq_ok_iff.1 h).2.onward
  have hn := i.name.eight_le_length_encode
  refine hp.mono ?_
  simp only [encode, List.length_append, Wire.int, length_word, length_text]
  omega

theorem Signature.spends_decoder : decoder.Spends fun s => (s.types.map Ty.price).sum := by
  intro r s f h
  simp only [decoder, Run.bind_eq_ok_iff, Run.pure_eq_ok_iff] at h
  obtain ⟨returns, t, h1, parameters, u, h2, dispatch, v, h3, extension, w, h4, contexts, x, h5,
    rfl, rfl⟩ := h
  have ht := Ty.spends_decoder
  have hp := ((((ht h1).trans (ht.list h2)).trans (ht.optional h3)).trans (ht.optional h4)).trans
    (ht.list h5)
  refine hp.mono ?_
  simp only [types, List.map_cons, List.map_append, List.sum_cons, List.sum_append]
  omega

theorem SymbolVariant.spends_decoder (tag : UInt8) :
    (decoder tag).Spends fun v => (v.types.map Ty.price).sum := by
  intro r s v h
  unfold decoder at h
  split_ifs at h
  · obtain ⟨f, hf, rfl⟩ := Run.bind_pure_eq_ok_iff.1 h
    exact Signature.spends_decoder hf
  · obtain ⟨rfl, rfl⟩ := Run.pure_eq_ok_iff.1 h
    exact (Reader.Past.refl s).onward
  · obtain ⟨fields, hf, rfl⟩ := Run.bind_pure_eq_ok_iff.1 h
    exact (Ty.spends_decoder.list hf).mono (Nat.le_add_left _ _)

namespace Symbol

/-- The fewest bytes in which a symbol is written, with all types inside it. -/
def price (s : Symbol) : Nat := 30 + (s.types.map Ty.price).sum

theorem spends_decoder : decoder.Spends price := by
  intro r s a h
  simp only [decoder, Run.bind_eq_ok_iff, Decoder.position_eq_ok_iff, Decoder.peek_eq_ok_iff] at h
  obtain ⟨_, _, ⟨rfl, rfl⟩, tag, _, ⟨rfl, _⟩, h⟩ := h
  obtain ⟨_, h⟩ := Run.check_eq_ok_iff.1 h
  simp only [Run.bind_eq_ok_iff, Decoder.byte_eq_ok_iff, Decoder.word_eq_ok_iff,
    Decoder.noteId_eq_ok_iff, Run.pure_eq_ok_iff] at h
  obtain ⟨b, t1, hb, raw, t2, hw, _, t3, hn, info, t4, hi, origin, t5, ho, typeArguments, t6, hl,
    variant, t7, hv, rfl, rfl⟩ := h
  have hid := ((hb.trans hw).trans hn).onward
  have hplaces := (SymbolInfo.spends_decoder hi).trans (SymbolInfo.spends_decoder.optional ho)
  have htypes := (Ty.spends_decoder.list hl).trans (SymbolVariant.spends_decoder tag hv)
  refine ((hid.trans hplaces).trans htypes).mono ?_
  simp only [price, types, List.map_append, List.sum_append, List.length_append, length_word,
    List.length_singleton]
  omega

end Symbol

namespace SymbolTable

/-- All types in a table, those inside others included. -/
def nodes (t : SymbolTable) : List Ty := t.symbols.flatMap fun s => s.types.flatMap Ty.nodes

/-- All arguments of types in a table. -/
def arguments (t : SymbolTable) : List TypeArgument := t.nodes.flatMap Ty.ownArguments

def price (t : SymbolTable) : Nat := 4 + (t.symbols.map Symbol.price).sum

theorem spends_decoder : decoder.Spends price := by
  intro r s t h
  obtain ⟨symbols, hl, rfl⟩ := Run.bind_pure_eq_ok_iff.1 h
  exact Symbol.spends_decoder.list hl

/-- Thirty bytes a symbol, two a type and one an argument. -/
theorem price_eq (t : SymbolTable) :
    t.price = 4 + 30 * t.symbols.length + 2 * t.nodes.length + t.arguments.length := by
  have hn : Ty.toll t.nodes = (t.symbols.map fun s => (s.types.map Ty.price).sum).sum := by
    rw [nodes, Ty.toll_flatMap]
    simp only [Ty.toll_flatMap]
    rfl
  have hs : (t.symbols.map Symbol.price).sum = 30 * t.symbols.length + Ty.toll t.nodes := by
    unfold Symbol.price
    rw [List.sum_map_add, List.map_const', List.sum_replicate_nat, hn, Nat.mul_comm]
  rw [price, hs, Ty.toll, ← arguments]
  omega

/-- An accepted input is at least as long as its table costs. -/
theorem price_le_length {counter : IdCounter} {bytes : Bytes} {t : SymbolTable}
    (h : (ofBytes counter bytes).1 = .ok t) : t.price ≤ bytes.length := by
  obtain ⟨s, hs, _⟩ := Decoder.decodeAll_fst_eq_ok.1 h
  have hp := (spends_decoder hs).add_remaining_le
  exact (Nat.le_add_right _ _).trans hp

end SymbolTable

/-- A type takes two bytes at least and an argument, a text or a symbol one, of those that are there,
and lists of them are limited by that; and a table that is accepted has no more symbols, types and
arguments together than its input has bytes. -/
theorem decoding_bounded_by_input :
    (Ty.decoder.Bounded 2 ∧ TypeArgument.decoder.Bounded 1 ∧ Decoder.text.Bounded 1 ∧
      Symbol.decoder.Bounded 1) ∧
    ∀ {counter : IdCounter} {bytes : Bytes} {t : SymbolTable},
      (SymbolTable.ofBytes counter bytes).1 = .ok t →
        t.symbols.length + t.nodes.length + t.arguments.length ≤ bytes.length := by
  refine ⟨⟨?_, ?_, ?_, ?_⟩, ?_⟩
  · exact (Ty.spends_decoder.mono Ty.two_le_price).bounded (by decide)
  · exact (TypeArgument.spends_decoder.mono fun a => Nat.le_add_right 1 _).bounded (by decide)
  · refine (Decoder.spends_text.mono fun x => ?_).bounded (by decide)
    exact Nat.le_trans (by decide) (Nat.le_add_right 4 x.utf8ByteSize)
  · refine (Symbol.spends_decoder.mono fun s => ?_).bounded (by decide)
    exact Nat.le_trans (by decide) (Nat.le_add_right 30 _)
  · intro counter bytes t h
    have hp := SymbolTable.price_le_length h
    rw [SymbolTable.price_eq] at hp
    omega

/-- A table with an application to no arguments around one to two, a list of two wildcards, and a list
that states the greatest number of types in front of three bytes. -/
theorem decoding_bounded_by_input_overstated :
    let applied (as : List TypeArgument) : Ty := .cone (.reference ⟨"util.List", "List"⟩) as
    let table (t : Ty) : SymbolTable :=
      ⟨[⟨⟨5⟩, ⟨⟨"A", "A"⟩, 1, 2, ""⟩, none, [t], .managedClass⟩]⟩
    let inner := applied [.star, .concrete (.array (.builtin .int) 3)]
    let t := table inner
    let bytes := (table (.cone inner [])).encode
    let few : Reader := .ofBytes [0, 0, 0, 2, 0, 0]
    let many : Reader := .ofBytes [255, 255, 255, 255, 0, 3, 0]
    ((SymbolTable.ofBytes .start bytes).1 = .ok t ∧
      t.symbols.length + t.nodes.length + t.arguments.length ≤ bytes.length) ∧
    (∃ s, Decoder.list TypeArgument.decoder few = .ok [.star, .star] s ∧
      [TypeArgument.star, .star].length ≤ Reader.capacity ⟨[0, 0], 4, 0, []⟩ 2) ∧
    (∃ e s, Decoder.list Ty.decoder many = .error e s ∧
      Decoder.items Ty.decoder 4 #[] ⟨[0, 3, 0], 4, 0, []⟩ = .error e s) ∧
    Ty.decoder ⟨[0, 3, 0], 4, 0, []⟩ = .ok (.builtin .int) ⟨[0], 6, 0, []⟩ ∧
      Reader.Onward ⟨[0, 3, 0], 4, 0, []⟩ 2 ⟨[0], 6, 0, []⟩ := by
  intro applied table inner t bytes few many
  obtain ⟨⟨htype, hargument, _, _⟩, htable⟩ := decoding_bounded_by_input
  have ht : (SymbolTable.ofBytes .start bytes).1 = .ok t := by decide +kernel
  have hfew : Decoder.length few = .ok 2 ⟨[0, 0], 4, 0, []⟩ := rfl
  have hstars : Decoder.list TypeArgument.decoder few = .ok [.star, .star] ⟨[], 6, 0, []⟩ := rfl
  have hmany : Decoder.length many = .ok 0xffffffff ⟨[0, 3, 0], 4, 0, []⟩ := rfl
  have hint : Ty.decoder ⟨[0, 3, 0], 4, 0, []⟩ = .ok (.builtin .int) ⟨[0], 6, 0, []⟩ := rfl
  exact ⟨⟨ht, htable ht⟩, ⟨_, hstars, (hargument.reserved hfew hstars).2⟩,
    htype.overstated hmany (by decide), hint, htype.onward hint⟩

end NativeBridge
