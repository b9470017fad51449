import NativeBridge.Name.Encoding
import NativeBridge.Proofs.Wire.Format

/-! # Which names are read

A name is read if and only if it is valid and its two texts are not too long for the encoding, and
it is read as it is.
-/
namespace NativeBridge
open Wire

namespace SymbolName

/-- The lengths that the encoding of a name states. -/
def lengths (n : SymbolName) : List Nat := [n.full.utf8ByteSize, n.short.utf8ByteSize]

/-- Valid names whose two texts are not too long for the encoding. -/
def format : Format SymbolName where
  bytes := encode
  ids _ := []
  Admits n := n.isValid = true ∧ ∀ l ∈ n.lengths, l ≤ maxLength
  value := id

theorem admits_iff {n : SymbolName} : format.Admits n ↔
    n.isValid = true ∧ n.full.utf8ByteSize ≤ maxLength ∧ n.short.utf8ByteSize ≤ maxLength := by
  simp [format, lengths]

theorem decoder_eq_ok_iff {r s : Reader} {n : SymbolName} :
    decoder r = .ok n s ↔ format.Admits n ∧ r.Past n.encode [] s := by
  simp only [decoder, Run.bind_eq_ok_iff, Decoder.text_eq_ok_iff]
  constructor
  · rintro ⟨full, t, ⟨hf, ht⟩, short, u, ⟨hs, hu⟩, h⟩
    cases hm : make full short with
    | error e =>
      rw [hm] at h
      exact absurd h Run.throw_ne_ok
    | ok m =>
      rw [hm] at h
      obtain ⟨rfl, rfl⟩ := Run.pure_eq_ok_iff.1 h
      obtain ⟨rfl, hv⟩ := make_eq_ok_iff.1 hm
      exact ⟨admits_iff.2 ⟨hv, hf, hs⟩, ht.trans hu⟩
  · rintro ⟨ha, h⟩
    obtain ⟨hv, hf, hs⟩ := admits_iff.1 ha
    obtain ⟨t, ht, hu⟩ := Reader.Past.split (i := []) (j := []) h
    refine ⟨n.full, t, ⟨hf, ht⟩, n.short, s, ⟨hs, hu⟩, ?_⟩
    rw [make_eq_ok_iff.2 ⟨rfl, hv⟩]
    exact Run.pure_eq_ok_iff.2 ⟨rfl, rfl⟩

theorem reads_decoder (level : Nat) : decoder.Reads level format := by
  intro r s n _
  rw [decoder_eq_ok_iff]
  constructor
  · intro h
    exact ⟨n, h.1, rfl, h.2⟩
  · rintro ⟨m, hm, rfl, h⟩
    exact ⟨hm, h⟩

theorem delimited_format : format.Delimited := by
  intro m n r s hm hn h
  obtain ⟨_, hmf, hms⟩ := admits_iff.1 hm
  obtain ⟨_, hnf, hns⟩ := admits_iff.1 hn
  simp only [format, encode, List.append_assoc] at h
  obtain ⟨hf, h⟩ := text_append_inj hmf hnf h
  obtain ⟨hs, hr⟩ := text_append_inj hms hns h
  refine ⟨?_, hr⟩
  cases m
  cases n
  simp_all

end SymbolName

end NativeBridge
