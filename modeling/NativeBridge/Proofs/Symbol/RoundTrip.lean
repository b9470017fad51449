import NativeBridge.Deflate.Compressor
import NativeBridge.Proofs.Symbol.Representable

/-! # Encoded tables and back

Decoding undoes encoding on the representable tables and on no others. In the other direction,
accepted bytes are the encoding of one tree of types with, perhaps, empty applications in it, and
what was read is that tree without them: encoded again, it differs from the input in nothing else.
-/
namespace NativeBridge
open Wire

namespace Symbol

/-- No type of the symbol has an application to no arguments in it. -/
def Applied (s : Symbol) : Prop := ∀ t ∈ s.types, t.Applied

theorem pruned_eq_self {s : Symbol} (h : s.Applied) : s.pruned = s := by
  have hl : ∀ {ts : List Ty}, (∀ t ∈ ts, t ∈ s.types) → ts.map Ty.pruned = ts := fun ht =>
    map_eq_self_iff.2 fun t hm => Ty.pruned_eq_self (h t (ht t hm))
  have ho : ∀ {o : Option Ty}, (∀ t ∈ o.toList, t ∈ s.types) → o.map Ty.pruned = o := by
    intro o ht
    cases o with
    | none => rfl
    | some t => rw [Option.map_some, Ty.pruned_eq_self (h t (ht t (by simp)))]
  obtain ⟨id, info, origin, typeArguments, variant⟩ := s
  have ht : typeArguments.map Ty.pruned = typeArguments := hl fun t hm => by simp [types, hm]
  rw [pruned, ht]
  congr 1
  cases variant with
  | function f =>
    obtain ⟨returns, parameters, dispatch, extension, contexts⟩ := f
    rw [SymbolVariant.pruned, Signature.pruned]
    congr 2
    · exact Ty.pruned_eq_self (h returns (by simp [types, SymbolVariant.types, Signature.types]))
    · exact hl fun t hm => by simp [types, SymbolVariant.types, Signature.types, hm]
    · refine ho fun t hm => ?_
      simp only [types, SymbolVariant.types, Signature.types, List.mem_append, List.mem_cons]
      tauto
    · refine ho fun t hm => ?_
      simp only [types, SymbolVariant.types, Signature.types, List.mem_append, List.mem_cons]
      tauto
    · exact hl fun t hm => by simp [types, SymbolVariant.types, Signature.types, hm]
  | managedClass => rfl
  | struct fields => exact congrArg _ (hl fun t hm => by simp [types, SymbolVariant.types, hm])

end Symbol

namespace SymbolTable

def Applied (t : SymbolTable) : Prop := ∀ s ∈ t.symbols, s.Applied

theorem pruned_eq_self {t : SymbolTable} (h : t.Applied) : t.pruned = t := by
  rw [pruned, map_eq_self_iff.2 fun s hs => Symbol.pruned_eq_self (h s hs)]

/-- A table survives being encoded and decoded, compressed on the way or not, if and only if it is
representable. -/
theorem ofBytes_encode_eq_ok_iff (counter : IdCounter) (t : SymbolTable)
    (hl : ∀ l ∈ t.lengths, l ≤ maxLength) :
    ((ofBytes counter t.encode).1 = .ok t ↔ t.Representable) ∧
    ∀ z : Compressor, (∀ bytes, z.decompress (z.compress bytes) = .ok bytes) →
      ((decodeCompressed z decoder (z.compress t.encode)).1 = .ok t ↔ t.Representable) := by
  have h : (decodeAll decoder t.encode).1 = .ok t ↔ t.Representable := by
    rw [show t.encode = format.bytes t from rfl,
      reads_decoder.decodeAll_bytes_eq_ok_iff stable_format, fixes_iff]
    exact and_iff_right hl
  refine ⟨h, ?_⟩
  intro z hz
  rw [decodeCompressed, hz]
  exact h

theorem ofBytes_encode_point :
    let t : SymbolTable := ⟨[⟨⟨7⟩, ⟨⟨"geo.Point", "Point"⟩, 1, 4, "geo.kt"⟩, none, [],
      .struct [.array (.builtin .double) 2, .cone (.reference ⟨"util.List", "List"⟩) [.star]]⟩]⟩
    (∀ l ∈ t.lengths, l ≤ maxLength) ∧ (ofBytes .start t.encode).1 = .ok t ∧
      (decodeCompressed ⟨id, .ok⟩ decoder t.encode).1 = .ok t := by
  intro t
  have hl : ∀ l ∈ t.lengths, l ≤ maxLength := by decide
  have ht : t.Representable := by
    intro s hs
    obtain rfl := List.mem_singleton.1 hs
    refine ⟨by decide, ?_⟩
    intro u hu
    simp only [Symbol.types, SymbolVariant.types, List.nil_append, List.mem_cons, List.not_mem_nil,
      or_false] at hu
    rcases hu with rfl | rfl
    · exact ⟨by decide, by decide, by simp [Ty.nodes], by simp [Ty.nodes], by decide⟩
    · refine ⟨by decide, by decide, ?_, ?_, by decide⟩
      · simp [Ty.nodes, Ty.nodesOfArguments, Ty.nodesOfArgument]
      · simp [Ty.nodes, Ty.nodesOfArguments, Ty.nodesOfArgument]
  obtain ⟨h, hz⟩ := ofBytes_encode_eq_ok_iff .start t hl
  exact ⟨hl, h.2 ht, (hz ⟨id, .ok⟩ fun _ => rfl).2 ht⟩

end SymbolTable

/-- Accepted bytes are those of one tree, and what is read is the tree without the empty
applications in it; this is representable, and its own encoding is read as it is. -/
theorem encode_of_decode_eq_ok (bytes : Bytes) :
    (∀ (counter : IdCounter) (t : SymbolTable), (SymbolTable.ofBytes counter bytes).1 = .ok t →
      (∃ raw : SymbolTable, SymbolTable.format.Admits raw ∧ raw.encode = bytes ∧ raw.pruned = t ∧
        (raw.Applied → t.encode = bytes) ∧
        ∀ other, SymbolTable.format.Admits other → other.encode = bytes → other = raw) ∧
      t.Representable ∧ (SymbolTable.ofBytes counter t.encode).1 = .ok t) ∧
    (∀ s : Symbol, (decodeAll Symbol.decoder bytes).1 = .ok s →
      (∃ raw : Symbol, Symbol.format.Admits raw ∧ raw.encode = bytes ∧ raw.pruned = s ∧
        (raw.Applied → s.encode = bytes) ∧
        ∀ other, Symbol.format.Admits other → other.encode = bytes → other = raw) ∧
      s.Representable ∧ (decodeAll Symbol.decoder s.encode).1 = .ok s) ∧
    (∀ u : Ty, (decodeAll Ty.decoder bytes).1 = .ok u →
      (∃ raw : Ty, Ty.outermost.Admits raw ∧ raw.encode = bytes ∧ raw.pruned = u ∧
        (raw.Applied → u.encode = bytes) ∧
        ∀ other, Ty.outermost.Admits other → other.encode = bytes → other = raw) ∧
      u.Representable ∧ (decodeAll Ty.decoder u.encode).1 = .ok u) := by
  refine ⟨?_, ?_, ?_⟩
  · intro counter t h
    obtain ⟨⟨raw, ha, hb, hv, hu⟩, hf, hd⟩ := SymbolTable.reads_decoder.exists_of_decodeAll
      SymbolTable.stable_format SymbolTable.delimited_format h
    refine ⟨⟨raw, ha, hb, hv, ?_, hu⟩, (SymbolTable.fixes_iff.1 hf).2, hd⟩
    intro hr
    rw [← hb, ← hv]
    exact congrArg SymbolTable.encode (SymbolTable.pruned_eq_self hr)
  · intro s h
    obtain ⟨⟨raw, ha, hb, hv, hu⟩, hf, hd⟩ := Symbol.reads_decoder.exists_of_decodeAll
      Symbol.stable_format Symbol.delimited_format h
    refine ⟨⟨raw, ha, hb, hv, ?_, hu⟩, (Symbol.fixes_iff.1 hf).2, hd⟩
    intro hr
    rw [← hb, ← hv]
    exact congrArg Symbol.encode (Symbol.pruned_eq_self hr)
  · intro u h
    obtain ⟨⟨raw, ha, hb, hv, hu⟩, hf, hd⟩ := Ty.reads_decoder.exists_of_decodeAll
      (Ty.stable_format maxNesting) (Ty.delimited_format maxNesting) h
    refine ⟨⟨raw, ha, hb, hv, ?_, hu⟩, (Ty.outermost_fixes_iff.1 hf).2, hd⟩
    intro hr
    rw [← hb, ← hv]
    exact congrArg Ty.encode (Ty.pruned_eq_self hr)

theorem ofBytes_cone_nil :
    let symbol (t : Ty) : Symbol := ⟨⟨5⟩, ⟨⟨"A", "A"⟩, 1, 2, ""⟩, none, [t], .managedClass⟩
    let raw : SymbolTable := ⟨[symbol (.cone (.builtin .int) [])]⟩
    let t : SymbolTable := ⟨[symbol (.builtin .int)]⟩
    (SymbolTable.ofBytes .start raw.encode).1 = .ok t ∧ t.Representable ∧
      (SymbolTable.ofBytes .start t.encode).1 = .ok t := by
  intro symbol raw t
  have ha : SymbolTable.format.Admits raw := by
    refine ⟨by decide, ?_⟩
    intro s hs
    obtain rfl := List.mem_singleton.1 hs
    refine ⟨⟨⟨by decide, by decide⟩, by decide⟩, by simp [Format.optional, symbol],
      ⟨by decide, ?_⟩, trivial⟩
    intro u hu
    obtain rfl := List.mem_singleton.1 hu
    exact ⟨Ty.readable_cone_iff.2 ⟨Ty.readable_builtin _, by decide, by simp⟩, by decide⟩
  have h : (SymbolTable.ofBytes .start raw.encode).1 = .ok t :=
    SymbolTable.reads_decoder.decodeAll_fst_eq_ok_iff.2 ⟨raw, ha, rfl, rfl⟩
  obtain ⟨_, hr, hd⟩ := (encode_of_decode_eq_ok raw.encode).1 .start t h
  exact ⟨h, hr, hd⟩

end NativeBridge
