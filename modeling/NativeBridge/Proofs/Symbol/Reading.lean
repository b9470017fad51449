import NativeBridge.Proofs.Type.Reading
import NativeBridge.Symbol.Table

/-! # Which symbols are read

Symbols, with the places and signatures in them, are formats: those of admitted names and types
and of lengths that can be stated. Each is read as it is, up to the empty applications in its
types. A symbol notes its identifier, and a table notes those of its symbols in order.
-/
namespace NativeBridge
open Wire

namespace Ty

/-- The types that stand outside all other types. -/
abbrev outermost : Format Ty := format maxNesting

theorem list_decoder_eq_ok_iff {r s : Reader} {ts : List Ty} (hr : r.depth = 0) :
    Decoder.list decoder r = .ok ts s ↔
      ∃ us, outermost.list.Admits us ∧ us.map pruned = ts ∧ r.Past (encodeList us) [] s := by
  rw [reads_decoder.list hr]
  simp only [list_ids_eq_nil (f := outermost) fun _ => rfl]
  rfl

theorem optional_decoder_eq_ok_iff {r s : Reader} {o : Option Ty} (hr : r.depth = 0) :
    Decoder.optional decoder r = .ok o s ↔
      ∃ u, outermost.optional.Admits u ∧ u.map pruned = o ∧
        r.Past (Wire.optional encode u) [] s := by
  have hids : ∀ u, outermost.optional.ids u = [] := by
    intro u
    cases u <;> rfl
  rw [reads_decoder.optional hr]
  simp only [hids]
  rfl

end Ty

namespace SymbolInfo

def format : Format SymbolInfo where
  bytes := encode
  ids _ := []
  Admits i := SymbolName.format.Admits i.name ∧ i.file.utf8ByteSize ≤ maxLength
  value := id

theorem decoder_eq_ok_iff {r s : Reader} {i : SymbolInfo} :
    decoder r = .ok i s ↔ format.Admits i ∧ r.Past i.encode [] s := by
  simp only [decoder, Run.bind_eq_ok_iff, SymbolName.decoder_eq_ok_iff, Decoder.int_eq_ok_iff,
    Decoder.text_eq_ok_iff, Run.pure_eq_ok_iff]
  constructor
  · rintro ⟨name, t, ⟨hn, ht⟩, line, u, hu, column, v, hv, file, w, ⟨hf, hw⟩, rfl, rfl⟩
    exact ⟨⟨hn, hf⟩, ((ht.trans hu).trans hv).trans hw⟩
  · rintro ⟨⟨hn, hf⟩, h⟩
    obtain ⟨v, h, hw⟩ := Reader.Past.split (i := []) (j := []) h
    obtain ⟨u, h, hv⟩ := Reader.Past.split (i := []) (j := []) h
    obtain ⟨t, ht, hu⟩ := Reader.Past.split (i := []) (j := []) h
    exact ⟨i.name, t, ⟨hn, ht⟩, i.line, u, hu, i.column, v, hv, i.file, s, ⟨hf, hw⟩, rfl, rfl⟩

theorem reads_decoder (level : Nat) : decoder.Reads level format := by
  intro r s i _
  rw [decoder_eq_ok_iff]
  constructor
  · intro h
    exact ⟨i, h.1, rfl, h.2⟩
  · rintro ⟨j, hj, rfl, h⟩
    exact ⟨hj, h⟩

theorem optional_decoder_eq_ok_iff {r s : Reader} {o : Option SymbolInfo} :
    Decoder.optional decoder r = .ok o s ↔
      format.optional.Admits o ∧ r.Past (Wire.optional encode o) [] s := by
  have hids : ∀ u, format.optional.ids u = [] := by
    intro u
    cases u <;> rfl
  rw [(reads_decoder r.depth).optional rfl]
  simp only [hids]
  constructor
  · rintro ⟨u, hu, rfl, h⟩
    rw [format, Format.optional, Option.map_id]
    exact ⟨hu, h⟩
  · rintro ⟨ho, h⟩
    exact ⟨o, ho, Option.map_id', h⟩

theorem delimited_format : format.Delimited := by
  intro i j r s hi hj h
  simp only [format, encode, List.append_assoc, Wire.int] at h
  obtain ⟨hn, h⟩ := SymbolName.delimited_format hi.1 hj.1 h
  obtain ⟨hl, h⟩ := word_append_inj h
  obtain ⟨hc, h⟩ := word_append_inj h
  obtain ⟨hf, h⟩ := text_append_inj hi.2 hj.2 h
  have hl' : i.line = j.line := by simpa using congrArg UInt32.toInt32 hl
  have hc' : i.column = j.column := by simpa using congrArg UInt32.toInt32 hc
  refine ⟨?_, h⟩
  cases i
  cases j
  simp_all

end SymbolInfo

namespace Signature

def pruned (s : Signature) : Signature where
  returns := s.returns.pruned
  parameters := s.parameters.map Ty.pruned
  dispatch := s.dispatch.map Ty.pruned
  extension := s.extension.map Ty.pruned
  contexts := s.contexts.map Ty.pruned

def format : Format Signature where
  bytes := encode
  ids _ := []
  Admits s := Ty.outermost.Admits s.returns ∧ Ty.outermost.list.Admits s.parameters ∧
    Ty.outermost.optional.Admits s.dispatch ∧ Ty.outermost.optional.Admits s.extension ∧
    Ty.outermost.list.Admits s.contexts
  value := pruned

theorem decoder_eq_ok_iff {r s : Reader} {f : Signature} (hr : r.depth = 0) :
    decoder r = .ok f s ↔ ∃ g, format.Admits g ∧ pruned g = f ∧ r.Past g.encode [] s := by
  simp only [decoder, Run.bind_eq_ok_iff, Run.pure_eq_ok_iff]
  constructor
  · rintro ⟨_, t, h1, _, u, h2, _, v, h3, _, w, h4, _, x, h5, rfl, rfl⟩
    obtain ⟨returns, ha, rfl, ht⟩ := (Ty.reads_decoder hr).1 h1
    have hd := ht.depth.trans hr
    obtain ⟨parameters, hb, rfl, hu⟩ := (Ty.list_decoder_eq_ok_iff hd).1 h2
    have hd := hu.depth.trans hd
    obtain ⟨dispatch, hc, rfl, hv⟩ := (Ty.optional_decoder_eq_ok_iff hd).1 h3
    have hd := hv.depth.trans hd
    obtain ⟨extension, he, rfl, hw⟩ := (Ty.optional_decoder_eq_ok_iff hd).1 h4
    have hd := hw.depth.trans hd
    obtain ⟨contexts, hf, rfl, hx⟩ := (Ty.list_decoder_eq_ok_iff hd).1 h5
    exact ⟨⟨returns, parameters, dispatch, extension, contexts⟩, ⟨ha, hb, hc, he, hf⟩, rfl,
      (((ht.trans hu).trans hv).trans hw).trans hx⟩
  · rintro ⟨g, ⟨ha, hb, hc, he, hf⟩, rfl, h⟩
    obtain ⟨w, h, hx⟩ := Reader.Past.split (i := []) (j := []) h
    obtain ⟨v, h, hw⟩ := Reader.Past.split (i := []) (j := []) h
    obtain ⟨u, h, hv⟩ := Reader.Past.split (i := []) (j := []) h
    obtain ⟨t, ht, hu⟩ := Reader.Past.split (i := []) (j := []) h
    have h1 := ht.depth.trans hr
    have h2 := hu.depth.trans h1
    have h3 := hv.depth.trans h2
    have h4 := hw.depth.trans h3
    exact ⟨_, t, (Ty.reads_decoder hr).2 ⟨g.returns, ha, rfl, ht⟩,
      _, u, (Ty.list_decoder_eq_ok_iff h1).2 ⟨g.parameters, hb, rfl, hu⟩,
      _, v, (Ty.optional_decoder_eq_ok_iff h2).2 ⟨g.dispatch, hc, rfl, hv⟩,
      _, w, (Ty.optional_decoder_eq_ok_iff h3).2 ⟨g.extension, he, rfl, hw⟩,
      _, s, (Ty.list_decoder_eq_ok_iff h4).2 ⟨g.contexts, hf, rfl, hx⟩, rfl, rfl⟩

theorem delimited_format : format.Delimited := by
  have ht := Ty.delimited_format maxNesting
  intro f g r s hf hg h
  obtain ⟨f1, f2, f3, f4, f5⟩ := hf
  obtain ⟨g1, g2, g3, g4, g5⟩ := hg
  simp only [format, encode, List.append_assoc] at h
  obtain ⟨e1, h⟩ := ht f1 g1 h
  obtain ⟨e2, h⟩ := ht.list f2 g2 h
  obtain ⟨e3, h⟩ := ht.optional f3 g3 h
  obtain ⟨e4, h⟩ := ht.optional f4 g4 h
  obtain ⟨e5, h⟩ := ht.list f5 g5 h
  refine ⟨?_, h⟩
  cases f
  cases g
  simp_all

end Signature

namespace SymbolVariant

def pruned : SymbolVariant → SymbolVariant
  | function s => function s.pruned
  | .managedClass => .managedClass
  | struct fields => struct (fields.map Ty.pruned)

def Admits : SymbolVariant → Prop
  | function s => Signature.format.Admits s
  | .managedClass => True
  | struct fields => Ty.outermost.list.Admits fields

@[simp] theorem tag_pruned (v : SymbolVariant) : v.pruned.tag = v.tag := by cases v <;> rfl

theorem known_tag (v : SymbolVariant) : Symbol.known v.tag = true := by cases v <;> rfl

theorem decoder_eq_ok_iff {r s : Reader} {v : SymbolVariant} {tag : UInt8} (hr : r.depth = 0)
    (hk : Symbol.known tag = true) :
    decoder tag r = .ok v s ↔ ∃ w, w.tag = tag ∧ Admits w ∧ pruned w = v ∧ r.Past w.encode [] s := by
  unfold decoder
  split_ifs with hf hc
  · subst hf
    simp only [Run.bind_eq_ok_iff, Run.pure_eq_ok_iff]
    constructor
    · rintro ⟨f, t, hs, rfl, rfl⟩
      obtain ⟨g, hg, rfl, hp⟩ := (Signature.decoder_eq_ok_iff hr).1 hs
      exact ⟨function g, rfl, hg, rfl, hp⟩
    · rintro ⟨w, hw, ha, rfl, hp⟩
      cases w with
      | function g =>
        exact ⟨g.pruned, s, (Signature.decoder_eq_ok_iff hr).2 ⟨g, ha, rfl, hp⟩, rfl, rfl⟩
      | managedClass => simp [tag, functionTag, classTag] at hw
      | struct fields => simp [tag, functionTag, structTag] at hw
  · subst hc
    rw [Run.pure_eq_ok_iff]
    constructor
    · rintro ⟨rfl, rfl⟩
      exact ⟨.managedClass, rfl, trivial, rfl, Reader.Past.refl s⟩
    · rintro ⟨w, hw, ha, rfl, hp⟩
      cases w with
      | managedClass => exact ⟨rfl, Reader.past_nil_iff.1 hp⟩
      | function g => exact absurd hw.symm hf
      | struct fields => simp [tag, classTag, structTag] at hw
  · have hs : tag = structTag := by simpa [Symbol.known, hf, hc] using hk
    subst hs
    simp only [Run.bind_eq_ok_iff, Run.pure_eq_ok_iff]
    constructor
    · rintro ⟨_, t, hl, rfl, rfl⟩
      obtain ⟨fields, ha, rfl, hp⟩ := (Ty.list_decoder_eq_ok_iff hr).1 hl
      exact ⟨struct fields, rfl, ha, rfl, hp⟩
    · rintro ⟨w, hw, ha, rfl, hp⟩
      cases w with
      | struct fields =>
        exact ⟨_, s, (Ty.list_decoder_eq_ok_iff hr).2 ⟨fields, ha, rfl, hp⟩, rfl, rfl⟩
      | function g => exact absurd hw.symm hf
      | managedClass => exact absurd hw.symm hc

theorem encode_append_inj {v w : SymbolVariant} {r s : Bytes} (hv : Admits v) (hw : Admits w)
    (ht : v.tag = w.tag) (h : v.encode ++ r = w.encode ++ s) : v = w ∧ r = s := by
  cases v with
  | function f =>
    cases w with
    | function g =>
      obtain ⟨rfl, hr⟩ := Signature.delimited_format hv hw h
      exact ⟨rfl, hr⟩
    | managedClass => simp [tag, functionTag, classTag] at ht
    | struct fields => simp [tag, functionTag, structTag] at ht
  | managedClass =>
    cases w with
    | managedClass => exact ⟨rfl, h⟩
    | function g => simp [tag, functionTag, classTag] at ht
    | struct fields => simp [tag, classTag, structTag] at ht
  | struct fields =>
    cases w with
    | struct others =>
      obtain ⟨rfl, hr⟩ := (Ty.delimited_format maxNesting).list hv hw h
      exact ⟨rfl, hr⟩
    | function g => simp [tag, functionTag, structTag] at ht
    | managedClass => simp [tag, classTag, structTag] at ht

end SymbolVariant

namespace Symbol

def pruned (s : Symbol) : Symbol :=
  { s with typeArguments := s.typeArguments.map Ty.pruned, variant := s.variant.pruned }

def format : Format Symbol where
  bytes := encode
  ids s := [s.id.raw]
  Admits s := SymbolInfo.format.Admits s.info ∧ SymbolInfo.format.optional.Admits s.origin ∧
    Ty.outermost.list.Admits s.typeArguments ∧ s.variant.Admits
  value := pruned

/-- All of the encoding of a symbol behind its tag and its identifier. -/
def encodeParts (s : Symbol) : Bytes :=
  s.info.encode ++ optional SymbolInfo.encode s.origin ++ Ty.encodeList s.typeArguments ++
    s.variant.encode

theorem reads_decoder : decoder.Reads 0 format := by
  intro r s a hr
  simp only [decoder, Run.bind_eq_ok_iff, Decoder.position_eq_ok_iff, Decoder.peek_eq_ok_iff]
  constructor
  · rintro ⟨_, _, ⟨rfl, rfl⟩, tag, _, ⟨rfl, rest, ht⟩, h⟩
    obtain ⟨hk, h⟩ := Run.check_eq_ok_iff.1 h
    simp only [Run.bind_eq_ok_iff, Decoder.byte_eq_ok_iff, Decoder.word_eq_ok_iff,
      Decoder.noteId_eq_ok_iff, SymbolInfo.decoder_eq_ok_iff,
      SymbolInfo.optional_decoder_eq_ok_iff, Run.pure_eq_ok_iff] at h
    obtain ⟨b, t1, hb, raw, t2, hw, _, t3, hn, info, t4, ⟨hi, h4⟩, origin, t5, ⟨ho, h5⟩,
      _, t6, hl, _, t7, hv, rfl, rfl⟩ := h
    obtain rfl : tag = b := ((Reader.past_cons_iff ht).1 hb).1.symm
    have hp := (((hb.trans hw).trans hn).trans h4).trans h5
    obtain ⟨typeArguments, ha, rfl, h6⟩ := (Ty.list_decoder_eq_ok_iff (hp.depth.trans hr)).1 hl
    have hp := hp.trans h6
    have hk' : known tag = true := by simpa using hk
    obtain ⟨variant, hg, hd, rfl, h7⟩ :=
      (SymbolVariant.decoder_eq_ok_iff (hp.depth.trans hr) hk').1 hv
    refine ⟨⟨⟨raw⟩, info, origin, typeArguments, variant⟩, ⟨hi, ho, ha, hd⟩, rfl, ?_⟩
    subst hg
    simpa [format, encode] using hp.trans h7
  · rintro ⟨a, ⟨ha, hb, hc, hd⟩, rfl, h⟩
    have he : a.encode = [a.variant.tag] ++ word a.id.raw ++ [] ++ a.info.encode ++
        optional SymbolInfo.encode a.origin ++ Ty.encodeList a.typeArguments ++ a.variant.encode := by
      simp [encode]
    change r.Past a.encode [a.id.raw] s at h
    have ht : ∃ rest, r.rest = a.variant.tag :: rest := by
      rw [h.rest, he]
      exact ⟨_, rfl⟩
    rw [he] at h
    obtain ⟨t6, h, h7⟩ := Reader.Past.split (i := [a.id.raw]) (j := []) h
    obtain ⟨t5, h, h6⟩ := Reader.Past.split (i := [a.id.raw]) (j := []) h
    obtain ⟨t4, h, h5⟩ := Reader.Past.split (i := [a.id.raw]) (j := []) h
    obtain ⟨t3, h, h4⟩ := Reader.Past.split (i := [a.id.raw]) (j := []) h
    have d6 := (((h.trans h4).trans h5).trans h6).depth.trans hr
    have d5 := ((h.trans h4).trans h5).depth.trans hr
    obtain ⟨t2, h, h3⟩ := Reader.Past.split (i := []) (j := [a.id.raw]) h
    obtain ⟨t1, h1, h2⟩ := Reader.Past.split (i := []) (j := []) h
    refine ⟨r.position, r, ⟨rfl, rfl⟩, a.variant.tag, r, ⟨rfl, ht⟩, ?_⟩
    rw [if_neg (by simp [SymbolVariant.known_tag])]
    simp only [Run.bind_eq_ok_iff, Decoder.byte_eq_ok_iff, Decoder.word_eq_ok_iff,
      Decoder.noteId_eq_ok_iff, SymbolInfo.decoder_eq_ok_iff,
      SymbolInfo.optional_decoder_eq_ok_iff, Run.pure_eq_ok_iff]
    have hv := (SymbolVariant.decoder_eq_ok_iff d6 (SymbolVariant.known_tag a.variant)).2
      ⟨a.variant, rfl, hd, rfl, h7⟩
    exact ⟨_, t1, h1, _, t2, h2, (), t3, h3, a.info, t4, ⟨ha, h4⟩, a.origin, t5, ⟨hb, h5⟩,
      _, t6, (Ty.list_decoder_eq_ok_iff d5).2 ⟨a.typeArguments, hc, rfl, h6⟩, _, s, hv, rfl, rfl⟩

theorem delimited_format : format.Delimited := by
  intro a b r s ha hb h
  obtain ⟨a1, a2, a3, a4⟩ := ha
  obtain ⟨b1, b2, b3, b4⟩ := hb
  simp only [format, encode, List.cons_append, List.append_assoc, List.cons.injEq] at h
  obtain ⟨ht, h⟩ := h
  obtain ⟨e1, h⟩ := word_append_inj h
  obtain ⟨e2, h⟩ := SymbolInfo.delimited_format a1 b1 h
  obtain ⟨e3, h⟩ := SymbolInfo.delimited_format.optional a2 b2 h
  obtain ⟨e4, h⟩ := (Ty.delimited_format maxNesting).list a3 b3 h
  obtain ⟨e5, h⟩ := SymbolVariant.encode_append_inj a4 b4 ht h
  refine ⟨?_, h⟩
  rcases a with ⟨⟨i⟩, _, _, _, _⟩
  rcases b with ⟨⟨j⟩, _, _, _, _⟩
  simp_all

end Symbol

end NativeBridge
