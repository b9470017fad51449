import NativeBridge.Proofs.Wire.Past

/-! # Formats

A format says how values are written, which of them reading accepts, and what reading makes of
them. A decoder reads a format if it succeeds on exactly the accepted values: success means that
the bytes ahead are the writing of such a value, and every such writing is read. Lists and optional
values of a format are formats again, and reading carries over to them.
-/
namespace NativeBridge.Wire

variable {α : Type}

/-- How a value is written, the raw identifiers in it (the latest first), whether it is accepted,
and what is read for it. -/
structure Format (α : Type) where
  bytes : α → Bytes
  ids : α → List UInt32
  Admits : α → Prop
  value : α → α

namespace Format

def list (f : Format α) : Format (List α) where
  bytes := Wire.list f.bytes
  ids xs := xs.reverse.flatMap f.ids
  Admits xs := xs.length ≤ maxLength ∧ ∀ a ∈ xs, f.Admits a
  value := List.map f.value

def optional (f : Format α) : Format (Option α) where
  bytes := Wire.optional f.bytes
  ids o := o.toList.flatMap f.ids
  Admits o := ∀ a ∈ o, f.Admits a
  value := Option.map f.value

/-- The value is accepted and read as it is. -/
def Fixes (f : Format α) (a : α) : Prop := f.Admits a ∧ f.value a = a

/-- What is read would be read as it is. -/
def Stable (f : Format α) : Prop := ∀ ⦃a : α⦄, f.Admits a → f.Fixes (f.value a)

theorem list_fixes_iff {f : Format α} {xs : List α} :
    f.list.Fixes xs ↔ xs.length ≤ maxLength ∧ ∀ a ∈ xs, f.Fixes a := by
  simp only [Fixes, list, map_eq_self_iff]
  constructor
  · rintro ⟨⟨hl, ha⟩, hx⟩
    exact ⟨hl, fun a hm => ⟨ha a hm, hx a hm⟩⟩
  · rintro ⟨hl, h⟩
    exact ⟨⟨hl, fun a hm => (h a hm).1⟩, fun a hm => (h a hm).2⟩

theorem optional_fixes_iff {f : Format α} {o : Option α} :
    f.optional.Fixes o ↔ ∀ a ∈ o, f.Fixes a := by
  cases o with
  | none => simp [Fixes, optional]
  | some a => simp [Fixes, optional]

theorem Stable.list {f : Format α} (h : f.Stable) : f.list.Stable := by
  intro xs hx
  refine list_fixes_iff.2 ⟨?_, ?_⟩
  · simpa [Format.list] using hx.1
  · intro a ha
    obtain ⟨x, hm, rfl⟩ := List.mem_map.1 ha
    exact h (hx.2 x hm)

theorem Stable.optional {f : Format α} (h : f.Stable) : f.optional.Stable := by
  intro o ho
  refine optional_fixes_iff.2 ?_
  intro a ha
  obtain ⟨x, rfl, rfl⟩ := Option.map_eq_some_iff.1 ha
  exact h (ho x rfl)

/-- No accepted value is written as the beginning of another. -/
def Delimited (f : Format α) : Prop :=
  ∀ ⦃a b : α⦄ ⦃r s : Bytes⦄, f.Admits a → f.Admits b →
    f.bytes a ++ r = f.bytes b ++ s → a = b ∧ r = s

end Format

/-- Equal words with something behind them are equal, and so is what is behind them. -/
theorem word_append_inj {m n : UInt32} {r s : Bytes} (h : word m ++ r = word n ++ s) :
    m = n ∧ r = s := by
  obtain ⟨hw, hr⟩ := List.append_inj h (by simp)
  have hn := congrArg Decoder.bigEndian hw
  rw [Decoder.bigEndian_word, Decoder.bigEndian_word] at hn
  exact ⟨UInt32.toNat.inj hn, hr⟩

theorem length_append_inj {m n : Nat} {r s : Bytes} (hm : m ≤ maxLength) (hn : n ≤ maxLength)
    (h : length m ++ r = length n ++ s) : m = n ∧ r = s := by
  obtain ⟨hw, hr⟩ := word_append_inj h
  have ht := congrArg UInt32.toNat hw
  simp only [maxLength] at hm hn
  rw [UInt32.toNat_ofNat_of_lt' (by simp only [UInt32.size]; omega),
    UInt32.toNat_ofNat_of_lt' (by simp only [UInt32.size]; omega)] at ht
  exact ⟨ht, hr⟩

theorem text_append_inj {x y : String} {r s : Bytes} (hx : x.utf8ByteSize ≤ maxLength)
    (hy : y.utf8ByteSize ≤ maxLength) (h : text x ++ r = text y ++ s) : x = y ∧ r = s := by
  simp only [text, List.append_assoc] at h
  obtain ⟨hn, ht⟩ := length_append_inj hx hy h
  obtain ⟨hu, hr⟩ := List.append_inj ht (by rw [Text.length_utf8, Text.length_utf8, hn])
  have he := Text.ofUtf8_utf8 x
  rw [hu, Text.ofUtf8_utf8 y] at he
  exact ⟨(Except.ok.inj he).symm, hr⟩

theorem flag_append_inj {b c : Bool} {r s : Bytes} (h : flag b ++ r = flag c ++ s) :
    b = c ∧ r = s := by
  cases b <;> cases c <;> simp_all [flag]

namespace Format.Delimited
variable {f : Format α}

theorem flatMap (h : f.Delimited) {as bs : List α} {r s : Bytes} (hl : as.length = bs.length)
    (ha : ∀ a ∈ as, f.Admits a) (hb : ∀ b ∈ bs, f.Admits b)
    (he : as.flatMap f.bytes ++ r = bs.flatMap f.bytes ++ s) : as = bs ∧ r = s := by
  induction as generalizing bs with
  | nil =>
    obtain rfl := List.length_eq_zero_iff.1 hl.symm
    exact ⟨rfl, by simpa using he⟩
  | cons a as ih =>
    cases bs with
    | nil => simp at hl
    | cons b bs =>
      simp only [List.flatMap_cons, List.append_assoc] at he
      obtain ⟨rfl, ht⟩ := h (ha a (by simp)) (hb b (by simp)) he
      obtain ⟨rfl, hr⟩ := ih (by simpa using hl) (fun c hc => ha c (by simp [hc]))
        (fun c hc => hb c (by simp [hc])) ht
      exact ⟨rfl, hr⟩

theorem list (h : f.Delimited) : f.list.Delimited := by
  intro as bs r s ha hb he
  simp only [Format.list, Wire.list, List.append_assoc] at he
  obtain ⟨hl, ht⟩ := length_append_inj ha.1 hb.1 he
  exact h.flatMap hl ha.2 hb.2 ht

theorem optional (h : f.Delimited) : f.optional.Delimited := by
  intro a b r s ha hb he
  cases a with
  | none =>
    cases b with
    | none => exact ⟨rfl, (flag_append_inj he).2⟩
    | some b => simp [Format.optional, Wire.optional, flag] at he
  | some a =>
    cases b with
    | none => simp [Format.optional, Wire.optional, flag] at he
    | some b =>
      simp only [Format.optional, Wire.optional, List.append_assoc] at he
      obtain ⟨rfl, hr⟩ := h (ha a rfl) (hb b rfl) (flag_append_inj he).2
      exact ⟨rfl, hr⟩

end Format.Delimited

namespace Decoder

/-- At a nesting level, a decoder succeeds on exactly the writings of accepted values. -/
def Reads (level : Nat) (d : Decoder α) (f : Format α) : Prop :=
  ∀ ⦃r s : Reader⦄ ⦃a : α⦄, r.depth = level →
    (d r = .ok a s ↔ ∃ b, f.Admits b ∧ f.value b = a ∧ r.Past (f.bytes b) (f.ids b) s)

namespace Reads
variable {level : Nat} {d : Decoder α} {f : Format α}

theorem items (h : d.Reads level f) {n : Nat} {acc : Array α} {out : List α} {r s : Reader}
    (hr : r.depth = level) :
    Decoder.items d n acc r = .ok out s ↔ ∃ bs : List α, bs.length = n ∧ (∀ b ∈ bs, f.Admits b) ∧
      acc.toList ++ bs.map f.value = out ∧
      r.Past (bs.flatMap f.bytes) (bs.reverse.flatMap f.ids) s := by
  induction n generalizing acc r with
  | zero =>
    simp only [Decoder.items, Run.pure_eq_ok_iff, List.length_eq_zero_iff]
    constructor
    · rintro ⟨rfl, rfl⟩
      exact ⟨[], rfl, by simp, by simp, Reader.Past.refl s⟩
    · rintro ⟨_, rfl, _, rfl, hp⟩
      exact ⟨by simp, Reader.past_nil_iff.1 hp⟩
  | succ n ih =>
    simp only [Decoder.items, Run.bind_eq_ok_iff]
    constructor
    · rintro ⟨a, t, ha, ht⟩
      obtain ⟨b, hb, rfl, hp⟩ := (h hr).1 ha
      obtain ⟨bs, rfl, hbs, rfl, hq⟩ := (ih (hp.depth.trans hr)).1 ht
      refine ⟨b :: bs, rfl, ?_, by simp, ?_⟩
      · intro c hc
        rcases List.mem_cons.1 hc with rfl | hc
        · exact hb
        · exact hbs c hc
      · simpa using hp.trans hq
    · rintro ⟨bs, hn, hbs, rfl, hp⟩
      cases bs with
      | nil => simp at hn
      | cons b bs =>
        have hp' : r.Past (f.bytes b ++ bs.flatMap f.bytes) (bs.reverse.flatMap f.ids ++ f.ids b) s := by
          simpa using hp
        obtain ⟨t, ht, hs⟩ := hp'.split
        have hb : d r = .ok (f.value b) t := (h hr).2 ⟨b, hbs b (by simp), rfl, ht⟩
        refine ⟨f.value b, t, hb, (ih (ht.depth.trans hr)).2 ⟨bs, by simpa using hn, ?_, by simp, hs⟩⟩
        exact fun c hc => hbs c (by simp [hc])

theorem list (h : d.Reads level f) : (Decoder.list d).Reads level f.list := by
  intro r s out hr
  simp only [Decoder.list_eq, Run.bind_eq_ok_iff, length_eq_ok_iff]
  constructor
  · rintro ⟨n, t, ⟨hn, ht⟩, hi⟩
    obtain ⟨bs, rfl, hbs, rfl, hp⟩ := (h.items (ht.depth.trans hr)).1 hi
    refine ⟨bs, ⟨hn, hbs⟩, rfl, ?_⟩
    simpa [Format.list, Wire.list] using ht.trans hp
  · rintro ⟨bs, ⟨hn, hbs⟩, rfl, hp⟩
    have hp' : r.Past (Wire.length bs.length ++ bs.flatMap f.bytes)
        (bs.reverse.flatMap f.ids ++ []) s := by simpa [Format.list, Wire.list] using hp
    obtain ⟨t, ht, hs⟩ := hp'.split
    refine ⟨bs.length, t, ⟨hn, ht⟩, (h.items (ht.depth.trans hr)).2 ⟨bs, rfl, hbs, rfl, hs⟩⟩

theorem optional (h : d.Reads level f) : (Decoder.optional d).Reads level f.optional := by
  intro r s out hr
  simp only [Decoder.optional, Run.bind_eq_ok_iff, flag_eq_ok_iff]
  constructor
  · rintro ⟨present, t, ht, hi⟩
    cases present with
    | false =>
      obtain ⟨rfl, rfl⟩ := Run.pure_eq_ok_iff.1 hi
      exact ⟨none, by simp [Format.optional], rfl, by simpa [Format.optional, Wire.optional] using ht⟩
    | true =>
      simp only [if_true, Run.bind_eq_ok_iff, Run.pure_eq_ok_iff] at hi
      obtain ⟨a, u, ha, rfl, rfl⟩ := hi
      obtain ⟨b, hb, rfl, hp⟩ := (h (ht.depth.trans hr)).1 ha
      refine ⟨some b, by simpa [Format.optional] using hb, rfl, ?_⟩
      simpa [Format.optional, Wire.optional] using ht.trans hp
  · rintro ⟨o, ho, rfl, hp⟩
    cases o with
    | none =>
      refine ⟨false, s, by simpa [Format.optional, Wire.optional] using hp, ?_⟩
      exact Run.pure_eq_ok_iff.2 ⟨rfl, rfl⟩
    | some b =>
      have hp' : r.Past (Wire.flag true ++ f.bytes b) (f.ids b ++ []) s := by
        simpa [Format.optional, Wire.optional] using hp
      obtain ⟨t, ht, hs⟩ := hp'.split
      refine ⟨true, t, ht, ?_⟩
      simp only [if_true, Run.bind_eq_ok_iff, Run.pure_eq_ok_iff]
      exact ⟨f.value b, s, (h (ht.depth.trans hr)).2 ⟨b, ho b rfl, rfl, hs⟩, rfl, rfl⟩

/-- A complete input is accepted if and only if it is the writing of an accepted value. -/
theorem decodeAll_eq_ok_iff (h : d.Reads 0 f) {bytes : Bytes} {a : α} {ids : List UInt32} :
    decodeAll d bytes = (.ok a, ids) ↔
      ∃ b, f.Admits b ∧ f.value b = a ∧ f.bytes b = bytes ∧ f.ids b = ids := by
  have hd : decodeAll d bytes = (.ok a, ids) ↔
      ∃ s, d.whole (.ofBytes bytes) = .ok a s ∧ s.ids = ids := by
    unfold decodeAll
    cases d.whole (.ofBytes bytes) with
    | ok b s => simp
    | error e s => simp
  rw [hd]
  constructor
  · rintro ⟨s, hs, rfl⟩
    obtain ⟨hs, he⟩ := whole_eq_ok_iff.1 hs
    obtain ⟨b, hb, rfl, hp⟩ := (h rfl).1 hs
    refine ⟨b, hb, rfl, ?_, ?_⟩
    · simpa [Reader.ofBytes, he] using hp.rest.symm
    · simpa [Reader.ofBytes] using hp.ids.symm
  · rintro ⟨b, hb, rfl, rfl, rfl⟩
    let s : Reader := ⟨[], (f.bytes b).length, 0, f.ids b⟩
    have hp : (Reader.ofBytes (f.bytes b)).Past (f.bytes b) (f.ids b) s :=
      ⟨by simp [Reader.ofBytes, s], by simp [Reader.ofBytes, s], rfl, by simp [Reader.ofBytes, s]⟩
    exact ⟨s, whole_eq_ok_iff.2 ⟨(h rfl).2 ⟨b, hb, rfl, hp⟩, rfl⟩, rfl⟩

theorem decodeAll_fst_eq_ok_iff (h : d.Reads 0 f) {bytes : Bytes} {a : α} :
    (decodeAll d bytes).1 = .ok a ↔ ∃ b, f.Admits b ∧ f.value b = a ∧ f.bytes b = bytes := by
  constructor
  · intro ha
    have hd : decodeAll d bytes = (.ok a, (decodeAll d bytes).2) := Prod.ext ha rfl
    obtain ⟨b, hb, hv, hbytes, _⟩ := h.decodeAll_eq_ok_iff.1 hd
    exact ⟨b, hb, hv, hbytes⟩
  · rintro ⟨b, hb, hv, hbytes⟩
    rw [h.decodeAll_eq_ok_iff.2 ⟨b, hb, hv, hbytes, rfl⟩]

/-- A writing gives its value back if and only if the value is read as it is. -/
theorem decodeAll_bytes_eq_ok_iff (h : d.Reads 0 f) (hs : f.Stable) {a : α} :
    (decodeAll d (f.bytes a)).1 = .ok a ↔ f.Fixes a := by
  rw [h.decodeAll_fst_eq_ok_iff]
  constructor
  · rintro ⟨b, hb, rfl, _⟩
    exact hs hb
  · rintro ⟨ha, hv⟩
    exact ⟨a, ha, hv, rfl⟩

/-- Accepted bytes write one value only; what is read for it is read as it is. -/
theorem exists_of_decodeAll (h : d.Reads 0 f) (hs : f.Stable) (hd : f.Delimited) {bytes : Bytes}
    {a : α} (ha : (decodeAll d bytes).1 = .ok a) :
    (∃ raw, f.Admits raw ∧ f.bytes raw = bytes ∧ f.value raw = a ∧
      ∀ other, f.Admits other → f.bytes other = bytes → other = raw) ∧
    f.Fixes a ∧ (decodeAll d (f.bytes a)).1 = .ok a := by
  obtain ⟨raw, hr, rfl, rfl⟩ := h.decodeAll_fst_eq_ok_iff.1 ha
  refine ⟨⟨raw, hr, rfl, rfl, ?_⟩, hs hr, (h.decodeAll_bytes_eq_ok_iff hs).2 (hs hr)⟩
  intro other ho he
  exact (hd ho hr (r := []) (s := []) (by rw [he])).1

end Reads

end Decoder

end NativeBridge.Wire
