import NativeBridge.Proofs.Basic
import NativeBridge.Wire.Decode

/-! # What a decoder leaves behind

A decoder that succeeds has moved its reader past some bytes. What it has read is stated exactly:
each basic decoder succeeds if and only if its reader moves past the encoding of its result, so a
decoder made of several is characterized by joining the encodings.
-/
namespace NativeBridge.Wire

variable {α β : Type}

/-- `s` is `r` moved past `bytes`, with `noted` met on the way, the latest first. -/
structure Reader.Past (r : Reader) (bytes : Bytes) (noted : List UInt32) (s : Reader) : Prop where
  rest : r.rest = bytes ++ s.rest
  position : s.position = r.position + bytes.length
  depth : s.depth = r.depth
  ids : s.ids = noted ++ r.ids

namespace Reader

theorem past_nil_iff {r s : Reader} : r.Past [] [] s ↔ s = r := by
  constructor
  · intro h
    obtain ⟨rest, position, depth, ids⟩ := h
    cases r
    cases s
    simp_all
  · intro h
    subst h
    exact ⟨rfl, rfl, rfl, rfl⟩

theorem Past.refl (r : Reader) : r.Past [] [] r := past_nil_iff.2 rfl

theorem Past.trans {r s t : Reader} {b c : Bytes} {i j : List UInt32} (h : r.Past b i s)
    (k : s.Past c j t) : r.Past (b ++ c) (j ++ i) t := by
  refine ⟨?_, ?_, ?_, ?_⟩
  · rw [h.rest, k.rest, List.append_assoc]
  · rw [k.position, h.position, List.length_append, Nat.add_assoc]
  · rw [k.depth, h.depth]
  · rw [k.ids, h.ids, List.append_assoc]

theorem Past.split {r t : Reader} {b c : Bytes} {i j : List UInt32}
    (h : r.Past (b ++ c) (j ++ i) t) : ∃ s, r.Past b i s ∧ s.Past c j t := by
  refine ⟨⟨c ++ t.rest, r.position + b.length, r.depth, i ++ r.ids⟩, ?_, ?_⟩
  · exact ⟨by rw [h.rest, List.append_assoc], rfl, rfl, rfl⟩
  · refine ⟨rfl, ?_, h.depth, ?_⟩
    · rw [h.position, List.length_append, Nat.add_assoc]
    · rw [h.ids, List.append_assoc]

/-- Past the same bytes there is only one reader. -/
theorem Past.unique {r s t : Reader} {b : Bytes} {i : List UInt32} (h : r.Past b i s)
    (k : r.Past b i t) : s = t := by
  have hr : s.rest = t.rest := List.append_cancel_left (h.rest.symm.trans k.rest)
  have hp := h.position.trans k.position.symm
  have hd := h.depth.trans k.depth.symm
  have hi := h.ids.trans k.ids.symm
  cases s
  cases t
  simp_all

/-- A move past bytes of which the first is known goes past that one and then past the others. -/
theorem past_cons_iff {r s : Reader} {b first : UInt8} {rest bytes : Bytes}
    (hr : r.rest = b :: rest) :
    r.Past (first :: bytes) [] s ↔ first = b ∧ ∃ t, r.Past [b] [] t ∧ t.Past bytes [] s := by
  constructor
  · intro h
    obtain rfl : b = first := (List.cons.inj (hr.symm.trans h.rest)).1
    exact ⟨rfl, Past.split (b := [b]) (i := []) (j := []) h⟩
  · rintro ⟨rfl, t, ht, hs⟩
    exact ht.trans hs

/-- A move one level further down is a move, once that level is left. -/
theorem past_deeper_iff {r s : Reader} {b : Bytes} {i : List UInt32} :
    (∃ t, Past { r with depth := r.depth + 1 } b i t ∧ s = { t with depth := t.depth - 1 }) ↔
      r.Past b i s := by
  constructor
  · rintro ⟨t, h, rfl⟩
    exact ⟨h.rest, h.position, by rw [h.depth, Nat.add_sub_cancel], h.ids⟩
  · intro h
    refine ⟨{ s with depth := s.depth + 1 }, ⟨h.rest, h.position, ?_, h.ids⟩, rfl⟩
    exact congrArg (· + 1) h.depth

end Reader

namespace Decoder

theorem position_eq_ok_iff {r s : Reader} {n : Nat} :
    position r = .ok n s ↔ n = r.position ∧ s = r := by
  change EStateM.Result.ok r.position r = _ ↔ _
  simp [eq_comm]

theorem enter_eq_ok_iff {r s : Reader} {u : Unit} :
    enter r = .ok u s ↔ r.depth < maxNesting ∧ s = { r with depth := r.depth + 1 } := by
  unfold enter
  split
  · rename_i h
    simp only [reduceCtorEq, false_iff, not_and]
    omega
  · rename_i h
    rw [EStateM.Result.ok.injEq]
    exact ⟨fun hs => ⟨Nat.lt_of_not_le h, hs.2.symm⟩, fun hs => ⟨rfl, hs.2.symm⟩⟩

theorem leaving_eq_ok_iff {d : Decoder α} {r s : Reader} {a : α} :
    leaving d r = .ok a s ↔ ∃ t, d r = .ok a t ∧ s = { t with depth := t.depth - 1 } := by
  unfold leaving
  cases d r with
  | ok b t =>
    simp only [EStateM.Result.ok.injEq]
    constructor
    · rintro ⟨rfl, rfl⟩
      exact ⟨t, ⟨rfl, rfl⟩, rfl⟩
    · rintro ⟨_, ⟨rfl, rfl⟩, rfl⟩
      exact ⟨rfl, rfl⟩
  | error e t => simp

theorem noteId_eq_ok_iff {r s : Reader} {u : Unit} {raw : UInt32} :
    noteId raw r = .ok u s ↔ r.Past [] [raw] s := by
  change EStateM.Result.ok () { r with ids := raw :: r.ids } = _ ↔ _
  have h : r.Past [] [raw] { r with ids := raw :: r.ids } := ⟨rfl, rfl, rfl, rfl⟩
  rw [EStateM.Result.ok.injEq]
  exact ⟨fun hs => hs.2 ▸ h, fun hs => ⟨rfl, h.unique hs⟩⟩

theorem peek_eq_ok_iff {r s : Reader} {b : UInt8} :
    peek r = .ok b s ↔ s = r ∧ ∃ rest, r.rest = b :: rest := by
  unfold peek
  cases h : r.rest with
  | nil => simp
  | cons c rest => simp [eq_comm, and_comm]

theorem byte_eq_ok_iff {r s : Reader} {b : UInt8} : byte r = .ok b s ↔ r.Past [b] [] s := by
  constructor
  · intro h
    unfold byte at h
    cases hr : r.rest with
    | nil => simp [hr] at h
    | cons c rest =>
      simp only [hr, EStateM.Result.ok.injEq] at h
      obtain ⟨rfl, rfl⟩ := h
      exact ⟨hr, rfl, rfl, rfl⟩
  · intro h
    have hs : byte r = .ok b { r with rest := s.rest, position := r.position + 1 } := by
      simp [byte, h.rest]
    have hp : r.Past [b] [] { r with rest := s.rest, position := r.position + 1 } :=
      ⟨h.rest, rfl, rfl, rfl⟩
    rw [hs, hp.unique h]

/-- What follows a byte that is known to be the next. -/
theorem byte_then_eq_ok_iff {d : Decoder α} {r s : Reader} {a : α} {b : UInt8} {rest : Bytes}
    (hr : r.rest = b :: rest) :
    (do let _ ← byte; d : Decoder α) r = .ok a s ↔ ∃ t, r.Past [b] [] t ∧ d t = .ok a s := by
  simp only [Run.bind_eq_ok_iff, byte_eq_ok_iff]
  constructor
  · rintro ⟨c, t, ht, hd⟩
    obtain ⟨rfl, _⟩ := (Reader.past_cons_iff hr).1 ht
    exact ⟨t, ht, hd⟩
  · rintro ⟨t, ht, hd⟩
    exact ⟨b, t, ht, hd⟩

theorem take_eq_ok_iff {r s : Reader} {n : Nat} {bytes : Bytes} :
    take n r = .ok bytes s ↔ bytes.length = n ∧ r.Past bytes [] s := by
  constructor
  · intro h
    unfold take at h
    split at h
    · rename_i hl
      simp only [EStateM.Result.ok.injEq] at h
      obtain ⟨rfl, rfl⟩ := h
      have hn := List.length_take_of_le (hasAtLeast_iff.1 hl)
      exact ⟨hn, (List.take_append_drop n r.rest).symm, by simp [hn], rfl, rfl⟩
    · cases h
  · rintro ⟨rfl, h⟩
    have hl : hasAtLeast bytes.length r.rest = true := by rw [hasAtLeast_iff, h.rest]; simp
    have hp : r.Past bytes [] { r with rest := s.rest, position := r.position + bytes.length } :=
      ⟨h.rest, rfl, rfl, rfl⟩
    rw [← hp.unique h, take, if_pos hl, h.rest, List.take_left, List.drop_left]

/-- Four bytes are the word that they write. -/
theorem word_ofNat_bigEndian {bytes : Bytes} (h : bytes.length = 4) :
    Wire.word (UInt32.ofNat (bigEndian bytes)) = bytes := by
  match bytes, h with
  | [a, b, c, d], _ =>
    have ha := a.toNat_lt
    have hb := b.toNat_lt
    have hc := c.toNat_lt
    have hd := d.toNat_lt
    have hn : bigEndian [a, b, c, d] =
        ((a.toNat * 256 + b.toNat) * 256 + c.toNat) * 256 + d.toNat := by simp [bigEndian]
    have hw : (UInt32.ofNat (bigEndian [a, b, c, d])).toNat = bigEndian [a, b, c, d] :=
      UInt32.toNat_ofNat_of_lt' (by rw [hn]; simp only [UInt32.size]; omega)
    rw [Wire.word, hw, hn]
    simp only [List.map_cons, List.map_nil, List.cons.injEq, and_true]
    refine ⟨?_, ?_, ?_, ?_⟩ <;> (apply UInt8.toNat.inj; simp only [UInt8.toNat_ofNat']; omega)

theorem bigEndian_word (n : UInt32) : bigEndian (Wire.word n) = n.toNat := by
  have hn := n.toNat_lt
  simp only [Wire.word, bigEndian, List.map_cons, List.map_nil, List.foldl_cons, List.foldl_nil,
    UInt8.toNat_ofNat']
  omega

theorem word_eq_ok_iff {r s : Reader} {n : UInt32} :
    word r = .ok n s ↔ r.Past (Wire.word n) [] s := by
  simp only [word, Run.bind_eq_ok_iff, take_eq_ok_iff, Run.pure_eq_ok_iff]
  constructor
  · rintro ⟨bytes, t, ⟨hl, h⟩, rfl, rfl⟩
    rw [word_ofNat_bigEndian hl]
    exact h
  · intro h
    refine ⟨Wire.word n, s, ⟨rfl, h⟩, ?_, rfl⟩
    rw [bigEndian_word, UInt32.ofNat_toNat]

theorem int_eq_ok_iff {r s : Reader} {n : Int32} :
    int r = .ok n s ↔ r.Past (Wire.int n) [] s := by
  simp only [int, Run.bind_eq_ok_iff, word_eq_ok_iff, Run.pure_eq_ok_iff]
  constructor
  · rintro ⟨w, t, h, rfl, rfl⟩
    simpa [Wire.int] using h
  · intro h
    exact ⟨n.toUInt32, s, h, by simp, rfl⟩

theorem length_eq_ok_iff {r s : Reader} {n : Nat} :
    length r = .ok n s ↔ n ≤ maxLength ∧ r.Past (Wire.length n) [] s := by
  simp only [length, Run.bind_eq_ok_iff, word_eq_ok_iff, Run.pure_eq_ok_iff]
  constructor
  · rintro ⟨w, t, h, rfl, rfl⟩
    have hw := w.toNat_lt
    refine ⟨by simp only [maxLength]; omega, ?_⟩
    rw [Wire.length, UInt32.ofNat_toNat]
    exact h
  · rintro ⟨hn, h⟩
    have hw : (UInt32.ofNat n).toNat = n :=
      UInt32.toNat_ofNat_of_lt' (by simp only [UInt32.size, maxLength] at hn ⊢; omega)
    exact ⟨UInt32.ofNat n, s, h, hw.symm, rfl⟩

theorem flag_eq_ok_iff {r s : Reader} {b : Bool} :
    flag r = .ok b s ↔ r.Past (Wire.flag b) [] s := by
  simp only [flag, Run.bind_eq_ok_iff, position_eq_ok_iff, byte_eq_ok_iff]
  constructor
  · rintro ⟨_, _, ⟨rfl, rfl⟩, c, t, h, hc⟩
    split at hc
    · obtain ⟨rfl, rfl⟩ := Run.pure_eq_ok_iff.1 hc
      exact h
    · obtain ⟨rfl, rfl⟩ := Run.pure_eq_ok_iff.1 hc
      exact h
    · exact absurd hc Run.throw_ne_ok
  · intro h
    refine ⟨r.position, r, ⟨rfl, rfl⟩, if b then 1 else 0, s, h, ?_⟩
    cases b <;> exact Run.pure_eq_ok_iff.2 ⟨rfl, rfl⟩

theorem text_eq_ok_iff {r s : Reader} {x : String} :
    text r = .ok x s ↔ x.utf8ByteSize ≤ maxLength ∧ r.Past (Wire.text x) [] s := by
  simp only [text, Run.bind_eq_ok_iff, length_eq_ok_iff, position_eq_ok_iff, take_eq_ok_iff]
  constructor
  · rintro ⟨n, t, ⟨hn, ht⟩, _, _, ⟨rfl, rfl⟩, bytes, u, ⟨hl, hu⟩, h⟩
    cases hy : Text.ofUtf8 bytes with
    | error e =>
      rw [hy] at h
      exact absurd h Run.throw_ne_ok
    | ok y =>
      rw [hy] at h
      obtain ⟨rfl, rfl⟩ := Run.pure_eq_ok_iff.1 h
      have hb := Text.utf8_of_ofUtf8 hy
      subst hb
      rw [Text.length_utf8] at hl
      subst hl
      exact ⟨hn, ht.trans hu⟩
  · rintro ⟨hn, h⟩
    obtain ⟨t, ht, hu⟩ := Reader.Past.split (i := []) (j := []) h
    refine ⟨x.utf8ByteSize, t, ⟨hn, ht⟩, t.position, t, ⟨rfl, rfl⟩, Text.utf8 x, s,
      ⟨Text.length_utf8 x, hu⟩, ?_⟩
    rw [Text.ofUtf8_utf8]
    exact Run.pure_eq_ok_iff.2 ⟨rfl, rfl⟩

theorem whole_eq_ok_iff {d : Decoder α} {r s : Reader} {a : α} :
    d.whole r = .ok a s ↔ d r = .ok a s ∧ s.rest = [] := by
  simp only [whole, Run.bind_eq_ok_iff, Run.pure_eq_ok_iff, finish]
  constructor
  · rintro ⟨_, t, ht, _, _, h, rfl, rfl⟩
    split at h
    · rename_i he
      cases h
      exact ⟨ht, List.isEmpty_iff.1 he⟩
    · cases h
  · rintro ⟨hs, he⟩
    exact ⟨a, s, hs, (), s, by rw [he]; rfl, rfl, rfl⟩

end Decoder

end NativeBridge.Wire
