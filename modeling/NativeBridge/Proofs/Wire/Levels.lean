import NativeBridge.Proofs.Wire.Format
import NativeBridge.Proofs.Wire.Parts

/-! # Decoders and the level of nesting

Basic decoders leave their reader at its level, however they end. A decoder that enters a level and
finds the input at its end may leave the level open; what is followed through here are the inputs on
which that happens, from the parts of an encoding to lists and optional values of them.
-/
namespace NativeBridge.Wire

variable {α β : Type}

namespace Decoder

/-- The reader that a run leaves, whether it succeeds or not. -/
def after (d : Decoder α) (r : Reader) : Reader :=
  match d r with
  | .ok _ s => s
  | .error _ s => s

theorem after_of_ok {d : Decoder α} {r s : Reader} {a : α} (h : d r = .ok a s) : d.after r = s := by
  rw [after, h]

theorem after_of_error {d : Decoder α} {r s : Reader} {e : DecodeError} (h : d r = .error e s) :
    d.after r = s := by rw [after, h]

theorem after_bind_of_ok {d : Decoder α} {r s : Reader} {a : α} (h : d r = .ok a s)
    (f : α → Decoder β) : (d >>= f).after r = (f a).after s := by
  rw [after, after, Run.bind_of_ok h]

theorem after_bind_of_error {d : Decoder α} {r s : Reader} {e : DecodeError} (h : d r = .error e s)
    (f : α → Decoder β) : (d >>= f).after r = s :=
  after_of_error (Run.bind_eq_error_iff.2 (.inl h))

theorem after_leaving (d : Decoder α) (r : Reader) :
    d.leaving.after r = { d.after r with depth := (d.after r).depth - 1 } := by
  unfold after leaving
  cases d r with
  | ok a s => rfl
  | error e s => rfl

theorem leaving_of_error {d : Decoder α} {r s : Reader} {e : DecodeError} (h : d r = .error e s) :
    d.leaving r = .error e { s with depth := s.depth - 1 } := by rw [leaving, h]

/-- However a run ends, the reader is at the level at which it was. -/
def KeepsLevel (d : Decoder α) : Prop := ∀ r, (d.after r).depth = r.depth

namespace KeepsLevel

theorem pure (a : α) : KeepsLevel (Pure.pure a) := fun _ => rfl

theorem throw (e : DecodeError) : (MonadExcept.throw e : Decoder α).KeepsLevel := fun _ => rfl

theorem depth_after_bind {f : α → Decoder β} (hf : ∀ a, (f a).KeepsLevel) (d : Decoder α)
    (r : Reader) : ((d >>= f).after r).depth = (d.after r).depth := by
  cases h : d r with
  | ok a s => rw [after_bind_of_ok h, hf a s, after_of_ok h]
  | error e s => rw [after_bind_of_error h, after_of_error h]

theorem bind {d : Decoder α} {f : α → Decoder β} (hd : d.KeepsLevel) (hf : ∀ a, (f a).KeepsLevel) :
    (d >>= f).KeepsLevel := fun r => (depth_after_bind hf d r).trans (hd r)

theorem position : Decoder.position.KeepsLevel := fun _ => rfl

theorem take (n : Nat) : (Decoder.take n).KeepsLevel := by
  intro r
  unfold after Decoder.take
  by_cases h : hasAtLeast n r.rest
  · rw [if_pos h]
  · rw [if_neg h]

theorem byte : Decoder.byte.KeepsLevel := by
  intro r
  unfold after Decoder.byte
  cases r.rest with
  | nil => rfl
  | cons b rest => rfl

theorem sequential : Sequential fun _ d => d.KeepsLevel where
  pure := pure
  throw := throw
  bind := bind
  position := position
  take := take
  byte := byte

end KeepsLevel

/-- At a level a decoder returns to it, but for the inputs of a set: on those it ends one level
deeper, where the input has ended and a next byte is asked for. -/
structure Strands (level : Nat) (d : Decoder α) (stuck : Bytes → Prop) : Prop where
  returns {r : Reader} (hr : r.depth = level) (h : ¬stuck r.rest) : (d.after r).depth = level
  strands {r : Reader} (hr : r.depth = level) (h : stuck r.rest) :
    ∃ s, d r = .error (.unexpectedEnd s.position 1 0) s ∧ s.rest = [] ∧ s.depth = level + 1

theorem KeepsLevel.strands {d : Decoder α} (h : d.KeepsLevel) (level : Nat) :
    d.Strands level fun _ => False where
  returns {r} hr _ := (h r).trans hr
  strands _ h := h.elim

namespace Strands
variable {level : Nat} {d : Decoder α} {stuck : Bytes → Prop}

theorem not_stuck (h : d.Strands level stuck) {r s : Reader} {a : α} (hr : r.depth = level)
    (hd : d r = .ok a s) : ¬stuck r.rest := by
  intro hs
  obtain ⟨t, ht, _⟩ := h.strands hr hs
  rw [hd] at ht
  cases ht

/-- A decoder that succeeds has returned to its level. -/
theorem depth_of_ok (h : d.Strands level stuck) {r s : Reader} {a : α} (hr : r.depth = level)
    (hd : d r = .ok a s) : s.depth = level := by
  have hs := h.returns hr (h.not_stuck hr hd)
  rwa [after_of_ok hd] at hs

theorem congr {other : Bytes → Prop} (h : d.Strands level stuck)
    (ho : ∀ bytes, other bytes ↔ stuck bytes) : d.Strands level other := by
  rwa [show other = stuck from funext fun bytes => propext (ho bytes)]

/-- Two decoders in a row are stuck where the first is, or where it has succeeded and the second
is. -/
theorem bind {f : α → Decoder β} {stuckIn : α → Bytes → Prop} {either : Bytes → Prop}
    (hd : d.Strands level stuck) (hf : ∀ a, (f a).Strands level (stuckIn a))
    (he : ∀ r : Reader, r.depth = level → (either r.rest ↔
      stuck r.rest ∨ ∃ a s, d r = .ok a s ∧ stuckIn a s.rest)) :
    (d >>= f).Strands level either where
  returns {r} hr h := by
    rw [he r hr, not_or] at h
    have ha := hd.returns hr h.1
    cases hrun : d r with
    | ok a s =>
      rw [after_bind_of_ok hrun]
      exact (hf a).returns (hd.depth_of_ok hr hrun) fun hs => h.2 ⟨a, s, hrun, hs⟩
    | error e s =>
      rw [after_of_error hrun] at ha
      rw [after_bind_of_error hrun, ha]
  strands {r} hr h := by
    rcases (he r hr).1 h with h | ⟨a, s, hrun, hs⟩
    · obtain ⟨t, ht, hrest, hdepth⟩ := hd.strands hr h
      exact ⟨t, Run.bind_eq_error_iff.2 (.inl ht), hrest, hdepth⟩
    · obtain ⟨t, ht, hrest, hdepth⟩ := (hf a).strands (hd.depth_of_ok hr hrun) hs
      exact ⟨t, Run.bind_eq_error_iff.2 (.inr ⟨a, s, hrun, ht⟩), hrest, hdepth⟩

/-- What follows adds nothing if it always returns. -/
theorem followed {f : α → Decoder β} (hd : d.Strands level stuck) (hf : ∀ a, (f a).KeepsLevel) :
    (d >>= f).Strands level stuck :=
  hd.bind (fun a => (hf a).strands level) (by simp)

end Strands

/-- Moving past known bytes leaves the rest of them. -/
theorem exists_past_iff {r : Reader} {bytes : Bytes} (ids : List UInt32) {p : Bytes → Prop} :
    (∃ s, r.Past bytes ids s ∧ p s.rest) ↔ ∃ rest, r.rest = bytes ++ rest ∧ p rest := by
  constructor
  · rintro ⟨s, hs, hp⟩
    exact ⟨s.rest, hs.rest, hp⟩
  · rintro ⟨rest, hr, hp⟩
    exact ⟨⟨rest, r.position + bytes.length, r.depth, ids ++ r.ids⟩, ⟨hr, rfl, rfl, rfl⟩, hp⟩

theorem Reads.exists_ok_iff {level : Nat} {d : Decoder α} {f : Format α} (hd : d.Reads level f)
    {r : Reader} (hr : r.depth = level) {p : α → Bytes → Prop} :
    (∃ a s, d r = .ok a s ∧ p a s.rest) ↔
      ∃ b rest, f.Admits b ∧ r.rest = f.bytes b ++ rest ∧ p (f.value b) rest := by
  constructor
  · rintro ⟨a, s, ha, hp⟩
    obtain ⟨b, hb, rfl, hs⟩ := (hd hr).1 ha
    exact ⟨b, s.rest, hb, hs.rest, hp⟩
  · rintro ⟨b, rest, hb, hrest, hp⟩
    obtain ⟨s, hs, hp⟩ := (exists_past_iff (f.ids b)).2 ⟨rest, hrest, hp⟩
    exact ⟨f.value b, s, (hd hr).2 ⟨b, hb, rfl, hs⟩, hp⟩

end Decoder

/-- The bytes break off in one of `n` items, behind some that are accepted. -/
def Format.ItemsBreak (f : Format α) (broken : Bytes → Prop) (n : Nat) (bytes : Bytes) : Prop :=
  ∃ (items : List α) (rest : Bytes), items.length < n ∧ (∀ a ∈ items, f.Admits a) ∧
    bytes = items.flatMap f.bytes ++ rest ∧ broken rest

/-- The bytes break off in an item of a list. -/
def Format.ListBreaks (f : Format α) (broken : Bytes → Prop) (bytes : Bytes) : Prop :=
  ∃ n rest, n ≤ maxLength ∧ bytes = length n ++ rest ∧ f.ItemsBreak broken n rest

/-- The bytes break off in a value that is there. -/
def OptionalBreaks (broken : Bytes → Prop) (bytes : Bytes) : Prop :=
  ∃ rest, bytes = flag true ++ rest ∧ broken rest

theorem Format.itemsBreak_succ_iff {f : Format α} {broken : Bytes → Prop} {n : Nat} {bytes : Bytes} :
    f.ItemsBreak broken (n + 1) bytes ↔ broken bytes ∨
      ∃ a rest, f.Admits a ∧ bytes = f.bytes a ++ rest ∧ f.ItemsBreak broken n rest := by
  constructor
  · rintro ⟨items, rest, hn, ha, rfl, hb⟩
    cases items with
    | nil => exact .inl hb
    | cons a items =>
      refine .inr ⟨a, items.flatMap f.bytes ++ rest, ha a (by simp), by simp, items, rest, ?_, ?_, rfl, hb⟩
      · simpa using hn
      · exact fun b hm => ha b (by simp [hm])
  · rintro (hb | ⟨a, _, ha, rfl, items, rest, hn, hi, rfl, hb⟩)
    · exact ⟨[], bytes, by simp, by simp, rfl, hb⟩
    · refine ⟨a :: items, rest, by simpa using hn, ?_, by simp, hb⟩
      intro b hm
      rcases List.mem_cons.1 hm with rfl | hm
      · exact ha
      · exact hi b hm

namespace Decoder.Strands
variable {level : Nat} {d : Decoder α} {f : Format α} {stuck : Bytes → Prop}

theorem items (h : d.Strands level stuck) (hr : d.Reads level f) (n : Nat) (acc : Array α) :
    (Decoder.items d n acc).Strands level (f.ItemsBreak stuck n) := by
  induction n generalizing acc with
  | zero => exact ((KeepsLevel.pure _).strands level).congr (by simp [Format.ItemsBreak])
  | succ n ih =>
    refine h.bind (fun a => ih (acc.push a)) fun r hl => ?_
    rw [Format.itemsBreak_succ_iff, hr.exists_ok_iff hl]

theorem list (h : d.Strands level stuck) (hr : d.Reads level f) :
    (Decoder.list d).Strands level (f.ListBreaks stuck) := by
  rw [Decoder.list_eq]
  refine (KeepsLevel.sequential.length.strands level).bind (fun n => h.items hr n #[]) fun r _ => ?_
  simp only [length_eq_ok_iff, false_or, and_assoc, exists_and_left, exists_past_iff]
  simp only [Format.ListBreaks, exists_and_left]

theorem optional (h : d.Strands level stuck) :
    (Decoder.optional d).Strands level (OptionalBreaks stuck) := by
  have hb : ∀ present : Bool, (if present then do return some (← d) else return none :
      Decoder (Option α)).Strands level fun bytes => present = true ∧ stuck bytes := by
    intro present
    cases present with
    | false => exact ((KeepsLevel.pure _).strands level).congr (by simp)
    | true => exact (h.followed fun a => .pure _).congr (by simp)
  refine (KeepsLevel.sequential.flag.strands level).bind hb fun r _ => ?_
  simp only [flag_eq_ok_iff, OptionalBreaks, false_or]
  constructor
  · intro hs
    obtain ⟨s, hs⟩ := (exists_past_iff []).2 hs
    exact ⟨true, s, hs.1, rfl, hs.2⟩
  · rintro ⟨_, s, hp, rfl, hs⟩
    exact ⟨s.rest, hp.rest, hs⟩

end Decoder.Strands

end NativeBridge.Wire
