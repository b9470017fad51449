import NativeBridge.Proofs.Wire.Levels

/-! # Identifiers that are met on the way

A reader notes the identifiers that it meets and never looks at them again: a run goes the same way
whatever was noted before it, and puts what it notes in front of that. Only symbols note anything, so
all other decoders are silent, on inputs that they refuse as on those that they accept.
-/
namespace NativeBridge.Wire

variable {α β : Type}

/-- A reader for which other identifiers are noted. -/
def Reader.withIds (r : Reader) (ids : List UInt32) : Reader := { r with ids }

/-- The outcome of a run, of a reader for which other identifiers are noted. -/
def withIds (ids : List UInt32) :
    EStateM.Result DecodeError Reader α → EStateM.Result DecodeError Reader α
  | .ok a s => .ok a (s.withIds ids)
  | .error e s => .error e (s.withIds ids)

namespace Decoder

/-- What was met before a run changes nothing but what was met after it: the run itself notes these,
the latest first. -/
def Notes (d : Decoder α) (r : Reader) (noted : List UInt32) : Prop :=
  ∀ ids, d (r.withIds ids) = withIds (noted ++ ids) (d r)

namespace Notes
variable {d : Decoder α} {f : α → Decoder β} {r s : Reader} {noted later : List UInt32}

theorem ids_after (h : d.Notes r noted) : (d.after r).ids = noted ++ r.ids := by
  have hr : d r = withIds (noted ++ r.ids) (d r) := h r.ids
  unfold after
  rw [hr]
  cases d r with
  | ok a s => rfl
  | error e s => rfl

theorem unique (h : d.Notes r noted) (k : d.Notes r later) : noted = later :=
  List.append_cancel_right (h.ids_after.symm.trans k.ids_after)

/-- What two decoders in a row note, if the first succeeds. -/
theorem bind_ok {a : α} (h : d.Notes r noted) (hd : d r = .ok a s) (k : (f a).Notes s later) :
    (d >>= f).Notes r (later ++ noted) := by
  intro ids
  have hn : d (r.withIds ids) = .ok a (s.withIds (noted ++ ids)) := by rw [h ids, hd]; rfl
  rw [Run.bind_of_ok hn, Run.bind_of_ok hd, k, List.append_assoc]

/-- Where the first of two fails, the second notes nothing. -/
theorem bind_error {e : DecodeError} (h : d.Notes r noted) (hd : d r = .error e s) :
    (d >>= f).Notes r noted := by
  intro ids
  have hn : d (r.withIds ids) = .error e (s.withIds (noted ++ ids)) := by rw [h ids, hd]; rfl
  have ho : (d >>= f) r = .error e s := Run.bind_eq_error_iff.2 (.inl hd)
  rw [ho]
  exact Run.bind_eq_error_iff.2 (.inl hn)

end Notes

/-- Notes nothing, however it ends. -/
def Silent (d : Decoder α) : Prop := ∀ r, d.Notes r []

namespace Silent
variable {d : Decoder α} {f : α → Decoder β}

theorem bind (hd : d.Silent) (hf : ∀ a, (f a).Silent) : (d >>= f).Silent := by
  intro r
  cases h : d r with
  | ok a s => exact (hd r).bind_ok h (hf a s)
  | error e s => exact (hd r).bind_error h

/-- What follows silently adds nothing to what is noted. -/
theorem notes_bind (hf : ∀ a, (f a).Silent) {r : Reader} {noted : List UInt32}
    (h : d.Notes r noted) : (d >>= f).Notes r noted := by
  cases hd : d r with
  | ok a s => exact h.bind_ok hd (hf a s)
  | error e s => exact h.bind_error hd

/-- What follows a silent decoder that succeeds notes all there is. -/
theorem notes_after (hd : d.Silent) {r s : Reader} {a : α} {noted : List UInt32}
    (ha : d r = .ok a s) (h : (f a).Notes s noted) : (d >>= f).Notes r noted := by
  rw [← List.append_nil noted]
  exact (hd r).bind_ok ha h

theorem pure (a : α) : Silent (Pure.pure a) := fun _ _ => rfl

theorem throw (e : DecodeError) : (MonadExcept.throw e : Decoder α).Silent := fun _ _ => rfl

theorem take (n : Nat) : (Decoder.take n).Silent := by
  intro r ids
  unfold Decoder.take
  change (if hasAtLeast n r.rest then _ else _) = _
  split
  · rfl
  · rfl

theorem peek : Decoder.peek.Silent := by
  rintro ⟨rest, position, depth, noted⟩ ids
  cases rest with
  | nil => rfl
  | cons b rest => rfl

theorem byte : Decoder.byte.Silent := by
  rintro ⟨rest, position, depth, noted⟩ ids
  cases rest with
  | nil => rfl
  | cons b rest => rfl

theorem enter : Decoder.enter.Silent := by
  intro r ids
  unfold Decoder.enter
  change (if maxNesting ≤ r.depth then _ else _) = _
  split
  · rfl
  · rfl

theorem leaving (h : d.Silent) : d.leaving.Silent := by
  intro r ids
  unfold Decoder.leaving
  rw [h r ids]
  cases d r with
  | ok a s => rfl
  | error e s => rfl

theorem finish : Decoder.finish.Silent := by
  intro r ids
  unfold Decoder.finish
  change (if r.rest.isEmpty then _ else _) = _
  split
  · rfl
  · rfl

/-- All that is made of texts, numbers, lists and levels is silent. -/
theorem nested : Nested fun _ d => d.Silent where
  pure := pure
  throw := throw
  bind := bind
  position := fun _ _ => rfl
  take := take
  byte := byte
  peek := peek
  enter := enter
  leaving := leaving
  atLevel h r := h (maxNesting - r.depth) r

end Silent

/-- A complete input notes what its value does. -/
theorem Notes.whole {d : Decoder α} {r : Reader} {noted : List UInt32} (h : d.Notes r noted) :
    d.whole.Notes r noted :=
  Silent.notes_bind (fun _ => Silent.finish.bind fun _ => .pure _) h

theorem decodeAll_snd (d : Decoder α) (bytes : Bytes) :
    (decodeAll d bytes).2 = (d.whole.after (.ofBytes bytes)).ids := by
  unfold decodeAll after
  cases d.whole (.ofBytes bytes) with
  | ok a r => rfl
  | error e r => rfl

end Decoder

end NativeBridge.Wire
