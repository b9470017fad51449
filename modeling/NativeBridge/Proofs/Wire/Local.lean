import NativeBridge.Proofs.Wire.Parts
import NativeBridge.Proofs.Wire.Past

/-! # Decoders and the end of the input

A decoder sees no byte behind those that it moves past. So it goes the same way when more input
follows, unless it failed because the input ended. An input that is accepted as a whole is therefore
delimited by itself: whatever follows it is left over, and in whatever is left of it when it is cut
the end comes too early.
-/
namespace NativeBridge.Wire

variable {α β : Type}

namespace Reader

/-- The reader with more input behind its own. -/
def extended (r : Reader) (more : Bytes) : Reader := { r with rest := r.rest ++ more }

/-- The offset at which the input ends. -/
def ending (r : Reader) : Nat := r.position + r.remaining

theorem Past.ending_eq {r s : Reader} {b : Bytes} {i : List UInt32} (h : r.Past b i s) :
    s.ending = r.ending := by
  rw [ending, ending, remaining, remaining, h.position, h.rest, List.length_append, Nat.add_assoc]

theorem Past.extended {r s : Reader} {b : Bytes} {i : List UInt32} (h : r.Past b i s)
    (more : Bytes) : (r.extended more).Past b i (s.extended more) := by
  refine ⟨?_, h.position, h.depth, h.ids⟩
  rw [Reader.extended, Reader.extended, h.rest, List.append_assoc]

end Reader

/-- The input ends at this offset, which is too early for the bytes that are needed. -/
def EndsAt (ending : Nat) : DecodeError → Prop
  | .unexpectedEnd offset needed remaining => offset + remaining = ending ∧ remaining < needed
  | _ => False

namespace Decoder

/-- With more input behind, a decoder that succeeds does the same, and one that fails for another
reason than the end of the input fails for it again. -/
structure Local (d : Decoder α) : Prop where
  ok {r s : Reader} {a : α} (run : d r = .ok a s) :
    s.ending = r.ending ∧ ∀ more, d (r.extended more) = .ok a (s.extended more)
  error {r s : Reader} {e : DecodeError} (run : d r = .error e s) :
    EndsAt r.ending e ∨ ∀ more, ∃ t, d (r.extended more) = .error e t

namespace Local

theorem pure (a : α) : Local (Pure.pure a) where
  ok h := by
    obtain ⟨rfl, rfl⟩ := Run.pure_eq_ok_iff.1 h
    exact ⟨rfl, fun _ => rfl⟩
  error h := absurd h Run.pure_ne_error

theorem throw (e : DecodeError) : (MonadExcept.throw e : Decoder α).Local where
  ok h := absurd h Run.throw_ne_ok
  error h := by
    obtain ⟨rfl, rfl⟩ := Run.throw_eq_error_iff.1 h
    exact .inr fun _ => ⟨_, rfl⟩

theorem bind {d : Decoder α} {f : α → Decoder β} (hd : d.Local) (hf : ∀ a, (f a).Local) :
    (d >>= f).Local where
  ok h := by
    obtain ⟨a, t, ht, hs⟩ := Run.bind_eq_ok_iff.1 h
    obtain ⟨hte, htm⟩ := hd.ok ht
    obtain ⟨hse, hsm⟩ := (hf a).ok hs
    refine ⟨hse.trans hte, fun more => ?_⟩
    rw [Run.bind_of_ok (htm more), hsm]
  error h := by
    rcases Run.bind_eq_error_iff.1 h with h | ⟨a, t, ht, hs⟩
    · refine (hd.error h).imp_right fun hm more => ?_
      obtain ⟨u, hu⟩ := hm more
      exact ⟨u, Run.bind_eq_error_iff.2 (.inl hu)⟩
    · obtain ⟨hte, htm⟩ := hd.ok ht
      rw [← hte]
      refine ((hf a).error hs).imp_right fun hm more => ?_
      obtain ⟨u, hu⟩ := hm more
      exact ⟨u, Run.bind_eq_error_iff.2 (.inr ⟨a, _, htm more, hu⟩)⟩

/-- What moves past bytes that do not depend on those behind, and fails for want of them only. -/
theorem of_past {d : Decoder α}
    (ok : ∀ {r s : Reader} {a : α}, d r = .ok a s → ∃ b, r.Past b [] s ∧
      ∀ {t u : Reader}, t.Past b [] u → d t = .ok a u)
    (error : ∀ {r s : Reader} {e : DecodeError}, d r = .error e s → EndsAt r.ending e) :
    d.Local where
  ok h := by
    obtain ⟨b, hp, hd⟩ := ok h
    exact ⟨hp.ending_eq, fun more => hd (hp.extended more)⟩
  error h := .inl (error h)

theorem take (n : Nat) : (Decoder.take n).Local := by
  refine .of_past (fun {r s a} h => ?_) (fun {r s e} h => ?_)
  · obtain ⟨hn, hp⟩ := take_eq_ok_iff.1 h
    exact ⟨a, hp, fun ht => take_eq_ok_iff.2 ⟨hn, ht⟩⟩
  · unfold Decoder.take at h
    split at h
    · cases h
    · rename_i hl
      cases h
      rw [hasAtLeast_iff] at hl
      exact ⟨rfl, Nat.lt_of_not_le hl⟩

theorem byte : Decoder.byte.Local := by
  refine .of_past (fun {r s a} h => ?_) (fun {r s e} h => ?_)
  · exact ⟨[a], byte_eq_ok_iff.1 h, fun ht => byte_eq_ok_iff.2 ht⟩
  · unfold Decoder.byte at h
    split at h
    · rename_i hr
      cases h
      exact ⟨by rw [Reader.ending, Reader.remaining, hr, List.length_nil], Nat.zero_lt_one⟩
    · cases h

/-- The next byte is the same whatever follows it. -/
theorem peek : Decoder.peek.Local where
  ok h := by
    obtain ⟨rfl, rest, hr⟩ := peek_eq_ok_iff.1 h
    refine ⟨rfl, fun more => peek_eq_ok_iff.2 ⟨rfl, rest ++ more, ?_⟩⟩
    rw [Reader.extended, hr, List.cons_append]
  error {r s e} h := by
    unfold Decoder.peek at h
    split at h
    · rename_i hr
      cases h
      exact .inl ⟨by rw [Reader.ending, Reader.remaining, hr, List.length_nil], Nat.zero_lt_one⟩
    · cases h

theorem position : Decoder.position.Local where
  ok h := by
    obtain ⟨rfl, rfl⟩ := position_eq_ok_iff.1 h
    exact ⟨rfl, fun _ => rfl⟩
  error h := by cases h

theorem enter : Decoder.enter.Local where
  ok h := by
    obtain ⟨hd, rfl⟩ := enter_eq_ok_iff.1 h
    exact ⟨rfl, fun _ => enter_eq_ok_iff.2 ⟨hd, rfl⟩⟩
  error {r s e} h := by
    unfold Decoder.enter at h
    split at h
    · rename_i hd
      cases h
      exact .inr fun more => ⟨_, if_pos hd⟩
    · cases h

theorem noteId (raw : UInt32) : (Decoder.noteId raw).Local where
  ok h := by
    have hp := noteId_eq_ok_iff.1 h
    exact ⟨hp.ending_eq, fun more => noteId_eq_ok_iff.2 (hp.extended more)⟩
  error h := absurd h Run.modify_ne_error

theorem leaving {d : Decoder α} (h : d.Local) : d.leaving.Local where
  ok hr := by
    obtain ⟨t, ht, rfl⟩ := leaving_eq_ok_iff.1 hr
    obtain ⟨he, hm⟩ := h.ok ht
    exact ⟨he, fun more => leaving_eq_ok_iff.2 ⟨_, hm more, rfl⟩⟩
  error {r s e} hr := by
    unfold Decoder.leaving at hr
    cases ht : d r with
    | ok a t =>
      rw [ht] at hr
      cases hr
    | error e' t =>
      rw [ht] at hr
      cases hr
      refine (h.error ht).imp_right fun hm more => ?_
      obtain ⟨u, hu⟩ := hm more
      exact ⟨{ u with depth := u.depth - 1 }, by rw [Decoder.leaving, hu]⟩

/-- All that is made of texts, numbers, lists and levels is local: the levels that may be entered
depend on where the reader is in the nesting, not on the input. -/
theorem nested : Nested fun _ d => d.Local where
  pure := pure
  throw := throw
  bind := bind
  position := position
  take := take
  byte := byte
  peek := peek
  enter := enter
  leaving := leaving
  atLevel h :=
    { ok := fun {r _ _} run => (h (maxNesting - r.depth)).ok run
      error := fun {r _ _} run => (h (maxNesting - r.depth)).error run }

end Local

/-- An input that is accepted as a whole: what is left of it when it is cut ends too early, by the
offset and the lengths that the error states, and what follows it is counted as left over. -/
structure Delimits (read : Bytes → Except DecodeError α) (input : Bytes) : Prop where
  cut {front : Bytes} (isPrefix : front <+: input) (ne : front ≠ input) :
    ∃ offset needed remaining, read front = .error (.unexpectedEnd offset needed remaining) ∧
      offset + remaining = front.length ∧ remaining < needed
  followed {more : Bytes} (ne : more ≠ []) :
    read (input ++ more) = .error (.trailingBytes more.length)

theorem decodeAll_fst_eq_ok {d : Decoder α} {input : Bytes} {a : α} :
    (decodeAll d input).1 = .ok a ↔ ∃ s, d (.ofBytes input) = .ok a s ∧ s.rest = [] := by
  simp only [← whole_eq_ok_iff]
  unfold decodeAll
  cases d.whole (.ofBytes input) with
  | ok b s => simp
  | error e s => simp

theorem decodeAll_of_error {d : Decoder α} {input : Bytes} {e : DecodeError} {s : Reader}
    (h : d (.ofBytes input) = .error e s) : (decodeAll d input).1 = .error e := by
  have hw : d.whole (.ofBytes input) = .error e s := Run.bind_eq_error_iff.2 (.inl h)
  rw [decodeAll, hw]

theorem decodeAll_of_rest {d : Decoder α} {input : Bytes} {a : α} {s : Reader}
    (h : d (.ofBytes input) = .ok a s) (hs : s.rest ≠ []) :
    (decodeAll d input).1 = .error (.trailingBytes s.rest.length) := by
  have hf : finish s = .error (.trailingBytes s.remaining) s := by
    rw [finish, if_neg (by rwa [List.isEmpty_iff])]
  have hw : d.whole (.ofBytes input) = .error (.trailingBytes s.remaining) s :=
    Run.bind_eq_error_iff.2 (.inr ⟨a, s, h, Run.bind_eq_error_iff.2 (.inl hf)⟩)
  rw [decodeAll, hw]
  rfl

theorem exists_of_endsAt {ending : Nat} {e : DecodeError} (h : EndsAt ending e) :
    ∃ offset needed remaining, e = .unexpectedEnd offset needed remaining ∧
      offset + remaining = ending ∧ remaining < needed := by
  cases e with
  | unexpectedEnd offset needed remaining => exact ⟨offset, needed, remaining, rfl, h⟩
  | _ => cases h

/-- Accepted inputs are delimited by themselves wherever the decoder is local. -/
theorem Local.delimits {d : Decoder α} (h : d.Local) {input : Bytes} {a : α}
    (ha : (decodeAll d input).1 = .ok a) : Delimits (fun b => (decodeAll d b).1) input where
  cut {front} isPrefix ne := by
    obtain ⟨more, rfl⟩ := isPrefix
    obtain ⟨s, hs, he⟩ := decodeAll_fst_eq_ok.1 ha
    change d ((Reader.ofBytes front).extended more) = .ok a s at hs
    cases hr : d (.ofBytes front) with
    | ok b t =>
      -- what the front leaves and what follows would both have to be empty
      have ht := (h.ok hr).2 more
      rw [hs] at ht
      cases ht
      have hmore := (List.append_eq_nil_iff.1 he).2
      exact absurd (by rw [hmore, List.append_nil]) ne
    | error e t =>
      rcases h.error hr with hends | hm
      · obtain ⟨offset, needed, remaining, rfl, hsum, hlt⟩ := exists_of_endsAt hends
        refine ⟨offset, needed, remaining, decodeAll_of_error hr, hsum.trans ?_, hlt⟩
        exact Nat.zero_add front.length
      · obtain ⟨u, hu⟩ := hm more
        rw [hs] at hu
        cases hu
  followed {more} ne := by
    obtain ⟨s, hs, he⟩ := decodeAll_fst_eq_ok.1 ha
    have hrest : (s.extended more).rest = more := by rw [Reader.extended, he, List.nil_append]
    have hm : d (.ofBytes (input ++ more)) = .ok a (s.extended more) := (h.ok hs).2 more
    have hd := decodeAll_of_rest hm (by rwa [hrest])
    rwa [hrest] at hd

end Decoder

end NativeBridge.Wire
