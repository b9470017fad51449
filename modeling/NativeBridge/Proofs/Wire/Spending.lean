import Mathlib.Algebra.BigOperators.Group.List.Basic
import Mathlib.Algebra.Order.Ring.Nat
import NativeBridge.Proofs.Wire.Local

/-! # What a value costs in bytes

A decoder that succeeds has moved its reader on, past the bytes that the value was made of and not past
the end of the input. How many these are at least is stated as a function of the value, and what the
parts of a value cost adds up to what the whole costs. Where each item of a list costs a byte, a list
that states more items than there are bytes is refused, after no more attempts than one for each byte
and one at the end.
-/
namespace NativeBridge.Wire

variable {α : Type}

namespace Reader

/-- `s` is `r` moved on by at least so many bytes and not past the end of the input, of which what lies
behind the bytes moved past is still ahead. -/
structure Onward (r : Reader) (least : Nat) (s : Reader) : Prop where
  advanced : r.position + least ≤ s.position
  within : s.position ≤ r.ending
  rest : s.rest = r.rest.drop (s.position - r.position)

theorem Onward.ending_eq {r s : Reader} {n : Nat} (h : r.Onward n s) : s.ending = r.ending := by
  have hr : s.remaining = r.remaining - (s.position - r.position) := by
    rw [remaining, h.rest, List.length_drop, remaining]
  have ha := h.advanced
  have hw := h.within
  simp only [ending] at hw ⊢
  omega

theorem Onward.add_remaining_le {r s : Reader} {n : Nat} (h : r.Onward n s) :
    n + s.remaining ≤ r.remaining := by
  have he := h.ending_eq
  have ha := h.advanced
  simp only [ending] at he
  omega

theorem Onward.trans {r s t : Reader} {m n : Nat} (h : r.Onward m s) (k : s.Onward n t) :
    r.Onward (m + n) t := by
  have hs := h.advanced
  have ht := k.advanced
  refine ⟨by omega, h.ending_eq ▸ k.within, ?_⟩
  rw [k.rest, h.rest, List.drop_drop]
  congr 1
  omega

theorem Onward.mono {r s : Reader} {m n : Nat} (h : r.Onward m s) (hn : n ≤ m) : r.Onward n s :=
  ⟨Nat.le_trans (Nat.add_le_add_left hn r.position) h.advanced, h.within, h.rest⟩

theorem Past.onward {r s : Reader} {bytes : Bytes} {ids : List UInt32} (h : r.Past bytes ids s) :
    r.Onward bytes.length s := by
  refine ⟨Nat.le_of_eq h.position.symm, ?_, ?_⟩
  · rw [← h.ending_eq]
    exact Nat.le_add_right s.position s.remaining
  · rw [h.rest, h.position, Nat.add_sub_cancel_left, List.drop_left]

end Reader

theorem length_text (x : String) : (text x).length = 4 + x.utf8ByteSize := by
  rw [text, List.length_append, length, length_word, Text.length_utf8]

namespace Decoder

/-- For every value that is read, at least so many bytes are. -/
def Spends (d : Decoder α) (least : α → Nat) : Prop :=
  ∀ ⦃r s : Reader⦄ ⦃a : α⦄, d r = .ok a s → r.Onward (least a) s

theorem spends_length : Decoder.length.Spends fun _ => 4 := by
  intro r s n h
  exact (length_eq_ok_iff.1 h).2.onward

theorem spends_text : Decoder.text.Spends fun x => 4 + x.utf8ByteSize := by
  intro r s x h
  have hp := (text_eq_ok_iff.1 h).2.onward
  rwa [length_text] at hp

namespace Spends
variable {d : Decoder α} {least : α → Nat}

theorem mono {fewer : α → Nat} (h : d.Spends least) (hf : ∀ a, fewer a ≤ least a) :
    d.Spends fewer := fun _ _ a hd => (h hd).mono (hf a)

/-- Items in a row cost what they cost one by one. -/
theorem items (h : d.Spends least) {n : Nat} {acc : Array α} {out : List α} {r s : Reader}
    (hi : Decoder.items d n acc r = .ok out s) :
    ∃ xs : List α, xs.length = n ∧ out = acc.toList ++ xs ∧ r.Onward (xs.map least).sum s := by
  induction n generalizing acc r with
  | zero =>
    obtain ⟨rfl, rfl⟩ := Run.pure_eq_ok_iff.1 hi
    exact ⟨[], rfl, by simp, (Reader.Past.refl s).onward⟩
  | succ n ih =>
    obtain ⟨a, t, ha, ht⟩ := Run.bind_eq_ok_iff.1 hi
    obtain ⟨xs, rfl, rfl, hs⟩ := ih ht
    refine ⟨a :: xs, rfl, by simp, ?_⟩
    simpa using (h ha).trans hs

/-- A list costs what its items do, and four bytes for their number. -/
theorem list (h : d.Spends least) :
    (Decoder.list d).Spends fun xs => 4 + (xs.map least).sum := by
  intro r s out hl
  obtain ⟨n, t, hn, hi⟩ := Run.bind_eq_ok_iff.1 hl
  obtain ⟨xs, _, rfl, hs⟩ := h.items hi
  exact (spends_length hn).trans hs

theorem optional (h : d.Spends least) :
    (Decoder.optional d).Spends fun o => 1 + (o.toList.map least).sum := by
  intro r s o ho
  obtain ⟨present, t, ht, hi⟩ := Run.bind_eq_ok_iff.1 ho
  have hf := (flag_eq_ok_iff.1 ht).onward
  cases present with
  | false =>
    obtain ⟨rfl, rfl⟩ := Run.pure_eq_ok_iff.1 hi
    exact hf
  | true =>
    obtain ⟨a, ha, rfl⟩ := Run.bind_pure_eq_ok_iff.1 hi
    simpa [Wire.flag] using hf.trans (h ha)

end Spends

section Bytewise
variable {d : Decoder α} (h : d.Spends fun _ => 1)
include h

theorem le_remaining_of_items {n : Nat} {acc : Array α} {out : List α} {r s : Reader}
    (hi : items d n acc r = .ok out s) : n ≤ r.remaining := by
  obtain ⟨xs, rfl, _, hs⟩ := h.items hi
  have hl := hs.add_remaining_le
  simp only [List.map_const', List.sum_replicate_nat, Nat.mul_one] at hl
  omega

/-- Two numbers of items that are both too great make no difference: either way the run ends where no
byte is left for the next item, if not before. -/
theorem items_eq_of_remaining_lt {m n : Nat} {acc : Array α} {r : Reader} (hm : r.remaining < m)
    (hn : r.remaining < n) : items d m acc r = items d n acc r := by
  induction m generalizing n acc r with
  | zero => exact absurd hm (Nat.not_lt_zero _)
  | succ m ih =>
    obtain ⟨n, rfl⟩ := Nat.exists_eq_add_one_of_ne_zero (Nat.ne_zero_of_lt hn)
    cases hd : d r with
    | error e s =>
      have hf : ∀ k, items d (k + 1) acc r = .error e s := fun k =>
        Run.bind_eq_error_iff.2 (.inl hd)
      rw [hf, hf]
    | ok a s =>
      have hs : 1 + s.remaining ≤ r.remaining := (h hd).add_remaining_le
      have hf : ∀ k, items d (k + 1) acc r = items d k (acc.push a) s := fun k =>
        Run.bind_of_ok hd fun a => items d k (acc.push a)
      rw [hf, hf]
      exact ih (by omega) (by omega)

end Bytewise

/-- Values take at least so many bytes each, so that lists of them are limited by the input: one that
states more items than there are bytes fails, as it does after one attempt more than there are bytes, and
one that is read has the places that were set aside for it. -/
structure Bounded (d : Decoder α) (least : Nat) : Prop where
  onward {r s : Reader} {a : α} (run : d r = .ok a s) : r.Onward least s
  overstated {r t : Reader} {n : Nat} (stated : Decoder.length r = .ok n t) (more : t.remaining < n) :
    ∃ e s, Decoder.list d r = .error e s ∧ items d (t.remaining + 1) #[] t = .error e s
  reserved {r s t : Reader} {n : Nat} {xs : List α} (stated : Decoder.length r = .ok n t)
    (run : Decoder.list d r = .ok xs s) : xs.length = n ∧ xs.length ≤ t.capacity n

theorem Spends.bounded {d : Decoder α} {least : Nat} (h : d.Spends fun _ => least)
    (hp : 0 < least) : d.Bounded least := by
  have hb : d.Spends fun _ => 1 := h.mono fun _ => hp
  have hl : ∀ {r t : Reader} {n : Nat}, Decoder.length r = .ok n t →
      Decoder.list d r = Decoder.items d n #[] t := fun hn => Run.bind_of_ok hn _
  refine ⟨fun run => h run, ?_, ?_⟩
  · intro r t n stated more
    rw [hl stated]
    cases hi : Decoder.items d n #[] t with
    | ok xs s => exact absurd (le_remaining_of_items hb hi) (Nat.not_le_of_lt more)
    | error e s =>
      refine ⟨e, s, rfl, ?_⟩
      rw [← hi]
      exact items_eq_of_remaining_lt hb (Nat.lt_succ_self _) more
  · intro r s t n xs stated run
    rw [hl stated] at run
    obtain ⟨ys, rfl, rfl, _⟩ := h.items run
    rw [t.capacity_eq]
    exact ⟨rfl, Nat.le_min.2 ⟨Nat.le_refl _, le_remaining_of_items hb run⟩⟩

end Decoder

end NativeBridge.Wire
