import Mathlib.Data.List.Basic
import NativeBridge.Memory.Basic

/-! # Runs of bytes

What memory holds at an address is cut and joined as lists of bytes are, outlasts writing and copying
elsewhere, and gives back the values whose bytes it is.
-/
namespace NativeBridge

theorem Value.length_flatMap_bytes {vs : List Value} {k : CallKind} (hk : ∀ v ∈ vs, v.kind = k) :
    (vs.flatMap Value.bytes).length = k.size * vs.length := by
  induction vs with
  | nil => rfl
  | cons v vs ih =>
    have hv : v.kind = k := hk v List.mem_cons_self
    rw [List.flatMap_cons, List.length_append, Value.length_bytes, hv,
      ih fun w hw => hk w (List.mem_cons_of_mem v hw), List.length_cons, Nat.mul_succ, Nat.add_comm]

namespace Memory

/-- The bytes lie in memory from the address on. -/
def Has (m : Memory) (address : Nat) (bytes : List UInt8) : Prop :=
  m.read address bytes.length = bytes

variable {m : Memory} {address : Nat} {xs ys : List UInt8} {k : CallKind}

theorem read_add (m : Memory) (address n k : Nat) :
    m.read address (n + k) = m.read address n ++ m.read (address + n) k := by
  simp only [read, List.range_add, List.map_append, List.map_map, Function.comp_def, Nat.add_assoc]

theorem has_nil (m : Memory) (address : Nat) : m.Has address [] := rfl

theorem has_append_iff :
    m.Has address (xs ++ ys) ↔ m.Has address xs ∧ m.Has (address + xs.length) ys := by
  unfold Has
  rw [List.length_append, read_add]
  constructor
  · intro h
    exact List.append_inj h (length_read ..)
  · intro h
    rw [h.1, h.2]

theorem has_write (m : Memory) (address : Nat) (xs : List UInt8) : (m.write address xs).Has address xs :=
  read_write m address xs

theorem write_nil (m : Memory) (address : Nat) : m.write address [] = m := by
  simp [write]

theorem byte_write_add (m : Memory) (address : Nat) (xs : List UInt8) (i : Nat) :
    (m.write address xs).byte (address + i) = xs[i]?.getD (m.byte (address + i)) := by
  have hlt : ¬ address + i < address := Nat.not_lt.2 (Nat.le_add_right _ _)
  simp [write, hlt]

/-- Two runs that are written one behind the other are one. -/
theorem write_write (m : Memory) (address : Nat) (xs ys : List UInt8) :
    (m.write address xs).write (address + xs.length) ys = m.write address (xs ++ ys) := by
  rw [Memory.mk.injEq]
  funext x
  rcases Nat.lt_or_ge x address with hx | hx
  · have hx' : x < address + xs.length := Nat.lt_add_right _ hx
    exact (byte_write_of_lt hx').trans ((byte_write_of_lt hx).trans (byte_write_of_lt hx).symm)
  obtain ⟨i, rfl⟩ := Nat.exists_eq_add_of_le hx
  refine Eq.trans ?_ (byte_write_add m address (xs ++ ys) i).symm
  rcases Nat.lt_or_ge i xs.length with hi | hi
  · rw [List.getElem?_append_left hi, ← byte_write_add]
    exact byte_write_of_lt (Nat.add_lt_add_left hi _)
  · obtain ⟨j, rfl⟩ := Nat.exists_eq_add_of_le hi
    have hy := byte_write_add (m.write address xs) (address + xs.length) ys j
    have hm : (m.write address xs).byte (address + xs.length + j) =
        m.byte (address + xs.length + j) := byte_write_of_le (Nat.le_add_right _ _)
    rw [hm] at hy
    rw [List.getElem?_append_right hi, Nat.add_sub_cancel_left, ← Nat.add_assoc]
    exact hy

theorem read_take (m : Memory) (address : Nat) {k n : Nat} (h : k ≤ n) :
    (m.read address n).take k = m.read address k := by
  obtain ⟨rest, rfl⟩ := Nat.exists_eq_add_of_le h
  rw [read_add]
  exact List.take_left' (length_read ..)

/-- The beginning of a copy is that of its source. -/
theorem read_copy (m : Memory) (target source : Nat) {k n : Nat} (h : k ≤ n) :
    (m.copy target source n).read target k = m.read source k := by
  have hall := read_write m target (m.read source n)
  rw [length_read] at hall
  rw [← read_take _ _ h, copy, hall, read_take _ _ h]

theorem byte_copy_of_outside {target source n x : Nat} (h : x < target ∨ target + n ≤ x) :
    (m.copy target source n).byte x = m.byte x := by
  rcases h with h | h
  · exact byte_write_of_lt h
  · exact byte_write_of_le (by rwa [length_read])

theorem Has.write {start : Nat} (h : m.Has address xs)
    (hd : address + xs.length ≤ start ∨ start + ys.length ≤ address) :
    (m.write start ys).Has address xs :=
  (read_write_of_disjoint m start address xs.length ys hd).trans h

theorem Has.readValue {v : Value} (h : m.Has address v.bytes) :
    m.readValue address v.kind = v := by
  unfold Has at h
  rw [Value.length_bytes] at h
  rw [Memory.readValue, h, Value.ofBytes_bytes]

theorem readValues_succ (m : Memory) (address : Nat) (k : CallKind) (n : Nat) :
    m.readValues address k (n + 1) =
      m.readValue address k :: m.readValues (address + k.size) k n := by
  simp only [readValues, List.range_succ_eq_map, List.map_cons, List.map_map, Nat.zero_mul,
    Nat.add_zero, Function.comp_def, Nat.succ_mul]
  congr 1
  apply List.map_congr_left
  intro i _
  congr 1
  omega

theorem Has.readValues {vs : List Value} (hk : ∀ v ∈ vs, v.kind = k)
    (h : m.Has address (vs.flatMap Value.bytes)) : m.readValues address k vs.length = vs := by
  induction vs generalizing address with
  | nil => rfl
  | cons v vs ih =>
    have hv : v.kind = k := hk v List.mem_cons_self
    obtain ⟨hfirst, hrest⟩ := has_append_iff.1 h
    rw [Value.length_bytes, hv] at hrest
    rw [List.length_cons, readValues_succ, ih (fun w hw => hk w (List.mem_cons_of_mem v hw)) hrest,
      ← hv, hfirst.readValue]

end Memory

end NativeBridge
