import Mathlib.Data.List.Basic
import NativeBridge.Proofs.Basic
import NativeBridge.Proofs.Memory.Runs

/-! # Parts of arrays in memory

A part of an array is written and read by a loop that counts its elements from the beginning of the
part: in the array an element lies so many places behind the first, in memory so many sizes behind
the address. Both loops come to moving the part as a whole, with nothing next to it touched, and a
part that is none of the array's moves nothing.
-/
namespace NativeBridge.Memory

/-! ## Element by element -/

variable {m : Memory} {address first last i n : Nat} {k : CallKind} {vs : List Value}

theorem inSlice_iff {length : Nat} : inSlice first last length = true ↔ first ≤ last ∧ last ≤ length := by
  simp [inSlice]

theorem storeEach_eq (hk : ∀ v ∈ vs, v.kind = k) :
    storeEach address k.size i vs m =
      .ok () (m.writeValues (address + i * k.size) vs) := by
  induction vs generalizing i m with
  | nil => exact congrArg _ (m.write_nil _).symm
  | cons v vs ih =>
    have hv : v.bytes.length = k.size := by rw [Value.length_bytes, hk v List.mem_cons_self]
    have hnext : address + (i + 1) * k.size = address + i * k.size + v.bytes.length := by
      rw [hv, Nat.succ_mul, Nat.add_assoc]
    have hrest := @ih (m.writeValue (address + i * k.size) v) (i + 1)
      fun w hw => hk w (List.mem_cons_of_mem v hw)
    rw [hnext, writeValues, writeValue, write_write] at hrest
    rw [writeValues, List.flatMap_cons]
    exact hrest

theorem storeSlice_eq (hk : ∀ v ∈ vs, v.kind = k) (m : Memory) (address first last : Nat) :
    storeSlice address k vs first last m =
      match m.writeSlice address vs first last with
      | .ok m' => .ok () m'
      | .error e => .error e m := by
  unfold storeSlice writeSlice
  split
  · have hpart : ∀ v ∈ (vs.drop first).take (last - first), v.kind = k :=
      fun v hv => hk v (List.mem_of_mem_drop (List.mem_of_mem_take hv))
    have hstore := @storeEach_eq m address 0 k _ hpart
    rwa [Nat.zero_mul] at hstore
  · rfl

theorem loadEach_eq (h : first + i + n ≤ vs.length) : loadEach m address k first i n vs =
    .ok () (vs.take (first + i) ++ m.readValues (address + i * k.size) k n ++
      vs.drop (first + i + n)) := by
  induction n generalizing i vs with
  | zero =>
    change EStateM.Result.ok () vs = _
    rw [Nat.add_zero, readValues, List.range_zero, List.map_nil, List.append_nil,
      List.take_append_drop]
  | succ n ih =>
    let v := m.readValue (address + i * k.size) k
    have hlt : first + i < vs.length := by omega
    have hrest := @ih (i + 1) (vs.set (first + i) v) (by rw [List.length_set]; omega)
    have hnext : address + (i + 1) * k.size = address + i * k.size + k.size := by
      rw [Nat.succ_mul, Nat.add_assoc]
    have htake : (vs.set (first + i) v).take (first + (i + 1)) = vs.take (first + i) ++ [v] := by
      rw [← Nat.add_assoc, List.take_add_one, List.take_set_of_le (Nat.le_refl _),
        List.getElem?_set_self hlt]
      rfl
    have hdrop : (vs.set (first + i) v).drop (first + (i + 1) + n) =
        vs.drop (first + i + (n + 1)) := by
      rw [List.drop_set_of_lt (by omega)]
      congr 1
      omega
    rw [hnext, htake, hdrop, List.append_assoc (vs.take _), List.singleton_append] at hrest
    rw [readValues_succ]
    exact hrest

theorem loadSlice_eq (m : Memory) (address : Nat) (k : CallKind) (first last : Nat) (vs : List Value) :
    loadSlice m address k first last vs =
      match m.readSlice address k vs first last with
      | .ok vs' => .ok () vs'
      | .error e => .error e vs := by
  have hget (f : List Value → EStateM Fault (List Value) Unit) : (get >>= f) vs = f vs vs := rfl
  unfold loadSlice readSlice
  rw [hget]
  split
  · rename_i h
    obtain ⟨hle, hlen⟩ := inSlice_iff.1 h
    have hend : first + 0 + (last - first) = last := by omega
    have hload := @loadEach_eq m address first 0 (last - first) k vs (by omega)
    rwa [hend, Nat.zero_mul] at hload
  · rfl

/-! ## What is moved -/

theorem writeSlice_eq_ok (h : first ≤ last ∧ last ≤ vs.length) : m.writeSlice address vs first last =
    .ok (m.writeValues address ((vs.drop first).take (last - first))) := by
  rw [writeSlice, if_pos (inSlice_iff.2 h)]

theorem writeSlice_eq_error (h : ¬(first ≤ last ∧ last ≤ vs.length)) :
    m.writeSlice address vs first last = .error .sliceRange := by
  rw [writeSlice, if_neg (mt inSlice_iff.1 h)]

theorem readSlice_eq_ok (h : first ≤ last ∧ last ≤ vs.length) :
    m.readSlice address k vs first last =
      .ok (vs.take first ++ m.readValues address k (last - first) ++ vs.drop last) := by
  rw [readSlice, if_pos (inSlice_iff.2 h)]

theorem readSlice_eq_error (h : ¬(first ≤ last ∧ last ≤ vs.length)) :
    m.readSlice address k vs first last = .error .sliceRange := by
  rw [readSlice, if_neg (mt inSlice_iff.1 h)]

theorem length_part (h : last ≤ vs.length) :
    ((vs.drop first).take (last - first)).length = last - first := by
  rw [List.length_take, List.length_drop]
  omega

theorem length_readValues (m : Memory) (address : Nat) (k : CallKind) (n : Nat) :
    (m.readValues address k n).length = n := by
  rw [readValues, List.length_map, List.length_range]

theorem getElem?_readValues (h : i < n) :
    (m.readValues address k n)[i]? = some (m.readValue (address + i * k.size) k) := by
  rw [readValues, List.getElem?_map, List.getElem?_range h, Option.map_some]

/-- Every element is read where it was written. -/
theorem readValue_writeValues (hk : ∀ v ∈ vs, v.kind = k) (h : i < vs.length) :
    some ((m.writeValues address vs).readValue (address + i * k.size) k) = vs[i]? := by
  rw [← getElem?_readValues h]
  exact congrArg (·[i]?) ((m.has_write address _).readValues hk)

theorem byte_writeValues_of_outside (hk : ∀ v ∈ vs, v.kind = k) {x : Nat}
    (h : x < address ∨ address + vs.length * k.size ≤ x) :
    (m.writeValues address vs).byte x = m.byte x := by
  rcases h with h | h
  · exact byte_write_of_lt h
  · exact byte_write_of_le (by rwa [Value.length_flatMap_bytes hk, Nat.mul_comm])

/-- The elements of an array after a part of it was replaced. -/
theorem getElem?_replaced {part : List Value} (h : first + part.length = last)
    (hlen : last ≤ vs.length) (j : Nat) :
    (vs.take first ++ part ++ vs.drop last)[j]? =
      if first ≤ j ∧ j < last then part[j - first]? else vs[j]? := by
  have htake : (vs.take first).length = first := List.length_take_of_le (by omega)
  have hfront : (vs.take first ++ part).length = last := by rw [List.length_append, htake, h]
  split
  · rename_i hj
    rw [List.getElem?_append_left (by omega), List.getElem?_append_right (by omega), htake]
  · rename_i hj
    rcases Nat.lt_or_ge j first with hj' | hj'
    · rw [List.getElem?_append_left (by omega), List.getElem?_append_left (by omega),
        List.getElem?_take_of_lt hj']
    · rw [List.getElem?_append_right (by omega), hfront, List.getElem?_drop]
      congr 1
      omega

/-- What a part of an array becomes when it is read from memory. -/
structure Loaded (m : Memory) (address : Nat) (k : CallKind) (vs : List Value) (first last : Nat)
    (vs' : List Value) : Prop where
  run_eq : loadSlice m address k first last vs = .ok () vs'
  result_eq : m.readSlice address k vs first last = .ok vs'
  inside : ∀ i < last - first, vs'[first + i]? = some (m.readValue (address + i * k.size) k)
  outside : ∀ j, j < first ∨ last ≤ j → vs'[j]? = vs[j]?

theorem exists_loaded (m : Memory) (address : Nat) (k : CallKind) (h : first ≤ last ∧ last ≤ vs.length) :
    ∃ vs', Loaded m address k vs first last vs' := by
  have hend : first + (m.readValues address k (last - first)).length = last := by
    rw [length_readValues]
    omega
  refine ⟨_, ?_, readSlice_eq_ok h, fun i hi => ?_, fun j hj => ?_⟩
  · rw [loadSlice_eq, readSlice_eq_ok h]
  · rw [getElem?_replaced hend h.2, if_pos (by omega), Nat.add_sub_cancel_left,
      getElem?_readValues hi]
  · rw [getElem?_replaced hend h.2, if_neg (by omega)]

/-- A part of an array is written to just the bytes that it takes up, from where as much of it as a
part of another array holds is read into that part and nowhere else. What is no part of an array is
neither written nor read, and then memory and array stay as they are. -/
theorem writeSlice_readSlice {src : List Value} (hk : ∀ v ∈ src, v.kind = k) (m : Memory)
    (address first last : Nat) :
    (first ≤ last ∧ last ≤ src.length → ∃ m',
      storeSlice address k src first last m = .ok () m' ∧
      m.writeSlice address src first last = .ok m' ∧
      m'.read address ((last - first) * k.size) =
        ((src.drop first).take (last - first)).flatMap Value.bytes ∧
      (∀ x, x < address ∨ address + (last - first) * k.size ≤ x → m'.byte x = m.byte x) ∧
      ∀ (out : List Value) (first' last' : Nat), first' ≤ last' ∧ last' ≤ out.length →
        last' - first' ≤ last - first → ∃ out',
          loadSlice m' address k first' last' out = .ok () out' ∧
          m'.readSlice address k out first' last' = .ok out' ∧
          (∀ i < last' - first', out'[first' + i]? = src[first + i]?) ∧
          ∀ j, j < first' ∨ last' ≤ j → out'[j]? = out[j]?) ∧
    (¬(first ≤ last ∧ last ≤ src.length) →
      storeSlice address k src first last m = .error .sliceRange m ∧
      m.writeSlice address src first last = .error .sliceRange) ∧
    ∀ (out : List Value) (first' last' : Nat), ¬(first' ≤ last' ∧ last' ≤ out.length) →
      loadSlice m address k first' last' out = .error .sliceRange out ∧
      m.readSlice address k out first' last' = .error .sliceRange := by
  refine ⟨fun h => ?_, fun h => ?_, fun out first' last' h => ?_⟩
  · let part := (src.drop first).take (last - first)
    have hpart : ∀ v ∈ part, v.kind = k :=
      fun v hv => hk v (List.mem_of_mem_drop (List.mem_of_mem_take hv))
    have hlen : part.length = last - first := length_part h.2
    have hsize : (part.flatMap Value.bytes).length = (last - first) * k.size := by
      rw [Value.length_flatMap_bytes hpart, hlen, Nat.mul_comm]
    refine ⟨m.writeValues address part, ?_, writeSlice_eq_ok h, ?_, fun x hx => ?_, ?_⟩
    · rw [storeSlice_eq hk, writeSlice_eq_ok h]
    · rw [← hsize]
      exact m.has_write address _
    · exact byte_writeValues_of_outside hpart (by rwa [hlen])
    · intro out first' last' h' hle
      obtain ⟨out', hout⟩ := exists_loaded (m.writeValues address part) address k h'
      refine ⟨out', hout.run_eq, hout.result_eq, fun i hi => ?_, hout.outside⟩
      rw [hout.inside i hi, readValue_writeValues hpart (by omega), List.getElem?_take_of_lt (by omega),
        List.getElem?_drop]
  · refine ⟨?_, writeSlice_eq_error h⟩
    rw [storeSlice_eq hk, writeSlice_eq_error h]
  · refine ⟨?_, readSlice_eq_error h⟩
    rw [loadSlice_eq, readSlice_eq_error h]

/-- Three of five numbers of two bytes each are written to an odd address and read into the end of
another array; a sixth number is not there. -/
theorem writeSlice_readSlice_numbers :
    let numbers := List.map (Value.ofBits .ushort)
    let src := numbers [1, 2, 3, 4, 5]
    (∀ v ∈ src, v.kind = .ushort) ∧
    (∃ m', storeSlice 1 .ushort src 1 4 default = .ok () m' ∧
      m'.read 1 6 = [2, 0, 3, 0, 4, 0] ∧ m'.byte 0 = 0 ∧ m'.byte 7 = 0 ∧
      ∃ out', loadSlice m' 1 .ushort 2 5 (numbers [9, 9, 9, 9, 9]) = .ok () out' ∧
        out'[4]? = some (.ofBits .ushort 4) ∧ out'[1]? = some (.ofBits .ushort 9)) ∧
    storeSlice 1 .ushort src 1 6 default = .error .sliceRange default := by
  intro numbers src
  have hk : ∀ v ∈ src, v.kind = .ushort := by decide
  have hmoves := writeSlice_readSlice hk default 1
  obtain ⟨m', hstore, -, hread, hother, hload⟩ := (hmoves 1 4).1 (by decide)
  obtain ⟨out', hout, -, hinside, houtside⟩ := hload (numbers [9, 9, 9, 9, 9]) 2 5 (by decide) (by decide)
  refine ⟨hk, ⟨m', hstore, hread, hother 0 (by decide), hother 7 (by decide), out', hout, ?_, ?_⟩, ?_⟩
  · exact hinside 2 (by decide)
  · exact houtside 1 (by decide)
  · exact ((hmoves 1 6).2.1 (by decide)).1

end NativeBridge.Memory
