import Mathlib.Algebra.Order.Ring.Nat
import NativeBridge.Proofs.Type.Nodes

/-! # Sizes and leaves

A size is checked piece by piece, at every product and at every sum. Where no array is empty a part
is never larger than the whole, so a piece is refused only if the whole is, and what is computed is
the exact size. Flattening gives leaves, none of them a struct, that have the size of the type
together and its alignment as their greatest.
-/
namespace NativeBridge.Ty

/-- No array in the tree is without elements. -/
def Occupied (t : Ty) : Prop := ∀ e d, array e d ∈ t.nodes → d ≠ 0

theorem occupied_array_iff {e : Ty} {d : UInt32} : (array e d).Occupied ↔ d ≠ 0 ∧ e.Occupied := by
  simp only [Occupied, mem_nodes_array, array.injEq]
  constructor
  · intro h
    exact ⟨h e d (.inl ⟨rfl, rfl⟩), fun e' d' hm => h e' d' (.inr hm)⟩
  · rintro ⟨hd, he⟩ e' d' (⟨rfl, rfl⟩ | hm)
    · exact hd
    · exact he e' d' hm

theorem occupied_struct_iff {n : SymbolName} {fs : List Ty} :
    (struct n fs).Occupied ↔ ∀ f ∈ fs, f.Occupied := by
  simp only [Occupied, mem_nodes_struct, reduceCtorEq, false_or]
  constructor
  · intro h f hf e d hm
    exact h e d ⟨f, hf, hm⟩
  · rintro h e d ⟨f, hf, hm⟩
    exact h f hf e d hm

theorem Occupied.generic {g : Ty} {as : List TypeArgument} (h : (cone g as).Occupied) :
    g.Occupied := fun e d hm => h e d (mem_nodes_cone.2 (.inr (.inl hm)))

theorem exactSizes_eq (ts : List Ty) : exactSizes ts = (ts.map exactSize).sum := by
  induction ts with
  | nil => rfl
  | cons t ts ih => rw [exactSizes, ih, List.map_cons, List.sum_cons]

theorem fits_of_lt {n : Nat} (h : n < addressSpace) : fits n = some n := if_pos h

theorem fits_of_le {n : Nat} (h : addressSpace ≤ n) : fits n = none := if_neg (Nat.not_lt.2 h)

/-- A step after which a size has not become smaller need not be checked before it. -/
theorem fits_bind {f : Nat → Nat} {n : Nat} (h : n ≤ f n) :
    ((fits n).bind fun m => fits (f m)) = fits (f n) := by
  by_cases hn : n < addressSpace
  · rw [fits_of_lt hn, Option.bind_some]
  · have hn := Nat.le_of_not_lt hn
    rw [fits_of_le hn, fits_of_le (hn.trans h), Option.bind_none]

theorem fits_mul {n k : Nat} (hk : k ≠ 0) : ((fits n).bind fun m => fits (m * k)) = fits (n * k) :=
  fits_bind (f := (· * k)) (Nat.le_mul_of_pos_right n (Nat.pos_of_ne_zero hk))

/-- A total that fits runs along the fields until the sum of all sizes does not. -/
theorem checkedTotal_eq_fits {ts : List Ty} {total : Nat} (htotal : total < addressSpace)
    (h : ∀ t ∈ ts, t.checkedSize = fits t.exactSize) :
    checkedTotal total ts = fits (total + exactSizes ts) := by
  induction ts generalizing total with
  | nil => exact (fits_of_lt htotal).symm
  | cons t ts ih =>
    have ht := h t List.mem_cons_self
    rw [checkedTotal, ht, exactSizes, ← Nat.add_assoc, ← Option.bind_assoc,
      fits_bind (f := (total + ·)) (Nat.le_add_left _ _)]
    by_cases hsum : total + t.exactSize < addressSpace
    · rw [fits_of_lt hsum, Option.bind_some]
      exact ih hsum fun u hu => h u (List.mem_cons_of_mem t hu)
    · have hsum := Nat.le_of_not_lt hsum
      rw [fits_of_le hsum, fits_of_le (hsum.trans (Nat.le_add_right _ _)), Option.bind_none]

/-- A piece is refused only where the whole is. -/
theorem Occupied.checkedSize_eq_fits {t : Ty} (h : t.Occupied) : t.checkedSize = fits t.exactSize := by
  induction t using Ty.inductionOn with
  | builtin k =>
    have hk : k.size < addressSpace := k.size_le_wordSize.trans_lt (by decide)
    rw [checkedSize, exactSize, fits_of_lt hk]
  | array e d ih =>
    obtain ⟨hd, he⟩ := occupied_array_iff.1 h
    have hd : d.toNat ≠ 0 := fun h0 => hd (UInt32.toNat.inj h0)
    rw [checkedSize, ih he, exactSize, fits_mul hd]
  | struct n fs ih =>
    have hf := occupied_struct_iff.1 h
    rw [checkedSize, exactSize, checkedTotal_eq_fits (by decide) fun f hm => ih f hm (hf f hm),
      Nat.zero_add]
  | reference n => rfl
  | cone g as ih _ => rw [checkedSize, exactSize, ih h.generic]

theorem Occupied.size_eq_min {t : Ty} (h : t.Occupied) :
    t.size = min t.exactSize (addressSpace - 1) := by
  rw [size, h.checkedSize_eq_fits]
  by_cases hs : t.exactSize < addressSpace
  · rw [fits_of_lt hs, Option.getD_some]
    omega
  · rw [fits_of_le (Nat.le_of_not_lt hs), Option.getD_none]
    omega

@[simp] theorem isStruct_cone (g : Ty) (as : List TypeArgument) :
    (cone g as).isStruct = g.isStruct := by simp [isStruct, head]

theorem flattenAll_eq (ts : List Ty) : flattenAll ts = ts.flatMap flatten := by
  induction ts with
  | nil => rfl
  | cons t ts ih => rw [flattenAll, ih, List.flatMap_cons]

/-- What is no struct is its own only leaf. -/
theorem flatten_eq_singleton {t : Ty} (h : t.isStruct = false) : t.flatten = [t] := by
  cases t with
  | struct n fs => simp [isStruct, head] at h
  | cone g as =>
    rw [isStruct_cone] at h
    simp [flatten, h]
  | _ => simp [flatten]

theorem flatten_cone_of_isStruct {g : Ty} {as : List TypeArgument} (h : g.isStruct = true) :
    (cone g as).flatten = g.flatten := by simp [flatten, h]

/-- What holds of all structs and passes to applications holds of a type if it holds of what is
its own leaf. -/
theorem flatten_induction {p : Ty → Prop} (t : Ty) (leaf : ∀ u, u.isStruct = false → p u)
    (struct : ∀ n fs, (∀ f ∈ fs, p f) → p (struct n fs))
    (cone : ∀ g as, g.isStruct = true → p g → p (cone g as)) : p t := by
  induction t using Ty.inductionOn with
  | builtin k => exact leaf _ rfl
  | array e d _ => exact leaf _ rfl
  | struct n fs ih => exact struct n fs ih
  | reference n => exact leaf _ rfl
  | cone g as ih _ =>
    by_cases h : g.isStruct = true
    · exact cone g as h ih
    · exact leaf _ (by simpa using h)

theorem isStruct_of_mem_flatten {t u : Ty} (h : u ∈ t.flatten) : u.isStruct = false := by
  induction t using flatten_induction with
  | leaf t ht =>
    rw [flatten_eq_singleton ht, List.mem_singleton] at h
    rw [h, ht]
  | struct n fs ih =>
    rw [flatten, flattenAll_eq, List.mem_flatMap] at h
    obtain ⟨f, hf, hu⟩ := h
    exact ih f hf hu
  | cone g as hg ih =>
    rw [flatten_cone_of_isStruct hg] at h
    exact ih h

/-- Leaves measure what the type does, by any measure under which structs measure what their fields
do together and applications what their generics do. -/
theorem measure_flatten {m : Ty → Nat} {ms : List Ty → Nat} {op : Nat → Nat → Nat}
    (single : ∀ t, ms [t] = m t) (append : ∀ ts us, ms (ts ++ us) = op (ms ts) (ms us))
    (struct : ∀ n fs, m (struct n fs) = ms fs) (cone : ∀ g as, m (cone g as) = m g) (t : Ty) :
    ms t.flatten = m t := by
  induction t using flatten_induction with
  | leaf t ht => rw [flatten_eq_singleton ht, single]
  | struct n fs ih =>
    rw [flatten, flattenAll_eq, struct]
    induction fs with
    | nil => rfl
    | cons f fs ihs =>
      rw [List.flatMap_cons, append, ih f (by simp), ihs fun g hg => ih g (by simp [hg]), ← single,
        ← append, List.singleton_append]
  | cone g as hg ih => rw [flatten_cone_of_isStruct hg, ih, cone]

theorem exactSizes_append (ts us : List Ty) :
    exactSizes (ts ++ us) = exactSizes ts + exactSizes us := by
  rw [exactSizes_eq, exactSizes_eq, exactSizes_eq, List.map_append, List.sum_append]

theorem exactSizes_flatten (t : Ty) : exactSizes t.flatten = t.exactSize :=
  measure_flatten (fun t => by rw [exactSizes, exactSizes, Nat.add_zero]) exactSizes_append
    (fun n fs => by rw [exactSize]) (fun g as => by rw [exactSize]) t

theorem alignments_append (ts us : List Ty) :
    alignments (ts ++ us) = max (alignments ts) (alignments us) := by
  induction ts with
  | nil => exact (max_eq_right (alignments_pos us)).symm
  | cons t ts ih => rw [List.cons_append, alignments, ih, alignments, max_assoc]

theorem alignments_flatten (t : Ty) : alignments t.flatten = t.alignment :=
  measure_flatten (fun t => max_eq_left t.alignment_pos) alignments_append
    (fun n fs => by rw [alignment]) (fun g as => by rw [alignment]) t

theorem alignments_eq_max? (ts : List Ty) : alignments ts = (ts.map alignment).max?.getD 1 := by
  induction ts with
  | nil => rfl
  | cons t ts ih =>
    rw [alignments, ih, List.map_cons, List.max?_cons, Option.getD_some]
    cases (ts.map alignment).max? with
    | none => exact max_eq_left t.alignment_pos
    | some n => rfl

/-- The size of a type is exact or absent, and its leaves have it together. -/
theorem layout_of_occupied {t : Ty} (h : t.Occupied) :
    t.checkedSize = (if t.exactSize ≤ 2 ^ 64 - 1 then some t.exactSize else none) ∧
      t.size = min t.exactSize (2 ^ 64 - 1) ∧
      (∀ u ∈ t.flatten, u.isStruct = false ∧ u.flatten = [u]) ∧
      (t.flatten.map exactSize).sum = t.exactSize ∧
      t.alignment = (t.flatten.map alignment).max?.getD 1 := by
  refine ⟨?_, h.size_eq_min, ?_, ?_, ?_⟩
  · rw [h.checkedSize_eq_fits, fits]
    exact if_congr (Nat.lt_iff_le_pred (by decide)) rfl rfl
  · intro u hu
    have hs := isStruct_of_mem_flatten hu
    exact ⟨hs, flatten_eq_singleton hs⟩
  · rw [← exactSizes_eq, exactSizes_flatten]
  · rw [← alignments_eq_max?, alignments_flatten]

/-- An array of arrays that is too large, between a struct of two leaves and an empty one, in an
applied generic. -/
theorem layout_of_occupied_box :
    let big := array (array (builtin .long) 0xffffffff) 0xffffffff
    let box := cone (struct ⟨"g.Box", "Box"⟩ [struct ⟨"Head", "Head"⟩ [builtin .void, builtin .short],
      big, struct ⟨"End", "End"⟩ []]) [.star]
    box.Occupied ∧ box.exactSize = 2 + 8 * (2 ^ 32 - 1) ^ 2 ∧
      box.checkedSize = none ∧ box.size = 2 ^ 64 - 1 ∧
      box.flatten = [builtin .void, builtin .short, big] ∧ big.isStruct = false ∧
      big.flatten = [big] ∧ (box.flatten.map exactSize).sum = 2 + 8 * (2 ^ 32 - 1) ^ 2 ∧
      box.alignment = 8 := by
  intro big box
  have ho : box.Occupied := by
    have hd : (0xffffffff : UInt32) ≠ 0 := by decide
    intro e d hm
    simp only [box, big, nodes, nodesOfAll, nodesOfArguments, nodesOfArgument, List.mem_cons,
      List.mem_append, List.not_mem_nil, array.injEq, reduceCtorEq, false_or, or_false] at hm
    rcases hm with ⟨_, rfl⟩ | ⟨_, rfl⟩
    · exact hd
    · exact hd
  have hs : box.exactSize = 2 + 8 * (2 ^ 32 - 1) ^ 2 := by decide
  have hf : box.flatten = [builtin .void, builtin .short, big] := rfl
  obtain ⟨hc, hz, hl, hx, ha⟩ := layout_of_occupied ho
  obtain ⟨hb, hbf⟩ := hl big (by rw [hf]; simp)
  refine ⟨ho, hs, ?_, ?_, hf, hb, hbf, hx.trans hs, ?_⟩
  · rw [hc, hs]
    decide
  · rw [hz, hs]
    decide
  · rw [ha, hf]
    decide

end NativeBridge.Ty
