import NativeBridge.Proofs.Call.Buffer
import NativeBridge.Proofs.Memory.Runs

/-! # The entries of a buffer

A buffer is set beside the list of the entries that were put. It is filled with them when its tags and
its bytes are theirs and its cursor stands between two of them; then every address and every read
follows from the list.
-/
namespace NativeBridge

open ArgumentBuffer

/-- Values of one kind that are put together. -/
structure Entry where
  kind : CallKind
  values : List Value
  kind_eq : ∀ v ∈ values, v.kind = kind

namespace Entry

def one (v : Value) : Entry := ⟨v.kind, [v], by simp⟩

def tag (e : Entry) : Tag := ⟨e.kind, e.values.length⟩

def size (e : Entry) : Nat := e.kind.size * e.values.length

def bytes (e : Entry) : List UInt8 := e.values.flatMap Value.bytes

/-- The value of an entry that has just one. -/
def value? (e : Entry) : Option Value :=
  match e.values with
  | [v] => some v
  | _ => none

theorem length_bytes (e : Entry) : e.bytes.length = e.size := Value.length_flatMap_bytes e.kind_eq

theorem values_eq_singleton_iff {e : Entry} {v : Value} : e.values = [v] ↔ e.value? = some v := by
  unfold value?
  split
  · rename_i w hw
    rw [hw, List.singleton_inj, Option.some.injEq]
  · rename_i hne
    constructor
    · intro h
      exact absurd h (hne v)
    · intro h
      cases h

theorem value?_eq_none_iff {e : Entry} : e.value? = none ↔ e.values.length ≠ 1 := by
  rw [ne_eq, List.length_eq_one_iff, ← not_iff_not, not_not]
  simp only [values_eq_singleton_iff, ← Option.isSome_iff_exists, Option.isSome_iff_ne_none, ne_eq]

theorem count_tag {e : Entry} {v : Value} (h : e.value? = some v) : e.tag.count = 1 := by
  rw [tag, values_eq_singleton_iff.2 h, List.length_singleton]

/-- The room that entries take up together. -/
def total : List Entry → Nat
  | [] => 0
  | e :: es => e.size + total es

theorem total_append (es new : List Entry) : total (es ++ new) = total es + total new := by
  induction es with
  | nil => exact (Nat.zero_add _).symm
  | cons e es ih => rw [List.cons_append, total, total, ih, Nat.add_assoc]

theorem extent_map_tag (es : List Entry) : extent (es.map tag) = total es := by
  induction es with
  | nil => rfl
  | cons e es ih => rw [List.map_cons, extent, ih, total, tag, Tag.size, size]

theorem length_flatMap_bytes (es : List Entry) : (es.flatMap bytes).length = total es := by
  induction es with
  | nil => rfl
  | cons e es ih => rw [List.flatMap_cons, List.length_append, length_bytes, ih, total]

end Entry

/-- A buffer that holds these entries. -/
structure Filled (memory : Memory) (b : ArgumentBuffer) (es : List Entry) : Prop where
  aligned : Arena.extentAlignment ∣ b.base
  tags_eq : b.tags = es.map Entry.tag
  size_eq : b.size = Entry.total es
  has : memory.Has b.base (es.flatMap Entry.bytes)
  index_le : b.readIndex ≤ es.length
  offset_eq : b.readOffset = Entry.total (es.take b.readIndex)

namespace Filled

variable {memory : Memory} {b : ArgumentBuffer} {es : List Entry} {e : Entry} {i : Nat}

theorem extent_take (h : Filled memory b es) (i : Nat) :
    extent (b.tags.take i) = Entry.total (es.take i) := by
  rw [h.tags_eq, ← List.map_take, Entry.extent_map_tag]

theorem getElem?_tags (h : Filled memory b es) (i : Nat) : b.tags[i]? = es[i]?.map Entry.tag := by
  rw [h.tags_eq, List.getElem?_map]

theorem tag_of_entry (h : Filled memory b es) (he : es[i]? = some e) : b.tags[i]? = some e.tag := by
  rw [h.getElem?_tags, he, Option.map_some]

/-- The bytes of each entry lie behind those of the entries before it. -/
theorem has_entry (h : Filled memory b es) (he : es[i]? = some e) :
    memory.Has (b.base + Entry.total (es.take i)) e.bytes := by
  have hall := h.has
  obtain ⟨hi, rfl⟩ := List.getElem?_eq_some_iff.1 he
  rw [← List.take_append_drop i es, List.drop_eq_getElem_cons hi, List.flatMap_append,
    List.flatMap_cons, Memory.has_append_iff, Memory.has_append_iff, Entry.length_flatMap_bytes] at hall
  exact hall.2.1

theorem address_eq (h : Filled memory b es) (hi : i ≤ es.length) :
    b.address i = .ok (b.base + Entry.total (es.take i)) := by
  have hlen : i ≤ b.tags.length := by rwa [h.tags_eq, List.length_map]
  rw [address, if_pos hlen, h.extent_take]

theorem addresses_eq (h : Filled memory b es) : b.addresses =
    (List.range es.length).map fun i => b.base + Entry.total (es.take i) := by
  rw [addresses, addressesFrom_eq, h.tags_eq, List.length_map]
  simp only [← List.map_take, Entry.extent_map_tag]

theorem readValue_eq (h : Filled memory b es) {v : Value} (he : es[i]? = some e)
    (hv : e.value? = some v) :
    memory.readValue (b.base + Entry.total (es.take i)) e.kind = v := by
  have hb := h.has_entry he
  have hs : e.values = [v] := Entry.values_eq_singleton_iff.2 hv
  have hk : v.kind = e.kind := e.kind_eq v (hs ▸ List.mem_singleton_self v)
  rw [Entry.bytes, hs, List.flatMap_singleton] at hb
  rw [← hk, hb.readValue]

theorem readValues_eq (h : Filled memory b es) (he : es[i]? = some e) :
    memory.readValues (b.base + Entry.total (es.take i)) e.kind e.values.length = e.values :=
  (h.has_entry he).readValues e.kind_eq

theorem value?_eq (h : Filled memory b es) (i : Nat) :
    b.value? memory i = es[i]?.bind Entry.value? := by
  unfold ArgumentBuffer.value?
  rw [h.getElem?_tags, h.extent_take]
  cases he : es[i]? with
  | none => rfl
  | some e =>
    simp only [Option.map_some, Option.bind_some]
    cases hv : e.value? with
    | none => exact if_neg (Entry.value?_eq_none_iff.1 hv)
    | some v => rw [if_pos (Entry.count_tag hv), Entry.tag, h.readValue_eq he hv]

theorem empty (memory : Memory) (scope : Scope) {base : Nat} (hd : Arena.extentAlignment ∣ base) :
    Filled memory ⟨scope, base, [], 0, 0, 0⟩ [] :=
  ⟨hd, rfl, rfl, Memory.has_nil .., le_rfl, rfl⟩

/-- Writing elsewhere leaves the entries alone. -/
theorem write {start : Nat} {bytes : List UInt8} (h : Filled memory b es)
    (hd : b.base + b.size ≤ start ∨ start + bytes.length ≤ b.base) :
    Filled (memory.write start bytes) b es := by
  refine ⟨h.aligned, h.tags_eq, h.size_eq, h.has.write ?_, h.index_le, h.offset_eq⟩
  rwa [Entry.length_flatMap_bytes, ← h.size_eq]

/-- Writing an entry at the end adds it. -/
theorem append (h : Filled memory b es) (e : Entry) :
    Filled (memory.write (b.base + b.size) e.bytes)
      { b with tags := b.tags ++ [e.tag], size := b.size + e.tag.size } (es ++ [e]) where
  aligned := h.aligned
  tags_eq := by rw [h.tags_eq, List.map_append, List.map_singleton]
  size_eq := by
    rw [h.size_eq, Entry.total_append]
    rfl
  has := by
    rw [List.flatMap_append, List.flatMap_singleton, Memory.has_append_iff, Entry.length_flatMap_bytes,
      ← h.size_eq]
    exact ⟨(h.write (.inl le_rfl)).has, Memory.has_write ..⟩
  index_le := by
    rw [List.length_append]
    exact Nat.le_add_right_of_le h.index_le
  offset_eq := by rw [List.take_append_of_le_length h.index_le, h.offset_eq]

theorem rewound (h : Filled memory b es) : Filled memory b.rewound es :=
  ⟨h.aligned, h.tags_eq, h.size_eq, h.has, Nat.zero_le _, rfl⟩

theorem advanced (h : Filled memory b es) {t : Tag} (ht : b.tags[b.readIndex]? = some t) :
    Filled memory (b.advanced t) es := by
  rw [h.getElem?_tags, Option.map_eq_some_iff] at ht
  obtain ⟨e, he, rfl⟩ := ht
  have hlt := (List.getElem?_eq_some_iff.1 he).1
  refine ⟨h.aligned, h.tags_eq, h.size_eq, h.has, hlt, ?_⟩
  simp only [ArgumentBuffer.advanced, h.offset_eq]
  rw [List.take_add_one, he, Entry.total_append]
  rfl

end Filled

end NativeBridge
