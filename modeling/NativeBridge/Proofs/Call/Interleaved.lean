import Mathlib.Logic.Relation
import NativeBridge.Proofs.Call.Entries

/-! # Blocks between the entries of a buffer

Where the place of an entry is not checked, blocks may be handed out between the entries of a buffer.
Nothing that is handed out lies on anything else, but the address of an entry follows from the sizes
of the entries before it alone: the entry itself lies behind its address by as much room as the blocks
before it take. Entries are found, and blocks are left alone, as long as there is no such room; these
are the runs that the check lets pass.
-/
namespace NativeBridge

open ArgumentBuffer

namespace BufferM

variable {σ : Type} {f g : Frame σ} {tag : Tag} {bytes : List UInt8} {u : Unit}

/-- Adds an entry at the top of the stack, wherever the entries before it end. -/
def appendUnchecked (tag : Tag) (bytes : List UInt8) : BufferM σ Unit := do
  let f ← get
  if !f.arena.stack.isInnermost f.buffer.scope then fault .nestedFrameOpen
  let address ← onStack (Stack.allocate tag.size 1)
  modify fun f => { f with
    arena := { f.arena with memory := f.arena.memory.write address bytes }
    buffer := { f.buffer with tags := f.buffer.tags ++ [tag], size := f.buffer.size + tag.size } }

theorem appendUnchecked_eq_ok_iff (hs : f.arena.stack.limit + 1 < addressLimit) :
    appendUnchecked tag bytes f = .ok u g ↔
      f.arena.stack.depth = f.buffer.scope.depth ∧ f.arena.stack.live = true ∧
      f.arena.stack.top + tag.size ≤ f.arena.stack.limit ∧
      g = { f with
        arena := ⟨{ f.arena.stack with top := f.arena.stack.top + tag.size },
          f.arena.memory.write f.arena.stack.top bytes⟩
        buffer := { f.buffer with
          tags := f.buffer.tags ++ [tag], size := f.buffer.size + tag.size } } := by
  simp only [appendUnchecked, Run.bind_eq_ok_iff, Run.get_eq_ok_iff, check_eq_ok_iff, onStack,
    onArena_eq_ok_iff, Arena.onStack_eq_ok_iff, Run.modify_eq_ok_iff, Bool.not_eq_true',
    Bool.not_eq_false, Stack.isInnermost, beq_iff_eq]
  constructor
  · rintro ⟨_, _, ⟨rfl, rfl⟩, hd, _, _, ⟨_, ⟨t, ht, rfl⟩, rfl⟩, rfl⟩
    obtain ⟨hlive, _, hstart, hroom, rfl⟩ := (Stack.allocate_eq_ok_iff hs).1 ht
    rw [alignUp_one] at hstart
    subst hstart
    exact ⟨hd, hlive, hroom, rfl⟩
  · rintro ⟨hd, hlive, hroom, rfl⟩
    have ht := (Stack.allocate_eq_ok_iff hs).2
      ⟨hlive, isPowerOfTwo_one, (alignUp_one _).symm, hroom, rfl⟩
    exact ⟨f, f, ⟨rfl, rfl⟩, hd, _, _, ⟨_, ⟨_, ht, rfl⟩, rfl⟩, rfl⟩

/-- The check lets those entries pass that are put where the entries before them end. -/
theorem append_eq_ok_iff_unchecked (hs : f.arena.stack.limit + 1 < addressLimit) :
    append tag bytes f = .ok u g ↔ f.buffer.base + f.buffer.size = f.arena.stack.top ∧
      appendUnchecked tag bytes f = .ok u g := by
  rw [append_eq_ok_iff hs, appendUnchecked_eq_ok_iff hs]
  tauto

end BufferM

open BufferM

/-- What is taken off the stack: an entry, or a block from `start` on, before which its alignment
skips some bytes. -/
inductive Taken where
  | entry (tag : Tag) (bytes : List UInt8)
  | block (start skipped size : Nat)

namespace Taken

def length : Taken → Nat
  | entry tag _ => tag.size
  | block _ skipped size => skipped + size

/-- All that is taken. -/
def lengths : List Taken → Nat
  | [] => 0
  | t :: ts => t.length + lengths ts

def tag? : Taken → Option Tag
  | entry tag _ => some tag
  | block _ _ _ => none

def tags (ts : List Taken) : List Tag := ts.filterMap tag?

/-- What the blocks take. -/
def room : List Taken → Nat
  | [] => 0
  | entry _ _ :: ts => room ts
  | block _ skipped size :: ts => skipped + size + room ts

theorem lengths_append (ts us : List Taken) : lengths (ts ++ us) = lengths ts + lengths us := by
  induction ts with
  | nil => exact (Nat.zero_add _).symm
  | cons t ts ih => rw [List.cons_append, lengths, lengths, ih, Nat.add_assoc]

theorem lengths_concat (ts : List Taken) (t : Taken) :
    lengths (ts ++ [t]) = lengths ts + t.length := lengths_append ts [t]

@[simp] theorem tags_concat_entry (ts : List Taken) (tag : Tag) (bytes : List UInt8) :
    tags (ts ++ [entry tag bytes]) = tags ts ++ [tag] := by
  simp [tags, tag?]

@[simp] theorem tags_concat_block (ts : List Taken) (start skipped size : Nat) :
    tags (ts ++ [block start skipped size]) = tags ts := by
  simp [tags, tag?]

theorem lengths_eq (ts : List Taken) : lengths ts = extent (tags ts) + room ts := by
  induction ts with
  | nil => rfl
  | cons t ts ih =>
    rw [lengths, ih]
    cases t with
    | entry tag bytes => exact (Nat.add_assoc ..).symm
    | block start skipped size => exact Nat.add_left_comm ..

theorem room_append (ts us : List Taken) : room (ts ++ us) = room ts + room us := by
  induction ts with
  | nil => exact (Nat.zero_add _).symm
  | cons t ts ih =>
    cases t with
    | entry tag bytes => exact ih
    | block start skipped size => rw [List.cons_append, room, room, ih, ← Nat.add_assoc]

theorem eq_take_append {ts : List Taken} {i : Nat} {t : Taken} (h : ts[i]? = some t) :
    ts = ts.take i ++ t :: ts.drop (i + 1) := by
  obtain ⟨hi, rfl⟩ := List.getElem?_eq_some_iff.1 h
  rw [← List.drop_eq_getElem_cons hi, List.take_append_drop]

theorem lengths_take_add_le {ts : List Taken} {i : Nat} {t : Taken} (h : ts[i]? = some t) :
    lengths (ts.take i) + t.length ≤ lengths ts := by
  conv_rhs => rw [eq_take_append h, lengths_append, lengths, ← Nat.add_assoc]
  exact Nat.le_add_right ..

theorem getElem?_take {ts : List Taken} {i j : Nat} {t : Taken} (h : ts[i]? = some t) (hij : i < j) :
    (ts.take j)[i]? = some t ∧ (ts.take j).take i = ts.take i := by
  rw [List.getElem?_take_of_lt hij, List.take_take, Nat.min_eq_left hij.le]
  exact ⟨h, rfl⟩

/-- What is taken earlier ends before what is taken later. -/
theorem lengths_take_add_le_take {ts : List Taken} {i j : Nat} {t : Taken} (h : ts[i]? = some t)
    (hij : i < j) : lengths (ts.take i) + t.length ≤ lengths (ts.take j) := by
  obtain ⟨hj, ht⟩ := getElem?_take h hij
  rw [← ht]
  exact lengths_take_add_le hj

theorem le_room_take {ts : List Taken} {i j start skipped size : Nat}
    (h : ts[i]? = some (block start skipped size)) (hij : i < j) :
    skipped + size ≤ room (ts.take j) := by
  rw [eq_take_append (getElem?_take h hij).1, room_append, room]
  omega

theorem tags_of_entry {ts : List Taken} {i : Nat} {tag : Tag} {bytes : List UInt8}
    (h : ts[i]? = some (entry tag bytes)) :
    tags ts = tags (ts.take i) ++ tag :: tags (ts.drop (i + 1)) := by
  conv_lhs => rw [eq_take_append h, tags, List.filterMap_append, List.filterMap_cons]
  rfl

theorem tags_of_block {ts : List Taken} {i start skipped size : Nat}
    (h : ts[i]? = some (block start skipped size)) :
    tags ts = tags (ts.take i) ++ tags (ts.drop (i + 1)) := by
  conv_lhs => rw [eq_take_append h, tags, List.filterMap_append, List.filterMap_cons]
  rfl

/-- What is found in a list with one more at its end. -/
theorem getElem?_concat {ts : List Taken} {i : Nat} {t x : Taken} (h : (ts ++ [t])[i]? = some x) :
    (ts[i]? = some x ∧ (ts ++ [t]).take i = ts.take i) ∨ (t = x ∧ (ts ++ [t]).take i = ts) := by
  rcases Nat.lt_or_ge i ts.length with hi | hi
  · rw [List.getElem?_append_left hi] at h
    exact .inl ⟨h, List.take_append_of_le_length hi.le⟩
  · rw [List.getElem?_append_right hi, List.getElem?_singleton] at h
    split at h
    · have hlen : i = ts.length := by omega
      cases h
      exact .inr ⟨rfl, hlen ▸ List.take_left⟩
    · cases h

end Taken

open Taken

section
variable {σ : Type}

/-- Entries are put, and blocks are handed out. -/
inductive Taking (put : Tag → List UInt8 → BufferM σ Unit) :
    Frame σ × List Taken → Frame σ × List Taken → Prop
  | put {f g : Frame σ} {ts : List Taken} {tag : Tag} {bytes : List UInt8}
      (length : bytes.length = tag.size) (run : put tag bytes f = .ok () g) :
      Taking put (f, ts) (g, ts ++ [.entry tag bytes])
  | allocate {f g : Frame σ} {ts : List Taken} {size alignment start : Nat}
      (run : onStack (Stack.allocate size alignment) f = .ok start g) :
      Taking put (f, ts) (g, ts ++ [.block start (start - f.arena.stack.top) size])

/-- What is taken lies one behind the other, entries with their bytes. -/
structure Laid (f : Frame σ) (ts : List Taken) : Prop where
  limit_lt : f.arena.stack.limit + 1 < addressLimit
  top : f.arena.stack.top = f.buffer.base + lengths ts
  tags : f.buffer.tags = Taken.tags ts
  size : f.buffer.size = extent (Taken.tags ts)
  entry : ∀ i tag bytes, ts[i]? = some (.entry tag bytes) →
    bytes.length = tag.size ∧ f.arena.memory.Has (f.buffer.base + lengths (ts.take i)) bytes
  block : ∀ i start skipped size, ts[i]? = some (.block start skipped size) →
    start = f.buffer.base + lengths (ts.take i) + skipped

variable {f g : Frame σ} {ts : List Taken} {tag : Tag} {bytes : List UInt8}

theorem Laid.entry_end_le (h : Laid f ts) {i : Nat} (hi : ts[i]? = some (.entry tag bytes)) :
    f.buffer.base + lengths (ts.take i) + bytes.length ≤ f.arena.stack.top := by
  have hle := lengths_take_add_le hi
  rw [h.top, (h.entry i tag bytes hi).1, Nat.add_assoc]
  exact Nat.add_le_add_left hle _

theorem Laid.put (h : Laid f ts) (hb : bytes.length = tag.size)
    (hr : appendUnchecked tag bytes f = .ok () g) : Laid g (ts ++ [.entry tag bytes]) := by
  obtain ⟨_, _, _, rfl⟩ := (appendUnchecked_eq_ok_iff h.limit_lt).1 hr
  refine ⟨h.limit_lt, ?_, ?_, ?_, ?_, ?_⟩
  · rw [lengths_concat, ← Nat.add_assoc, ← h.top]
    rfl
  · rw [tags_concat_entry, ← h.tags]
  · rw [tags_concat_entry, extent_append, ← h.size]
    rfl
  · intro i tag' bytes' hi
    rcases getElem?_concat hi with ⟨hi, ht⟩ | ⟨he, ht⟩
    · rw [ht]
      obtain ⟨hb', hhas⟩ := h.entry i tag' bytes' hi
      exact ⟨hb', hhas.write (.inl (h.entry_end_le hi))⟩
    · cases he
      rw [ht, ← h.top]
      exact ⟨hb, Memory.has_write ..⟩
  · intro i start skipped size hi
    rcases getElem?_concat hi with ⟨hi, ht⟩ | ⟨he, _⟩
    · rw [ht]
      exact h.block i start skipped size hi
    · cases he

theorem Laid.allocate {size alignment start : Nat} (h : Laid f ts)
    (hr : onStack (Stack.allocate size alignment) f = .ok start g) :
    Laid g (ts ++ [.block start (start - f.arena.stack.top) size]) := by
  simp only [onStack, onArena_eq_ok_iff, Arena.onStack_eq_ok_iff] at hr
  obtain ⟨_, ⟨t, ht, rfl⟩, rfl⟩ := hr
  obtain ⟨_, hp, hstart, _, rfl⟩ := (Stack.allocate_eq_ok_iff h.limit_lt).1 ht
  have hle : f.arena.stack.top ≤ start := hstart ▸ le_alignUp hp _
  have htop := h.top
  refine ⟨h.limit_lt, ?_, ?_, ?_, ?_, ?_⟩
  · rw [lengths_concat, Taken.length]
    dsimp only
    omega
  · rw [tags_concat_block]
    exact h.tags
  · rw [tags_concat_block]
    exact h.size
  · intro i tag bytes hi
    rcases getElem?_concat hi with ⟨hi, ht⟩ | ⟨he, _⟩
    · rw [ht]
      exact h.entry i tag bytes hi
    · cases he
  · intro i start' skipped size' hi
    rcases getElem?_concat hi with ⟨hi, ht⟩ | ⟨he, ht⟩
    · rw [ht]
      exact h.block i start' skipped size' hi
    · cases he
      rw [ht, ← htop]
      omega

theorem Laid.taking {s t : Frame σ × List Taken} (h : Laid s.1 s.2)
    (ht : Taking appendUnchecked s t) : Laid t.1 t.2 := by
  cases ht with
  | put length run => exact h.put length run
  | allocate run => exact h.allocate run

theorem Laid.run {s t : Frame σ × List Taken} (h : Laid s.1 s.2)
    (ht : Relation.ReflTransGen (Taking appendUnchecked) s t) : Laid t.1 t.2 := by
  induction ht with
  | refl => exact h
  | tail _ ht ih => exact ih.taking ht

theorem laid_of_acquire {a c : Arena} {b : ArgumentBuffer} (hs : a.stack.limit + 1 < addressLimit)
    (hb : acquire a = .ok b c) (own : σ) : Laid ⟨c, b, own⟩ [] := by
  obtain ⟨rfl, rfl⟩ := eq_of_acquire_eq_ok hs hb
  exact ⟨hs, rfl, rfl, rfl, fun _ _ _ h => (by cases h), fun _ _ _ _ h => (by cases h)⟩

/-- Before no entry do blocks take any room. -/
def Orderly (ts : List Taken) : Prop :=
  ∀ i tag bytes, ts[i]? = some (.entry tag bytes) → room (ts.take i) = 0

theorem orderly_concat_entry : Orderly (ts ++ [.entry tag bytes]) ↔ Orderly ts ∧ room ts = 0 := by
  constructor
  · intro h
    refine ⟨fun i tag' bytes' hi => ?_, ?_⟩
    · have hlt := (List.getElem?_eq_some_iff.1 hi).1
      have hr := h i tag' bytes' ((List.getElem?_append_left hlt).trans hi)
      rwa [List.take_append_of_le_length hlt.le] at hr
    · have hr := h ts.length tag bytes List.getElem?_concat_length
      rwa [List.take_left] at hr
  · rintro ⟨h, hr⟩ i tag' bytes' hi
    rcases getElem?_concat hi with ⟨hi, ht⟩ | ⟨_, ht⟩
    · rw [ht]
      exact h i tag' bytes' hi
    · rw [ht]
      exact hr

theorem orderly_concat_block {start skipped size : Nat} :
    Orderly (ts ++ [.block start skipped size]) ↔ Orderly ts := by
  constructor
  · intro h i tag bytes hi
    have hlt := (List.getElem?_eq_some_iff.1 hi).1
    have hr := h i tag bytes ((List.getElem?_append_left hlt).trans hi)
    rwa [List.take_append_of_le_length hlt.le] at hr
  · intro h i tag bytes hi
    rcases getElem?_concat hi with ⟨hi, ht⟩ | ⟨he, _⟩
    · rw [ht]
      exact h i tag bytes hi
    · cases he

/-- Entries end at the top of the stack where blocks have taken no room. -/
theorem Laid.end_eq_top_iff (h : Laid f ts) :
    f.buffer.base + f.buffer.size = f.arena.stack.top ↔ room ts = 0 := by
  rw [h.top, h.size, lengths_eq]
  omega

/-- The runs of checked puts are those in which blocks take no room before any entry. -/
theorem Laid.run_append_iff {s t : Frame σ × List Taken} (h : Laid s.1 s.2) (ho : Orderly s.2) :
    Relation.ReflTransGen (Taking append) s t ↔
      Relation.ReflTransGen (Taking appendUnchecked) s t ∧ Orderly t.2 := by
  constructor
  · intro ht
    induction ht with
    | refl => exact ⟨.refl, ho⟩
    | tail _ ht ih =>
      obtain ⟨hrun, ho⟩ := ih
      have hl := h.run hrun
      cases ht with
      | put length run =>
        obtain ⟨hend, run⟩ := (append_eq_ok_iff_unchecked hl.limit_lt).1 run
        exact ⟨hrun.tail (.put length run), orderly_concat_entry.2 ⟨ho, hl.end_eq_top_iff.1 hend⟩⟩
      | allocate run => exact ⟨hrun.tail (.allocate run), orderly_concat_block.2 ho⟩
  · rintro ⟨ht, ho'⟩
    induction ht with
    | refl => exact .refl
    | tail hrun ht ih =>
      have hl := h.run hrun
      cases ht with
      | put length run =>
        obtain ⟨ho, hr⟩ := orderly_concat_entry.1 ho'
        have hput := (append_eq_ok_iff_unchecked hl.limit_lt).2 ⟨hl.end_eq_top_iff.2 hr, run⟩
        exact (ih ho).tail (.put length hput)
      | allocate run => exact (ih (orderly_concat_block.1 ho')).tail (.allocate run)

/-- An entry lies behind its address by the room of the blocks before it, apart from all blocks. -/
theorem Laid.entry_place (h : Laid f ts) {i : Nat} (hi : ts[i]? = some (.entry tag bytes)) :
    f.buffer.tags[(Taken.tags (ts.take i)).length]? = some tag ∧
      ∃ address, f.buffer.address (Taken.tags (ts.take i)).length = .ok address ∧
        f.arena.memory.Has (address + room (ts.take i)) bytes ∧
        ∀ j start skipped size : Nat, ts[j]? = some (.block start skipped size) →
          start + size ≤ address + room (ts.take i) ∨
            address + room (ts.take i) + bytes.length ≤ start := by
  have htags := h.tags.trans (tags_of_entry hi)
  have hplace : f.buffer.base + extent (Taken.tags (ts.take i)) + room (ts.take i) =
      f.buffer.base + lengths (ts.take i) := by rw [lengths_eq, Nat.add_assoc]
  obtain ⟨hb, hhas⟩ := h.entry i tag bytes hi
  refine ⟨?_, f.buffer.base + extent (Taken.tags (ts.take i)), ?_, ?_, ?_⟩
  · rw [htags, List.getElem?_append_right le_rfl, Nat.sub_self]
    rfl
  · rw [address, htags, List.take_left, if_pos]
    rw [List.length_append]
    exact Nat.le_add_right _ _
  · rwa [hplace]
  · intro j start skipped size hj
    have hstart := h.block j start skipped size hj
    rw [hplace]
    rcases Nat.lt_trichotomy j i with hji | rfl | hij
    · have hle := lengths_take_add_le_take hj hji
      rw [Taken.length] at hle
      omega
    · rw [hi] at hj
      cases hj
    · have hle := lengths_take_add_le_take hi hij
      rw [Taken.length] at hle
      omega

/-- Entries are found at their addresses, and the bytes from which a buffer is read are in no block. -/
structure Unshared (f : Frame σ) (ts : List Taken) : Prop where
  entry : ∀ i tag bytes, ts[i]? = some (.entry tag bytes) →
    ∃ address, f.buffer.address (Taken.tags (ts.take i)).length = .ok address ∧
      f.arena.memory.Has address bytes
  block : ∀ i start skipped size : Nat, ts[i]? = some (.block start skipped size) →
    ∀ x, f.buffer.base ≤ x → x < f.buffer.base + f.buffer.size → x < start ∨ start + size ≤ x

theorem Laid.unshared (h : Laid f ts) (ho : Orderly ts) : Unshared f ts where
  entry i tag bytes hi := by
    obtain ⟨_, address, ha, hhas, _⟩ := h.entry_place hi
    rw [ho i tag bytes hi] at hhas
    exact ⟨address, ha, hhas⟩
  block i start skipped size hi x hx hy := by
    have hstart := h.block i start skipped size hi
    have hle := lengths_eq (ts.take i)
    by_cases hlater : Taken.tags (ts.drop (i + 1)) = []
    · -- the block lies behind all entries
      rw [h.size, tags_of_block hi, hlater, List.append_nil] at hy
      omega
    · -- the block is empty, as an entry was put after it
      obtain ⟨tag, htag⟩ := List.exists_mem_of_ne_nil _ hlater
      obtain ⟨t, ht, hs⟩ := List.mem_filterMap.1 htag
      obtain ⟨k, hk⟩ := List.mem_iff_getElem?.1 ht
      rw [List.getElem?_drop] at hk
      cases t with
      | block => cases hs
      | entry tag' bytes =>
        have hr := le_room_take hi (show i < i + 1 + k by omega)
        rw [ho _ tag' bytes hk] at hr
        omega

/-- However puts without a check and blocks alternate in the frame of a buffer, each entry lies behind
its address by the room of the blocks before it, and in no block. If there is no such room all entries
are found and no block is read; the check lets just these runs pass. -/
theorem place_of_unchecked_run {a c : Arena} {b : ArgumentBuffer} {own : σ}
    (hs : a.stack.limit + 1 < addressLimit) (hb : acquire a = .ok b c)
    (run : Relation.ReflTransGen (Taking appendUnchecked) (⟨c, b, own⟩, []) (f, ts)) :
    (∀ i tag bytes, ts[i]? = some (.entry tag bytes) →
      f.buffer.tags[(Taken.tags (ts.take i)).length]? = some tag ∧
        ∃ address, f.buffer.address (Taken.tags (ts.take i)).length = .ok address ∧
          f.arena.memory.Has (address + room (ts.take i)) bytes ∧
          ∀ j start skipped size : Nat, ts[j]? = some (.block start skipped size) →
            start + size ≤ address + room (ts.take i) ∨
              address + room (ts.take i) + bytes.length ≤ start) ∧
      (Orderly ts → Unshared f ts) ∧
      (Relation.ReflTransGen (Taking append) (⟨c, b, own⟩, []) (f, ts) ↔ Orderly ts) := by
  have hempty : Laid (⟨c, b, own⟩ : Frame σ) [] := laid_of_acquire hs hb own
  have h : Laid f ts := hempty.run run
  have ho : Orderly [] := fun _ _ _ hi => by cases hi
  refine ⟨fun i tag bytes hi => h.entry_place hi, h.unshared, ?_⟩
  rw [hempty.run_append_iff ho]
  exact and_iff_right run

end

/-- A frame of a buffer that is alone on a stack of 64 bytes. -/
def soleFrame (top : Nat) (memory : Memory) (tags : List Tag) (size : Nat) : Frame Unit :=
  ⟨⟨⟨1048576, 64, top, [1048576], true⟩, memory⟩, ⟨⟨1⟩, 1048576, tags, size, 0, 0⟩, ()⟩

/-- The frame after an entry, a block and an entry, of four bytes each. -/
def blockBetween : Frame Unit :=
  soleFrame 1048588 ((Memory.blank.write 1048576 [1, 0, 0, 0]).write 1048584 [2, 0, 0, 0])
    [⟨.int, 1⟩, ⟨.int, 1⟩] 8

theorem run_blockBetween :
    Relation.ReflTransGen (Taking appendUnchecked) (soleFrame 1048576 .blank [] 0, [])
      (blockBetween,
        [.entry ⟨.int, 1⟩ [1, 0, 0, 0], .block 1048580 0 4, .entry ⟨.int, 1⟩ [2, 0, 0, 0]]) := by
  have hroom : Stack.allocate 4 1 ⟨1048576, 64, 1048580, [1048576], true⟩ =
    .ok 1048580 ⟨1048576, 64, 1048584, [1048576], true⟩ := rfl
  have hfirst : Taking appendUnchecked (soleFrame 1048576 .blank [] 0, [])
      (soleFrame 1048580 (Memory.blank.write 1048576 [1, 0, 0, 0]) [⟨.int, 1⟩] 4,
        [.entry ⟨.int, 1⟩ [1, 0, 0, 0]]) :=
    .put rfl ((appendUnchecked_eq_ok_iff (by decide)).2 ⟨rfl, rfl, by decide, rfl⟩)
  have hblock : Taking appendUnchecked
      (soleFrame 1048580 (Memory.blank.write 1048576 [1, 0, 0, 0]) [⟨.int, 1⟩] 4,
        [.entry ⟨.int, 1⟩ [1, 0, 0, 0]])
      (soleFrame 1048584 (Memory.blank.write 1048576 [1, 0, 0, 0]) [⟨.int, 1⟩] 4,
        [.entry ⟨.int, 1⟩ [1, 0, 0, 0], .block 1048580 0 4]) :=
    .allocate (onArena_eq_ok_iff.2 ⟨_, Arena.onStack_eq_ok_iff.2 ⟨_, hroom, rfl⟩, rfl⟩)
  exact (Relation.ReflTransGen.single hfirst).tail hblock |>.tail
    (.put rfl ((appendUnchecked_eq_ok_iff (by decide)).2 ⟨rfl, rfl, by decide, rfl⟩))

/-- The second entry lies where the extent ends, and its address leads into the block. -/
theorem place_of_unchecked_run_between :
    (Arena.ofCapacity 64).stack.limit + 1 < addressLimit ∧
      acquire (Arena.ofCapacity 64) =
        .ok ⟨⟨1⟩, 1048576, [], 0, 0, 0⟩ ⟨⟨1048576, 64, 1048576, [1048576], true⟩, .blank⟩ ∧
      blockBetween.arena.memory.Has 1048584 [2, 0, 0, 0] ∧
      ¬Orderly [.entry ⟨.int, 1⟩ [1, 0, 0, 0], .block 1048580 0 4,
        .entry ⟨.int, 1⟩ [2, 0, 0, 0]] := by
  have hs : (Arena.ofCapacity 64).stack.limit + 1 < addressLimit := by decide
  have hb : acquire (Arena.ofCapacity 64) = .ok ⟨⟨1⟩, 1048576, [], 0, 0, 0⟩
      ⟨⟨1048576, 64, 1048576, [1048576], true⟩, .blank⟩ := rfl
  have hplace := place_of_unchecked_run hs hb run_blockBetween
  obtain ⟨_, address, ha, hhas, _⟩ := hplace.1 2 _ _ rfl
  cases ha
  refine ⟨hs, hb, hhas, fun ho => ?_⟩
  exact absurd (ho 2 _ _ rfl) (by decide)

/-- Without a check, the address of an entry leads into a block, which is read with the buffer. -/
theorem not_unshared_of_unchecked_run :
    acquire (Arena.ofCapacity 64) =
        .ok ⟨⟨1⟩, 1048576, [], 0, 0, 0⟩ ⟨⟨1048576, 64, 1048576, [1048576], true⟩, .blank⟩ ∧
      ∃ ts, Relation.ReflTransGen (Taking appendUnchecked)
          (⟨⟨⟨1048576, 64, 1048576, [1048576], true⟩, .blank⟩, ⟨⟨1⟩, 1048576, [], 0, 0, 0⟩, ()⟩, [])
          (blockBetween, ts) ∧
        ts[1]? = some (.block 1048580 0 4) ∧ ts[2]? = some (.entry ⟨.int, 1⟩ [2, 0, 0, 0]) ∧
        blockBetween.buffer.address 1 = .ok 1048580 ∧
        blockBetween.arena.memory.read 1048580 4 = [0, 0, 0, 0] ∧
        blockBetween.buffer.base = 1048576 ∧ blockBetween.buffer.size = 8 ∧
        ¬Unshared blockBetween ts := by
  refine ⟨rfl, _, run_blockBetween, rfl, rfl, rfl, by decide +kernel, rfl, rfl, fun h => ?_⟩
  exact absurd (h.block 1 1048580 0 4 rfl 1048580 (by decide) (by decide)) (by decide)

end NativeBridge
