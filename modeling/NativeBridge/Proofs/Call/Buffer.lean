import NativeBridge.Call.Buffer
import NativeBridge.Proofs.Memory.Slices
import NativeBridge.Proofs.Memory.Stack

/-! # What the operations of an argument buffer do

Each operation by its results: when it succeeds, with what, and which frame it leaves. Entries are
added at the top of the stack, and reading moves nothing but the cursor.
-/
namespace NativeBridge

namespace ArgumentBuffer

theorem addressesFrom_eq (start : Nat) (ts : List Tag) :
    addressesFrom start ts = (List.range ts.length).map fun i => start + extent (ts.take i) := by
  induction ts generalizing start with
  | nil => rfl
  | cons t ts ih =>
    rw [addressesFrom, ih, List.length_cons, List.range_succ_eq_map, List.map_cons, List.map_map]
    congr 1
    apply List.map_congr_left
    intro i _
    simp only [Function.comp, List.take_succ_cons, extent]
    omega

theorem extent_append (ts us : List Tag) : extent (ts ++ us) = extent ts + extent us := by
  induction ts with
  | nil => exact (Nat.zero_add _).symm
  | cons t ts ih => rw [List.cons_append, extent, extent, ih, Nat.add_assoc]

/-- A buffer begins at the next multiple of sixteen in a frame of its own. -/
theorem eq_of_acquire_eq_ok {b : ArgumentBuffer} {a c : Arena}
    (hs : a.stack.limit + 1 < addressLimit) (h : acquire a = .ok b c) :
    b = ⟨⟨a.stack.depth + 1⟩, alignUp a.stack.top Arena.extentAlignment, [], 0, 0, 0⟩ ∧
      c = { a with stack := { a.stack with
        frames := a.stack.top :: a.stack.frames
        top := alignUp a.stack.top Arena.extentAlignment } } := by
  have hframe : Arena.onStack Stack.scope a = .ok ⟨a.stack.depth + 1⟩
      { a with stack := { a.stack with frames := a.stack.top :: a.stack.frames } } := rfl
  simp only [acquire, hframe] at h
  split at h
  · rename_i base d hplace
    cases h
    obtain ⟨t, ht, rfl⟩ := Arena.onStack_eq_ok_iff.1 hplace
    have hs' : Stack.limit { a.stack with frames := a.stack.top :: a.stack.frames } + 1 <
      addressLimit := hs
    obtain ⟨_, _, hbase, _, rfl⟩ := (Stack.allocate_eq_ok_iff hs').1 ht
    dsimp only at hbase
    subst hbase
    exact ⟨rfl, rfl⟩
  · split at h <;> cases h

/-- The buffer once the cursor has moved over an entry. -/
def advanced (b : ArgumentBuffer) (t : Tag) : ArgumentBuffer :=
  { b with readIndex := b.readIndex + 1, readOffset := b.readOffset + t.size }

end ArgumentBuffer

namespace BufferM

variable {σ α : Type} {f g : Frame σ} {tag : Tag} {bytes : List UInt8} {u : Unit} {e : Failure}
  {k : CallKind}

theorem onArena_eq_ok_iff {op : Arena.ArenaM α} {x : α} : onArena op f = .ok x g ↔
    ∃ a, op f.arena = .ok x a ∧ g = { f with arena := a } := by
  unfold onArena
  cases op f.arena with
  | ok y a =>
    simp only [EStateM.Result.ok.injEq]
    constructor
    · rintro ⟨rfl, rfl⟩
      exact ⟨a, ⟨rfl, rfl⟩, rfl⟩
    · rintro ⟨_, ⟨rfl, rfl⟩, rfl⟩
      exact ⟨rfl, rfl⟩
  | error c a => simp

theorem onStack_eq_ok_iff {op : Stack.StackM α} {x : α} : onStack op f = .ok x g ↔
    ∃ s, op f.arena.stack = .ok x s ∧ g = { f with arena := { f.arena with stack := s } } := by
  simp only [onStack, onArena_eq_ok_iff, Arena.onStack_eq_ok_iff]
  constructor
  · rintro ⟨_, ⟨s, hs, rfl⟩, rfl⟩
    exact ⟨s, hs, rfl⟩
  · rintro ⟨s, hs, rfl⟩
    exact ⟨_, ⟨s, hs, rfl⟩, rfl⟩

theorem onStack_allocate_eq_error_iff {size alignment : Nat} :
    onStack (Stack.allocate size alignment) f = .error e g ↔
      ∃ c, Stack.allocate size alignment f.arena.stack = .error c f.arena.stack ∧
        e = .fault c ∧ g = f := by
  unfold onStack onArena Arena.onStack
  cases hr : Stack.allocate size alignment f.arena.stack with
  | ok start s => simp
  | error c s =>
    obtain rfl := Stack.eq_of_allocate_eq_error hr
    simp only [EStateM.Result.error.injEq, and_true, exists_eq_left']
    constructor
    · rintro ⟨rfl, rfl⟩
      exact ⟨rfl, rfl⟩
    · rintro ⟨rfl, rfl⟩
      exact ⟨rfl, rfl⟩

/-- A check that lets go on what passes it. -/
theorem check_eq_ok_iff {p : Prop} [Decidable p] {c : Fault} {next : Unit → BufferM σ α} {x : α} :
    (if p then fault c >>= next else next ()) f = .ok x g ↔ ¬p ∧ next () f = .ok x g :=
  Run.check_eq_ok_iff

theorem check_eq_error_iff {p : Prop} [Decidable p] {c : Fault} {next : Unit → BufferM σ α} :
    (if p then fault c >>= next else next ()) f = .error e g ↔
      (p ∧ e = .fault c ∧ g = f) ∨ (¬p ∧ next () f = .error e g) := by
  split
  · rename_i hp
    simp only [fault, Run.bind_eq_error_iff, Run.throw_eq_error_iff, Run.throw_ne_ok, false_and,
      exists_false, or_false, hp, true_and, not_true_eq_false]
  · rename_i hp
    simp only [hp, false_and, not_false_eq_true, true_and, false_or]

theorem onMemory_eq_ok_iff {op : EStateM Fault Memory α} {x : α} : onMemory op f = .ok x g ↔
    ∃ m, op f.arena.memory = .ok x m ∧ g = { f with arena := { f.arena with memory := m } } := by
  simp only [onMemory, onArena_eq_ok_iff, Arena.onMemory]
  cases op f.arena.memory with
  | ok y m =>
    simp only [EStateM.Result.ok.injEq]
    constructor
    · rintro ⟨_, ⟨rfl, rfl⟩, rfl⟩
      exact ⟨m, ⟨rfl, rfl⟩, rfl⟩
    · rintro ⟨_, ⟨rfl, rfl⟩, rfl⟩
      exact ⟨_, ⟨rfl, rfl⟩, rfl⟩
  | error c m => simp

/-- Writing is an action that always succeeds. -/
theorem onMemory_modify_eq_ok_iff {change : Memory → Memory} :
    onMemory (modify change) f = .ok u g ↔
      g = { f with arena := { f.arena with memory := change f.arena.memory } } := by
  simp only [onMemory_eq_ok_iff, Run.modify_eq_ok_iff, exists_eq_left]

theorem onMemory_modify_ne_error {change : Memory → Memory} :
    (onMemory (modify change) : BufferM σ PUnit) f ≠ .error e g := by
  intro h
  cases h

/-- An entry is added where those before it end, for there the stack hands out its bytes. -/
theorem reserve_eq_ok_iff {address : Nat} : reserve tag f = .ok address g ↔
    f.arena.stack.isInnermost f.buffer.scope = true ∧
      address = f.buffer.base + f.buffer.size ∧
      ∃ s, Stack.allocate tag.size 1 f.arena.stack = .ok address s ∧
        g = { f with
          arena := { f.arena with stack := s }
          buffer := { f.buffer with
            tags := f.buffer.tags ++ [tag], size := f.buffer.size + tag.size } } := by
  simp only [reserve, Run.bind_eq_ok_iff, Run.get_eq_ok_iff, check_eq_ok_iff, onStack_eq_ok_iff,
    Run.modify_eq_ok_iff, Run.pure_eq_ok_iff, ne_eq, not_not, Bool.not_eq_true', Bool.not_eq_false]
  constructor
  · rintro ⟨_, _, ⟨rfl, rfl⟩, hi, _, _, ⟨s, hs, rfl⟩, rfl, _, _, rfl, rfl, rfl⟩
    exact ⟨hi, rfl, s, hs, rfl⟩
  · rintro ⟨hi, rfl, s, hs, rfl⟩
    exact ⟨f, f, ⟨rfl, rfl⟩, hi, _, _, ⟨s, hs, rfl⟩, rfl, (), _, rfl, rfl, rfl⟩

/-- An entry is refused where a later frame is open, where there is no room for its bytes, and where
they would lie behind others; the last is found out when they are handed out. -/
theorem reserve_eq_error_iff : reserve tag f = .error e g ↔
    (f.arena.stack.isInnermost f.buffer.scope = false ∧ e = .fault .nestedFrameOpen ∧ g = f) ∨
    (f.arena.stack.isInnermost f.buffer.scope = true ∧
      ((∃ c, Stack.allocate tag.size 1 f.arena.stack = .error c f.arena.stack ∧ e = .fault c ∧
        g = f) ∨
      ∃ start s, Stack.allocate tag.size 1 f.arena.stack = .ok start s ∧
        start ≠ f.buffer.base + f.buffer.size ∧
        e = .fault (.entryMisplaced start (f.buffer.base + f.buffer.size)) ∧
        g = { f with arena := { f.arena with stack := s } })) := by
  simp only [reserve, Run.bind_eq_error_iff, Run.get_ne_error, false_or, Run.get_eq_ok_iff,
    check_eq_error_iff, Run.modify_ne_error, Run.pure_ne_error, and_false, exists_false, or_false,
    onStack_allocate_eq_error_iff, onStack_eq_ok_iff, Bool.not_eq_true', Bool.not_eq_false]
  constructor
  · rintro ⟨_, _, ⟨rfl, rfl⟩, h | ⟨hi, h | ⟨start, _, ⟨s, hs, rfl⟩, hne, rfl, rfl⟩⟩⟩
    · exact .inl h
    · exact .inr ⟨hi, .inl h⟩
    · exact .inr ⟨hi, .inr ⟨start, s, hs, hne, rfl, rfl⟩⟩
  · rintro (h | ⟨hi, h | ⟨start, s, hs, hne, rfl, rfl⟩⟩)
    · exact ⟨f, f, ⟨rfl, rfl⟩, .inl h⟩
    · exact ⟨f, f, ⟨rfl, rfl⟩, .inr ⟨hi, .inl h⟩⟩
    · exact ⟨f, f, ⟨rfl, rfl⟩, .inr ⟨hi, .inr ⟨start, _, ⟨s, hs, rfl⟩, hne, rfl, rfl⟩⟩⟩

theorem append_eq_ok_iff_allocate : append tag bytes f = .ok u g ↔
    f.arena.stack.isInnermost f.buffer.scope = true ∧
      ∃ s, Stack.allocate tag.size 1 f.arena.stack = .ok (f.buffer.base + f.buffer.size) s ∧
        g = { f with
          arena := ⟨s, f.arena.memory.write (f.buffer.base + f.buffer.size) bytes⟩
          buffer := { f.buffer with
            tags := f.buffer.tags ++ [tag], size := f.buffer.size + tag.size } } := by
  simp only [append, Run.bind_eq_ok_iff, reserve_eq_ok_iff, onMemory_modify_eq_ok_iff]
  constructor
  · rintro ⟨_, _, ⟨hi, rfl, s, hs, rfl⟩, rfl⟩
    exact ⟨hi, s, hs, rfl⟩
  · rintro ⟨hi, s, hs, rfl⟩
    exact ⟨_, _, ⟨hi, rfl, s, hs, rfl⟩, rfl⟩

/-- Once an entry has its place its bytes are copied without fail. -/
theorem append_eq_error_iff : append tag bytes f = .error e g ↔ reserve tag f = .error e g := by
  simp only [append, Run.bind_eq_error_iff, onMemory_modify_ne_error, and_false, exists_false,
    or_false]

/-- The values of an array are put as their bytes one behind the other. -/
theorem putArray_eq {vs : List Value} (hk : ∀ v ∈ vs, v.kind = k) :
    (putArray k vs : BufferM σ Unit) = append ⟨k, vs.length⟩ (vs.flatMap Value.bytes) := by
  have hstore (address : Nat) : Memory.storeEach address k.size 0 vs =
      modify fun m => m.write address (vs.flatMap Value.bytes) := by
    funext m
    rw [Memory.storeEach_eq hk, Nat.zero_mul]
    rfl
  simp only [putArray, append, hstore]

/-- An entry is added where the frame is the innermost, ends at the top of the stack and has room. -/
theorem append_eq_ok_iff (hs : f.arena.stack.limit + 1 < addressLimit) :
    append tag bytes f = .ok u g ↔
      f.arena.stack.depth = f.buffer.scope.depth ∧ f.arena.stack.live = true ∧
      f.buffer.base + f.buffer.size = f.arena.stack.top ∧
      f.arena.stack.top + tag.size ≤ f.arena.stack.limit ∧
      g = { f with
        arena := ⟨{ f.arena.stack with top := f.arena.stack.top + tag.size },
          f.arena.memory.write f.arena.stack.top bytes⟩
        buffer := { f.buffer with
          tags := f.buffer.tags ++ [tag], size := f.buffer.size + tag.size } } := by
  rw [append_eq_ok_iff_allocate, Stack.isInnermost, beq_iff_eq]
  simp only [Stack.allocate_eq_ok_iff hs, alignUp_one]
  constructor
  · rintro ⟨hd, _, ⟨hlive, _, hend, hroom, rfl⟩, rfl⟩
    rw [hend] at hroom ⊢
    exact ⟨hd, hlive, rfl, hroom, rfl⟩
  · rintro ⟨hd, hlive, hend, hroom, rfl⟩
    rw [hend]
    exact ⟨hd, _, ⟨hlive, isPowerOfTwo_one, rfl, hroom, rfl⟩, rfl⟩

/-- Where the frame ends at the top of the stack whenever it is the innermost, an entry that is
refused changes nothing. -/
theorem eq_of_append_eq_error (hs : f.arena.stack.limit + 1 < addressLimit)
    (hend : f.arena.stack.depth = f.buffer.scope.depth →
      f.buffer.base + f.buffer.size = f.arena.stack.top)
    (h : append tag bytes f = .error e g) : g = f := by
  obtain ⟨_, _, hg⟩ | ⟨hi, ⟨_, _, _, hg⟩ | ⟨start, s, hr, hne, _⟩⟩ :=
    reserve_eq_error_iff.1 (append_eq_error_iff.1 h)
  · exact hg
  · exact hg
  · -- an entry is never misplaced
    obtain ⟨_, _, hstart, _⟩ := (Stack.allocate_eq_ok_iff hs).1 hr
    rw [alignUp_one] at hstart
    exact absurd (hstart.trans (hend (beq_iff_eq.1 hi)).symm) hne

theorem putValue_eq_ok_iff {v : Value} :
    putValue v f = .ok u g ↔ v.kind ≠ .void ∧ put v f = .ok u g := by
  unfold putValue
  split
  · rename_i hv
    simp [Run.bind_eq_ok_iff, Run.throw_ne_ok, hv]
  · rename_i hv
    simp [hv]

theorem eq_of_putValue_eq_error {v : Value} (hput : put v f = .error e g → g = f)
    (h : putValue v f = .error e g) : g = f := by
  unfold putValue at h
  split at h
  · simp only [Run.bind_eq_error_iff, Run.get_ne_error, false_or, Run.get_eq_ok_iff,
      Run.throw_eq_error_iff] at h
    obtain ⟨_, _, ⟨rfl, rfl⟩, _, rfl⟩ := h
    rfl
  · exact hput h

theorem nextEntry_eq_ok_iff {t : Tag} {address : Nat} : nextEntry k f = .ok (t, address) g ↔
    f.buffer.tags[f.buffer.readIndex]? = some t ∧ t.kind = k ∧
      address = f.buffer.base + f.buffer.readOffset ∧
      g = { f with buffer := f.buffer.advanced t } := by
  simp only [nextEntry, Run.bind_eq_ok_iff, Run.get_eq_ok_iff]
  constructor
  · rintro ⟨_, f, ⟨rfl, rfl⟩, h⟩
    cases hs : f.buffer.tags[f.buffer.readIndex]? with
    | none =>
      rw [hs] at h
      exact absurd h Run.throw_ne_ok
    | some s =>
      simp only [hs, check_eq_ok_iff, ne_eq, not_not, Run.bind_eq_ok_iff, Run.modify_eq_ok_iff,
        Run.pure_eq_ok_iff, Prod.mk.injEq] at h
      obtain ⟨hk, _, _, rfl, ⟨rfl, rfl⟩, rfl⟩ := h
      exact ⟨rfl, hk, rfl, rfl⟩
  · rintro ⟨ht, hk, rfl, rfl⟩
    refine ⟨f, f, ⟨rfl, rfl⟩, ?_⟩
    simp only [ht, check_eq_ok_iff, ne_eq, not_not, Run.bind_eq_ok_iff, Run.modify_eq_ok_iff,
      Run.pure_eq_ok_iff]
    exact ⟨hk, (), _, rfl, trivial, rfl⟩

theorem eq_of_nextEntry_eq_error (h : nextEntry k f = .error e g) : g = f := by
  simp only [nextEntry, Run.bind_eq_error_iff, Run.get_ne_error, false_or, Run.get_eq_ok_iff] at h
  obtain ⟨_, f, ⟨rfl, rfl⟩, h⟩ := h
  cases hs : f.buffer.tags[f.buffer.readIndex]? with
  | none =>
    rw [hs] at h
    exact (Run.throw_eq_error_iff.1 h).2
  | some s =>
    simp only [hs, check_eq_error_iff, Run.bind_eq_error_iff, Run.modify_ne_error,
      Run.pure_ne_error, and_false, exists_false, or_false] at h
    exact h.2.2

theorem getNext_eq_ok_iff {v : Value} : getNext k f = .ok v g ↔
    ∃ t, f.buffer.tags[f.buffer.readIndex]? = some t ∧ t.kind = k ∧ t.count = 1 ∧
      v = f.arena.memory.readValue (f.buffer.base + f.buffer.readOffset) k ∧
      g = { f with buffer := f.buffer.advanced t } := by
  simp only [getNext, Run.bind_eq_ok_iff, Prod.exists, nextEntry_eq_ok_iff, Run.get_eq_ok_iff,
    check_eq_ok_iff, ne_eq, not_not, Run.pure_eq_ok_iff]
  constructor
  · rintro ⟨t, _, _, ⟨ht, hk, rfl, rfl⟩, _, _, ⟨rfl, rfl⟩, hc, rfl, rfl⟩
    exact ⟨t, ht, hk, hc, rfl, rfl⟩
  · rintro ⟨t, ht, hk, hc, rfl, rfl⟩
    exact ⟨t, _, _, ⟨ht, hk, rfl, rfl⟩, _, _, ⟨rfl, rfl⟩, hc, rfl, rfl⟩

/-- The cursor has moved where the entry turns out to be an array. -/
theorem getNext_eq_error (h : getNext k f = .error e g) :
    g = f ∨ ∃ t, f.buffer.tags[f.buffer.readIndex]? = some t ∧
      g = { f with buffer := f.buffer.advanced t } := by
  simp only [getNext, Run.bind_eq_error_iff, Prod.exists, nextEntry_eq_ok_iff] at h
  obtain h | ⟨t, _, _, ⟨ht, _, _, rfl⟩, h⟩ := h
  · exact .inl (eq_of_nextEntry_eq_error h)
  · right
    simp only [Run.get_ne_error, false_or, Run.get_eq_ok_iff, check_eq_error_iff,
      Run.pure_ne_error, and_false, or_false] at h
    obtain ⟨_, _, ⟨rfl, rfl⟩, _, _, rfl⟩ := h
    exact ⟨t, ht, rfl⟩

theorem getArray_eq_ok_iff {vs : List Value} : getArray k f = .ok vs g ↔
    ∃ t, f.buffer.tags[f.buffer.readIndex]? = some t ∧ t.kind = k ∧
      vs = f.arena.memory.readValues (f.buffer.base + f.buffer.readOffset) k t.count ∧
      g = { f with buffer := f.buffer.advanced t } := by
  simp only [getArray, Run.bind_eq_ok_iff, Prod.exists, nextEntry_eq_ok_iff, Run.get_eq_ok_iff,
    Run.pure_eq_ok_iff]
  constructor
  · rintro ⟨t, _, _, ⟨ht, hk, rfl, rfl⟩, _, _, ⟨rfl, rfl⟩, rfl, rfl⟩
    exact ⟨t, ht, hk, rfl, rfl⟩
  · rintro ⟨t, ht, hk, rfl, rfl⟩
    exact ⟨t, _, _, ⟨ht, hk, rfl, rfl⟩, _, _, ⟨rfl, rfl⟩, rfl, rfl⟩

theorem eq_of_getArray_eq_error (h : getArray k f = .error e g) : g = f := by
  simp only [getArray, Run.bind_eq_error_iff, Run.get_ne_error, Run.pure_ne_error, and_false,
    exists_false, or_false] at h
  exact eq_of_nextEntry_eq_error h

theorem getValue_eq (f : Frame σ) (i : Nat) :
    getValue i f = .ok (f.buffer.value? f.arena.memory i) f := rfl

end BufferM

end NativeBridge
