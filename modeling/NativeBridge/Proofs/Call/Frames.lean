import NativeBridge.Proofs.Call.Confined

/-! # What opens a frame and what leaves the frames alone

Allocations move only the top of a stack, whatever comes of them, and so does all that is put into a
buffer. A frame is closed just where the depth of the stack is the one its guard remembers. A buffer
opens its frame in a live extent that reaches to where the buffer begins.
-/
namespace NativeBridge

/-- A run that ends in the second state, be it by an error. -/
def Run.Ends {ε σ α : Type} (p : EStateM ε σ α) (r s : σ) : Prop :=
  (∃ a, p r = .ok a s) ∨ ∃ e, p r = .error e s

namespace Stack

variable {s t u : Stack}

/-- The frames and the extent are the same; the top may have moved. -/
structure Kept (s t : Stack) : Prop where
  frames_eq : t.frames = s.frames
  limit_eq : t.limit = s.limit

theorem Kept.refl (s : Stack) : Kept s s := ⟨rfl, rfl⟩

/-- A block that would end beyond the greatest address is taken to end there. -/
theorem allocate_eq_ok_iff_endOf {size alignment start : Nat} :
    allocate size alignment s = .ok start t ↔ s.live = true ∧ isPowerOfTwo alignment = true ∧
      start = alignUp s.top alignment ∧ endOf start size ≤ s.limit ∧
      t = { s with top := endOf start size } := by
  simp only [allocate]
  split
  · rename_i hlive
    simp only [Bool.not_eq_true'] at hlive
    simp [hlive]
  split
  · rename_i hp
    simp only [Bool.not_eq_true'] at hp
    simp [hp]
  rename_i hlive hp
  simp only [Bool.not_eq_true', Bool.not_eq_false] at hlive hp
  split
  · rename_i hroom
    simp only [reduceCtorEq, false_iff, not_and]
    rintro _ _ rfl hle
    omega
  · rename_i hroom
    simp only [EStateM.Result.ok.injEq, hlive, hp, true_and]
    constructor
    · rintro ⟨rfl, rfl⟩
      exact ⟨rfl, not_lt.1 hroom, rfl⟩
    · rintro ⟨rfl, _, rfl⟩
      exact ⟨rfl, rfl⟩

theorem kept_of_allocate {size alignment start : Nat}
    (h : allocate size alignment s = .ok start t) : Kept s t := by
  obtain ⟨_, _, _, _, rfl⟩ := allocate_eq_ok_iff_endOf.1 h
  exact ⟨rfl, rfl⟩

theorem close_eq (guard : Scope) (s : Stack) : close guard s =
    if s.depth = guard.depth then pop s
    else .error (.releasedOutOfOrder guard.depth s.depth) s := by
  have hi : s.isInnermost guard = true ↔ s.depth = guard.depth := beq_iff_eq
  change (if s.isInnermost guard then pop
    else throw (.releasedOutOfOrder guard.depth s.depth) : StackM Unit) s = _
  by_cases hd : s.depth = guard.depth
  · rw [if_pos (hi.2 hd), if_pos hd]
  · rw [if_neg (mt hi.1 hd), if_neg hd]
    rfl

theorem closeQuietly_eq (guard : Scope) (s : Stack) : closeQuietly guard s =
    if s.depth = guard.depth then pop s else .ok () s := by
  have hi : s.isInnermost guard = true ↔ s.depth = guard.depth := beq_iff_eq
  change (if s.isInnermost guard then pop else pure () : StackM Unit) s = _
  by_cases hd : s.depth = guard.depth
  · rw [if_pos (hi.2 hd), if_pos hd]
  · rw [if_neg (mt hi.1 hd), if_neg hd]
    rfl

end Stack

theorem Arena.kept_of_allocate {a b : Arena} {size alignment : Nat}
    (h : Run.Ends (Arena.onStack (Stack.allocate size alignment)) a b) :
    Stack.Kept a.stack b.stack := by
  rcases h with ⟨start, h⟩ | ⟨e, h⟩
  · obtain ⟨t, ht, rfl⟩ := Arena.onStack_eq_ok_iff.1 h
    exact Stack.kept_of_allocate ht
  · rw [Arena.eq_of_onStack_eq_error (fun _ _ _ => Stack.eq_of_allocate_eq_error) h]
    exact .refl _

theorem Arena.kept_of_reallocate {a b : Arena} {old : Option Nat} {size alignment : Nat}
    (h : Run.Ends (Arena.reallocate old size alignment) a b) : Stack.Kept a.stack b.stack := by
  rcases h with ⟨start, h⟩ | ⟨e, h⟩
  · obtain ⟨t, ht, rfl⟩ := Arena.reallocate_eq_ok_iff.1 h
    exact Stack.kept_of_allocate ht
  · rw [Arena.eq_of_reallocate_eq_error h]
    exact .refl _

/-- Whatever comes of an entry, all that it does to the stack is to take bytes, and its buffer stays
where it is. -/
theorem BufferM.kept_of_append {σ : Type} {f g : Frame σ} {tag : Tag} {bytes : List UInt8}
    (h : Run.Ends (append tag bytes) f g) : Stack.Kept f.arena.stack g.arena.stack ∧
      g.buffer.scope = f.buffer.scope ∧ g.buffer.base = f.buffer.base := by
  rcases h with ⟨u, h⟩ | ⟨e, h⟩
  · obtain ⟨_, t, ht, rfl⟩ := append_eq_ok_iff_allocate.1 h
    exact ⟨Stack.kept_of_allocate ht, rfl, rfl⟩
  · obtain ⟨_, _, rfl⟩ | ⟨_, ⟨_, _, _, rfl⟩ | ⟨_, t, ht, _, _, rfl⟩⟩ :=
      reserve_eq_error_iff.1 (append_eq_error_iff.1 h)
    · exact ⟨.refl _, rfl, rfl⟩
    · exact ⟨.refl _, rfl, rfl⟩
    · exact ⟨Stack.kept_of_allocate ht, rfl, rfl⟩

namespace ArgumentBuffer

/-- A buffer is opened in a live extent that reaches to where it begins. -/
theorem acquire_eq_ok_iff {a c : Arena} {b : ArgumentBuffer} : acquire a = .ok b c ↔
    a.stack.live = true ∧ endOf b.base 0 ≤ a.stack.limit ∧
      b = ⟨⟨a.stack.depth + 1⟩, alignUp a.stack.top Arena.extentAlignment, [], 0, 0, 0⟩ ∧
      c = { a with stack := { a.stack with
        frames := a.stack.top :: a.stack.frames, top := endOf b.base 0 } } := by
  have hframe : Arena.onStack Stack.scope a = .ok ⟨a.stack.depth + 1⟩
      { a with stack := { a.stack with frames := a.stack.top :: a.stack.frames } } := rfl
  simp only [acquire, hframe]
  split
  · rename_i base d hplace
    obtain ⟨t, ht, rfl⟩ := Arena.onStack_eq_ok_iff.1 hplace
    obtain ⟨hlive, _, hbase, hroom, rfl⟩ := Stack.allocate_eq_ok_iff_endOf.1 ht
    simp only [EStateM.Result.ok.injEq]
    constructor
    · rintro ⟨rfl, rfl⟩
      exact ⟨hlive, hroom, congrArg (ArgumentBuffer.mk _ · [] 0 0 0) hbase, rfl⟩
    · rintro ⟨_, _, hb, rfl⟩
      rw [hb, hbase]
      exact ⟨rfl, rfl⟩
  · rename_i e d hplace
    have hno : ¬∃ x d, Arena.onStack (Stack.allocate 0 Arena.extentAlignment)
        { a with stack := { a.stack with frames := a.stack.top :: a.stack.frames } } = .ok x d := by
      rw [hplace]
      rintro ⟨_, _, h⟩
      cases h
    split
    all_goals
      simp only [reduceCtorEq, false_iff]
      rintro ⟨hlive, hroom, rfl, _⟩
      exact hno ⟨_, _, Arena.onStack_eq_ok_iff.2 ⟨_, Stack.allocate_eq_ok_iff_endOf.2
        ⟨hlive, Arena.isPowerOfTwo_extentAlignment, rfl, hroom, rfl⟩, rfl⟩⟩

end ArgumentBuffer

end NativeBridge
