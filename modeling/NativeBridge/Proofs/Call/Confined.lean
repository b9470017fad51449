import NativeBridge.Call.Upcall
import NativeBridge.Proofs.Call.Reading

/-! # Code that leaves the frames of others alone

However confined code ends, the frames that were open when it began are open as they were, and certain
bytes are kept: the stack hands out others. That is asked of what code does and not of how it is
written. Reading and filling a buffer, blocks of the stack, frames and buffers that are closed again,
failing and going on after a failure are confined, and what is put together from confined steps is.
Calls are among it, and so are callbacks behind them, nested as deep as they may be.
-/
namespace NativeBridge

namespace BufferM

variable {σ α : Type}

/-- Whether an action succeeds, with its result or with its failure. -/
def attempt (p : BufferM σ α) : BufferM σ (Except Failure α) := fun f =>
  match p f with
  | .ok a g => .ok (.ok a) g
  | .error e g => .ok (.error e) g

/-- Runs an action in a scope of its own, which is closed whatever happens. -/
def inScope (p : BufferM σ α) : BufferM σ α := do
  let guard ← onStack Stack.scope
  match ← attempt p with
  | .ok a => do
    onStack (Stack.close guard)
    return a
  | .error (.error e) => do
    onStack (Stack.close guard)
    throw (.error e)
  | .error (.fault e) => do
    onStack (Stack.closeQuietly guard)
    throw (.fault e)

/-- The frame that an action leaves, whether it succeeds or not. -/
def after (p : BufferM σ α) (f : Frame σ) : Frame σ :=
  match p f with
  | .ok _ g => g
  | .error _ g => g

theorem after_of_ok {p : BufferM σ α} {f g : Frame σ} {a : α} (h : p f = .ok a g) : p.after f = g := by
  rw [after, h]

theorem after_of_error {p : BufferM σ α} {f g : Frame σ} {e : Failure} (h : p f = .error e g) :
    p.after f = g := by
  rw [after, h]

end BufferM

open BufferM

/-- The bytes from `first` up to `last` are not among those that the stack hands out next. -/
structure Apart (first last : Nat) (s : Stack) : Prop where
  limit_lt : s.limit + 1 < addressLimit
  apart : last ≤ s.top ∨ s.limit ≤ first

/-- The same frames are open, on top of which more may have been handed out, and the bytes from
`first` up to `last` are the same. -/
structure Leaves {σ : Type} (first last : Nat) (f g : Frame σ) : Prop where
  stack : g.arena.stack = { f.arena.stack with top := g.arena.stack.top }
  top : f.arena.stack.top ≤ g.arena.stack.top
  scope : g.buffer.scope = f.buffer.scope
  bytes : ∀ x, first ≤ x → x < last → g.arena.memory.byte x = f.arena.memory.byte x

/-- Code that, on any stack apart from the bytes from `first` up to `last`, leaves the frames of others
and these bytes, whether it succeeds or not. -/
def Confined {σ α : Type} (first last : Nat) (p : BufferM σ α) : Prop :=
  ∀ f, Apart first last f.arena.stack → Leaves first last f (p.after f)

section
variable {σ α : Type} {first last : Nat} {f g h : Frame σ} {s : Stack}

theorem Leaves.refl (f : Frame σ) : Leaves first last f f := ⟨rfl, le_rfl, rfl, fun _ _ _ => rfl⟩

theorem Leaves.trans (hf : Leaves first last f g) (hg : Leaves first last g h) :
    Leaves first last f h := by
  refine ⟨?_, hf.top.trans hg.top, hg.scope.trans hf.scope, fun x hx hy => ?_⟩
  · rw [hg.stack, hf.stack]
  · exact (hg.bytes x hx hy).trans (hf.bytes x hx hy)

theorem Apart.leaves (ha : Apart first last f.arena.stack) (hl : Leaves first last f g) :
    Apart first last g.arena.stack := by
  have hlimit : g.arena.stack.limit = f.arena.stack.limit := by rw [hl.stack]; rfl
  refine ⟨hlimit ▸ ha.limit_lt, ?_⟩
  rw [hlimit]
  exact ha.apart.imp_left fun hle => hle.trans hl.top

/-- A block is taken off the top. -/
theorem Apart.leaves_allocate {t : Stack} {size alignment start : Nat}
    (ha : Apart first last f.arena.stack)
    (hr : Stack.allocate size alignment f.arena.stack = .ok start t) :
    Leaves first last f { f with arena := { f.arena with stack := t } } := by
  obtain ⟨_, hp, rfl, _, rfl⟩ := (Stack.allocate_eq_ok_iff ha.limit_lt).1 hr
  have hle := le_alignUp hp f.arena.stack.top
  exact ⟨rfl, Nat.le_add_right_of_le hle, rfl, fun _ _ _ => rfl⟩

theorem byte_write_of_outside {m : Memory} {start x : Nat} {bytes : List UInt8} (hx : first ≤ x)
    (hy : x < last) (ho : last ≤ start ∨ start + bytes.length ≤ first) :
    (m.write start bytes).byte x = m.byte x := by
  rcases ho with ho | ho
  · exact Memory.byte_write_of_lt (hy.trans_le ho)
  · exact Memory.byte_write_of_le (ho.trans hx)

/-- An entry is written into bytes that are taken off the top. -/
theorem Apart.leaves_append {tag : Tag} {bytes : List UInt8} (ha : Apart first last f.arena.stack)
    (hb : bytes.length = tag.size) : Leaves first last f ((append tag bytes).after f) := by
  cases hr : append tag bytes f with
  | ok u g =>
    rw [after_of_ok hr]
    obtain ⟨_, _, _, hroom, rfl⟩ := (append_eq_ok_iff ha.limit_lt).1 hr
    refine ⟨rfl, Nat.le_add_right _ _, rfl, fun x hx hy => byte_write_of_outside hx hy ?_⟩
    rw [hb]
    exact ha.apart.imp_right fun hle => hroom.trans hle
  | error e g =>
    rw [after_of_error hr]
    obtain ⟨_, _, rfl⟩ | ⟨_, ⟨_, _, _, rfl⟩ | ⟨_, t, ht, _, _, rfl⟩⟩ :=
      reserve_eq_error_iff.1 (append_eq_error_iff.1 hr)
    · exact .refl _
    · exact .refl _
    · exact ha.leaves_allocate ht

/-- Code that began in a frame on top of `s` still is in it. -/
theorem Leaves.inner (hl : Leaves first last f g)
    (hf : f.arena.stack = { s with top := f.arena.stack.top, frames := s.top :: s.frames }) :
    g.arena.stack = { s with top := g.arena.stack.top, frames := s.top :: s.frames } := by
  rw [hl.stack, hf]

end

/-! ## Frames that are closed again -/

section
variable {σ α : Type} {first last : Nat} {f g : Frame σ} {s : Stack} {p : BufferM σ α}

theorem Stack.close_inner (s : Stack) (top : Nat) :
    Stack.close ⟨s.depth + 1⟩ { s with top, frames := s.top :: s.frames } = .ok () s :=
  Stack.close_eq_ok_iff.2 ⟨rfl, Stack.pop_eq_ok_iff.2 ⟨s.top, s.frames, rfl, rfl⟩⟩

theorem Stack.closeQuietly_inner (s : Stack) (top : Nat) :
    Stack.closeQuietly ⟨s.depth + 1⟩ { s with top, frames := s.top :: s.frames } = .ok () s :=
  Stack.closeQuietly_eq_ok_iff.2
    (.inl ⟨rfl, Stack.pop_eq_ok_iff.2 ⟨s.top, s.frames, rfl, rfl⟩⟩)

/-- A frame with another stack below the same memory. -/
def Frame.onto (g : Frame σ) (s : Stack) : Frame σ := { g with arena := { g.arena with stack := s } }

theorem onStack_eq_onto {op : Stack.StackM Unit} (h : op g.arena.stack = .ok () s) :
    onStack op g = .ok () (g.onto s) := by
  rw [onStack, onArena, Arena.onStack, h]
  rfl

theorem after_inScope {pushed : Frame σ}
    (hpushed : pushed = f.onto { f.arena.stack with frames := f.arena.stack.top :: f.arena.stack.frames })
    (hg : (p.after pushed).arena.stack = { f.arena.stack with
      top := (p.after pushed).arena.stack.top
      frames := f.arena.stack.top :: f.arena.stack.frames }) :
    (inScope p).after f = (p.after pushed).onto f.arena.stack := by
  have hopen : onStack Stack.scope f = .ok ⟨f.arena.stack.depth + 1⟩ pushed := by
    rw [hpushed]
    rfl
  have hc := Stack.close_inner f.arena.stack (p.after pushed).arena.stack.top
  have hq := Stack.closeQuietly_inner f.arena.stack (p.after pushed).arena.stack.top
  rw [← hg] at hc hq
  cases hp : p pushed with
  | ok a g =>
    have ht : p.attempt pushed = .ok (.ok a) g := by rw [attempt, hp]
    rw [after_of_ok hp] at hc ⊢
    apply after_of_ok
    rw [inScope, Run.bind_of_ok hopen, Run.bind_of_ok ht]
    exact Run.bind_of_ok (onStack_eq_onto hc) _
  | error e g =>
    have ht : p.attempt pushed = .ok (.error e) g := by rw [attempt, hp]
    rw [after_of_error hp] at hc hq ⊢
    cases e with
    | error e =>
      apply after_of_error
      rw [inScope, Run.bind_of_ok hopen, Run.bind_of_ok ht]
      exact Run.bind_of_ok (onStack_eq_onto hc) _
    | fault e =>
      apply after_of_error
      rw [inScope, Run.bind_of_ok hopen, Run.bind_of_ok ht]
      exact Run.bind_of_ok (onStack_eq_onto hq) _

end

/-! ## Buffers that are closed again -/

namespace Thread

variable {σ α : Type}

/-- The frame in which an action finds a buffer of its own. -/
def opened (t : Thread σ) : Frame σ :=
  let base := alignUp t.arena.stack.top Arena.extentAlignment
  { arena := { t.arena with stack := { t.arena.stack with
      top := base, frames := t.arena.stack.top :: t.arena.stack.frames } }
    buffer := ⟨⟨t.arena.stack.depth + 1⟩, base, [], 0, 0, 0⟩
    own := t.own }

/-- The thread once the buffer of a frame is closed: its stack as it was. -/
def closed (t : Thread σ) (g : Frame σ) : Thread σ := ⟨{ t.arena with memory := g.arena.memory }, g.own⟩

variable {t : Thread σ} {g : Frame σ} {p : BufferM σ α} {first last : Nat}

theorem le_top_opened (t : Thread σ) : t.arena.stack.top ≤ t.opened.arena.stack.top :=
  le_alignUp Arena.isPowerOfTwo_extentAlignment _

theorem apart_opened (h : Apart first last t.arena.stack) : Apart first last t.opened.arena.stack :=
  ⟨h.limit_lt, h.apart.imp_left fun hle => hle.trans t.le_top_opened⟩

theorem acquire_of_room (hs : t.arena.stack.limit + 1 < addressLimit)
    (hlive : t.arena.stack.live = true) (hroom : t.opened.buffer.base ≤ t.arena.stack.limit) :
    ArgumentBuffer.acquire t.arena = .ok t.opened.buffer t.opened.arena := by
  have hs' : Stack.limit { t.arena.stack with
      frames := t.arena.stack.top :: t.arena.stack.frames } + 1 < addressLimit := hs
  have hblock : Stack.allocate 0 Arena.extentAlignment
      { t.arena.stack with frames := t.arena.stack.top :: t.arena.stack.frames } =
        .ok t.opened.buffer.base t.opened.arena.stack := (Stack.allocate_eq_ok_iff hs').2
    ⟨hlive, Arena.isPowerOfTwo_extentAlignment, rfl, hroom, rfl⟩
  have hframe : Arena.onStack Stack.scope t.arena = .ok ⟨t.arena.stack.depth + 1⟩
      { t.arena with stack := { t.arena.stack with
        frames := t.arena.stack.top :: t.arena.stack.frames } } := rfl
  rw [ArgumentBuffer.acquire, hframe]
  dsimp only
  rw [Arena.onStack_eq_ok_iff.2 ⟨_, hblock, rfl⟩]
  rfl

/-- Where there is no room for a buffer its frame is closed at once. -/
theorem eq_of_acquire_eq_error {a c : Arena} {e : Fault} (h : ArgumentBuffer.acquire a = .error e c) :
    c = a := by
  have hframe : Arena.onStack Stack.scope a = .ok ⟨a.stack.depth + 1⟩
      { a with stack := { a.stack with frames := a.stack.top :: a.stack.frames } } := rfl
  rw [ArgumentBuffer.acquire, hframe] at h
  dsimp only at h
  split at h
  · cases h
  · rename_i e' b hb
    have hsame := Arena.eq_of_onStack_eq_error (fun _ _ _ => Stack.eq_of_allocate_eq_error) hb
    have hq := Stack.closeQuietly_inner a.stack a.stack.top
    have hclose : Arena.onStack (Stack.closeQuietly ⟨a.stack.depth + 1⟩) b = .ok () a := by
      rw [hsame]
      exact Arena.onStack_eq_ok_iff.2 ⟨a.stack, hq, rfl⟩
    rw [hclose] at h
    cases h
    rfl

/-- The buffer is that of a frame that was opened on the thread, and no later frame is open. -/
structure Innermost (t : Thread σ) (g : Frame σ) : Prop where
  frames_eq : g.arena.stack.frames = t.arena.stack.top :: t.arena.stack.frames
  depth_eq : g.buffer.scope.depth = t.arena.stack.depth + 1

/-- The thread once that frame is closed. -/
def left (t : Thread σ) (g : Frame σ) : Thread σ :=
  ⟨{ g.arena with stack := { g.arena.stack with
    top := t.arena.stack.top, frames := t.arena.stack.frames } }, g.own⟩

theorem Innermost.release_eq (h : t.Innermost g) :
    g.buffer.release g.arena = .ok () (t.left g).arena ∧
      g.buffer.releaseQuietly g.arena = .ok () (t.left g).arena := by
  have hd : g.arena.stack.depth = g.buffer.scope.depth := by
    rw [Stack.depth, h.frames_eq, h.depth_eq]
    rfl
  have hpop : Stack.pop g.arena.stack = .ok () (t.left g).arena.stack :=
    Stack.pop_eq_ok_iff.2 ⟨_, _, h.frames_eq, rfl⟩
  exact ⟨Arena.onStack_eq_ok_iff.2 ⟨_, Stack.close_eq_ok_iff.2 ⟨hd, hpop⟩, rfl⟩,
    Arena.onStack_eq_ok_iff.2 ⟨_, Stack.closeQuietly_eq_ok_iff.2 (.inl ⟨hd, hpop⟩), rfl⟩⟩

/-- An action in a buffer of its own ends as it does in the frame that is opened for it. -/
theorem Innermost.withBuffer_of_ok {b : ArgumentBuffer} {c : Arena} {a : α} (h : t.Innermost g)
    (hopen : ArgumentBuffer.acquire t.arena = .ok b c) (hp : p ⟨c, b, t.own⟩ = .ok a g) :
    Call.withBuffer p t = .ok a (t.left g) := by
  rw [Call.withBuffer, hopen]
  dsimp only
  rw [hp]
  dsimp only
  rw [h.release_eq.1]
  rfl

theorem Innermost.withBuffer_of_error {b : ArgumentBuffer} {c : Arena} {e : Failure}
    (h : t.Innermost g) (hopen : ArgumentBuffer.acquire t.arena = .ok b c)
    (hp : p ⟨c, b, t.own⟩ = .error e g) : Call.withBuffer p t = .error e (t.left g) := by
  rw [Call.withBuffer, hopen]
  dsimp only
  rw [hp]
  cases e with
  | error e =>
    dsimp only
    rw [h.release_eq.1]
    rfl
  | fault e =>
    dsimp only
    rw [h.release_eq.2]
    rfl

theorem innermost_of_leaves (hl : Leaves first last t.opened g) : t.Innermost g :=
  ⟨congrArg Stack.frames (hl.inner rfl), congrArg Scope.depth hl.scope⟩

/-- The stack is as it was where all that was done in the frame was to take bytes. -/
theorem left_of_leaves (hl : Leaves first last t.opened g) : t.left g = t.closed g := by
  rw [left, hl.inner rfl]
  rfl

end Thread

section
variable {σ α : Type} {first last : Nat} {f g : Frame σ} {p : BufferM σ α}

theorem leaves_closed (hl : Leaves first last (Thread.opened ⟨f.arena, f.own⟩) g) :
    Leaves first last f { f with arena := { f.arena with memory := g.arena.memory }, own := g.own } :=
  ⟨rfl, le_rfl, rfl, hl.bytes⟩

theorem Apart.leaves_buffered (ha : Apart first last f.arena.stack)
    (hp : Leaves first last (Thread.opened ⟨f.arena, f.own⟩)
      (p.after (Thread.opened ⟨f.arena, f.own⟩))) :
    Leaves first last f ((Call.onThread (Call.withBuffer p)).after f) := by
  cases hr : ArgumentBuffer.acquire f.arena with
  | error e c =>
    have hw : Call.withBuffer p ⟨f.arena, f.own⟩ = .error (.fault e) ⟨c, f.own⟩ := by
      rw [Call.withBuffer, hr]
    have hf : Call.onThread (Call.withBuffer p) f = .error (.fault e) f := by
      rw [Call.onThread, hw, Thread.eq_of_acquire_eq_error hr]
    rw [after_of_error hf]
    exact .refl f
  | ok b c =>
    obtain ⟨rfl, rfl⟩ := ArgumentBuffer.eq_of_acquire_eq_ok ha.limit_lt hr
    cases hq : p (Thread.opened ⟨f.arena, f.own⟩) with
    | ok a g =>
      rw [after_of_ok hq] at hp
      have hw := (Thread.innermost_of_leaves hp).withBuffer_of_ok hr hq
      rw [Thread.left_of_leaves hp] at hw
      have hf := leaves_closed hp
      rw [BufferM.after, Call.onThread, hw]
      exact hf
    | error e g =>
      rw [after_of_error hq] at hp
      have hw := (Thread.innermost_of_leaves hp).withBuffer_of_error hr hq
      rw [Thread.left_of_leaves hp] at hw
      have hf := leaves_closed hp
      rw [BufferM.after, Call.onThread, hw]
      exact hf

end

/-! ## What confined code can do -/

namespace Call

variable {σ α β : Type}

/-- What a thread does step by step, a frame on it does step by step. -/
theorem onThread_bind (p : ThreadM σ α) (q : α → ThreadM σ β) :
    onThread (p >>= q) = (onThread p >>= fun a => onThread (q a)) := by
  funext f
  cases hp : p ⟨f.arena, f.own⟩ with
  | ok a t =>
    have hf : onThread p f = .ok a { f with arena := t.arena, own := t.own } := by rw [onThread, hp]
    rw [Run.bind_of_ok hf, onThread, Run.bind_of_ok hp]
    rfl
  | error e t =>
    have hf : onThread p f = .error e { f with arena := t.arena, own := t.own } := by
      rw [onThread, hp]
    rw [Run.bind_eq_error_iff.2 (.inl hf), onThread, Run.bind_eq_error_iff.2 (.inl hp)]

/-- Each argument has as many bytes as its kind. -/
theorem length_of_mem_passed {d : Descriptor} {f : Frame σ} {p : Passed} (h : p ∈ passed d f) :
    p.bytes.length = p.kind.size := by
  obtain ⟨⟨k, address⟩, _, rfl⟩ := List.mem_map.1 h
  exact Memory.length_read ..

end Call

namespace Confined

variable {σ α β : Type} {first last : Nat} {p : BufferM σ α}

theorem pure (a : α) : Confined first last (Pure.pure a : BufferM σ α) := fun f _ => .refl f

theorem fail (e : Failure) : Confined first last (throw e : BufferM σ α) := fun f _ => .refl f

theorem look : Confined first last (get : BufferM σ (Frame σ)) := fun f _ => .refl f

theorem seek (index offset : Frame σ → Nat) : Confined first last (modify fun f : Frame σ =>
    { f with buffer := { f.buffer with readIndex := index f, readOffset := offset f } }) :=
  fun _ _ => ⟨rfl, le_rfl, rfl, fun _ _ _ => rfl⟩

/-- What follows a step is asked about those results only that the step can have. -/
theorem bind {q : α → BufferM σ β} (hp : Confined first last p)
    (hq : ∀ f g a, Apart first last f.arena.stack → p f = .ok a g → Confined first last (q a)) :
    Confined first last (p >>= q) := by
  intro f ha
  have hl := hp f ha
  cases hr : p f with
  | ok a g =>
    rw [after_of_ok hr] at hl
    have hnext : (p >>= q).after f = (q a).after g := by rw [after, Run.bind_of_ok hr, after]
    rw [hnext]
    exact hl.trans (hq f g a ha hr g (ha.leaves hl))
  | error e g =>
    rw [after_of_error hr] at hl
    rw [after_of_error (Run.bind_eq_error_iff.2 (.inl hr))]
    exact hl

theorem next {q : α → BufferM σ β} (hp : Confined first last p) (hq : ∀ a, Confined first last (q a)) :
    Confined first last (p >>= q) := hp.bind fun _ _ a _ _ => hq a

/-- A check that lets go on what passes it. -/
theorem check {c : Prop} [Decidable c] {e : Fault} {q : Unit → BufferM σ α}
    (hq : Confined first last (q ())) :
    Confined first last (if c then fault e >>= q else q ()) := by
  split
  · exact (fail _).next fun _ => hq
  · exact hq

theorem attempt (hp : Confined first last p) : Confined first last p.attempt := by
  intro f ha
  have hsame : p.attempt.after f = p.after f := by
    rw [after, BufferM.attempt, after]
    cases p f <;> rfl
  rw [hsame]
  exact hp f ha

theorem append {tag : Tag} {bytes : List UInt8} (length : bytes.length = tag.size) :
    Confined first last (BufferM.append tag bytes : BufferM σ Unit) :=
  fun _ ha => ha.leaves_append length

theorem put (v : Value) : Confined first last (BufferM.put v : BufferM σ Unit) := by
  refine append ?_
  rw [Value.length_bytes]
  exact (Nat.mul_one _).symm

theorem allocate (size alignment : Nat) :
    Confined first last (onStack (Stack.allocate size alignment) : BufferM σ Nat) := by
  intro f ha
  cases hr : Stack.allocate size alignment f.arena.stack with
  | ok start t =>
    rw [after_of_ok (onStack_eq_ok_iff.2 ⟨t, hr, rfl⟩)]
    exact ha.leaves_allocate hr
  | error e t =>
    obtain rfl := Stack.eq_of_allocate_eq_error hr
    rw [after_of_error (onStack_allocate_eq_error_iff.2 ⟨e, hr, rfl, rfl⟩)]
    exact .refl f

theorem write {start : Nat} {bytes : List UInt8}
    (outside : last ≤ start ∨ start + bytes.length ≤ first) :
    Confined first last (onMemory (modify fun m => m.write start bytes) : BufferM σ PUnit) :=
  fun _ _ => ⟨rfl, le_rfl, rfl, fun _ hx hy => byte_write_of_outside hx hy outside⟩

theorem inScope (hp : Confined first last p) : Confined first last (BufferM.inScope p) := by
  intro f ha
  let pushed := f.onto
    { f.arena.stack with frames := f.arena.stack.top :: f.arena.stack.frames }
  have hl : Leaves first last pushed (p.after pushed) := hp pushed ⟨ha.limit_lt, ha.apart⟩
  rw [after_inScope rfl (hl.inner rfl)]
  exact ⟨rfl, le_rfl, hl.scope, hl.bytes⟩

theorem buffered (hp : Confined first last p) :
    Confined first last (Call.onThread (Call.withBuffer p) : BufferM σ α) :=
  fun _ ha => ha.leaves_buffered (hp _ (Thread.apart_opened ha))

theorem nextEntry (k : CallKind) :
    Confined first last (BufferM.nextEntry k : BufferM σ (Tag × Nat)) := by
  refine look.next fun g => ?_
  dsimp only
  split
  · exact fail _
  · exact check ((seek (·.buffer.readIndex + 1) _).next fun _ => pure _)

theorem getNext (k : CallKind) : Confined first last (BufferM.getNext k : BufferM σ Value) :=
  (nextEntry k).next fun _ => look.next fun _ => check (pure _)

/-- Reading of any kind is confined. -/
theorem reading (r : Reading) : Confined first last (r.run : BufferM σ (List Value)) := by
  cases r with
  | rewind => exact (seek (fun _ => 0) fun _ => 0).next fun _ => pure _
  | next k => exact (getNext k).next fun _ => pure _
  | array k => exact (nextEntry k).next fun _ => look.next fun _ => pure _
  | value i => exact (look.next fun _ => pure _).next fun _ => pure _

theorem receive {ps : List Passed} (hb : ∀ p ∈ ps, p.bytes.length = p.kind.size) :
    Confined first last (Upcall.receive ps : BufferM σ Unit) := by
  induction ps with
  | nil => exact pure ()
  | cons p ps ih =>
    refine (append ?_).next fun _ => ih fun q hq => hb q (List.mem_cons_of_mem p hq)
    exact (hb p List.mem_cons_self).trans (Nat.mul_one _).symm

/-- A call is confined if the code behind it is, for arguments of the sizes of their kinds. -/
theorem callValue {code : NativeCode σ} (d : Descriptor)
    (hc : ∀ ps, (∀ p ∈ ps, p.bytes.length = p.kind.size) →
      Confined first last (Call.onThread (code ps))) :
    Confined first last (Call.callValue (some code) d) := by
  refine look.next fun f => ?_
  split
  · exact fail _
  · exact (hc _ fun _ => Call.length_of_mem_passed).next fun _ => pure _

/-- So is an invocation, if what fills its buffer is. -/
theorem invokeValue {code : NativeCode σ} (d : Descriptor) {populate : BufferM σ Unit}
    (hp : Confined first last populate)
    (hc : ∀ ps, (∀ p ∈ ps, p.bytes.length = p.kind.size) →
      Confined first last (Call.onThread (code ps))) :
    Confined first last (Call.onThread (Call.invokeValue (some code) d populate)) :=
  buffered (hp.next fun _ => callValue d hc)

end Confined

end NativeBridge
