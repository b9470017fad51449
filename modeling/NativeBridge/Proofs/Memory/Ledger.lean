import Mathlib.Data.List.Flatten
import NativeBridge.Proofs.Memory.Stack

/-! # The blocks of a stack

A stack is followed through any run of its operations, those that fault among them. Beside it a ledger
is kept of the blocks that it has handed out, one level for each open frame and one for what lies
below them all; closing a frame gives up its level. The blocks of a level are packed between the
address where its frame began and the address where the next frame began, so that all blocks lie inside
the extent and apart from each other.
-/
namespace NativeBridge

/-- A block that was handed out, with the alignment that was asked for. -/
structure Grant where
  start : Nat
  size : Nat
  alignment : Nat
deriving DecidableEq

def Grant.stop (g : Grant) : Nat := g.start + g.size

/-- An arena and the blocks that are out, by the frames they were handed out in. -/
structure Ledger where
  arena : Arena
  levels : List (List Grant)

namespace Ledger

open Arena

/-- What may be asked of a stack. Any depth may be named as that of a scope. -/
inductive Operation where
  | allocate (size alignment : Nat)
  | reallocate (old : Option Nat) (size alignment : Nat)
  | push
  | pop
  | scope
  | close (guard : Scope)
  | closeQuietly (guard : Scope)
  | release

/-- What an operation that succeeds does to the blocks. -/
inductive Event where
  | granted (g : Grant)
  | opened
  | closed
  | nothing
deriving DecidableEq

def Operation.run : Operation → ArenaM Event
  | allocate size alignment => do
    let start ← onStack (Stack.allocate size alignment)
    return .granted ⟨start, size, alignment⟩
  | reallocate old size alignment => do
    let start ← Arena.reallocate old size alignment
    return .granted ⟨start, size, alignment⟩
  | push => do
    onStack Stack.push
    return .opened
  | pop => do
    onStack Stack.pop
    return .closed
  | scope => do
    let _ ← onStack Stack.scope
    return .opened
  | close guard => do
    onStack (Stack.close guard)
    return .closed
  | closeQuietly guard => do
    let innermost := (← get).stack.isInnermost guard
    onStack (Stack.closeQuietly guard)
    return if innermost then .closed else .nothing
  | release => do
    modify fun a => { a with stack := a.stack.release }
    return .nothing

def ofExtent (base capacity : Nat) (memory : Memory) : Ledger :=
  ⟨⟨.ofExtent base capacity, memory⟩, [[]]⟩

/-- The blocks that are out, the latest first. -/
def blocks (l : Ledger) : List Grant := l.levels.flatten

/-- Books an event. A block belongs to the innermost open frame. -/
def book : Event → List (List Grant) → List (List Grant)
  | .granted g, level :: levels => (g :: level) :: levels
  | .granted g, [] => [[g]]
  | .opened, levels => [] :: levels
  | .closed, levels => levels.tail
  | .nothing, levels => levels

/-- One operation. One that faults leaves its arena behind and books nothing. -/
def step (l : Ledger) (op : Operation) : Ledger :=
  match op.run l.arena with
  | .ok event arena => ⟨arena, book event l.levels⟩
  | .error _ arena => { l with arena }

def run (l : Ledger) (ops : List Operation) : Ledger := ops.foldl step l

/-- What an event means for a stack. -/
inductive Change (s : Stack) : Event → Stack → Prop
  | grant (g : Grant) (power : isPowerOfTwo g.alignment = true)
      (start : g.start = alignUp s.top g.alignment) (room : g.stop ≤ s.limit) :
      Change s (.granted g) { s with top := g.stop }
  | opening : Change s .opened { s with frames := s.top :: s.frames }
  | closing (saved : Nat) (frames : List Nat) (top : s.frames = saved :: frames) :
      Change s .closed { s with top := saved, frames }
  | idle : Change s .nothing s
  | release : Change s .nothing s.release

theorem Change.of_allocate {s t : Stack} {size alignment start : Nat}
    (hs : s.limit + 1 < addressLimit) (h : Stack.allocate size alignment s = .ok start t) :
    Change s (.granted ⟨start, size, alignment⟩) t := by
  obtain ⟨_, hp, hstart, hroom, rfl⟩ := (Stack.allocate_eq_ok_iff hs).1 h
  exact .grant ⟨start, size, alignment⟩ hp hstart hroom

theorem Change.of_pop {s t : Stack} {u : Unit} (h : Stack.pop s = .ok u t) :
    Change s .closed t := by
  obtain ⟨saved, frames, hf, rfl⟩ := Stack.pop_eq_ok_iff.1 h
  exact .closing saved frames hf

/-- Every operation that succeeds changes the stack as its event says. -/
theorem Operation.change_of_run {op : Operation} {a b : Arena} {event : Event}
    (hs : a.stack.limit + 1 < addressLimit) (h : op.run a = .ok event b) :
    Change a.stack event b.stack := by
  cases op with
  | allocate size alignment =>
    obtain ⟨start, hr, rfl⟩ := Run.bind_pure_eq_ok_iff.1 h
    obtain ⟨t, ht, rfl⟩ := onStack_eq_ok_iff.1 hr
    exact .of_allocate hs ht
  | reallocate old size alignment =>
    obtain ⟨start, hr, rfl⟩ := Run.bind_pure_eq_ok_iff.1 h
    obtain ⟨t, ht, rfl⟩ := reallocate_eq_ok_iff.1 hr
    exact .of_allocate hs ht
  | push =>
    obtain ⟨_, hr, rfl⟩ := Run.bind_pure_eq_ok_iff.1 h
    obtain ⟨t, ht, rfl⟩ := onStack_eq_ok_iff.1 hr
    obtain rfl := Stack.push_eq_ok_iff.1 ht
    exact .opening
  | pop =>
    obtain ⟨_, hr, rfl⟩ := Run.bind_pure_eq_ok_iff.1 h
    obtain ⟨t, ht, rfl⟩ := onStack_eq_ok_iff.1 hr
    exact .of_pop ht
  | scope =>
    obtain ⟨_, hr, rfl⟩ := Run.bind_pure_eq_ok_iff.1 h
    obtain ⟨t, ht, rfl⟩ := onStack_eq_ok_iff.1 hr
    obtain ⟨_, rfl⟩ := Stack.scope_eq_ok_iff.1 ht
    exact .opening
  | close guard =>
    obtain ⟨_, hr, rfl⟩ := Run.bind_pure_eq_ok_iff.1 h
    obtain ⟨t, ht, rfl⟩ := onStack_eq_ok_iff.1 hr
    exact .of_pop (Stack.close_eq_ok_iff.1 ht).2
  | closeQuietly guard =>
    obtain ⟨_, _, hg, h⟩ := Run.bind_eq_ok_iff.1 h
    obtain ⟨rfl, rfl⟩ := Run.get_eq_ok_iff.1 hg
    obtain ⟨_, hr, rfl⟩ := Run.bind_pure_eq_ok_iff.1 h
    obtain ⟨t, ht, rfl⟩ := onStack_eq_ok_iff.1 hr
    rcases Stack.closeQuietly_eq_ok_iff.1 ht with ⟨hd, ht⟩ | ⟨hd, rfl⟩
    · rw [Stack.isInnermost, if_pos (beq_iff_eq.2 hd)]
      exact .of_pop ht
    · rw [Stack.isInnermost, if_neg (fun he => hd (beq_iff_eq.1 he))]
      exact .idle
  | release =>
    obtain ⟨_, hr, rfl⟩ := Run.bind_pure_eq_ok_iff.1 h
    obtain rfl := Run.modify_eq_ok_iff.1 hr
    exact .release

/-- Whatever faults leaves the arena as it was. -/
theorem Operation.eq_of_run_eq_error {op : Operation} {a b : Arena} {e : Fault}
    (h : op.run a = .error e b) : b = a := by
  cases op with
  | allocate size alignment =>
    exact eq_of_onStack_eq_error (fun _ _ _ => Stack.eq_of_allocate_eq_error)
      (Run.bind_pure_eq_error_iff.1 h)
  | reallocate old size alignment =>
    exact eq_of_reallocate_eq_error (Run.bind_pure_eq_error_iff.1 h)
  | push =>
    exact eq_of_onStack_eq_error (fun _ _ _ he => absurd he Run.modify_ne_error)
      (Run.bind_pure_eq_error_iff.1 h)
  | pop =>
    exact eq_of_onStack_eq_error (fun _ _ _ => Stack.eq_of_pop_eq_error)
      (Run.bind_pure_eq_error_iff.1 h)
  | scope =>
    exact eq_of_onStack_eq_error (fun _ _ _ => Stack.eq_of_scope_eq_error)
      (Run.bind_pure_eq_error_iff.1 h)
  | close guard =>
    exact eq_of_onStack_eq_error (fun _ _ _ => Stack.eq_of_close_eq_error)
      (Run.bind_pure_eq_error_iff.1 h)
  | closeQuietly guard =>
    rcases Run.bind_eq_error_iff.1 h with h | ⟨_, _, hg, h⟩
    · exact absurd h Run.get_ne_error
    · obtain ⟨rfl, rfl⟩ := Run.get_eq_ok_iff.1 hg
      exact eq_of_onStack_eq_error (fun _ _ _ => Stack.eq_of_closeQuietly_eq_error)
        (Run.bind_pure_eq_error_iff.1 h)
  | release => exact absurd (Run.bind_pure_eq_error_iff.1 h) Run.modify_ne_error

/-- Blocks between two addresses, the latest first, each above those handed out before it. -/
def Packed (bottom : Nat) : List Grant → Nat → Prop
  | [], top => bottom ≤ top
  | g :: level, top => g.alignment ∣ g.start ∧ g.stop ≤ top ∧ Packed bottom level g.start

/-- The blocks of each frame lie between the addresses where it and the next frame began. -/
inductive Stacked (base : Nat) : List (List Grant) → List Nat → Nat → Prop
  | bottom {level : List Grant} {top : Nat} (packed : Packed base level top) :
      Stacked base [level] [] top
  | frame {level : List Grant} {levels : List (List Grant)} {saved top : Nat} {frames : List Nat}
      (packed : Packed saved level top) (below : Stacked base levels frames saved) :
      Stacked base (level :: levels) (saved :: frames) top

variable {base bottom middle top higher : Nat} {level upper : List Grant}
  {levels : List (List Grant)} {frames : List Nat}

theorem Packed.raise (h : Packed bottom level top) (hle : top ≤ higher) :
    Packed bottom level higher := by
  cases level with
  | nil => exact Nat.le_trans h hle
  | cons g level => exact ⟨h.1, Nat.le_trans h.2.1 hle, h.2.2⟩

theorem Packed.append (hu : Packed middle upper top) (hl : Packed bottom level middle) :
    Packed bottom (upper ++ level) top := by
  induction upper generalizing top with
  | nil => exact hl.raise hu
  | cons g upper ih => exact ⟨hu.1, hu.2.1, ih hu.2.2⟩

theorem Packed.bottom_le (h : Packed bottom level top) : bottom ≤ top := by
  induction level generalizing top with
  | nil => exact h
  | cons g level ih =>
    have hg : bottom ≤ g.start := ih h.2.2
    have hstop : g.start + g.size ≤ top := h.2.1
    omega

theorem Packed.mem (h : Packed bottom level top) {g : Grant} (hg : g ∈ level) :
    g.alignment ∣ g.start ∧ bottom ≤ g.start ∧ g.stop ≤ top := by
  induction level generalizing top with
  | nil => exact absurd hg List.not_mem_nil
  | cons f level ih =>
    rcases List.mem_cons.1 hg with rfl | hg
    · exact ⟨h.1, h.2.2.bottom_le, h.2.1⟩
    · obtain ⟨hd, hb, hs⟩ := ih h.2.2 hg
      have hstop : f.start + f.size ≤ top := h.2.1
      exact ⟨hd, hb, by omega⟩

theorem Packed.pairwise (h : Packed bottom level top) :
    level.Pairwise fun later earlier => earlier.stop ≤ later.start := by
  induction level generalizing top with
  | nil => exact List.Pairwise.nil
  | cons g level ih => exact List.pairwise_cons.2 ⟨fun f hf => (h.2.2.mem hf).2.2, ih h.2.2⟩

theorem Stacked.packed (h : Stacked base levels frames top) : Packed base levels.flatten top := by
  induction h with
  | bottom hp => rwa [List.flatten_cons, List.flatten_nil, List.append_nil]
  | frame hp _ ih => exact hp.append ih

/-- Frames began at addresses that rise from the base to the top. -/
theorem Stacked.pairwise (h : Stacked base levels frames top) :
    (top :: (frames ++ [base])).Pairwise (· ≥ ·) := by
  induction h with
  | bottom hp => simpa using hp.bottom_le
  | @frame _ _ saved top frames hp hs ih =>
    refine List.pairwise_cons.2 ⟨?_, ih⟩
    intro address ha
    have hsaved : saved ≤ top := hp.bottom_le
    rcases List.mem_cons.1 ha with rfl | ha
    · exact hsaved
    · exact Nat.le_trans (List.rel_of_pairwise_cons ih ha) hsaved

theorem Stacked.grant (h : Stacked base levels frames top) {g : Grant}
    (hd : g.alignment ∣ g.start) (hle : top ≤ g.start) :
    Stacked base (book (.granted g) levels) frames g.stop := by
  cases h with
  | bottom hp => exact .bottom ⟨hd, le_rfl, hp.raise hle⟩
  | frame hp hs => exact .frame ⟨hd, le_rfl, hp.raise hle⟩ hs

theorem Stacked.opening (h : Stacked base levels frames top) :
    Stacked base (book .opened levels) (top :: frames) top := .frame le_rfl h

theorem Stacked.closing {saved : Nat} (h : Stacked base levels (saved :: frames) top) :
    Stacked base (book .closed levels) frames saved ∧ saved ≤ top := by
  cases h with
  | frame hp hs => exact ⟨hs, hp.bottom_le⟩

/-- What every operation on a stack preserves. -/
structure Sound (base capacity : Nat) (l : Ledger) : Prop where
  base_eq : l.arena.stack.base = base
  capacity_eq : l.arena.stack.capacity = capacity
  top_le : l.arena.stack.top ≤ base + capacity
  stacked : Stacked base l.levels l.arena.stack.frames l.arena.stack.top

variable {capacity : Nat} {l : Ledger}

theorem sound_ofExtent (memory : Memory) : Sound base capacity (ofExtent base capacity memory) where
  base_eq := rfl
  capacity_eq := rfl
  top_le := Nat.le_add_right base capacity
  stacked := .bottom le_rfl

theorem Sound.limit_eq (hl : Sound base capacity l) : l.arena.stack.limit = base + capacity := by
  rw [Stack.limit, hl.base_eq, hl.capacity_eq]

theorem Sound.limit_lt (hl : Sound base capacity l) (hs : base + capacity ≤ greatestSpan) :
    l.arena.stack.limit + 1 < addressLimit := add_one_lt_addressLimit (hl.limit_eq ▸ hs)

theorem Sound.change {event : Event} {arena : Arena} (hl : Sound base capacity l)
    (h : Change l.arena.stack event arena.stack) :
    Sound base capacity ⟨arena, book event l.levels⟩ := by
  obtain ⟨stack, memory⟩ := arena
  dsimp only at h
  cases h with
  | grant g hp hstart hroom =>
    have hd : g.alignment ∣ g.start := hstart ▸ dvd_alignUp hp _
    have hle : l.arena.stack.top ≤ g.start := hstart ▸ le_alignUp hp _
    exact ⟨hl.base_eq, hl.capacity_eq, hl.limit_eq ▸ hroom, hl.stacked.grant hd hle⟩
  | opening => exact ⟨hl.base_eq, hl.capacity_eq, hl.top_le, hl.stacked.opening⟩
  | closing saved frames hf =>
    have hs := hl.stacked
    rw [hf] at hs
    obtain ⟨hs, hle⟩ := hs.closing
    exact ⟨hl.base_eq, hl.capacity_eq, Nat.le_trans hle hl.top_le, hs⟩
  | idle => exact ⟨hl.base_eq, hl.capacity_eq, hl.top_le, hl.stacked⟩
  | release => exact ⟨hl.base_eq, hl.capacity_eq, hl.top_le, hl.stacked⟩

theorem Sound.step (hl : Sound base capacity l) (hs : base + capacity ≤ greatestSpan)
    (op : Operation) : Sound base capacity (l.step op) := by
  unfold Ledger.step
  cases h : op.run l.arena with
  | ok event arena => exact hl.change (op.change_of_run (hl.limit_lt hs) h)
  | error e arena =>
    have heq := Operation.eq_of_run_eq_error h
    subst heq
    exact hl

theorem Sound.run (hl : Sound base capacity l) (hs : base + capacity ≤ greatestSpan)
    (ops : List Operation) : Sound base capacity (l.run ops) := by
  induction ops generalizing l with
  | nil => exact hl
  | cons op ops ih => exact ih (hl.step hs op)

theorem Sound.used_add_remaining (hl : Sound base capacity l) :
    l.arena.stack.used + l.arena.stack.remaining = capacity := by
  have htop := hl.top_le
  have hb := hl.base_eq
  have hc := hl.capacity_eq
  simp only [Stack.used, Stack.remaining]
  omega

/-- A block is refused by a dead stack, for an alignment that is none, and where room is lacking. -/
theorem Sound.allocate_faults_iff (hl : Sound base capacity l)
    (hs : base + capacity ≤ greatestSpan) (size alignment : Nat) :
    (∃ e b, (Operation.allocate size alignment).run l.arena = .error e b) ↔
      l.arena.stack.live = false ∨ ¬alignment.isPowerOfTwo ∨
        base + capacity < alignUp l.arena.stack.top alignment + size := by
  have hfault := @Stack.allocate_faults_iff l.arena.stack size alignment (hl.limit_lt hs)
  rw [hl.limit_eq] at hfault
  rw [← isPowerOfTwo_iff, Bool.not_eq_true, ← hfault]
  simp only [Operation.run, Run.bind_pure_eq_error_iff, onStack_eq_error_iff]
  constructor
  · rintro ⟨e, _, t, ht, _⟩
    exact ⟨e, t, ht⟩
  · rintro ⟨e, t, ht⟩
    exact ⟨e, _, t, ht, rfl⟩

theorem Sound.pairwise (hl : Sound base capacity l) :
    ((base + capacity) :: l.arena.stack.top :: (l.arena.stack.frames ++ [base])).Pairwise
      (· ≥ ·) := by
  have hp := hl.stacked.pairwise
  refine List.pairwise_cons.2 ⟨?_, hp⟩
  intro address ha
  rcases List.mem_cons.1 ha with rfl | ha
  · exact hl.top_le
  · exact Nat.le_trans (List.rel_of_pairwise_cons hp ha) hl.top_le

/-- Rounding the top in words of 64 bits never wraps around for good. -/
theorem Sound.toNat_alignUp (hl : Sound base capacity l) (hs : base + capacity ≤ greatestSpan)
    {top alignment : UInt64} (ht : top.toNat = l.arena.stack.top)
    (hk : alignment.toNat.isPowerOfTwo) :
    ((top + alignment - 1) &&& ~~~(alignment - 1)).toNat =
      alignUp l.arena.stack.top alignment.toNat := by
  have hp : isPowerOfTwo alignment.toNat = true := isPowerOfTwo_iff.2 hk
  have hhalf : alignment.toNat ≤ greatestSpan := le_greatestSpan hp alignment.toNat_lt
  have hlimit : addressLimit = greatestSpan + greatestSpan := by decide
  have htop := hl.top_le
  have hspan : top.toNat + alignment.toNat ≤ addressLimit := by omega
  rw [← ht]
  exact NativeBridge.toNat_alignUp hp hspan

/-- In any run frames and blocks lie in order inside the extent, and the blocks aligned and apart.
A block is refused for three reasons only; the rounding in the third is to the least multiple, and comes
out the same in words. What faults changes nothing. -/
theorem run_ofExtent_orderly (hs : base + capacity ≤ greatestSpan) (memory : Memory)
    (ops : List Operation) :
    let l := (ofExtent base capacity memory).run ops
    let s := l.arena.stack
    (((base + capacity) :: s.top :: (s.frames ++ [base])).Pairwise (· ≥ ·) ∧
      s.used + s.remaining = capacity) ∧
    ((∀ g ∈ l.blocks, g.alignment ∣ g.start ∧ base ≤ g.start ∧ g.stop ≤ s.top) ∧
      l.blocks.Pairwise fun later earlier => earlier.stop ≤ later.start) ∧
    (∀ size alignment, (∃ e b, (Operation.allocate size alignment).run l.arena = .error e b) ↔
      s.live = false ∨ ¬alignment.isPowerOfTwo ∨
        base + capacity < alignUp s.top alignment + size) ∧
    (∀ alignment : Nat, alignment.isPowerOfTwo →
      IsLeast {n | s.top ≤ n ∧ alignment ∣ n} (alignUp s.top alignment)) ∧
    (∀ top alignment : UInt64, top.toNat = s.top → alignment.toNat.isPowerOfTwo →
      ((top + alignment - 1) &&& ~~~(alignment - 1)).toNat = alignUp s.top alignment.toNat) ∧
    ∀ op e b, Operation.run op l.arena = .error e b → b = l.arena := by
  intro l s
  have hl : Sound base capacity l := (sound_ofExtent memory).run hs ops
  have hp := hl.stacked.packed
  exact ⟨⟨hl.pairwise, hl.used_add_remaining⟩, ⟨fun _ => hp.mem, hp.pairwise⟩,
    hl.allocate_faults_iff hs, fun _ hk => isLeast_alignUp (isPowerOfTwo_iff.2 hk) s.top,
    fun _ _ => hl.toNat_alignUp hs, fun _ _ _ => Operation.eq_of_run_eq_error⟩

/-- Blocks in two frames, with a moved one, a closed frame, and two operations that fault. -/
theorem run_ofExtent_orderly_moved :
    let l := (ofExtent 1048576 64 .blank).run [.allocate 10 4, .scope,
      .reallocate (some 1048576) 12 16, .push, .allocate 1 1, .allocate 64 8, .close ⟨1⟩, .pop,
      .allocate 3 2]
    1048576 + 64 ≤ greatestSpan ∧
      l.blocks = [⟨1048604, 3, 2⟩, ⟨1048592, 12, 16⟩, ⟨1048576, 10, 4⟩] ∧
      (l.blocks.Pairwise fun later earlier => earlier.stop ≤ later.start) ∧
      l.arena.stack.used + l.arena.stack.remaining = 64 := by
  have hs : 1048576 + 64 ≤ greatestSpan := by decide
  intro l
  obtain ⟨⟨_, hu⟩, ⟨_, hp⟩, _⟩ := run_ofExtent_orderly hs .blank [.allocate 10 4, .scope,
    .reallocate (some 1048576) 12 16, .push, .allocate 1 1, .allocate 64 8, .close ⟨1⟩, .pop,
    .allocate 3 2]
  exact ⟨hs, by decide, hp, hu⟩

end Ledger

end NativeBridge
