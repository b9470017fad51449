import NativeBridge.Proofs.Memory.Ledger
import NativeBridge.Proofs.Memory.Runs

/-! # Blocks that move

A block that is given another size always moves behind all that was handed out. How much is copied
follows from how far the block lies below the top, not from its size; that is never less than the block
holds, and what is copied ends at the top at the latest, where the new block has not yet begun.
-/
namespace NativeBridge

namespace Arena

/-- Moving a block faults just where handing out a new one does. -/
theorem reallocate_eq_error_iff {a b : Arena} {old : Option Nat} {size alignment : Nat} {e : Fault} :
    reallocate old size alignment a = .error e b ↔
      onStack (Stack.allocate size alignment) a = .error e b := by
  simp only [reallocate, Run.bind_eq_error_iff, Run.get_ne_error, Run.get_eq_ok_iff, false_or]
  constructor
  · rintro ⟨_, _, ⟨rfl, rfl⟩, h | ⟨fresh, c, _, h⟩⟩
    · exact h
    · cases old with
      | none => exact absurd h Run.pure_ne_error
      | some address => exact absurd (Run.bind_pure_eq_error_iff.1 h) Run.modify_ne_error
  · intro h
    exact ⟨a, a, ⟨rfl, rfl⟩, .inl h⟩

/-- Moving a block writes no byte but those of the new one. -/
theorem byte_of_reallocate {a b : Arena} {old : Option Nat} {size alignment fresh x : Nat}
    (h : reallocate old size alignment a = .ok fresh b) (hx : x < fresh ∨ fresh + size ≤ x) :
    b.memory.byte x = a.memory.byte x := by
  obtain ⟨t, _, rfl⟩ := reallocate_eq_ok_iff.1 h
  cases old with
  | none => rfl
  | some address =>
    have hle : min size (a.stack.top - address) ≤ size := Nat.min_le_left ..
    exact Memory.byte_copy_of_outside (hx.imp_right (Nat.le_trans (Nat.add_le_add_left hle fresh)))

end Arena

namespace Ledger

open Arena

/-- How many bytes are copied when the block at `address` is to have `size`: what is in use from
there on, as far as it fits. -/
def copied (s : Stack) (address size : Nat) : Nat := min size (s.top - address)

/-- What comes of giving a block another size, or of asking for a first one: the new block begins at
`fresh`, and `a` becomes `b`. -/
structure Moves (blocks : List Grant) (old : Option Grant) (size alignment : Nat) (a : Arena)
    (fresh : Nat) (b : Arena) : Prop where
  /-- The stack is as it is after an allocation. -/
  allocated : onStack (Stack.allocate size alignment) a = .ok fresh { a with stack := b.stack }
  apart : ∀ g ∈ blocks, g.stop ≤ fresh
  contents : ∀ g, old = some g → b.memory.read fresh (min g.size size) =
    a.memory.read g.start (min g.size size)
  outside : ∀ x, x < fresh ∨ fresh + size ≤ x → b.memory.byte x = a.memory.byte x
  kept : ∀ g ∈ blocks, b.memory.read g.start g.size = a.memory.read g.start g.size
  /-- What is copied does not overlap what it is copied to. -/
  no_overlap : ∀ g, old = some g →
    b.memory = a.memory.copy fresh g.start (copied a.stack g.start size) ∧
      g.start + copied a.stack g.start size ≤ fresh

variable {base capacity : Nat} {l : Ledger} {old : Option Grant} {size alignment fresh : Nat}
  {memory : Memory} {b : Arena}

/-- No less is copied than a block holds, as far as it fits. -/
theorem min_le_copied {s : Stack} {g : Grant} (h : g.stop ≤ s.top) (size : Nat) :
    min g.size size ≤ copied s g.start size := by
  rw [Grant.stop] at h
  rw [copied]
  omega

theorem add_copied_le {s : Stack} {g : Grant} (h : g.stop ≤ s.top) (size : Nat) :
    g.start + copied s g.start size ≤ s.top := by
  rw [Grant.stop] at h
  rw [copied]
  omega

theorem Sound.moves (hl : Sound base capacity l) (hs : base + capacity ≤ greatestSpan)
    (hold : ∀ g, old = some g → g ∈ l.blocks)
    (h : Arena.reallocate (old.map Grant.start) size alignment ⟨l.arena.stack, memory⟩ =
      .ok fresh b) : Moves l.blocks old size alignment ⟨l.arena.stack, memory⟩ fresh b := by
  have houtside (x : Nat) := byte_of_reallocate (x := x) h
  obtain ⟨t, ht, rfl⟩ := reallocate_eq_ok_iff.1 h
  obtain ⟨_, hp, hfresh, _, _⟩ := (Stack.allocate_eq_ok_iff (hl.limit_lt hs)).1 ht
  have habove : l.arena.stack.top ≤ fresh := hfresh ▸ le_alignUp hp _
  have hbelow (g : Grant) (hg : g ∈ l.blocks) : g.stop ≤ l.arena.stack.top :=
    (hl.stacked.packed.mem hg).2.2
  refine ⟨onStack_eq_ok_iff.2 ⟨t, ht, rfl⟩, ?_, ?_, houtside, ?_, ?_⟩
  · intro g hg
    exact (hbelow g hg).trans habove
  · rintro g rfl
    exact Memory.read_copy _ _ _ (min_le_copied (hbelow g (hold g rfl)) size)
  · intro g hg
    refine List.map_congr_left fun i hi => houtside _ (.inl ?_)
    have hi := List.mem_range.1 hi
    have hend : g.start + g.size ≤ fresh := (hbelow g hg).trans habove
    omega
  · rintro g rfl
    exact ⟨rfl, (add_copied_le (hbelow g (hold g rfl)) size).trans habove⟩

/-- Whatever was done with a stack and written to memory before, a live block that is given another
size keeps the bytes that fit, at a place apart from all live blocks, whose bytes all stay; and where
there is no room for it nothing changes. -/
theorem run_reallocate_moves (hs : base + capacity ≤ greatestSpan) (start : Memory)
    (ops : List Operation) (old : Option Grant)
    (hold : ∀ g, old = some g → g ∈ ((ofExtent base capacity start).run ops).blocks)
    (size alignment : Nat) (memory : Memory) :
    let l := (ofExtent base capacity start).run ops
    let a : Arena := ⟨l.arena.stack, memory⟩
    (∀ fresh b, Arena.reallocate (old.map Grant.start) size alignment a = .ok fresh b →
      Moves l.blocks old size alignment a fresh b) ∧
    ∀ e b, Arena.reallocate (old.map Grant.start) size alignment a = .error e b →
      b = a ∧ onStack (Stack.allocate size alignment) a = .error e a := by
  intro l a
  have hl : Sound base capacity l := (sound_ofExtent start).run hs ops
  refine ⟨fun fresh b h => hl.moves hs hold h, fun e b h => ?_⟩
  have hb := eq_of_reallocate_eq_error h
  rw [reallocate_eq_error_iff, hb] at h
  exact ⟨hb, h⟩

/-- A block with another one behind it grows: what is copied reaches into the bytes between the two,
and still both are kept. -/
theorem run_reallocate_moves_grown :
    let l := (ofExtent 1048576 64 .blank).run [.allocate 5 4, .scope, .allocate 3 8]
    let memory := Memory.blank.write 1048576 [1, 2, 3, 4, 5, 6, 7, 8, 9, 10, 11]
    ∃ b, 1048576 + 64 ≤ greatestSpan ∧ l.blocks = [⟨1048584, 3, 8⟩, ⟨1048576, 5, 4⟩] ∧
      Arena.reallocate (some 1048576) 7 16 ⟨l.arena.stack, memory⟩ = .ok 1048592 b ∧
      b.memory.read 1048592 5 = [1, 2, 3, 4, 5] ∧ b.memory.read 1048576 5 = [1, 2, 3, 4, 5] ∧
      b.memory.read 1048584 3 = [9, 10, 11] ∧ b.stack.top = 1048599 := by
  intro l memory
  have hs : 1048576 + 64 ≤ greatestSpan := by decide
  have hblocks : l.blocks = [⟨1048584, 3, 8⟩, ⟨1048576, 5, 4⟩] := by decide
  have hstack : l.arena.stack = ⟨1048576, 64, 1048587, [1048581], true⟩ := by decide
  have ht : Stack.allocate 7 16 l.arena.stack =
    .ok 1048592 ⟨1048576, 64, 1048599, [1048581], true⟩ := by rw [hstack]; rfl
  have hr : ∃ b, Arena.reallocate (some 1048576) 7 16 ⟨l.arena.stack, memory⟩ = .ok 1048592 b ∧
      b.stack.top = 1048599 := ⟨_, reallocate_eq_ok_iff.2 ⟨_, ht, rfl⟩, rfl⟩
  obtain ⟨b, hr, htop⟩ := hr
  have hold : ∀ g, some (⟨1048576, 5, 4⟩ : Grant) = some g → g ∈ l.blocks := by
    intro g hg
    rw [← Option.some.inj hg, hblocks]
    decide
  have hm := (run_reallocate_moves hs .blank _ _ hold 7 16 memory).1 _ _ hr
  have hfirst := hm.kept ⟨1048576, 5, 4⟩ (by rw [hblocks]; decide)
  have hlast := hm.kept ⟨1048584, 3, 8⟩ (by rw [hblocks]; decide)
  exact ⟨b, hs, hblocks, hr, (hm.contents _ rfl).trans (by decide), hfirst.trans (by decide),
    hlast.trans (by decide), htop⟩

end Ledger

end NativeBridge
