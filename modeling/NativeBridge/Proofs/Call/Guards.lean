import Mathlib.Logic.Relation
import NativeBridge.Proofs.Call.Frames

/-! # Guards of frames

A guard knows its frame by nothing but a depth. Guards are dropped in any order, also while a panic
unwinds, and one that is dropped out of order leaves its frame behind for good. All frames that were
ever opened are numbered, with the stack as it was just before. Those that stand were opened one on the
other, so that their depths tell them apart.
-/
namespace NativeBridge

/-- What is dropped to close a frame. -/
inductive Guard where
  | scope (s : Scope)
  | buffer (b : ArgumentBuffer)

namespace Guard

/-- The frame that a guard believes to be its own. -/
def frame : Guard → Scope
  | .scope s => s
  | .buffer b => b.scope

def drop : Guard → Arena.ArenaM Unit
  | .scope s => Arena.onStack (Stack.close s)
  | .buffer b => b.release

/-- Drops a guard while a panic unwinds. -/
def dropQuietly : Guard → Arena.ArenaM Unit
  | .scope s => Arena.onStack (Stack.closeQuietly s)
  | .buffer b => b.releaseQuietly

theorem drop_eq (g : Guard) : g.drop = Arena.onStack (Stack.close g.frame) := by
  cases g <;> rfl

theorem dropQuietly_eq (g : Guard) :
    g.dropQuietly = Arena.onStack (Stack.closeQuietly g.frame) := by
  cases g <;> rfl

end Guard

/-- A frame that was opened, by hand where no guard is kept, and the stack just before. -/
structure Opening where
  guard : Option Guard
  before : Stack

/-- What a guard knows of the stack it was acquired on, in an extent that ends at `limit`. -/
structure Opening.Fits (limit : Nat) (o : Opening) : Prop where
  depth_eq : ∀ guard, o.guard = some guard → guard.frame.depth = o.before.depth + 1
  base_eq : ∀ b, o.guard = some (.buffer b) →
    b.base = alignUp o.before.top Arena.extentAlignment ∧ endOf b.base 0 ≤ limit

/-- The stack as it was before a frame was opened, in the extent as it is now. -/
def Stack.backTo (s before : Stack) : Stack := { s with top := before.top, frames := before.frames }

/-- An arena, the frames that were ever opened, the numbers of those that stand, the innermost first,
and the numbers of those whose guards are held. -/
structure Tower where
  arena : Arena
  openings : List Opening
  standing : List Nat
  held : List Nat

namespace Tower

open Arena

def ofExtent (base capacity : Nat) (memory : Memory) : Tower :=
  ⟨⟨.ofExtent base capacity, memory⟩, [], [], []⟩

def opened (t : Tower) (a : Arena) (guard : Guard) : Tower :=
  ⟨a, t.openings ++ [⟨some guard, t.arena.stack⟩], t.openings.length :: t.standing,
    t.openings.length :: t.held⟩

def dropped (t : Tower) (a : Arena) (n : Nat) (standing : List Nat) : Tower :=
  ⟨a, t.openings, standing, t.held.filter (· ≠ n)⟩

/-- The stacks on which the frames were opened. -/
def befores (t : Tower) : List Stack := t.openings.map Opening.before

/-- The guard of frame `n`, which is still held. -/
structure Holds (t : Tower) (n : Nat) (guard : Guard) (before : Stack) : Prop where
  held : n ∈ t.held
  opening : t.openings[n]? = some ⟨some guard, before⟩

/-- What may happen on one stack. A frame is popped by hand only where it was pushed by hand, and no
guard is dropped twice; all else may come in any order, and may fault. -/
inductive Step : Tower → Tower → Prop
  | scope {t : Tower} {a : Arena} {scope : Scope} (run : onStack Stack.scope t.arena = .ok scope a) :
      Step t (t.opened a (.scope scope))
  | acquire {t : Tower} {a : Arena} {b : ArgumentBuffer}
      (run : ArgumentBuffer.acquire t.arena = .ok b a) : Step t (t.opened a (.buffer b))
  | acquireFaults {t : Tower} {a : Arena} {e : Fault}
      (run : ArgumentBuffer.acquire t.arena = .error e a) : Step t { t with arena := a }
  | drop {t : Tower} {a : Arena} {n : Nat} {guard : Guard} {before : Stack}
      (holds : t.Holds n guard before) (run : guard.drop t.arena = .ok () a) :
      Step t (t.dropped a n t.standing.tail)
  | dropFaults {t : Tower} {a : Arena} {n : Nat} {guard : Guard} {before : Stack} {e : Fault}
      (holds : t.Holds n guard before) (run : guard.drop t.arena = .error e a) :
      Step t (t.dropped a n t.standing)
  | dropQuietly {t : Tower} {a : Arena} {n : Nat} {guard : Guard} {before : Stack}
      (holds : t.Holds n guard before) (run : guard.dropQuietly t.arena = .ok () a) :
      Step t (t.dropped a n
        (if t.arena.stack.isInnermost guard.frame then t.standing.tail else t.standing))
  | push {t : Tower} {a : Arena} (run : onStack Stack.push t.arena = .ok () a) :
      Step t { t with
        arena := a
        openings := t.openings ++ [⟨none, t.arena.stack⟩]
        standing := t.openings.length :: t.standing }
  | pop {t : Tower} {a : Arena} {n : Nat} {before : Stack} (innermost : t.standing.head? = some n)
      (byHand : t.openings[n]? = some ⟨none, before⟩) (run : onStack Stack.pop t.arena = .ok () a) :
      Step t { t with arena := a, standing := t.standing.tail }
  | allocate {t : Tower} {a : Arena} {size alignment : Nat}
      (run : Run.Ends (onStack (Stack.allocate size alignment)) t.arena a) :
      Step t { t with arena := a }
  | reallocate {t : Tower} {a : Arena} {old : Option Nat} {size alignment : Nat}
      (run : Run.Ends (Arena.reallocate old size alignment) t.arena a) : Step t { t with arena := a }
  | put {t : Tower} {n : Nat} {b : ArgumentBuffer} {before : Stack} {tag : Tag} {bytes : List UInt8}
      {f : Frame Unit} (holds : t.Holds n (.buffer b) before)
      (run : Run.Ends (BufferM.append tag bytes) ⟨t.arena, b, ()⟩ f) :
      Step t { t with
        arena := f.arena
        openings := t.openings.set n ⟨some (.buffer f.buffer), before⟩ }
  | release (t : Tower) :
      Step t { t with arena := { t.arena with stack := t.arena.stack.release } }

/-- Frames that stand on each other, with the addresses they go back to; each was opened when just
those below it stood. -/
inductive Standing (befores : List Stack) : List Nat → List Nat → Prop
  | nothing : Standing befores [] []
  | frame {n : Nat} {numbers frames : List Nat} {s : Stack} (opening : befores[n]? = some s)
      (latest : ∀ m ∈ numbers, m < n) (frames_eq : s.frames = frames)
      (below : Standing befores numbers frames) :
      Standing befores (n :: numbers) (s.top :: frames)

variable {befores : List Stack} {numbers frames : List Nat} {s : Stack} {n : Nat}

theorem Standing.lt_length (h : Standing befores numbers frames) (hn : n ∈ numbers) :
    n < befores.length := by
  cases h with
  | nothing => exact absurd hn List.not_mem_nil
  | @frame m numbers frames s hm hlatest _ _ =>
    have hlt : m < befores.length := (List.getElem?_eq_some_iff.1 hm).1
    rcases List.mem_cons.1 hn with rfl | hn
    · exact hlt
    · exact (hlatest n hn).trans hlt

theorem Standing.append (h : Standing befores numbers frames) (more : List Stack) :
    Standing (befores ++ more) numbers frames := by
  induction h with
  | nothing => exact .nothing
  | frame hn hlatest hframes _ ih =>
    have hlt := (List.getElem?_eq_some_iff.1 hn).1
    exact .frame ((List.getElem?_append_left hlt).trans hn) hlatest hframes ih

theorem Standing.opened (h : Standing befores numbers frames) (hf : s.frames = frames) :
    Standing (befores ++ [s]) (befores.length :: numbers) (s.top :: frames) :=
  .frame List.getElem?_concat_length (fun _ hm => h.lt_length hm) hf (h.append [s])

/-- A frame that stands is as deep as the frames that stood when it was opened say. -/
theorem Standing.lt_length_frames (h : Standing befores numbers frames) (hn : n ∈ numbers)
    (ho : befores[n]? = some s) : s.frames.length < frames.length := by
  induction h with
  | nothing => exact absurd hn List.not_mem_nil
  | @frame m numbers frames s' hm _ hframes _ ih =>
    rcases List.mem_cons.1 hn with rfl | hn
    · have heq : s' = s := Option.some.inj (hm.symm.trans ho)
      rw [← heq, hframes]
      exact Nat.lt_succ_self _
    · exact (ih hn).trans (Nat.lt_succ_self _)

/-- Among the frames that stand the depth tells which is the innermost. -/
theorem Standing.length_frames_eq_iff (h : Standing befores numbers frames) (hn : n ∈ numbers)
    (ho : befores[n]? = some s) :
    frames.length = s.frames.length + 1 ↔ ∀ m ∈ numbers, m ≤ n := by
  cases h with
  | nothing => exact absurd hn List.not_mem_nil
  | @frame m numbers frames s' hm hlatest hframes hbelow =>
    constructor
    · intro hlen
      rcases List.mem_cons.1 hn with rfl | hn
      · intro k hk
        rcases List.mem_cons.1 hk with rfl | hk
        · exact le_rfl
        · exact (hlatest k hk).le
      · -- a frame further down was opened when fewer stood
        have hlt := hbelow.lt_length_frames hn ho
        rw [List.length_cons] at hlen
        omega
    · intro hall
      rcases List.mem_cons.1 hn with rfl | hn
      · have heq : s' = s := Option.some.inj (hm.symm.trans ho)
        rw [← heq, hframes, List.length_cons]
      · have hlt := hlatest n hn
        have hle := hall m List.mem_cons_self
        omega

/-- The last frame to be opened is the innermost, and goes back to the stack before it. -/
theorem Standing.of_last (h : Standing befores numbers frames) (hn : n ∈ numbers)
    (hb : befores[n]? = some s) (hl : ∀ m ∈ numbers, m ≤ n) :
    numbers = n :: numbers.tail ∧ frames = s.top :: s.frames ∧
      Standing befores numbers.tail s.frames := by
  cases h with
  | nothing => exact absurd hn List.not_mem_nil
  | @frame m numbers frames s' hm hlatest hframes hbelow =>
    have hmn : n = m := by
      rcases List.mem_cons.1 hn with hfirst | hn
      · exact hfirst
      · exact absurd (hl m List.mem_cons_self) (not_le.2 (hlatest n hn))
    have heq : s' = s := Option.some.inj (hm.symm.trans (hmn ▸ hb))
    rw [← heq, hframes, hmn]
    exact ⟨rfl, rfl, hbelow⟩

theorem Standing.le_of_head (h : Standing befores numbers frames)
    (hn : numbers.head? = some n) : ∀ m ∈ numbers, m ≤ n := by
  cases h with
  | nothing => cases hn
  | frame _ hlatest _ _ =>
    cases hn
    intro m hm
    rcases List.mem_cons.1 hm with rfl | hm
    · exact le_rfl
    · exact (hlatest m hm).le

/-- No two frames that stand are equally deep. -/
theorem Standing.eq_of_length_eq (h : Standing befores numbers frames) {m : Nat} {s' : Stack}
    (hn : n ∈ numbers) (ho : befores[n]? = some s) (hm : m ∈ numbers)
    (ho' : befores[m]? = some s')
    (heq : s.frames.length = s'.frames.length) : n = m := by
  induction h with
  | nothing => exact absurd hn List.not_mem_nil
  | @frame k numbers frames q hk _ hframes hbelow ih =>
    have hq : ∀ p : Stack, befores[k]? = some p → p.frames.length = frames.length := by
      intro p hp
      rw [← Option.some.inj (hk.symm.trans hp), hframes]
    rcases List.mem_cons.1 hn with hfirst | hbelow_n
    · subst hfirst
      rcases List.mem_cons.1 hm with hfirst | hbelow_m
      · exact hfirst.symm
      · have hlt := hbelow.lt_length_frames hbelow_m ho'
        rw [← heq, hq s ho] at hlt
        exact absurd hlt (Nat.lt_irrefl _)
    · rcases List.mem_cons.1 hm with hfirst | hbelow_m
      · subst hfirst
        have hlt := hbelow.lt_length_frames hbelow_n ho
        rw [heq, hq s' ho'] at hlt
        exact absurd hlt (Nat.lt_irrefl _)
      · exact ih hbelow_n hbelow_m

end Tower

end NativeBridge
