import NativeBridge.Proofs.Call.Confined
import NativeBridge.Proofs.Call.Nest
import NativeBridge.Proofs.Value.Word

/-! # Calls of callbacks

What carries a call hands the bytes of the arguments over as they are and brings the low bytes of the
result word back. Then a callback finds the entries of its caller in a buffer of its own, and the caller
gets what the callback returned as the kind that both declare. After the call the stack and the caller's
entries are what they were before just if the callback has closed the frames that it opened, and no
others, and has not written to the entries; confined callbacks, which may call callbacks in turn, are
such.
-/
namespace NativeBridge

open BufferM

/-- What stands between a caller and a callback: how it hands over arguments, and which word it
brings back for the result of a kind. -/
structure Carrier where
  arguments : List Passed → List Passed
  result : CallKind → Nat → Nat

namespace Carrier

variable {σ : Type}

/-- The native code of a callback as a caller finds it. -/
def code (c : Carrier) (returns : CallKind) (callback : Callback σ) : NativeCode σ := fun arguments => do
  let word ← Upcall.code returns callback (c.arguments arguments)
  return c.result returns word

/-- Arguments are handed over unchanged, and of a result the bytes of its kind are brought back. -/
structure Faithful (c : Carrier) : Prop where
  arguments_eq : ∀ ps, c.arguments ps = ps
  result_mod : ∀ k word, c.result k word % Nat.pow 256 k.size = word % Nat.pow 256 k.size

end Carrier

/-! ## What is handed over -/

namespace Call

variable {σ : Type} {d : Descriptor} {ts : List Tag} {ks : List CallKind}

/-- The entries that kinds ask for. -/
def single (k : CallKind) : Tag := ⟨k, 1⟩

theorem checkEntries_eq_none_iff {index : Nat} (h : ts.length = ks.length) :
    checkEntries d index ts ks = none ↔ ts = ks.map single := by
  induction ts generalizing ks index with
  | nil =>
    obtain rfl := List.length_eq_zero_iff.1 h.symm
    simp [checkEntries]
  | cons t ts ih =>
    obtain ⟨k, ks, rfl⟩ := List.exists_cons_of_length_eq_add_one h.symm
    have hl : ts.length = ks.length := Nat.succ.inj h
    rw [checkEntries, List.map_cons, List.cons.injEq, ← @ih ks (index + 1) hl]
    obtain ⟨kind, count⟩ := t
    split_ifs with hc hk
    · simp [single, hc]
    · simp [single, hk]
    · simp only [ne_eq, not_not] at hc hk
      simp [single, hc, hk]

theorem mismatch?_eq_none_iff : mismatch? d ts = none ↔ ts = d.parameters.map single := by
  unfold mismatch?
  split
  · rename_i hl
    simp only [reduceCtorEq, false_iff]
    rintro rfl
    exact hl (List.length_map _)
  · rename_i hl
    exact checkEntries_eq_none_iff (not_not.1 hl)

/-- The bytes of arguments one behind the other. -/
def bytesOf (ps : List Passed) : List UInt8 := ps.flatMap Passed.bytes

end Call

namespace Frame
open Call

variable {σ : Type}

/-- The frame with single values of these kinds, of these bytes together, put on top of the stack. -/
def holding (f : Frame σ) (ks : List CallKind) (bytes : List UInt8) : Frame σ := { f with
  arena := ⟨{ f.arena.stack with top := f.arena.stack.top + bytes.length },
    f.arena.memory.write f.arena.stack.top bytes⟩
  buffer := { f.buffer with
    tags := f.buffer.tags ++ ks.map single, size := f.buffer.size + bytes.length } }

theorem holding_nil (f : Frame σ) : f.holding [] [] = f := by
  rw [holding, Memory.write_nil, List.map_nil, List.append_nil]
  rfl

theorem holding_holding (f : Frame σ) (ks ls : List CallKind) (xs ys : List UInt8) :
    (f.holding ks xs).holding ls ys = f.holding (ks ++ ls) (xs ++ ys) := by
  simp only [holding, Memory.write_write, List.map_append, List.append_assoc, List.length_append,
    Nat.add_assoc]

end Frame

namespace Upcall
open Call

variable {σ : Type} {f : Frame σ} {ps : List Passed}

/-- Arguments become entries one behind the other at the top of the stack. -/
theorem receive_eq_ok (hs : f.arena.stack.limit + 1 < addressLimit)
    (hd : f.arena.stack.depth = f.buffer.scope.depth) (hlive : f.arena.stack.live = true)
    (hend : f.buffer.base + f.buffer.size = f.arena.stack.top)
    (hb : ∀ p ∈ ps, p.bytes.length = p.kind.size)
    (hroom : f.arena.stack.top + (bytesOf ps).length ≤ f.arena.stack.limit) :
    receive ps f = .ok () (f.holding (ps.map Passed.kind) (bytesOf ps)) := by
  induction ps generalizing f with
  | nil => exact congrArg _ f.holding_nil.symm
  | cons p ps ih =>
    have hsize : (single p.kind).size = p.bytes.length :=
      (Nat.mul_one _).trans (hb p List.mem_cons_self).symm
    rw [bytesOf, List.flatMap_cons, List.length_append, ← Nat.add_assoc] at hroom
    have hput : putRaw p.kind p.bytes f = .ok () (f.holding [p.kind] p.bytes) := by
      refine (append_eq_ok_iff hs).2 ⟨hd, hlive, hend, ?_, ?_⟩
      · exact hsize ▸ (Nat.le_add_right _ _).trans hroom
      · rw [Frame.holding, ← hsize]
        rfl
    have hend' : f.buffer.base + (f.buffer.size + p.bytes.length) =
      f.arena.stack.top + p.bytes.length := by omega
    have hrest := @ih (f.holding [p.kind] p.bytes) hs hd hlive hend'
      (fun q hq => hb q (List.mem_cons_of_mem p hq)) hroom
    rw [Frame.holding_holding] at hrest
    rw [receive, Run.bind_of_ok hput]
    exact hrest

/-- The frame in which a callback runs that is called from the buffer of another frame. -/
def entered (f : Frame σ) : Frame σ :=
  (Thread.opened ⟨f.arena, f.own⟩).holding (f.buffer.tags.map Tag.kind)
    (f.buffer.contents f.arena.memory)

/-- A call can be made from the buffer of the frame: its entries are those of the descriptor, it lies
below the top of the stack or on another stack, and there is room for the callback's buffer. -/
structure Callable (d : Descriptor) (f : Frame σ) : Prop where
  accepted : mismatch? d f.buffer.tags = none
  size_eq : f.buffer.size = ArgumentBuffer.extent f.buffer.tags
  apart : Apart f.buffer.base (f.buffer.base + f.buffer.size) f.arena.stack
  live : f.arena.stack.live = true
  room : alignUp f.arena.stack.top Arena.extentAlignment + f.buffer.size ≤ f.arena.stack.limit

variable {d : Descriptor} {c : Carrier} {callback : Callback σ}

theorem Callable.tags_eq (h : Callable d f) : f.buffer.tags = d.parameters.map single :=
  mismatch?_eq_none_iff.1 h.accepted

end Upcall

namespace Call
open Upcall

variable {σ α : Type} {f g : Frame σ} {d : Descriptor} {c : Carrier} {callback : Callback σ}

theorem onThread_eq_ok_iff {op : ThreadM σ α} {a : α} : onThread op f = .ok a g ↔
    ∃ t, op ⟨f.arena, f.own⟩ = .ok a t ∧ g = { f with arena := t.arena, own := t.own } := by
  unfold onThread
  cases op ⟨f.arena, f.own⟩ with
  | ok b t =>
    simp only [EStateM.Result.ok.injEq]
    constructor
    · rintro ⟨rfl, rfl⟩
      exact ⟨t, ⟨rfl, rfl⟩, rfl⟩
    · rintro ⟨_, ⟨rfl, rfl⟩, rfl⟩
      exact ⟨rfl, rfl⟩
  | error e t => simp

theorem callValue_of_accepted {code : NativeCode σ} (h : mismatch? d f.buffer.tags = none) :
    callValue (some code) d f =
      (do let word ← onThread (code (passed d f)); return decodeWord d.returns word) f := by
  have hget : (get : BufferM σ (Frame σ)) f = .ok f f := rfl
  rw [callValue, Run.bind_of_ok hget, h]

end Call

section
open Call Upcall

variable {σ : Type} {c : Carrier} {d : Descriptor} {f g : Frame σ} {callback : Callback σ} {v : Value}

end

/-- Callbacks may be called within callbacks. -/
theorem Confined.code {σ : Type} {first last : Nat} {c : Carrier} (hc : c.Faithful) (k : CallKind)
    {callback : Callback σ} (hcallback : Confined first last callback) {ps : List Passed}
    (hb : ∀ p ∈ ps, p.bytes.length = p.kind.size) :
    Confined first last (Call.onThread (c.code k callback ps)) := by
  rw [Carrier.code, hc.arguments_eq, Upcall.code, Call.onThread_bind, Call.onThread_bind]
  refine Confined.next ?_ fun word => .pure _
  exact (buffered ((receive hb).next fun _ => hcallback)).next fun v => .pure _

end NativeBridge
