import Mathlib.Tactic.SplitIfs
import NativeBridge.Symbol.Basic

/-! # Properties of decoders by their parts

What holds of the decoders that look at one thing, and is kept where decoders follow one another, holds
of everything that the format is made of: texts, lists, names, and, where it is kept in the nesting of
levels as well, types and what is built of them. A property is followed through the format once, here,
and each of its own is shown for the few decoders that are not made of others.
-/
namespace NativeBridge.Wire.Decoder

variable {P : (α : Type) → Decoder α → Prop} {α : Type}

/-- Had by the decoders that read bytes, and kept by decoders in a row. -/
structure Sequential (P : (α : Type) → Decoder α → Prop) : Prop where
  pure {α : Type} (a : α) : P α (Pure.pure a)
  throw {α : Type} (e : DecodeError) : P α (MonadExcept.throw e)
  bind {α β : Type} {d : Decoder α} {f : α → Decoder β} : P α d → (∀ a, P β (f a)) → P β (d >>= f)
  position : P Nat Decoder.position
  take (n : Nat) : P Bytes (Decoder.take n)
  byte : P UInt8 Decoder.byte

/-- Kept in the nesting of levels, too. -/
structure Nested (P : (α : Type) → Decoder α → Prop) : Prop extends Sequential P where
  peek : P UInt8 Decoder.peek
  enter : P Unit Decoder.enter
  leaving {α : Type} {d : Decoder α} : P α d → P α d.leaving
  atLevel {α : Type} {d : Nat → Decoder α} :
    (∀ budget, P α (d budget)) → P α fun r => d (maxNesting - r.depth) r

namespace Sequential
variable (h : Sequential P)
include h

theorem check {p : Prop} [Decidable p] {e : DecodeError} {next : Unit → Decoder α}
    (hn : P α (next ())) : P α (if p then MonadExcept.throw e >>= next else next ()) := by
  split
  · rename_i hp
    exact h.bind (h.throw e) fun _ => hn
  · exact hn

theorem word : P UInt32 Decoder.word := h.bind (h.take 4) fun _ => h.pure _

theorem int : P Int32 Decoder.int := h.bind h.word fun _ => h.pure _

theorem length : P Nat Decoder.length := h.bind h.word fun _ => h.pure _

theorem flag : P Bool Decoder.flag := by
  refine h.bind h.position fun offset => h.bind h.byte fun b => ?_
  split
  · exact h.pure _
  · exact h.pure _
  · exact h.throw _

theorem text : P String Decoder.text := by
  refine h.bind h.length fun n => h.bind h.position fun offset => h.bind (h.take n) fun bytes => ?_
  split
  · exact h.pure _
  · exact h.throw _

theorem items {item : Decoder α} (hi : P α item) (n : Nat) (acc : Array α) :
    P (List α) (Decoder.items item n acc) := by
  induction n generalizing acc with
  | zero => exact h.pure _
  | succ n ih => exact h.bind hi fun a => ih (acc.push a)

theorem list {item : Decoder α} (hi : P α item) : P (List α) (Decoder.list item) :=
  Decoder.list_eq item ▸ h.bind h.length fun n => h.items hi n #[]

theorem optional {item : Decoder α} (hi : P α item) : P (Option α) (Decoder.optional item) := by
  refine h.bind h.flag fun present => ?_
  split
  · exact h.bind hi fun _ => h.pure _
  · exact h.pure _

theorem name : P SymbolName SymbolName.decoder := by
  refine h.bind h.text fun full => h.bind h.text fun short => ?_
  split
  · exact h.pure _
  · exact h.throw _

theorem info : P SymbolInfo SymbolInfo.decoder :=
  h.bind h.name fun _ => h.bind h.int fun _ => h.bind h.int fun _ => h.bind h.text fun _ => h.pure _

theorem builtinBody : P Ty Ty.builtinBody := by
  refine h.bind h.position fun offset => h.bind h.byte fun ordinal => ?_
  split
  · exact h.pure _
  · exact h.throw _

theorem argumentWith {inner : Decoder Ty} (hi : P Ty inner) :
    P TypeArgument (Ty.argumentWith inner) := by
  refine h.bind (h.optional hi) fun o => ?_
  cases o with
  | none => exact h.pure _
  | some t => exact h.pure _

/-- The parts of a type, from those of the types inside it. -/
theorem tagged {inner : Decoder Ty} (hi : P Ty inner) (start : Nat) (tag : UInt8) :
    P Ty (Ty.tagged inner start tag) := by
  have hbody {body : Decoder Ty} (hb : P Ty body) : P Ty (do let _ ← Decoder.byte; body) :=
    h.bind h.byte fun _ => hb
  unfold Ty.tagged
  split_ifs
  · exact hbody h.builtinBody
  · exact hbody (h.bind hi fun _ => h.bind h.position fun _ => h.bind h.word fun _ =>
      h.check (h.pure _))
  · exact hbody (h.bind h.name fun _ => h.bind (h.list hi) fun _ => h.pure _)
  · exact hbody (h.bind h.name fun _ => h.pure _)
  · exact hbody (h.bind hi fun _ => h.bind (h.list (h.argumentWith hi)) fun _ => h.pure _)
  · exact h.throw _

end Sequential

namespace Nested
variable (h : Nested P)
include h

theorem typeWithin (budget : Nat) : P Ty (Ty.decodeWithin budget) := by
  induction budget with
  | zero => exact h.bind h.position fun _ => h.throw _
  | succ budget ih =>
    refine h.bind h.position fun start => h.bind h.enter fun _ => h.bind h.peek fun tag => ?_
    exact h.bind (h.leaving (h.tagged ih start tag)) fun t => h.check (h.pure t)

theorem type : P Ty Ty.decoder := h.atLevel h.typeWithin

theorem signature : P Signature Signature.decoder :=
  have ht := h.type
  h.bind ht fun _ => h.bind (h.list ht) fun _ => h.bind (h.optional ht) fun _ =>
    h.bind (h.optional ht) fun _ => h.bind (h.list ht) fun _ => h.pure _

theorem variant (tag : UInt8) : P SymbolVariant (SymbolVariant.decoder tag) := by
  unfold SymbolVariant.decoder
  split_ifs
  · exact h.bind h.signature fun _ => h.pure _
  · exact h.pure _
  · exact h.bind (h.list h.type) fun _ => h.pure _

/-- All of a symbol that stands behind its identifier. -/
theorem behindId (tag : UInt8) (raw : UInt32) : P Symbol (do
    let info ← SymbolInfo.decoder
    let origin ← Decoder.optional SymbolInfo.decoder
    let typeArguments ← Decoder.list Ty.decoder
    let variant ← SymbolVariant.decoder tag
    return { id := ⟨raw⟩, info, origin, typeArguments, variant }) :=
  h.bind h.info fun _ => h.bind (h.optional h.info) fun _ => h.bind (h.list h.type) fun _ =>
    h.bind (h.variant tag) fun _ => h.pure _

end Nested

end NativeBridge.Wire.Decoder
