import NativeBridge.Call.Boundary
import NativeBridge.Proofs.Call.Offering
import NativeBridge.Proofs.Call.Upcall
import NativeBridge.Proofs.Type.Nodes

/-! # Signatures and the buffers for them

The layout of a type and the kind as which it crosses a call are found apart from each other, and
agree. So a buffer that a descriptor accepts is laid out as the types of the signature are that the
descriptor was made of, receivers before parameters.
-/
namespace NativeBridge

/-! ## Types that cross -/

namespace Ty

/-- The kind as which a type crosses. Applications are looked through. -/
inductive Crosses : Ty → CallKind → Prop
  | builtin (k : Kind) : Crosses (.builtin k) (.ofKind k)
  | reference (n : SymbolName) : Crosses (.reference n) .pointer
  | cone {g : Ty} {k : CallKind} (as : List TypeArgument) (generic : Crosses g k) :
      Crosses (.cone g as) k

/-- The array or the struct on account of which a type does not cross. -/
inductive Stuck : Ty → Ty → Prop
  | array (e : Ty) (d : UInt32) : Stuck (.array e d) (.array e d)
  | struct (n : SymbolName) (fs : List Ty) : Stuck (.struct n fs) (.struct n fs)
  | cone {g u : Ty} (as : List TypeArgument) (generic : Stuck g u) : Stuck (.cone g as) u

variable {t u : Ty} {k : CallKind} {e : CallError}

theorem callKind_eq_ok_iff : t.callKind = .ok k ↔ t.Crosses k := by
  constructor
  · intro h
    induction t using Ty.inductionOn with
    | builtin l =>
      cases h
      exact .builtin _
    | reference n =>
      cases h
      exact .reference n
    | cone g as ih => exact .cone as (ih h)
    | _ => cases h
  · intro h
    induction h with
    | cone as _ ih => exact ih
    | _ => rfl

theorem callKind_eq_error_iff :
    t.callKind = .error e ↔ ∃ u, t.Stuck u ∧ e = .unsupportedType u.text := by
  constructor
  · intro h
    induction t using Ty.inductionOn with
    | array f d =>
      cases h
      exact ⟨_, .array f d, rfl⟩
    | struct n fs =>
      cases h
      exact ⟨_, .struct n fs, rfl⟩
    | cone g as ih =>
      obtain ⟨u, hu, rfl⟩ := ih h
      exact ⟨u, .cone as hu, rfl⟩
    | _ => cases h
  · rintro ⟨u, hu, rfl⟩
    induction hu with
    | cone as _ ih => exact ih
    | _ => rfl

theorem exists_crosses_iff : (∃ k, t.Crosses k) ↔ ∀ u, ¬t.Stuck u := by
  simp only [← callKind_eq_ok_iff]
  constructor
  · rintro ⟨k, hk⟩ u hu
    cases hk.symm.trans (callKind_eq_error_iff.2 ⟨u, hu, rfl⟩)
  · intro h
    cases hk : t.callKind with
    | ok k => exact ⟨k, rfl⟩
    | error e =>
      obtain ⟨u, hu, _⟩ := callKind_eq_error_iff.1 hk
      exact absurd hu (h u)

theorem Crosses.checkedSize_eq (h : t.Crosses k) : t.checkedSize = some k.size := by
  induction h with
  | builtin k => rw [checkedSize, CallKind.size_ofKind]
  | reference n => rfl
  | cone as _ ih => exact ih

theorem Crosses.size_eq (h : t.Crosses k) : t.size = k.size := by
  rw [size, h.checkedSize_eq, Option.getD_some]

theorem Crosses.alignment_eq (h : t.Crosses k) : t.alignment = k.alignment := by
  induction h with
  | builtin k => rw [alignment, CallKind.alignment_ofKind]
  | reference n => rfl
  | cone as _ ih => exact ih

end Ty

namespace Descriptor

variable {t u returns : Ty} {ts before after parameters : List Ty} {ks : List CallKind} {d : Descriptor}
  {e : CallError}

theorem callKinds_eq_ok_iff : callKinds ts = .ok ks ↔ List.Forall₂ Ty.Crosses ts ks := by
  induction ts generalizing ks with
  | nil => simp [callKinds, eq_comm]
  | cons t ts ih =>
    rw [callKinds, List.forall₂_cons_left_iff]
    simp only [← Ty.callKind_eq_ok_iff, ← ih]
    cases t.callKind with
    | error e => simp [bind, Except.bind]
    | ok k =>
      cases callKinds ts with
      | error e => simp [bind, Except.bind]
      | ok ls => simp [bind, Except.bind, pure, Except.pure, eq_comm]

/-- Kinds are found up to the first type that does not cross. -/
theorem callKinds_of_stuck (hb : ∀ p ∈ before, ∀ u, ¬p.Stuck u) (hu : t.Stuck u) :
    callKinds (before ++ t :: after) = .error (.unsupportedType u.text) := by
  induction before with
  | nil =>
    rw [List.nil_append, callKinds, Ty.callKind_eq_error_iff.2 ⟨u, hu, rfl⟩]
    rfl
  | cons p before ih =>
    obtain ⟨k, hk⟩ := Ty.exists_crosses_iff.2 (hb p List.mem_cons_self)
    rw [List.cons_append, callKinds, Ty.callKind_eq_ok_iff.2 hk,
      ih fun q hq => hb q (List.mem_cons_of_mem p hq)]
    rfl

theorem exists_callKinds_iff : (∃ ks, callKinds ts = .ok ks) ↔ ∀ t ∈ ts, ∀ u, ¬t.Stuck u := by
  simp only [callKinds_eq_ok_iff, exists_forall₂_iff, Ty.exists_crosses_iff]

/-- A descriptor has the kind of what is returned and then those of the parameters. -/
theorem ofTypes_eq_ok_iff : ofTypes returns parameters = .ok d ↔
    callKinds (returns :: parameters) = .ok (d.returns :: d.parameters) := by
  obtain ⟨k, ks⟩ := d
  rw [ofTypes, callKinds]
  cases returns.callKind with
  | error e => simp [bind, Except.bind]
  | ok l => cases callKinds parameters <;> simp [bind, Except.bind, pure, Except.pure]

theorem ofTypes_eq_error_iff :
    ofTypes returns parameters = .error e ↔ callKinds (returns :: parameters) = .error e := by
  rw [ofTypes, callKinds]
  cases returns.callKind with
  | error e => simp [bind, Except.bind]
  | ok l => cases callKinds parameters <;> simp [bind, Except.bind, pure, Except.pure]

theorem exists_ofTypes_iff : (∃ d, ofTypes returns parameters = .ok d) ↔
    ∀ t ∈ returns :: parameters, ∀ u, ¬t.Stuck u := by
  rw [← exists_callKinds_iff]
  simp only [ofTypes_eq_ok_iff]
  constructor
  · rintro ⟨d, hd⟩
    exact ⟨_, hd⟩
  · rintro ⟨ks, hks⟩
    cases callKinds_eq_ok_iff.1 hks with
    | @cons _ k _ ks => exact ⟨⟨k, ks⟩, hks⟩

end Descriptor

/-! ## Buffers that are accepted -/

namespace ArgumentBuffer
open BufferM

/-- What may be done with an open buffer. -/
inductive Handling where
  | put (v : Value)
  | putValue (v : Value)
  | putArray (k : CallKind) (vs : List Value)
  | putAll (idText : RuntimeType → String) (os : List Offered)
  | putRaw (k : CallKind) (bytes : List UInt8)
  | read (r : Reading)

def Handling.run : Handling → BufferM Unit Unit
  | put v => BufferM.put v
  | putValue v => BufferM.putValue v
  | putArray k vs => BufferM.putArray k vs
  | putAll idText os => BufferM.putAll idText os
  | putRaw k bytes => BufferM.putRaw k bytes
  | read r => do
    let _ ← r.run
    return ()

/-- The buffers there are, whatever else happens on their stacks and in memory. -/
inductive Handled : ArgumentBuffer → Prop
  | acquired {a c : Arena} {b : ArgumentBuffer} (run : acquire a = .ok b c) : Handled b
  | handled {f g : Frame Unit} (h : Handling) (before : Handled f.buffer)
      (run : Run.Ends h.run f g) : Handled g.buffer

/-- The size of a buffer is that of its entries. -/
def Measured (b : ArgumentBuffer) : Prop := b.size = extent b.tags

/-- An action that leaves a measured buffer measured, be it by an error. -/
def Measures {σ α : Type} (p : BufferM σ α) : Prop :=
  ∀ f g, Run.Ends p f g → f.buffer.Measured → g.buffer.Measured

namespace Measures

variable {σ α β : Type}

theorem pure (a : α) : Measures (Pure.pure a : BufferM σ α) := by
  rintro f g (⟨_, h⟩ | ⟨_, h⟩) hf
  · rwa [(Run.pure_eq_ok_iff.1 h).2]
  · exact absurd h Run.pure_ne_error

theorem fail (e : Failure) : Measures (throw e : BufferM σ α) := by
  rintro f g (⟨_, h⟩ | ⟨_, h⟩) hf
  · exact absurd h Run.throw_ne_ok
  · rwa [(Run.throw_eq_error_iff.1 h).2]

theorem look : Measures (get : BufferM σ (Frame σ)) := by
  rintro f g (⟨_, h⟩ | ⟨_, h⟩) hf
  · rwa [(Run.get_eq_ok_iff.1 h).2]
  · exact absurd h Run.get_ne_error

theorem bind {p : BufferM σ α} {q : α → BufferM σ β} (hp : Measures p) (hq : ∀ a, Measures (q a)) :
    Measures (p >>= q) := by
  rintro f h (⟨b, hr⟩ | ⟨e, hr⟩) hf
  · obtain ⟨a, g, hg, hh⟩ := Run.bind_eq_ok_iff.1 hr
    exact hq a g h (.inl ⟨b, hh⟩) (hp f g (.inl ⟨a, hg⟩) hf)
  · obtain hh | ⟨a, g, hg, hh⟩ := Run.bind_eq_error_iff.1 hr
    · exact hp f h (.inr ⟨e, hh⟩) hf
    · exact hq a g h (.inr ⟨e, hh⟩) (hp f g (.inl ⟨a, hg⟩) hf)

/-- A check that lets go on what passes it. -/
theorem check {c : Prop} [Decidable c] {e : Fault} {q : Unit → BufferM σ α} (hq : Measures (q ())) :
    Measures (if c then fault e >>= q else q ()) := by
  split
  · exact (fail _).bind fun _ => hq
  · exact hq

theorem update {change : Frame σ → Frame σ}
    (hc : ∀ f, f.buffer.Measured → (change f).buffer.Measured) :
    Measures (modify change : BufferM σ PUnit) := by
  rintro f g (⟨_, h⟩ | ⟨_, h⟩) hf
  · rw [Run.modify_eq_ok_iff.1 h]
    exact hc f hf
  · exact absurd h Run.modify_ne_error

theorem seek (index offset : Frame σ → Nat) : Measures (modify fun f : Frame σ =>
    { f with buffer := { f.buffer with readIndex := index f, readOffset := offset f } } :
      BufferM σ PUnit) :=
  update fun _ hf => hf

theorem onArena (op : Arena.ArenaM α) : Measures (BufferM.onArena op : BufferM σ α) := by
  rintro f g (⟨_, h⟩ | ⟨_, h⟩) hf
  · obtain ⟨_, _, rfl⟩ := onArena_eq_ok_iff.1 h
    exact hf
  · unfold BufferM.onArena at h
    split at h
    · cases h
    · cases h
      exact hf

theorem reserve (t : Tag) : Measures (BufferM.reserve t : BufferM σ Nat) := by
  refine look.bind fun _ => check ((onArena _).bind fun _ =>
    check ((update fun f hf => ?_).bind fun _ => pure _))
  rw [Measured, extent_append, extent, extent, Nat.add_zero]
  exact congrArg (· + t.size) hf

theorem append (t : Tag) (bytes : List UInt8) : Measures (BufferM.append t bytes : BufferM σ Unit) :=
  (reserve t).bind fun _ => onArena _

theorem putArray (k : CallKind) (vs : List Value) :
    Measures (BufferM.putArray k vs : BufferM σ Unit) :=
  (reserve _).bind fun _ => onArena _

theorem putValue (v : Value) : Measures (BufferM.putValue v : BufferM σ Unit) := by
  unfold BufferM.putValue
  split
  · exact look.bind fun _ => fail _
  · exact append _ _

theorem putAll (idText : RuntimeType → String) (os : List Offered) :
    Measures (BufferM.putAll idText os : BufferM σ Unit) := by
  unfold BufferM.putAll
  split
  · exact fail _
  · rename_i cs hcs
    clear hcs
    induction cs with
    | nil => exact pure ()
    | cons c cs ih =>
      refine bind ?_ fun _ => ih
      cases c with
      | scalar v => exact putValue v
      | array k bytes count => exact append _ _

theorem nextEntry (k : CallKind) : Measures (BufferM.nextEntry k : BufferM σ (Tag × Nat)) := by
  refine look.bind fun f => ?_
  dsimp only
  split
  · exact fail _
  · exact check ((seek (·.buffer.readIndex + 1) _).bind fun _ => pure _)

theorem getNext (k : CallKind) : Measures (BufferM.getNext k : BufferM σ Value) :=
  (nextEntry k).bind fun _ => look.bind fun _ => check (pure _)

theorem reading (r : Reading) : Measures (r.run : BufferM σ (List Value)) := by
  cases r with
  | rewind => exact (seek (fun _ => 0) fun _ => 0).bind fun _ => pure _
  | next k => exact (getNext k).bind fun _ => pure _
  | array k => exact (nextEntry k).bind fun _ => look.bind fun _ => pure _
  | value i => exact (look.bind fun _ => pure _).bind fun _ => pure _

theorem handling (h : Handling) : Measures h.run := by
  cases h with
  | put v => exact append _ _
  | putValue v => exact putValue v
  | putArray k vs => exact putArray k vs
  | putAll idText os => exact putAll idText os
  | putRaw k bytes => exact append _ _
  | read r => exact (reading r).bind fun _ => pure _

end Measures

variable {b : ArgumentBuffer} {d : Descriptor}

theorem Handled.measured (h : Handled b) : b.Measured := by
  induction h with
  | acquired run =>
    obtain ⟨_, _, rfl, _⟩ := acquire_eq_ok_iff.1 run
    rfl
  | handled h _ run ih => exact Measures.handling h _ _ run ih

theorem extent_map_single (ks : List CallKind) : extent (ks.map Call.single) = sizeOfKinds ks := by
  induction ks with
  | nil => rfl
  | cons k ks ih =>
    rw [List.map_cons, extent, ih, sizeOfKinds]
    exact congrArg (· + _) (Nat.mul_one _)

theorem Measured.size_of_accepted (hb : b.Measured) (h : Call.mismatch? d b.tags = none) :
    b.size = d.argumentsSize := by
  rw [hb, Call.mismatch?_eq_none_iff.1 h, extent_map_single, Descriptor.argumentsSize]

theorem addresses_of_accepted (h : Call.mismatch? d b.tags = none) : b.addresses =
    (List.range d.parameters.length).map fun i => b.base + sizeOfKinds (d.parameters.take i) := by
  rw [addresses, addressesFrom_eq, Call.mismatch?_eq_none_iff.1 h, List.length_map]
  simp only [← List.map_take, extent_map_single]

end ArgumentBuffer

/-! ## Signatures and their buffers -/

theorem sizeOfKinds_eq {ts : List Ty} {ks : List CallKind} (h : List.Forall₂ Ty.Crosses ts ks) :
    sizeOfKinds ks = (ts.map Ty.size).sum := by
  induction h with
  | nil => rfl
  | cons hk _ ih => rw [sizeOfKinds, List.map_cons, List.sum_cons, hk.size_eq, ih]

namespace Descriptor

/-- A type has the layout of a kind. -/
structure Fits (t : Ty) (k : CallKind) : Prop where
  size_eq : t.checkedSize = some k.size
  alignment_eq : t.alignment = k.alignment

/-- A descriptor and the types that it was made of agree. -/
structure Agrees (returns : Ty) (natives : List Ty) (d : Descriptor) : Prop where
  returns_crosses : returns.Crosses d.returns
  returns_fits : Fits returns d.returns
  crosses : List.Forall₂ Ty.Crosses natives d.parameters
  fits : List.Forall₂ Fits natives d.parameters
  size_eq : ∀ b : ArgumentBuffer, b.Handled → Call.mismatch? d b.tags = none →
    b.size = d.argumentsSize
  addresses_eq : ∀ b : ArgumentBuffer, b.Handled → Call.mismatch? d b.tags = none → b.addresses =
    (List.range natives.length).map fun i => b.base + ((natives.take i).map Ty.size).sum

theorem fits_of_crosses {t : Ty} {k : CallKind} (h : t.Crosses k) : Fits t k :=
  ⟨h.checkedSize_eq, h.alignment_eq⟩

/-- Every signature without an array or a struct of its own among the types that cross has a
descriptor, with the kinds of these types in the order of the call; and the buffers that the
descriptor accepts are laid out as the types are. Of other signatures the first such type is told. -/
theorem ofSignature_agrees (s : Signature) :
    let natives := s.dispatch.toList ++ s.contexts ++ s.extension.toList ++ s.parameters
    ((∃ d, ofSignature s = .ok d) ↔ ∀ t ∈ s.returns :: natives, ∀ u, ¬t.Stuck u) ∧
    (∀ before t after u, s.returns :: natives = before ++ t :: after →
      (∀ p ∈ before, ∀ v, ¬p.Stuck v) → t.Stuck u →
      ofSignature s = .error (.unsupportedType u.text)) ∧
    ∀ d, ofSignature s = .ok d → Agrees s.returns natives d := by
  intro natives
  refine ⟨exists_ofTypes_iff, ?_, ?_⟩
  · intro before t after u htypes hb hu
    refine ofTypes_eq_error_iff.2 ?_
    rw [Signature.nativeParameters, htypes]
    exact callKinds_of_stuck hb hu
  · intro d hd
    have hall := callKinds_eq_ok_iff.1 (ofTypes_eq_ok_iff.1 hd)
    obtain ⟨hreturns, hcrosses⟩ := List.forall₂_cons.1 hall
    exact {
      returns_crosses := hreturns
      returns_fits := fits_of_crosses hreturns
      crosses := hcrosses
      fits := hcrosses.imp fun _ _ => fits_of_crosses
      size_eq := fun b hb h => hb.measured.size_of_accepted h
      addresses_eq := by
        intro b _ h
        rw [ArgumentBuffer.addresses_of_accepted h, ← hcrosses.length_eq]
        refine List.map_congr_left fun i _ => ?_
        rw [sizeOfKinds_eq (List.forall₂_take i hcrosses)]
        rfl }

/-- Two receivers and a parameter, and a buffer for them; with a struct among them there is no
descriptor. -/
theorem ofSignature_agrees_receivers :
    let window : Ty := .reference (.ofFull "ui.Window")
    let point : Ty := .struct (.ofFull "geo.Point") [.builtin .int]
    let s : Signature := ⟨.builtin .bool, [.builtin .double], some window,
      some (.cone (.builtin .int) [.star]), []⟩
    let d : Descriptor := ⟨.bool, [.pointer, .int, .double]⟩
    ofSignature s = .ok d ∧
      (∃ b : ArgumentBuffer, b.Handled ∧ Call.mismatch? d b.tags = none ∧ b.size = 20 ∧
        b.addresses = [b.base, b.base + 8, b.base + 12]) ∧
      ofSignature { s with contexts := [.cone point [.star]] } =
        .error (.unsupportedType point.text) := by
  intro window point s d
  have hd : ofSignature s = .ok d := rfl
  have hagrees := (ofSignature_agrees s).2.2 d hd
  let values : List Offered :=
    [⟨.dynamic, .zero .pointer⟩, ⟨.dynamic, .zero .int⟩, ⟨.dynamic, .zero .double⟩]
  let f : Frame Unit := ⟨⟨⟨1048576, 256, 1048576, [1048576], true⟩, .blank⟩,
    ⟨⟨1⟩, 1048576, [], 0, 0, 0⟩, ()⟩
  have hopen : ArgumentBuffer.acquire (Arena.ofCapacity 256) = .ok f.buffer f.arena := rfl
  obtain ⟨_, g, hput, htags⟩ := Run.exists_ok_of_seen (BufferM.putAll (fun _ => "") values) f
    (fun _ g => g.buffer.tags) (b := [⟨.pointer, 1⟩, ⟨.int, 1⟩, ⟨.double, 1⟩]) (by decide +kernel)
  have hb : g.buffer.Handled :=
    .handled (.putAll (fun _ => "") values) (.acquired hopen) (.inl ⟨(), hput⟩)
  have haccepted : Call.mismatch? d g.buffer.tags = none := by
    rw [htags]
    rfl
  have hcrosses : ∀ p ∈ [.builtin .bool, window], ∀ u, ¬p.Stuck u := by
    intro p hp
    rw [← Ty.exists_crosses_iff]
    obtain rfl | rfl := List.mem_pair.1 hp
    · exact ⟨_, .builtin _⟩
    · exact ⟨_, .reference _⟩
  have hstuck : (Ty.cone point [.star]).Stuck point := .cone _ (.struct _ _)
  exact ⟨hd, ⟨g.buffer, hb, haccepted, hagrees.size_eq _ hb haccepted,
    hagrees.addresses_eq _ hb haccepted⟩, (ofSignature_agrees _).2.1 _ _ _ _ rfl hcrosses hstuck⟩

end Descriptor

end NativeBridge
